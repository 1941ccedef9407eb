import RadioSim.Process.Drain
import RadioSim.Process.Pool

/-! # The order of sequence numbers

A worker draws its number and publishes in two critical sections. Whatever is
published meanwhile with a smaller number was in the hand of another worker, so
that a message is overtaken by few. What a subscriber gets is in the order of the
publishes, since the registry is locked for a whole fan-out.
-/
namespace RadioSim.Process
open Pubsub Queue WorkPool

section Numbers

def Worker.drawn : Worker.Pc → Option UInt32
  | .time _ seq | .read _ seq _ | .publish _ seq _ => some seq
  | _ => none

def Worker.publication : Worker.Pc → List Item
  | .publish raw seq ts => [pubItem raw seq ts]
  | _ => []

def Worker.draw (next : UInt32) : Worker.Pc → List UInt32
  | .sequence _ => [next]
  | _ => []

def System.publication (s : System) : Tid → List Item
  | .worker i => Worker.publication (s.pcs (.worker i))
  | _ => []

theorem publication_worker (s : System) (i : ℕ) :
    s.publication (.worker i) = Worker.publication (s.pcs (.worker i)) := rfl

def System.draw (s : System) : Tid → List UInt32
  | .worker i => Worker.draw s.shared.nextSeq (s.pcs (.worker i))
  | _ => []

def published (W : ℕ) : System → List (Tid × Choice) → List Item := record (fun s t _ => s.publication t) W

def draws (W : ℕ) : System → List (Tid × Choice) → List UInt32 := record (fun s t _ => s.draw t) W

def System.hand (s : System) (i : ℕ) : Option ℕ := (Worker.drawn (s.pcs (.worker i))).map UInt32.toNat

variable {W : ℕ} {s s' : System} {t : Tid} {c : Choice} {sh sh' : Shared}

def Op.counts {P : Type} : Op P → Bool
  | .nextSequence _ => true
  | _ => false

theorem Effect.nextSeq {P : Type} {op : Op P} {p : P} (h : Effect t sh op p sh') (hop : op.counts = false) :
    sh'.nextSeq = sh.nextSeq := by
  cases h with
  | nextSequence k => cases hop
  | _ => rfl

/-- Only workers draw numbers. -/
theorem code_counts (t : Tid) (pc : Pc t) (ht : ∀ i, t ≠ .worker i) : (code W t pc).counts = false := by
  cases t with
  | main =>
    change (Main.code W pc).counts = false
    cases pc <;> simp only [Main.code] <;> first | rfl | (split <;> rfl)
  | producer =>
    change (Producer.code pc).counts = false
    cases pc <;> simp only [Producer.code] <;> first | rfl | (split <;> rfl)
  | worker i => exact absurd rfl (ht i)
  | consumer =>
    change (Consumer.code pc).counts = false
    cases pc <;> rfl
  | transport =>
    change (Transport.code pc).counts = false
    cases pc with
    | handshake n hs =>
      rcases Transport.handshake_op n hs with ⟨_,hop,_⟩ | ⟨_,_,hop,_⟩ | ⟨_,hop,_⟩ <;> rw [hop] <;> rfl
    | _ =>
      simp only [Transport.code, writeAll]
      first | rfl | (split <;> rfl)
  | listener n =>
    change (Command.code n pc).counts = false
    cases pc <;> simp only [Command.code] <;> first | rfl | (split <;> rfl)

/-- A worker's step draws a number, publishes the one it has, or neither. -/
theorem worker_turn {i : ℕ} {pc p : Worker.Pc} (h : Effect (.worker i) sh (Worker.code pc) p sh') :
    (∃ raw, pc = .sequence raw ∧ Worker.drawn p = some sh.nextSeq ∧ sh'.nextSeq = sh.nextSeq + 1) ∨
    (∃ raw seq ts, pc = .publish raw seq ts ∧ Worker.drawn p = none ∧ sh'.nextSeq = sh.nextSeq) ∨
    (Worker.drawn p = Worker.drawn pc ∧ Worker.publication pc = [] ∧ Worker.draw sh.nextSeq pc = [] ∧
      sh'.nextSeq = sh.nextSeq) := by
  cases pc with
  | sequence raw =>
    cases h
    exact Or.inl ⟨raw,rfl,rfl,rfl⟩
  | publish raw seq ts =>
    refine Or.inr (Or.inl ⟨raw,seq,ts,rfl,?_,h.nextSeq rfl⟩)
    apply h.all (I := fun p => Worker.drawn p = none)
    intro subscribers
    cases subscribers <;> rfl
  | dequeue =>
    refine Or.inr (Or.inr ⟨?_,rfl,rfl,h.nextSeq rfl⟩)
    apply h.all (I := fun p => Worker.drawn p = none)
    intro item
    cases item <;> rfl
  | time raw seq =>
    refine Or.inr (Or.inr ⟨?_,rfl,rfl,h.nextSeq rfl⟩)
    apply h.all (I := fun p => Worker.drawn p = some seq)
    exact fun _ => rfl
  | fanOut raw seq ts subscribers =>
    refine Or.inr (Or.inr ⟨?_,rfl,rfl,?_⟩)
    · apply h.all (I := fun p => Worker.drawn p = none)
      cases subscribers <;> rfl
    · apply h.nextSeq
      cases subscribers <;> rfl
  | read raw seq ts =>
    refine Or.inr (Or.inr ⟨?_,rfl,rfl,h.nextSeq rfl⟩)
    exact h.all (I := fun p => Worker.drawn p = some seq) rfl
  | release raw | done =>
    refine Or.inr (Or.inr ⟨?_,rfl,rfl,h.nextSeq rfl⟩)
    exact h.all (I := fun p => Worker.drawn p = none) rfl

/-- The numbers in hand and those of the published messages, after `drawn` draws. -/
structure Numbered (W : ℕ) (s : System) (drawn : ℕ) (log : List UInt32) : Prop where
  nextSeq : s.shared.nextSeq = UInt32.ofNat (drawn + 1)
  hand_le : ∀ i seq, Worker.drawn (s.pcs (.worker i)) = some seq → seq.toNat ≤ drawn
  log_le : ∀ seq ∈ log, seq.toNat ≤ drawn
  ordered : Ordered W s.hand (log.map UInt32.toNat)

theorem hand_update (s : System) (i : ℕ) (p : Worker.Pc) (sh' : Shared) :
    System.hand ⟨Function.update s.pcs (.worker i) p,sh'⟩ =
      Function.update s.hand i ((Worker.drawn p).map UInt32.toNat) := by
  funext k
  unfold System.hand
  rcases eq_or_ne k i with rfl | hne
  · simp
  · simp [hne]

theorem worker_update (s : System) (i k : ℕ) (p : Worker.Pc) (sh' : Shared) {seq : UInt32}
    (h : Worker.drawn (System.pcs ⟨Function.update s.pcs (.worker i) p,sh'⟩ (.worker k)) = some seq) :
    (k = i ∧ Worker.drawn p = some seq) ∨ Worker.drawn (s.pcs (.worker k)) = some seq := by
  rcases eq_or_ne k i with rfl | hne
  · simp only [Function.update_self] at h
    exact Or.inl ⟨rfl,h⟩
  · simp only [ne_eq, Tid.worker.injEq, hne, not_false_eq_true, Function.update_of_ne] at h
    exact Or.inr h

section
variable {drawn i : ℕ} {log : List UInt32} {p : Worker.Pc} {seq : UInt32}

theorem Numbered.congr (h : Numbered W s drawn log) (hseq : s'.shared.nextSeq = s.shared.nextSeq)
    (hdrawn : ∀ k, Worker.drawn (s'.pcs (.worker k)) = Worker.drawn (s.pcs (.worker k))) : Numbered W s' drawn log := by
  refine ⟨hseq.trans h.nextSeq,fun k seq hk => h.hand_le k seq ((hdrawn k).symm.trans hk),h.log_le,?_⟩
  have hhand : s'.hand = s.hand := by
    funext k
    exact congrArg (Option.map UInt32.toNat) (hdrawn k)
  rw [hhand]
  exact h.ordered

theorem Numbered.issue (h : Numbered W s drawn log) (hdrawn : Worker.drawn p = some s.shared.nextSeq)
    (hseq : sh'.nextSeq = s.shared.nextSeq + 1) (hrange : drawn + 1 < 2 ^ 32) :
    Numbered W ⟨Function.update s.pcs (.worker i) p,sh'⟩ (drawn + 1) log := by
  have hnext : s.shared.nextSeq.toNat = drawn + 1 := by
    rw [h.nextSeq, UInt32.toNat_ofNat', Nat.mod_eq_of_lt hrange]
  refine ⟨?_,fun k seq hk => ?_,fun seq hmem => (h.log_le seq hmem).trans (Nat.le_succ _),?_⟩
  · change sh'.nextSeq = _
    rw [hseq, h.nextSeq, UInt32.ofNat_add (drawn + 1) 1]
    rfl
  · rcases worker_update s i k p sh' hk with ⟨rfl,hp⟩ | hold
    · rw [hdrawn] at hp
      cases hp
      exact hnext.le
    · exact (h.hand_le k seq hold).trans (Nat.le_succ _)
  · rw [hand_update, hdrawn, Option.map_some, hnext]
    refine h.ordered.issue fun d hd => ?_
    obtain ⟨seq,hmem,rfl⟩ := List.mem_map.mp hd
    exact Nat.lt_succ_of_le (h.log_le seq hmem)

theorem Numbered.publish (h : Numbered W s drawn log) (hi : i < W)
    (hown : Worker.drawn (s.pcs (.worker i)) = some seq) (hdrawn : Worker.drawn p = none)
    (hseq : sh'.nextSeq = s.shared.nextSeq) :
    Numbered W ⟨Function.update s.pcs (.worker i) p,sh'⟩ drawn (log ++ [seq]) := by
  refine ⟨hseq.trans h.nextSeq,fun k seq' hk => ?_,fun seq' hmem => ?_,?_⟩
  · rcases worker_update s i k p sh' hk with ⟨rfl,hp⟩ | hold
    · rw [hdrawn] at hp
      cases hp
    · exact h.hand_le k seq' hold
  · rcases List.mem_append.mp hmem with hold | hnew
    · exact h.log_le seq' hold
    · rw [List.mem_singleton.mp hnew]
      exact h.hand_le i seq hown
  · rw [hand_update, hdrawn, List.map_append, Option.map_none]
    refine h.ordered.record hi ?_
    unfold System.hand
    rw [hown, Option.map_some]

end

theorem step_numbered {drawn : ℕ} {log : List UInt32} (henlisted : Enlisted W s) (h : Numbered W s drawn log)
    (hstep : step W s t c = some s') (hrange : drawn + (s.draw t).length < 2 ^ 32) :
    Numbered W s' (drawn + (s.draw t).length) (log ++ (s.publication t).map MsgItem.id) := by
  obtain ⟨hrunning,p,sh',hexec,rfl⟩ := step_inversion hstep
  have heff := exec_effect hexec
  by_cases ht : ∀ i, t ≠ .worker i
  · have hidle : s.draw t = [] ∧ s.publication t = [] := by
      cases t <;> first | exact ⟨rfl,rfl⟩ | exact absurd rfl (ht _)
    rw [hidle.1, hidle.2, List.map_nil, List.append_nil]
    refine h.congr (heff.nextSeq (code_counts t _ ht)) fun k => ?_
    exact congrArg Worker.drawn (Function.update_of_ne (Ne.symm (ht k)) ..)
  · push Not at ht
    obtain ⟨i,rfl⟩ := ht
    change Effect _ _ (Worker.code (s.pcs (.worker i))) _ _ at heff
    simp only [System.draw, System.publication] at hrange ⊢
    rcases worker_turn heff with ⟨raw,hpc,hdrawn,hseq⟩ | ⟨raw,seq,ts,hpc,hdrawn,hseq⟩ | ⟨hdrawn,hpub,hdraw,hseq⟩
    · rw [hpc] at hrange ⊢
      simp only [Worker.draw, Worker.publication, List.length_singleton, List.map_nil, List.append_nil] at hrange ⊢
      exact h.issue hdrawn hseq hrange
    · have hown : Worker.drawn (s.pcs (.worker i)) = some seq := by rw [hpc]; rfl
      rw [hpc]
      simp only [Worker.draw, Worker.publication, List.length_nil, Nat.add_zero, List.map_cons, List.map_nil,
        pubItem_id]
      exact h.publish (henlisted.worker i (by simp [hrunning.2])) hown hdrawn hseq
    · rw [hpub, hdraw, List.map_nil, List.append_nil, List.length_nil, Nat.add_zero]
      refine h.congr hseq fun k => ?_
      rcases eq_or_ne k i with rfl | hne
      · simpa only [Function.update_self] using hdrawn
      · simp only [ne_eq, Tid.worker.injEq, hne, not_false_eq_true, Function.update_of_ne]

theorem initial_numbered : Numbered W .initial 0 [] :=
  ⟨rfl,nofun,nofun,Ordered.start⟩

/-- The numbers along a run with fewer than `2 ^ 32` draws. -/
theorem run_numbered {schedule : List (Tid × Choice)} (hrun : run W .initial schedule = some s)
    (hdraws : (draws W .initial schedule).length < 2 ^ 32) :
    Numbered W s (draws W .initial schedule).length ((published W .initial schedule).map MsgItem.id) := by
  refine run_induction (I := fun pre s => (draws W .initial pre).length < 2 ^ 32 →
    Numbered W s (draws W .initial pre).length ((published W .initial pre).map MsgItem.id))
    (fun _ => initial_numbered) (fun pre m t c m' hm hstep ih hlt => ?_) hrun hdraws
  have hdraw : draws W .initial (pre ++ [(t,c)]) = draws W .initial pre ++ m.draw t := record_concat hm hstep
  have hpub : published W .initial (pre ++ [(t,c)]) = published W .initial pre ++ m.publication t :=
    record_concat hm hstep
  rw [hdraw, List.length_append] at hlt ⊢
  rw [hpub, List.map_append]
  exact step_numbered (run_enlisted (run_reachable .refl hm)) (ih (by omega)) hstep hlt

end Numbers

section Delivery
variable {W : ℕ} {s s' : System} {t : Tid} {c : Choice} {q : QueueId}

/-- What a step adds to a subscriber queue is the message of the fan-out it is a turn of. -/
theorem gained_turn (hq : q ≠ .ingest) (hstep : step W s t c = some s') :
    gained q s s' = [] ∨ ∃ i raw seq ts rest item, t = .worker i ∧
      s.pcs (.worker i) = .fanOut raw seq ts (q :: rest) ∧ gained q s s' = [item] ∧ item.id = seq := by
  obtain ⟨_,p,sh',hexec,rfl⟩ := step_inversion hstep
  rcases (exec_effect hexec).contents q with ⟨hsame,_⟩ | ⟨offered,item,hoffer,hmore,_,hview⟩ | ⟨_,htail,_⟩ | ⟨_,hnone,_⟩
  · exact Or.inl (by simp [gained, hsame])
  · right
    have hgained : gained q s ⟨Function.update s.pcs t p,sh'⟩ = [item] := by simp [gained, hmore]
    have hid : item.id = offered.id := congrArg View.id hview
    have hoffering : Offering t (s.pcs t) q offered := code_offering hoffer
    generalize hpc : s.pcs t = pc at hoffering
    cases hoffering with
    | published i raw seq ts _ rest =>
      exact ⟨i,raw,seq,ts,rest,item,rfl,hpc,hgained,hid.trans (pubItem_id raw seq ts)⟩
    | _ => exact absurd rfl hq
  · exact Or.inl (List.drop_eq_nil_of_le (by simp [htail]))
  · exact Or.inl (by simp [gained, hnone])

/-- Every subscriber queue has got a part of what was published, in order; during a
fan-out the last message is still to come for the subscribers that are left. -/
structure Dispatched (s : System) (log : List UInt32) (received : QueueId → List Item) : Prop where
  inOrder : ∀ q ≠ .ingest, List.Sublist ((received q).map MsgItem.id) log
  pending : ∀ i raw seq ts subscribers, s.pcs (.worker i) = .fanOut raw seq ts subscribers → subscribers.Nodup ∧
    ∃ earlier, log = earlier ++ [seq] ∧ ∀ q ∈ subscribers, List.Sublist ((received q).map MsgItem.id) earlier

theorem Tidy.subscribed_ne (htidy : Tidy s) {subscribers : List QueueId} (h : remaining t (s.pcs t) = some subscribers)
    (hq : q ∈ subscribers) : q ≠ .ingest := by
  rintro rfl
  exact (htidy.held .ingest ((htidy.fanOut t subscribers h).2 .ingest hq)).2

/-- While one worker is in its fan-out, no other thread publishes or delivers. -/
theorem fanOut_exclusive (htidy : Tidy s) (hstep : step W s t c = some s') {i : ℕ} (hi : t ≠ .worker i)
    {subscribers : List QueueId} (hfan : remaining (.worker i) (s.pcs (.worker i)) = some subscribers) :
    s.publication t = [] ∧ ∀ q ≠ .ingest, gained q s s' = [] := by
  have hlock := (htidy.fanOut (.worker i) subscribers hfan).1
  constructor
  · obtain ⟨_,p,sh',hexec,rfl⟩ := step_inversion hstep
    have heff := exec_effect hexec
    cases t with
    | worker k =>
      change Worker.publication (s.pcs (.worker k)) = []
      change Effect _ _ (Worker.code (s.pcs (.worker k))) _ _ at heff
      cases hpc : s.pcs (.worker k) with
      | publish raw seq ts =>
        rw [hpc] at heff
        cases heff with
        | publishNone _ _ _ hnone | publishBegin _ _ _ hnone =>
          rw [hlock] at hnone
          cases hnone
      | _ => rfl
    | _ => rfl
  · intro q hq
    rcases gained_turn hq hstep with hnone | ⟨k,raw,seq,ts,rest,item,rfl,hpc,_⟩
    · exact hnone
    · have hlock' := (htidy.fanOut (.worker k) (q :: rest) (by rw [hpc]; rfl)).1
      exact absurd (Option.some.inj (hlock'.symm.trans hlock)) hi

/-- How a worker comes to be in a fan-out. -/
theorem fanOut_before {sh sh' : Shared} {i : ℕ} {pc : Worker.Pc} {raw : Item} {seq : UInt32} {ts : Int64}
    {subscribers : List QueueId} (h : Effect (.worker i) sh (Worker.code pc) (.fanOut raw seq ts subscribers) sh') :
    (pc = .publish raw seq ts ∧ ∃ l, findOrCreateTopic sh.registry (Worker.topicOf raw.type) = some l ∧
      subscribers = l.entry.subscribers) ∨
    ∃ q, pc = .fanOut raw seq ts (q :: subscribers) := by
  cases pc with
  | publish raw' seq' ts' =>
    generalize hp : Worker.Pc.fanOut raw seq ts subscribers = p at h
    cases h with
    | publishNone => cases hp
    | publishBegin _ _ _ _ l hl =>
      cases hp
      exact Or.inl ⟨rfl,l,hl,rfl⟩
  | fanOut raw' seq' ts' rest =>
    cases rest with
    | nil => cases h
    | cons q rest =>
      cases h
      exact Or.inr ⟨q,rfl⟩
  | dequeue =>
    generalize hp : Worker.Pc.fanOut raw seq ts subscribers = p at h
    cases h with
    | dequeue _ _ r hr _ =>
      cases hhead : r.contents.head? <;> rw [hhead] at hp <;> cases hp
  | read raw' seq' ts' =>
    have hnot := h.all (I := fun p => p = .publish raw' seq' ts') rfl
    cases hnot
  | release raw' =>
    have hnot := h.all (I := fun p => p = .dequeue) rfl
    cases hnot
  | sequence raw' | time raw' seq' | done => cases h

theorem step_dispatched {log : List UInt32} {received : QueueId → List Item} (htidy : Tidy s)
    (h : Dispatched s log received) (hstep : step W s t c = some s') :
    Dispatched s' (log ++ (s.publication t).map MsgItem.id) fun q => received q ++ gained q s s' := by
  have hturn := fun (q : QueueId) (hq : q ≠ .ingest) => gained_turn hq hstep
  refine ⟨fun q hq => ?_,fun k raw seq ts subscribers hpc => ?_⟩
  · rcases hturn q hq with hnone | ⟨i,raw,seq,ts,rest,item,rfl,hpc,hgained,hid⟩
    · rw [hnone, List.append_nil]
      exact (h.inOrder q hq).trans (List.sublist_append_left ..)
    · obtain ⟨_,earlier,rfl,hearlier⟩ := h.pending i raw seq ts (q :: rest) hpc
      have hpublication : s.publication (.worker i) = [] := by
        rw [publication_worker, hpc]
        rfl
      rw [hgained, hpublication, List.map_nil, List.append_nil, List.map_append, List.map_singleton, hid]
      exact (hearlier q List.mem_cons_self).append (List.Sublist.refl [seq])
  · have hne : ∀ q ∈ subscribers, q ≠ .ingest := fun q hq =>
      (step_tidy htidy hstep).subscribed_ne (t := .worker k) (by rw [hpc]; rfl) hq
    -- the worker of the fan-out starts it or makes a turn of it; meanwhile all others are kept out by the mutex
    by_cases hk : t = .worker k
    · subst hk
      obtain ⟨_,p,sh',hexec,rfl⟩ := step_inversion hstep
      have heff := exec_effect hexec
      change Effect _ _ (Worker.code (s.pcs (.worker k))) _ _ at heff
      simp only [Function.update_self] at hpc
      subst hpc
      rcases fanOut_before heff with ⟨hpc,l,hl,rfl⟩ | ⟨q₀,hpc⟩
      · have hpublication : (s.publication (.worker k)).map MsgItem.id = [seq] := by
          rw [publication_worker, hpc]
          simp [Worker.publication, pubItem_id]
        have htopic : Worker.topicOf raw.type = topicTelemetry ∨ Worker.topicOf raw.type = topicAlerts := by
          cases raw.type
          · exact Or.inl rfl
          · exact Or.inr rfl
        have hspec := findOrCreateTopic_spec htidy.housed.valid (topic_short htopic)
        simp only [hl] at hspec
        refine ⟨?_,log,by rw [hpublication],fun q hq => ?_⟩
        · rw [hspec.2.subscribers_eq]
          exact htidy.housed.valid.subscribersOf_nodup _
        · rcases hturn q (hne q hq) with hnone | ⟨i,_,_,_,_,_,heq,hfan,_⟩
          · rw [hnone, List.append_nil]
            exact h.inOrder q (hne q hq)
          · cases heq
            rw [hpc] at hfan
            cases hfan
      · obtain ⟨hnodup,earlier,rfl,hearlier⟩ := h.pending k raw seq ts (q₀ :: subscribers) hpc
        have hpublication : s.publication (.worker k) = [] := by
          rw [publication_worker, hpc]
          rfl
        rw [hpublication, List.map_nil, List.append_nil]
        refine ⟨hnodup.of_cons,earlier,rfl,fun q hq => ?_⟩
        rcases hturn q (hne q hq) with hnone | ⟨i,_,_,_,_,_,heq,hfan,_⟩
        · rw [hnone, List.append_nil]
          exact hearlier q (List.mem_cons_of_mem q₀ hq)
        · cases heq
          rw [hpc] at hfan
          cases hfan
          exact absurd hq (List.nodup_cons.mp hnodup).1
    · have hsame : s.pcs (.worker k) = .fanOut raw seq ts subscribers := by
        obtain ⟨_,p,sh',_,rfl⟩ := step_inversion hstep
        simpa only [ne_eq, Ne.symm hk, not_false_eq_true, Function.update_of_ne] using hpc
      obtain ⟨hpublication,hgained⟩ := fanOut_exclusive htidy hstep hk (by rw [hsame]; rfl)
      obtain ⟨hnodup,earlier,hlog,hearlier⟩ := h.pending k raw seq ts subscribers hsame
      rw [hpublication, List.map_nil, List.append_nil]
      refine ⟨hnodup,earlier,hlog,fun q hq => ?_⟩
      rw [hgained q (hne q hq), List.append_nil]
      exact hearlier q hq

theorem run_dispatched {schedule : List (Tid × Choice)} (hrun : run W .initial schedule = some s) :
    Dispatched s ((published W .initial schedule).map MsgItem.id) fun q => received W q .initial schedule := by
  refine run_induction (I := fun pre s => Dispatched s ((published W .initial pre).map MsgItem.id) fun q =>
    received W q .initial pre) ⟨fun _ _ => List.nil_sublist _,nofun⟩ (fun pre m t c m' hm hstep ih => ?_) hrun
  have hpub : published W .initial (pre ++ [(t,c)]) = published W .initial pre ++ m.publication t :=
    record_concat hm hstep
  have hreceived : ∀ q, received W q .initial (pre ++ [(t,c)]) = received W q .initial pre ++ gained q m m' :=
    fun q => record_concat hm hstep
  rw [hpub, List.map_append]
  simp only [hreceived]
  exact step_dispatched (run_tidy (run_reachable .refl hm)) ih hstep

/-- What was taken from a queue was accepted by it, in that order. -/
theorem taken_sublist {schedule : List (Tid × Choice)} (hrun : run W .initial schedule = some s) (q : QueueId) :
    List.Sublist (s.shared.takenFrom q ++ s.shared.contents q) (received W q .initial schedule) := by
  refine run_induction (I := fun pre s => List.Sublist (s.shared.takenFrom q ++ s.shared.contents q)
    (received W q .initial pre)) (List.nil_sublist _) (fun pre m t c m' hm hstep ih => ?_) hrun
  have hreceived : received W q .initial (pre ++ [(t,c)]) = received W q .initial pre ++ gained q m m' :=
    record_concat hm hstep
  rw [hreceived]
  obtain ⟨_,p,sh',hexec,rfl⟩ := step_inversion hstep
  rcases (exec_effect hexec).contents q with ⟨hsame,htaken⟩ | ⟨_,item,_,hmore,htaken,_⟩ | ⟨_,htail,htaken⟩ |
    ⟨_,hnone,htaken⟩
  · rw [hsame, htaken]
    exact ih.trans (List.sublist_append_left ..)
  · have hgained : gained q m ⟨Function.update m.pcs t p,sh'⟩ = [item] := by simp [gained, hmore]
    rw [hmore, htaken, hgained, ← List.append_assoc]
    exact ih.append (List.Sublist.refl [item])
  · rw [htail, htaken, List.append_assoc]
    refine List.Sublist.trans ?_ (ih.trans (List.sublist_append_left ..))
    cases m.shared.contents q <;> exact List.Sublist.refl _
  · rw [hnone, htaken, List.append_nil]
    exact ((List.sublist_append_left ..).trans ih).trans (List.sublist_append_left ..)

/-- Reordering is bounded. In a run with fewer than `2 ^ 32` sequence draws, at most
`W - 1` of the messages published after a message have a smaller number, every
subscriber queue gets a part of the published messages in their order, and with one
worker a subscriber sees its numbers strictly increase. -/
theorem reordering_bounded {schedule : List (Tid × Choice)} (hrun : run W .initial schedule = some s)
    (hdraws : (draws W .initial schedule).length < 2 ^ 32) :
    (∀ before m after, published W .initial schedule = before ++ m :: after →
      (after.countP fun x => x.id < m.id) ≤ W - 1) ∧
    (∀ q ≠ .ingest, List.Sublist ((received W q .initial schedule).map MsgItem.id)
      ((published W .initial schedule).map MsgItem.id)) ∧
    (W = 1 → ∀ q ≠ .ingest, ((s.shared.takenFrom q).map MsgItem.id).Pairwise (· < ·)) := by
  have hordered := (run_numbered hrun hdraws).ordered
  have hdispatched := run_dispatched hrun
  refine ⟨fun before m after hlog => ?_,hdispatched.inOrder,?_⟩
  · rw [hlog] at hordered
    simp only [List.map_append, List.map_cons, List.map_map] at hordered
    refine le_trans ?_ (hordered.later_le rfl)
    rw [List.countP_map]
    refine List.countP_mono_left fun x _ hx => ?_
    simp only [decide_eq_true_eq] at hx
    simp only [Function.comp_apply, decide_eq_true_eq]
    exact le_of_lt hx
  · rintro rfl q hq
    have hincreasing := List.pairwise_map.mp hordered.increasing
    have htaken := (List.sublist_append_left ..).trans (taken_sublist hrun q)
    exact hincreasing.sublist ((htaken.map MsgItem.id).trans (hdispatched.inOrder q hq))

/-- A reading and a triggered alert go through two workers; the second one publishes first. -/
def overtaken : List (Tid × Choice) :=
  startUp ++ connect ++ proceed .producer 3 ++ command (ascii "TRIGGER_ALERT X 1\n") ++ proceed (.listener 0) 3 ++
    proceed (.worker 0) 2 ++ workerTurn 1 2 ++ [(.worker 0,.clock 0)] ++ proceed (.worker 0) 6

theorem reordering_bounded_overtaken : ∃ s m m', run Main.workerPoolDefaultSize .initial overtaken = some s ∧
    published Main.workerPoolDefaultSize .initial overtaken = [m,m'] ∧ m'.id < m.id ∧
    ([m'].countP fun x => x.id < m.id) ≤ Main.workerPoolDefaultSize - 1 := by
  have hobserved : (run Main.workerPoolDefaultSize .initial overtaken).isSome = true ∧
      (published Main.workerPoolDefaultSize .initial overtaken).map MsgItem.id = [2,1] ∧
      (draws Main.workerPoolDefaultSize .initial overtaken).length = 2 := by decide +kernel
  obtain ⟨hrun,hpublished,hdraws⟩ := hobserved
  obtain ⟨s,hrun⟩ := Option.isSome_iff_exists.mp hrun
  obtain ⟨m,rest,hm,hid,hrest⟩ := List.map_eq_cons_iff.mp hpublished
  obtain ⟨m',none,hm',hid',hnone⟩ := List.map_eq_cons_iff.mp hrest
  rw [hm', List.map_eq_nil_iff.mp hnone] at hm
  refine ⟨s,m,m',hrun,hm,by rw [hid, hid']; decide,?_⟩
  exact (reordering_bounded hrun (by rw [hdraws]; decide)).1 [] m [m'] hm

end Delivery

end RadioSim.Process
