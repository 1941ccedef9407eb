import RadioSim.Process.Drain
import RadioSim.Process.Wire

/-! # What becomes of the clones

Every item of a subscriber queue is a heap block of its own. Once it is taken it is
with the reader of the queue until that thread frees it, so that by the time the
queue is destroyed all that was taken from it has been freed, once.
-/
namespace RadioSim.Process
open Pubsub Queue

section Clones
variable {P : Type} {t : Tid} {sh sh' : Shared} {op : Op P} {p : P}

theorem cloneItem_token {item clone : Item} {ok : Bool} {h h' : Heap}
    (hstack : ∃ frame content, item.payload = some ⟨.stack frame,content⟩) (hlength : 0 < item.length)
    (hclone : cloneItem item ok h = some (clone,h')) : Item.token clone = some h.next := by
  obtain ⟨frame,content,hpayload⟩ := hstack
  unfold cloneItem at hclone
  simp only [hpayload, hlength, ↓reduceIte] at hclone
  split at hclone
  · cases hclone
    rfl
  · cases hclone

/-- What a delivery adds to a queue is a block of its own. -/
theorem deliver_token {item : Item} {ok : Bool} {r : RingQueue Item} {h : Heap}
    (hstack : ∃ frame content, item.payload = some ⟨.stack frame,content⟩) (hlength : 0 < item.length)
    {x : Item} (hx : x ∈ (deliver item ok r h).2.1.contents) : x ∈ r.contents ∨ ∃ a, Item.token x = some a := by
  unfold deliver at hx
  split at hx
  · exact Or.inl hx
  · rename_i clone h' hclone
    have htoken := cloneItem_token hstack hlength hclone
    have hmem : x ∈ (r.tryEnqueue clone).2.contents → x ∈ r.contents ∨ ∃ a, Item.token x = some a := by
      rw [RingQueue.tryEnqueue_contents]
      intro hx
      split at hx
      · exact Or.inl hx
      · rcases List.mem_append.mp hx with hold | hnew
        · exact Or.inl hold
        · rw [List.mem_singleton.mp hnew]
          exact Or.inr ⟨_,htoken⟩
    generalize r.tryEnqueue clone = e at hx hmem
    obtain ⟨stored,r'⟩ := e
    cases stored
    · dsimp only at hx hmem
      split at hx
      · exact hmem hx
      · split at hx <;> exact hmem hx
    · exact hmem hx

/-- Only enqueues put something else than a new block into a queue. -/
theorem Effect.cloned (h : Effect t sh op p sh') {held : P → Option ℕ} {own : Option ℕ}
    (hmoves : op.Moves held own) {q : QueueId} {x : Item} (hx : x ∈ sh'.contents q)
    (hq : ∀ item k, op ≠ .enqueue q item k ∧ op ≠ .tryEnqueue q item k) :
    x ∈ sh.contents q ∨ ∃ a, Item.token x = some a := by
  rcases h.contents q with ⟨hsame,_⟩ | ⟨offered,item,hoffer,hmore,_⟩ | ⟨_,htail,_⟩ | ⟨_,hnone,_⟩
  · exact Or.inl (hsame ▸ hx)
  · cases h with
    | enqueue q' item' k r hr _ =>
      cases hoffer
      exact absurd rfl (hq _ k).1
    | tryEnqueue q' item' k r hr =>
      cases hoffer
      exact absurd rfl (hq _ k).2
    | deliver q' item' next r hr ok =>
      cases hoffer
      have hnew : x ∈ (Pubsub.deliver offered ok r sh.heap).2.1.contents := by
        rw [← contents_setLive sh q]
        exact hx
      rw [contents_of_ring hr]
      exact deliver_token hmoves.1 hmoves.2.1 hnew
    | _ => cases hoffer
  · rw [htail] at hx
    exact Or.inl (List.mem_of_mem_tail hx)
  · rw [hnone] at hx
    cases hx

/-- A thread that does not enqueue keeps its payload until it frees it. -/
theorem Effect.keeps (h : Effect t sh op p sh') {held : P → Option ℕ} {a : ℕ} (hmoves : op.Moves held (some a))
    (hq : ∀ q item k, op ≠ .enqueue q item k ∧ op ≠ .tryEnqueue q item k) :
    held p = some a ∨ op.releases = some a := by
  cases h with
  | allocated k | notAllocated k => cases hmoves.1
  | dequeue q k r hr _ | tryDequeue q k r hr => cases hmoves.1
  | enqueue q item k r hr _ => exact absurd rfl (hq q item k).1
  | tryEnqueue q item k r hr => exact absurd rfl (hq q item k).2
  | freedNull next => cases hmoves.1
  | freed address next => exact Or.inr hmoves.1.symm
  | deliver q item next r hr ok => exact Or.inl hmoves.2.2
  | _ => first | exact Or.inl hmoves | exact Or.inl (hmoves _)

/-- What a thread takes from a queue it owns. -/
theorem Effect.took (h : Effect t sh op p sh') {held : P → Option ℕ} {own : Option ℕ} (hmoves : op.Moves held own)
    {q : QueueId} (htakes : op.takes = some q) {x : Item} (hx : (sh.contents q).head? = some x) :
    held p = Item.token x := by
  cases h with
  | dequeue q' k r hr _ | tryDequeue q' k r hr =>
    cases htakes
    rw [contents_of_ring hr] at hx
    rw [hx]
    exact hmoves.2.2 x
  | _ => cases htakes

end Clones

section Settlement
variable {W : ℕ} {s s' : System} {t : Tid} {c : Choice} {q : QueueId}

/-- What was taken from a subscriber queue is a block that its reader owns, or that was
freed once. -/
structure Settled (s : System) : Prop where
  stored : ∀ q ≠ .ingest, ∀ x ∈ s.shared.contents q, ∃ a, Item.token x = some a
  taken : ∀ q ≠ .ingest, ∀ x ∈ s.shared.takenFrom q, ∃ a, Item.token x = some a ∧
    (s.shared.heap.frees a = 1 ∨ ∃ u, Reads u q ∧ s.owned u = some a)

/-- What is enqueued goes into the ingest queue, from the producer or a listener. -/
theorem op_enqueues {item : Item} {k : Bool → Pc t} (h : s.op W t = .enqueue q item k ∨ s.op W t = .tryEnqueue q item k) :
    q = .ingest ∧ (t = .producer ∨ ∃ n, t = .listener n) := by
  have hdrain := code_draining W t (s.pcs t)
  rcases h with hop | hop <;> rw [show code W t (s.pcs t) = _ from hop] at hdrain <;> exact hdrain

theorem not_enqueue (hq : q ≠ .ingest) (item : Item) (k : Bool → Pc t) :
    s.op W t ≠ .enqueue q item k ∧ s.op W t ≠ .tryEnqueue q item k :=
  ⟨fun hop => hq (op_enqueues (Or.inl hop)).1,fun hop => hq (op_enqueues (Or.inr hop)).1⟩

theorem reader_keeps {u : Tid} (hreads : Reads u q) (q' : QueueId) (item : Item) (k : Bool → Pc u) :
    s.op W u ≠ .enqueue q' item k ∧ s.op W u ≠ .tryEnqueue q' item k := by
  have hnot : ¬ (u = .producer ∨ ∃ n, u = .listener n) := by
    rintro (rfl | ⟨n,rfl⟩) <;> exact hreads.elim
  exact ⟨fun hop => hnot (op_enqueues (Or.inl hop)).2,fun hop => hnot (op_enqueues (Or.inr hop)).2⟩

/-- A block that was freed, or that a reader owns, is freed or owned by it after a step. -/
theorem step_custodian {a : ℕ} (hsound : s.custody.Sound) (hstep : step W s t c = some s')
    (h : s.shared.heap.frees a = 1 ∨ ∃ u, Reads u q ∧ s.owned u = some a) :
    s'.shared.heap.frees a = 1 ∨ ∃ u, Reads u q ∧ s'.owned u = some a := by
  have hle := (step_sound hsound hstep).frees_le a
  have ha : a < s.shared.heap.next := by
    rcases h with hone | ⟨u,_,howned⟩
    · exact hsound.lt_of_frees (p := a) (by simp [System.custody, custody, hone])
    · exact (hsound.held_fresh howned).1
  obtain ⟨_,p,sh',hexec,rfl⟩ := step_inversion hstep
  have heff := exec_effect hexec
  have hmoves := code_moves W t (s.pcs t)
  change sh'.heap.frees a ≤ 1 at hle
  by_cases hreleases : (s.op W t).releases = some a
  · left
    have hmore := heff.released hreleases
    change sh'.heap.frees a = 1
    omega
  · rcases h with hone | ⟨u,hreads,howned⟩
    · exact Or.inl ((heff.frees_eq ha hreleases).1.trans hone)
    · refine Or.inr ⟨u,hreads,?_⟩
      rw [owned_update]
      by_cases hu : u = t
      · subst hu
        rw [show held u (s.pcs u) = some a from howned] at hmoves
        rw [Function.update_self]
        exact (heff.keeps hmoves (reader_keeps hreads)).resolve_right hreleases
      · rwa [Function.update_of_ne hu]

theorem step_settled (hsound : s.custody.Sound) (h : Settled s) (hstep : step W s t c = some s') : Settled s' := by
  have hcustodian := fun q a => step_custodian (q := q) (a := a) hsound hstep
  have hdrain := code_draining W t (s.pcs t)
  obtain ⟨_,p,sh',hexec,rfl⟩ := step_inversion hstep
  have heff := exec_effect hexec
  have hmoves := code_moves W t (s.pcs t)
  refine ⟨fun q hq x hx => ?_,fun q hq x hx => ?_⟩
  · rcases heff.cloned hmoves hx (not_enqueue hq) with hold | hnew
    · exact h.stored q hq x hold
    · exact hnew
  · have hold : x ∈ s.shared.takenFrom q → ∃ a, Item.token x = some a ∧ (sh'.heap.frees a = 1 ∨
        ∃ u, Reads u q ∧ System.owned ⟨Function.update s.pcs t p,sh'⟩ u = some a) := by
      intro hx
      obtain ⟨a,htoken,ha⟩ := h.taken q hq x hx
      exact ⟨a,htoken,hcustodian q a ha⟩
    rcases heff.contents q with ⟨_,htaken⟩ | ⟨_,_,_,_,htaken,_⟩ | ⟨htakes,_,htaken⟩ | ⟨_,_,htaken⟩
    · exact hold (htaken ▸ hx)
    · exact hold (htaken ▸ hx)
    · have hx : x ∈ sh'.takenFrom q := hx
      rw [htaken, List.mem_append, Option.mem_toList] at hx
      rcases hx with hx | hhead
      · exact hold hx
      · obtain ⟨a,htoken⟩ := h.stored q hq x (List.mem_of_mem_head? hhead)
        refine ⟨a,htoken,Or.inr ⟨t,?_,?_⟩⟩
        · have hreading : Reading t (s.pcs t) q := by
            change (s.op W t).Draining t (s.pcs t) at hdrain
            generalize s.op W t = op at htakes hdrain
            cases op <;> cases htakes <;> exact hdrain
          exact reads_of_reading hreading
        · rw [owned_update, Function.update_self, heff.took hmoves htakes hhead, htoken]
    · exact hold (htaken ▸ hx)

theorem initial_settled : Settled .initial :=
  ⟨fun _ _ x hx => (by cases hx),fun _ _ x hx => (by cases hx)⟩

theorem run_settled (h : Reachable W s) : s.custody.Sound ∧ Settled s :=
  h.invariant (I := fun s => s.custody.Sound ∧ Settled s) ⟨Process.initial_sound,initial_settled⟩
    fun _ _ _ _ hs hstep => ⟨Process.step_sound hs.1 hstep,step_settled hs.1 hs.2 hstep⟩

/-- When a subscriber queue is destroyed its reader has nothing in hand. -/
theorem unowned_at_disposal (hstaffed : Staffed s)
    (hsession : ∀ n, Session (s.pcs .transport) (s.pcs (.listener n)) s.shared n) (hq : q ≠ .ingest)
    (h : Disposing q.owner (s.pcs q.owner) q) {u : Tid} (hreads : Reads u q) : s.owned u = none := by
  have hunattended := unattended_at_disposal hstaffed hsession h
  cases q with
  | ingest => exact absurd rfl hq
  | consumerTelemetry | consumerAlerts =>
    cases u with
    | consumer =>
      have hdone : s.pcs .consumer = .done := not_not.mp hunattended
      unfold System.owned
      rw [hdone]
      rfl
    | _ => exact hreads.elim
  | connTelemetry n | connAlerts n =>
    cases u with
    | transport =>
      obtain ⟨client,hpc,_⟩ := h
      unfold System.owned
      rw [show s.pcs .transport = _ from hpc]
      rfl
    | _ => exact hreads.elim

/-- What was taken from a subscriber queue has been freed once when the queue is destroyed. -/
theorem freed_at_disposal (h : Reachable W s) (hq : q ≠ .ingest) (hdisposing : Disposing q.owner (s.pcs q.owner) q) :
    ∀ x ∈ s.shared.takenFrom q, ∃ a, Item.token x = some a ∧ s.shared.heap.frees a = 1 := by
  intro x hx
  obtain ⟨a,htoken,hfreed | ⟨u,hreads,howned⟩⟩ := (run_settled h).2.taken q hq x hx
  · exact ⟨a,htoken,hfreed⟩
  · rw [unowned_at_disposal (run_staffed h) (run_session h) hq hdisposing hreads] at howned
    cases howned

/-- When a subscriber queue is destroyed, it is empty, that is, every clone that was ever
put into it has been taken out and freed once, exactly if no step puts a clone into
it after its reader has left its loop, and the reader leaves it empty. -/
theorem clones_released_iff {schedule : List (Tid × Choice)} (hrun : run W .initial schedule = some s)
    (hq : q ≠ .ingest) (hdisposing : Disposing q.owner (s.pcs q.owner) q) :
    (s.shared.contents q = [] ↔ s.shared.takenFrom q = received W q .initial schedule ∧
      ∀ x ∈ received W q .initial schedule, ∃ a, Item.token x = some a ∧ s.shared.heap.frees a = 1) ∧
    (s.shared.contents q = [] ↔ ∀ pre t c m m', pre ++ [(t,c)] <+: schedule → run W .initial pre = some m →
      step W m t c = some m' → ¬ Loses q m m') := by
  refine ⟨?_,drained_iff hrun hdisposing⟩
  rw [drained_iff_taken hrun hdisposing]
  refine ⟨fun htaken => ⟨htaken,?_⟩,fun h => h.1⟩
  rw [← htaken]
  exact freed_at_disposal (run_reachable .refl hrun) hq hdisposing

/-- The client hangs up, and the transport thread takes the connection down as far as
the second queue. -/
def hangUp : List (Tid × Choice) :=
  [(.listener 0,.poll (.ready true))] ++ proceed (.listener 0) 2 ++ proceed .transport 7

theorem disposing_of_stage {pc : Transport.Pc} {n : ℕ} (hstage : Transport.stage pc = 14)
    (hconn : Transport.connection pc = some n) : Disposing .transport pc (.connAlerts n) := by
  cases pc with
  | destroyAlerts client => exact ⟨client,rfl,Option.some.inj hconn⟩
  | _ => exact absurd hstage (by simp [Transport.stage])

theorem clones_released_iff_served : ∃ s,
    run Main.workerPoolDefaultSize .initial (alerted ++ [(.transport,.ok)] ++ hangUp) = some s ∧
    Disposing .transport (s.pcs .transport) (.connAlerts 0) ∧ (s.shared.takenFrom (.connAlerts 0)).length = 1 ∧
    ∀ x ∈ s.shared.takenFrom (.connAlerts 0), ∃ a, Item.token x = some a ∧ s.shared.heap.frees a = 1 := by
  have hobserved : (run Main.workerPoolDefaultSize .initial (alerted ++ [(.transport,.ok)] ++ hangUp)).map (fun s =>
      (Transport.stage (s.pcs .transport),Transport.connection (s.pcs .transport),
        (s.shared.contents (.connAlerts 0)).length,(s.shared.takenFrom (.connAlerts 0)).length)) =
      some (14,some 0,0,1) := by decide +kernel
  obtain ⟨s,hrun,hs⟩ := Option.map_eq_some_iff.mp hobserved
  simp only [Prod.mk.injEq] at hs
  have hdisposing := disposing_of_stage hs.1 hs.2.1
  have hempty := List.length_eq_zero_iff.mp hs.2.2.1
  obtain ⟨htaken,hfreed⟩ := (clones_released_iff (q := .connAlerts 0) hrun (by decide) hdisposing).1.mp hempty
  exact ⟨s,hrun,hdisposing,hs.2.2.2,htaken ▸ hfreed⟩

/-- The client triggers an alert and hangs up before the transport thread has looked into
its alerts queue; the queue is destroyed with the clone in it. -/
theorem clones_not_released : ∃ s, run Main.workerPoolDefaultSize .initial
      (startUp ++ connect ++ command (ascii "TRIGGER_ALERT X 1\n") ++ proceed (.listener 0) 3 ++ workerTurn 0 2 ++
        hangUp) = some s ∧
    Disposing .transport (s.pcs .transport) (.connAlerts 0) ∧
    (s.shared.contents (.connAlerts 0)).map Item.token = [some 2] ∧ s.shared.heap.frees 2 = 0 := by
  have hobserved : (run Main.workerPoolDefaultSize .initial
      (startUp ++ connect ++ command (ascii "TRIGGER_ALERT X 1\n") ++ proceed (.listener 0) 3 ++ workerTurn 0 2 ++
        hangUp)).map (fun s =>
      (Transport.stage (s.pcs .transport),Transport.connection (s.pcs .transport),
        (s.shared.contents (.connAlerts 0)).map Item.token,s.shared.heap.frees 2)) =
      some (14,some 0,[some 2],0) := by decide +kernel
  obtain ⟨s,hrun,hs⟩ := Option.map_eq_some_iff.mp hobserved
  simp only [Prod.mk.injEq] at hs
  exact ⟨s,hrun,disposing_of_stage hs.1 hs.2.1,hs.2.2⟩

end Settlement

end RadioSim.Process
