import Mathlib.Algebra.Order.BigOperators.Group.Finset
import RadioSim.Process.Drain
import RadioSim.Process.Receipts

/-! # Resources

What the process has open, allocated or alive at a time. The resources of a
connection are exactly those its program point says, so nothing of a connection
outlives it. A payload that was allocated and not freed is in the hands of a thread,
in a queue, or was in a queue when the queue was destroyed.
-/
namespace RadioSim.Process
open Pubsub Queue

section Routine

def Transport.destroys : Transport.Pc → Option QueueId
  | .destroyTelemetry c => if c.telemetrySub then some (.connTelemetry c.n) else none
  | .destroyAlerts c => if c.alertsSub then some (.connAlerts c.n) else none
  | _ => none

def Transport.closes : Transport.Pc → Option ℕ
  | .close n => some n
  | _ => none

def Transport.ends : Transport.Pc → Option ℕ
  | .endPeer c => some c.n
  | _ => none

theorem Transport.code_destroys {pc : Transport.Pc} {q : QueueId} (h : Transport.destroys pc = some q) :
    ∃ next, Transport.code pc = .queueDestroy q next := by
  cases pc with
  | destroyTelemetry c | destroyAlerts c =>
    simp only [Transport.destroys] at h
    split at h
    · rename_i hsub
      cases h
      exact ⟨_,if_pos hsub⟩
    · cases h
  | _ => cases h

theorem Transport.code_closes {pc : Transport.Pc} {n : ℕ} (h : Transport.closes pc = some n) :
    ∃ next, Transport.code pc = .close n next := by
  cases pc with
  | close m =>
    cases h
    exact ⟨_,rfl⟩
  | _ => cases h

theorem Transport.code_ends {pc : Transport.Pc} {n : ℕ} (h : Transport.ends pc = some n) :
    ∃ next, Transport.code pc = .peerEnd n next := by
  cases pc with
  | endPeer c =>
    cases h
    exact ⟨_,rfl⟩
  | _ => cases h

/-- What the transport thread gives up between two program points is what it destroys,
closes or ends there. -/
structure Transport.Drops (pc p : Transport.Pc) : Prop where
  owns : ∀ q, Owns .transport pc q → Owns .transport p q ∨ Transport.destroys pc = some q
  opens : ∀ n, Opened .transport pc n → Opened .transport p n ∨ Transport.closes pc = some n
  peer : ∀ n, Scoped .transport pc n → Scoped .transport p n ∨ Transport.ends pc = some n

/-- A step within one connection. -/
theorem Transport.Drops.within {pc p : Transport.Pc} {c c' : Transport.Client}
    (hpc : Transport.client pc = some c) (hp : Transport.client p = some c') (hn : c'.n = c.n)
    (htelemetry : c.telemetrySub = true → Transport.stage pc ≤ 13 →
      (c'.telemetrySub = true ∧ Transport.stage p ≤ 13) ∨ Transport.destroys pc = some (.connTelemetry c.n))
    (halerts : c.alertsSub = true → 4 ≤ Transport.stage pc → c'.alertsSub = true ∧ 4 ≤ Transport.stage p)
    (hpeer : 7 ≤ Transport.stage pc → Transport.stage pc ≤ 10 →
      (7 ≤ Transport.stage p ∧ Transport.stage p ≤ 10) ∨ Transport.ends pc = some c.n) :
    Transport.Drops pc p where
  owns q h := by
    cases q with
    | connTelemetry n =>
      obtain ⟨_,hc,rfl,hsub,hstage⟩ := h
      cases hpc.symm.trans hc
      exact (htelemetry hsub hstage).imp_left fun h => ⟨c',hp,hn,h.1,h.2⟩
    | connAlerts n =>
      obtain ⟨_,hc,rfl,hsub,hstage⟩ := h
      cases hpc.symm.trans hc
      exact Or.inl ⟨c',hp,hn,halerts hsub hstage⟩
    | _ => exact h.elim
  opens n h := by
    have hold : Transport.connection pc = some n := h
    rw [Transport.connection_client hpc, ← hn] at hold
    exact Or.inl ((Transport.connection_client hp).trans hold)
  peer n h := by
    obtain ⟨_,hc,rfl,hlow,hhigh⟩ := h
    cases hpc.symm.trans hc
    exact (hpeer hlow hhigh).imp_left fun h => ⟨c',hp,hn,h.1,h.2⟩

/-- Without a client record only the descriptor can be given up. -/
theorem Transport.Drops.bare {pc p : Transport.Pc} (hpc : Transport.client pc = none)
    (hopens : ∀ n, Transport.connection pc = some n →
      Transport.connection p = some n ∨ Transport.closes pc = some n) : Transport.Drops pc p :=
  ⟨fun q h => absurd h (Transport.not_owns hpc q),hopens,fun n h => absurd h (Transport.not_scoped hpc n)⟩

theorem Transport.Follows.drops {pc p : Transport.Pc} (h : Transport.Follows pc p) : Transport.Drops pc p := by
  cases h with
  | stopped | listens | pollFailed | polled | ready | notAccepted | accepted n | done =>
    exact .bare rfl fun n hn => by cases hn
  | shakes | agreed | refused | telemetryCreated => exact .bare rfl fun n hn => Or.inl hn
  | closed => exact .bare rfl fun n hn => Or.inr hn
  | subscribed c c' hc | notSubscribed c c' hc =>
    have hsame : c'.n = c.n ∧ c'.telemetrySub = c.telemetrySub ∧ c'.alertsSub = c.alertsSub := by
      rcases hc with rfl | ⟨_,ok,rfl⟩ <;> exact ⟨rfl,rfl,rfl⟩
    exact .within rfl rfl hsame.1 (fun h _ => Or.inl ⟨hsame.2.1.trans h,by simp [Transport.stage]⟩)
      (fun h _ => ⟨hsame.2.2.trans h,by simp [Transport.stage]⟩) (by simp [Transport.stage])
  | alertsDestroyed c =>
    refine ⟨fun q h => ?_,fun n h => Or.inl h,fun n h => ?_⟩
    · cases q with
      | connTelemetry n =>
        obtain ⟨_,_,_,_,hstage⟩ := h
        exact absurd hstage (by simp [Transport.stage])
      | connAlerts n =>
        obtain ⟨_,hc,rfl,hsub,_⟩ := h
        cases hc
        exact Or.inr (if_pos hsub)
      | _ => exact h.elim
    · obtain ⟨_,_,_,_,hstage⟩ := h
      exact absurd hstage (by simp [Transport.stage])
  | telemetryDestroyed c =>
    exact .within rfl rfl rfl (fun h _ => Or.inr (if_pos h)) (fun h _ => ⟨h,by simp [Transport.stage]⟩)
      (by simp [Transport.stage])
  | alertsCreated c ok =>
    exact .within rfl rfl rfl (fun h _ => Or.inl ⟨h,by simp [Transport.stage]⟩) (by simp [Transport.stage])
      (by simp [Transport.stage])
  | _ =>
    exact .within rfl rfl rfl (fun h _ => Or.inl ⟨h,by simp [Transport.stage]⟩)
      (fun h _ => ⟨h,by simp [Transport.stage]⟩) (by simp [Transport.stage, Transport.ends])

end Routine

section Effects
variable {P : Type} {t : Tid} {sh sh' : Shared} {op : Op P} {p : P} {q : QueueId} {n : ℕ}

/-- A queue is alive because it was before, or because it has been created. -/
theorem Effect.live_before (h : Effect t sh op p sh') (hlive : Live sh' q) :
    (Live sh q ∧ ∀ next, op ≠ .queueDestroy q next) ∨ ∃ k, op = .queueCreate q k ∧ p = k true := by
  have hset : ∀ q' r, Live (sh.setQueue q' (.live r)) q → q = q' ∨ Live sh q := by
    intro q' r hset
    by_cases hq : q = q'
    · exact Or.inl hq
    · exact Or.inr (by rwa [Live, ring_setQueue_of_ne sh hq] at hset)
  cases h with
  | queueCreated q' k =>
    rcases hset q' _ hlive with rfl | hold
    · exact Or.inr ⟨k,rfl,rfl⟩
    · exact Or.inl ⟨hold,fun _ h => by cases h⟩
  | queueDestroyed q' next r hr =>
    by_cases hq : q = q'
    · subst hq
      simp [Live, ring_setQueue] at hlive
    · rw [Live, ring_setQueue_of_ne sh hq] at hlive
      exact Or.inl ⟨hlive,fun next' heq => hq (by cases heq; rfl)⟩
  | queueShutdown q' next r hr | enqueue q' item k r hr | tryEnqueue q' item k r hr | dequeue q' k r hr
  | tryDequeue q' k r hr | deliver q' item next r hr ok =>
    refine Or.inl ⟨?_,fun _ h => by cases h⟩
    rcases hset q' _ hlive with rfl | hold
    · simp [Live, hr]
    · exact hold
  | _ => exact Or.inl ⟨hlive,fun _ h => by cases h⟩

theorem Effect.fdOpen_before (h : Effect t sh op p sh') (hopen : (sh'.conns n).fdOpen = true) :
    ((sh.conns n).fdOpen = true ∧ ∀ next, op ≠ .close n next) ∨ ∃ k, op = .accept k ∧ p = k (some n) := by
  cases h with
  | accepted k =>
    by_cases hn : n = sh.accepted
    · exact Or.inr ⟨k,rfl,by rw [hn]⟩
    · exact Or.inl ⟨by simpa [Shared.setConn, hn] using hopen,fun _ h => by cases h⟩
  | close m next =>
    by_cases hn : n = m
    · subst hn
      simp [Shared.setConn] at hopen
    · refine Or.inl ⟨by simpa [Shared.setConn, hn] using hopen,fun next' heq => hn ?_⟩
      cases heq
      rfl
  | readByte m | wrote m | peerDeclare m | peerClear m | peerEnd m | noteApplied m =>
    rw [field_setConn Conn.fdOpen n (by rfl)] at hopen
    exact Or.inl ⟨hopen,fun _ h => by cases h⟩
  | _ => exact Or.inl ⟨hopen,fun _ h => by cases h⟩

theorem Effect.peer_before (h : Effect t sh op p sh') (hscope : (sh'.conns n).peerInScope = true) :
    ((sh.conns n).peerInScope = true ∧ ∀ next, op ≠ .peerEnd n next) ∨ op = .peerDeclare n p := by
  cases h with
  | peerDeclare m =>
    by_cases hn : n = m
    · exact Or.inr (by rw [hn])
    · exact Or.inl ⟨by simpa [Shared.setConn, hn] using hscope,fun _ h => by cases h⟩
  | accepted k =>
    by_cases hn : n = sh.accepted
    · simp [Shared.setConn, hn] at hscope
    · exact Or.inl ⟨by simpa [Shared.setConn, hn] using hscope,fun _ h => by cases h⟩
  | peerEnd m next =>
    by_cases hn : n = m
    · subst hn
      simp [Shared.setConn] at hscope
    · refine Or.inl ⟨by simpa [Shared.setConn, hn] using hscope,fun next' heq => hn ?_⟩
      cases heq
      rfl
  | readByte m | wrote m | close m | peerClear m | noteApplied m =>
    rw [field_setConn Conn.peerInScope n (by rfl)] at hscope
    exact Or.inl ⟨hscope,fun _ h => by cases h⟩
  | _ => exact Or.inl ⟨hscope,fun _ h => by cases h⟩

end Effects

/-- The resources of connections that exist are known to the transport thread. -/
structure Exact (s : System) : Prop where
  live : ∀ q, q.owner = .transport → Live s.shared q → Owns .transport (s.pcs .transport) q
  opened : ∀ n, (s.shared.conns n).fdOpen = true → Opened .transport (s.pcs .transport) n
  peer : ∀ n, (s.shared.conns n).peerInScope = true → Scoped .transport (s.pcs .transport) n

section Steps
variable {W : ℕ} {s s' : System} {t : Tid} {c : Choice}

theorem step_exact (h : Exact s) (hstep : step W s t c = some s') : Exact s' := by
  obtain ⟨_,p,sh',hexec,rfl⟩ := step_inversion hstep
  have heff := exec_effect hexec
  by_cases ht : .transport = t
  · subst ht
    change Effect .transport s.shared (Transport.code (s.pcs .transport)) p sh' at heff
    have hdrops := heff.follows.drops
    refine ⟨fun q hq hlive => ?_,fun n hopen => ?_,fun n hscope => ?_⟩ <;> simp only [Function.update_self]
    · rcases heff.live_before hlive with ⟨hold,hnot⟩ | ⟨k,hop,rfl⟩
      · refine (hdrops.owns q (h.live q hq hold)).resolve_right fun hdestroys => ?_
        obtain ⟨next,hop⟩ := Transport.code_destroys hdestroys
        exact hnot next hop
      · exact Transport.site_of_code hop
    · rcases heff.fdOpen_before hopen with ⟨hold,hnot⟩ | ⟨k,hop,rfl⟩
      · refine (hdrops.opens n (h.opened n hold)).resolve_right fun hcloses => ?_
        obtain ⟨next,hop⟩ := Transport.code_closes hcloses
        exact hnot next hop
      · exact (Transport.site_of_code hop).2 n
    · rcases heff.peer_before hscope with ⟨hold,hnot⟩ | hop
      · refine (hdrops.peer n (h.peer n hold)).resolve_right fun hends => ?_
        obtain ⟨next,hop⟩ := Transport.code_ends hends
        exact hnot next hop
      · exact Transport.site_of_code hop
  · have hdisciplined := code_disciplined W t (s.pcs t)
    refine ⟨fun q hq hlive => ?_,fun n hopen => ?_,fun n hscope => ?_⟩ <;> simp only [Function.update_of_ne ht]
    · rcases heff.live_before hlive with ⟨hold,_⟩ | ⟨k,hop,_⟩
      · exact h.live q hq hold
      · rw [show code W t (s.pcs t) = _ from hop] at hdisciplined
        exact absurd (hq.symm.trans hdisciplined.1) ht
    · rcases heff.fdOpen_before hopen with ⟨hold,_⟩ | ⟨k,hop,_⟩
      · exact h.opened n hold
      · rw [show code W t (s.pcs t) = _ from hop] at hdisciplined
        exact absurd hdisciplined.1.symm ht
    · rcases heff.peer_before hscope with ⟨hold,_⟩ | hop
      · exact h.peer n hold
      · rw [show code W t (s.pcs t) = _ from hop] at hdisciplined
        exact absurd hdisciplined.1.symm ht

theorem run_exact (h : Reachable W s) : Exact s :=
  h.invariant ⟨fun _ _ hlive => (by cases hlive),fun _ hopen => (by cases hopen),fun _ hscope => (by cases hscope)⟩
    fun _ _ _ _ => step_exact

/-- The resources of the connections, in every reachable state of the process: a
descriptor is open exactly for the connection the transport thread is at, its two queues
are alive exactly between their creation and their destruction, `peer_alive` is in scope
exactly from its declaration to the end of its block, and a command listener runs for
this connection only. So no connection leaves a descriptor, a queue or a listener
behind, and there is at most one connection at a time. -/
theorem connection_resources_exact (h : Reachable W s) :
    (∀ n, (s.shared.conns n).fdOpen = true ↔ Transport.connection (s.pcs .transport) = some n) ∧
    (∀ q, q.owner = .transport → ((s.shared.ring q).isSome = true ↔ Owns .transport (s.pcs .transport) q)) ∧
    (∀ n, (s.shared.conns n).peerInScope = true ↔ Scoped .transport (s.pcs .transport) n) ∧
    (∀ n, s.shared.status (.listener n) = .running → Transport.connection (s.pcs .transport) = some n) ∧
    (Transport.stage (s.pcs .transport) = 0 → (∀ n, (s.shared.conns n).fdOpen = false ∧
        s.shared.status (.listener n) ≠ .running) ∧ ∀ q, q.owner = .transport → s.shared.ring q = none) := by
  have hexact := run_exact h
  have htidy := run_tidy h
  have hlistener : ∀ n, s.shared.status (.listener n) = .running →
      Transport.connection (s.pcs .transport) = some n := by
    intro n hrunning
    obtain ⟨client,hclient,rfl,_⟩ := htidy.listening n hrunning
    exact Transport.connection_client hclient
  refine ⟨fun n => ⟨hexact.opened n,htidy.opened n⟩,fun q hq => ⟨hexact.live q hq,fun h => ?_⟩,
    fun n => ⟨hexact.peer n,htidy.peer n⟩,hlistener,fun hstage => ?_⟩
  · exact htidy.owned .transport q h
  · have hnone : Transport.connection (s.pcs .transport) = none ∧ Transport.client (s.pcs .transport) = none := by
      generalize s.pcs .transport = pc at hstage
      cases pc <;> first | exact ⟨rfl,rfl⟩ | cases hstage
    refine ⟨fun n => ⟨?_,fun hrunning => ?_⟩,fun q hq => ?_⟩
    · by_contra hopen
      have hconn : Transport.connection (s.pcs .transport) = some n := hexact.opened n (by simpa using hopen)
      rw [hnone.1] at hconn
      cases hconn
    · rw [hlistener n hrunning] at hnone
      cases hnone.1
    · by_contra hlive
      exact Transport.not_owns hnone.2 q (hexact.live q hq (Option.isSome_iff_ne_none.mpr hlive))

/-- A client is being served; nothing of an earlier or later connection exists. -/
theorem connection_resources_exact_served : ∃ s, run Main.workerPoolDefaultSize .initial (startUp ++ connect) = some s ∧
    (s.shared.conns 0).fdOpen = true ∧ s.shared.status (.listener 0) = .running ∧
    (∀ n, (s.shared.conns n).fdOpen = true ↔ n = 0) ∧ Live s.shared (.connTelemetry 0) := by
  have hobserved : (run Main.workerPoolDefaultSize .initial (startUp ++ connect)).map (fun s =>
      (Transport.connection (s.pcs .transport),(s.shared.conns 0).fdOpen,decide (s.shared.status (.listener 0) = .running),
        (s.shared.ring (.connTelemetry 0)).isSome)) = some (some 0,true,true,true) := by decide +kernel
  obtain ⟨s,hrun,hs⟩ := Option.map_eq_some_iff.mp hobserved
  simp only [Prod.mk.injEq, decide_eq_true_eq] at hs
  obtain ⟨hconn,hopen,hrunning,hlive⟩ := hs
  have hexact := (connection_resources_exact (run_reachable .refl hrun)).1
  refine ⟨s,hrun,hopen,hrunning,fun n => ?_,hlive⟩
  rw [hexact n, hconn, Option.some.injEq]
  exact eq_comm

end Steps

section Capacity
variable {W : ℕ} {s s' : System} {t : Tid} {c : Choice}

def Capped (sh : Shared) : Prop := ∀ q r, sh.ring q = some r → r.capacity = defaultCapacity

theorem deliver_capacity (item : Item) (ok : Bool) (r : RingQueue Item) (h : Heap) :
    (deliver item ok r h).2.1.capacity = r.capacity := by
  unfold deliver
  split
  · rfl
  · rename_i clone h' _
    have hcapacity := r.tryEnqueue_capacity clone
    generalize r.tryEnqueue clone = e at hcapacity
    obtain ⟨ok,r'⟩ := e
    cases ok
    · dsimp only
      split
      · exact hcapacity
      · split <;> exact hcapacity
    · exact hcapacity

theorem Capped.setQueue {sh : Shared} (h : Capped sh) (q : QueueId) {r : RingQueue Item}
    (hr : r.capacity = defaultCapacity) : Capped (sh.setQueue q (.live r)) := by
  intro q' r' hr'
  rw [ring_setQueue] at hr'
  split at hr'
  · cases hr'
    exact hr
  · exact h q' r' hr'

theorem Effect.capped {P : Type} {sh sh' : Shared} {op : Op P} {p : P} (heff : Effect t sh op p sh') (h : Capped sh) :
    Capped sh' := by
  cases heff with
  | queueCreated q k => exact h.setQueue q rfl
  | queueDestroyed q next r hr =>
    intro q' r' hr'
    rw [ring_setQueue] at hr'
    split at hr'
    · cases hr'
    · exact h q' r' hr'
  | queueShutdown q next r hr => exact h.setQueue q (h q r hr)
  | enqueue q item k r hr | tryEnqueue q item k r hr =>
    exact h.setQueue q ((r.tryEnqueue_capacity item).trans (h q r hr))
  | dequeue q k r hr | tryDequeue q k r hr => exact h.setQueue q (r.tryDequeue_capacity.trans (h q r hr))
  | deliver q item next r hr ok => exact h.setQueue q ((deliver_capacity item ok r sh.heap).trans (h q r hr))
  | _ => exact h

theorem run_capped (h : Reachable W s) : Capped s.shared := by
  refine h.invariant (I := fun s => Capped s.shared) (fun _ _ hr => by cases hr) fun s s' t c hs hstep => ?_
  obtain ⟨_,p,sh',hexec,rfl⟩ := step_inversion hstep
  exact (exec_effect hexec).capped hs

theorem contents_length_le (h : Reachable W s) (q : QueueId) : (s.shared.contents q).length ≤ defaultCapacity := by
  unfold Shared.contents
  cases hr : s.shared.ring q with
  | none => exact Nat.zero_le _
  | some r =>
    have hle := r.wellFormed.size_le
    rw [← contents_length] at hle
    exact hle.trans_eq (run_capped h q r hr)

end Capacity

section Rosters
variable {W : ℕ} {s : System} {t : Tid} {p : ℕ} {q : QueueId}

def System.roster (W : ℕ) (s : System) : Finset Tid :=
  {.main,.producer,.consumer,.transport} ∪ (Finset.range W).image .worker ∪
    (Transport.connection (s.pcs .transport)).toFinset.image .listener

theorem mem_roster (hreach : Reachable W s) (ht : s.shared.status t = .running) : t ∈ s.roster W := by
  cases t with
  | worker i =>
    have hi := (run_enlisted hreach).worker i (by simp [ht])
    simp [System.roster, hi]
  | listener n =>
    obtain ⟨client,hclient,rfl,_⟩ := (run_tidy hreach).listening n ht
    simp [System.roster, Transport.connection_client hclient]
  | _ => simp [System.roster]

end Rosters

section Blocks
variable {W : ℕ} {s s' : System} {t : Tid} {c : Choice} {p : ℕ}

/-- The payloads that a queue takes with it when it is destroyed. -/
def forfeited (W : ℕ) (s : System) (t : Tid) : List ℕ :=
  match s.op W t with
  | .queueDestroy q _ => tokens (s.shared.contents q)
  | _ => []

def lost (W : ℕ) : System → List (Tid × Choice) → List ℕ := record (fun s t _ => forfeited W s t) W

def Shared.outstanding (sh : Shared) : Finset ℕ := (Finset.range sh.heap.next).filter fun p => sh.heap.frees p = 0

end Blocks

end RadioSim.Process
