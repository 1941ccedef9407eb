import RadioSim.Process.Termination

/-! # The exit of the process

After the shutdown has been requested the process and its clients can take only so many
steps as the bytes that the clients send pay for. A run that cannot go on has exited,
or leaves the transport thread in a call that its client blocks.
-/
namespace RadioSim.Process
open Pubsub Queue

namespace World

def pending (w : World) : ℕ := ∑ n ∈ Finset.range w.connected, (w.unread n).length

def potential (W : ℕ) (w : World) : ℕ := w.system.potential W + 40 * w.pending

end World

def Event.steps : Event → ℕ
  | .server _ _ => 1
  | _ => 0

/-- What an event brings: the bytes sent by a client, and the interruption of a call. -/
def Event.supply : Event → ℕ
  | .server _ (.read .eintr) | .server _ (.poll .eintr) | .server _ (.write .eintr) => 2
  | .send _ bytes => 40 * bytes.length
  | _ => 0

/-- An interrupted call is made again. -/
def Op.interrupted {P : Type} : Op P → Choice → ℕ
  | .poll _, .poll .eintr | .sockRead _ _, .read .eintr | .sockWrite _ _ _, .write .eintr => 2
  | _, _ => 0

/-- Nothing is read from a connection before it is accepted, nothing is accepted and
nothing sent before `connect`. -/
structure Arrived (w : World) : Prop where
  consumed : ∀ n, w.system.shared.accepted ≤ n → (w.system.shared.conns n).consumed = []
  accepted : w.system.shared.accepted ≤ w.connected
  sent : ∀ n, w.connected ≤ n → (w.clients n).sent = []

section Reads
variable {W : ℕ} {s s' : System} {t : Tid} {c : Choice} {n : ℕ}

theorem reads_accepted (hreach : Reachable W s) (hrunning : s.Running t) {k : ReadResult → Pc t}
    (hop : s.op W t = .sockRead n k) : n < s.shared.accepted := by
  have hheeding := code_heeding W t (s.pcs t)
  rw [show code W t (s.pcs t) = _ from hop] at hheeding
  rcases hheeding with rfl | hshaking
  · exact ((run_session hreach n).heard (by simp [hrunning.2])).1
  · cases t with
    | transport =>
      refine ((run_session hreach n).greeted ?_).1
      generalize s.pcs .transport = pc at hshaking
      cases pc with
      | handshake m h => exact congrArg some hshaking
      | _ => exact hshaking.elim
    | _ => exact hshaking.elim

theorem interrupted_le {P : Type} (op : Op P) (t : Tid) (c : Choice) :
    op.interrupted c ≤ (Event.server t c).supply := by
  unfold Op.interrupted
  split <;> first | exact le_rfl | exact Nat.zero_le _

/-- Only a byte that is read brings more than an interrupted call. -/
theorem credit_interrupted {P : Type} (op : Op P) (c : Choice) :
    (∃ n k b, op = .sockRead n k ∧ c = .read (.byte b)) ∨ op.credit c ≤ op.interrupted c := by
  cases op with
  | sockRead n k =>
    cases c with
    | read r =>
      cases r with
      | byte b => exact Or.inl ⟨n,k,b,rfl,rfl⟩
      | _ => exact Or.inr le_rfl
    | _ => exact Or.inr (Nat.zero_le _)
  | poll k =>
    cases c with
    | poll r => cases r <;> exact Or.inr le_rfl
    | _ => exact Or.inr (Nat.zero_le _)
  | sockWrite n bytes k =>
    cases c with
    | write r => cases r <;> exact Or.inr le_rfl
    | _ => exact Or.inr (Nat.zero_le _)
  | _ => exact Or.inr (Nat.zero_le _)

/-- What a step does to the bytes read from the connections. -/
theorem step_reads (hreach : Reachable W s) (hstep : step W s t c = some s') :
    (∃ n k b, s.op W t = .sockRead n k ∧ c = .read (.byte b) ∧ n < s.shared.accepted ∧
      s'.shared = s.shared.setConn n { s.shared.conns n with consumed := (s.shared.conns n).consumed ++ [b] }) ∨
    (∃ k, s.op W t = .accept k ∧ c = .ok ∧ s'.shared.accepted = s.shared.accepted + 1 ∧
      ∀ n, (s'.shared.conns n).consumed = if n = s.shared.accepted then [] else (s.shared.conns n).consumed) ∨
    ((s.op W t).credit c ≤ (s.op W t).interrupted c ∧ s'.shared.accepted = s.shared.accepted ∧
      ∀ n, (s'.shared.conns n).consumed = (s.shared.conns n).consumed) := by
  obtain ⟨hrunning,p,sh',hexec,rfl⟩ := step_inversion hstep
  have hreads := fun n k => reads_accepted (n := n) (k := k) hreach hrunning
  generalize s.op W t = op at hexec hreads
  rcases credit_interrupted op c with ⟨n,k,b,rfl,rfl⟩ | hcredit
  · cases hexec
    exact Or.inl ⟨n,k,b,rfl,rfl,hreads n k rfl,rfl⟩
  · refine Or.inr ?_
    cases op with
    | accept k =>
      cases c with
      | ok =>
        cases hexec
        refine Or.inl ⟨k,rfl,rfl,rfl,fun n => ?_⟩
        by_cases hn : n = s.shared.accepted <;> simp [Shared.setConn, hn]
      | fail =>
        cases hexec
        exact Or.inr ⟨hcredit,rfl,fun _ => rfl⟩
      | _ => cases hexec
    | sockRead n k =>
      obtain ⟨r,rfl,_,rfl⟩ := exec_sockRead hexec
      cases r with
      | byte b => exact absurd hcredit (by simp [Op.credit, Op.interrupted])
      | _ => exact Or.inr ⟨hcredit,rfl,fun _ => rfl⟩
    | _ => exact Or.inr ⟨hcredit,(exec_effect hexec).reads_nothing (fun _ h => by cases h) (fun _ _ h => by cases h)⟩

end Reads

section Worlds
variable {W room : ℕ} {w w' : World} {e : Event} {events later : List Event}

theorem pending_congr {s : System}
    (h : ∀ n, (s.shared.conns n).consumed = (w.system.shared.conns n).consumed) :
    ({ w with system := s } : World).pending = w.pending :=
  Finset.sum_congr rfl fun n _ => by simp only [World.unread, h n]

theorem setClient_of_ne {n m : ℕ} (h : m ≠ n) (client : Endpoint) :
    ((w.setClient n client).clients m) = w.clients m := by
  simp [World.setClient, h]

/-- What a client sends is pending. -/
theorem pending_setClient {n : ℕ} {bytes : Bytes} {client : Endpoint} (hn : n < w.connected)
    (hsent : client.sent = (w.clients n).sent ++ bytes) :
    (w.setClient n client).pending + 0 ≤ w.pending + bytes.length := by
  refine Potential.sum_step_le n 0 (Finset.mem_range.mpr hn) ?_ fun m hm => ?_
  · simp only [World.unread, World.setClient, Function.update_self, hsent, List.length_drop, List.length_append]
    omega
  · simp only [World.unread, setClient_of_ne hm]
    exact Nat.le_add_right _ _

theorem setClient_silent {n : ℕ} {client : Endpoint} (hsent : client.sent = (w.clients n).sent) (harrived : Arrived w) :
    Arrived (w.setClient n client) ∧ 40 * (w.setClient n client).pending ≤ 40 * w.pending := by
  have hsame : ∀ m, ((w.setClient n client).clients m).sent = (w.clients m).sent := by
    intro m
    by_cases hm : m = n
    · simp [World.setClient, hm, hsent]
    · rw [setClient_of_ne hm]
  refine ⟨⟨harrived.consumed,harrived.accepted,fun m hm => (hsame m).trans (harrived.sent m hm)⟩,
    Nat.mul_le_mul_left _ (Nat.le_of_eq (Finset.sum_congr rfl fun m _ => ?_))⟩
  rw [World.unread, hsame m]
  rfl

theorem client_pending (harrived : Arrived w) (hnext : World.next W room w e = some w') (he : ∀ t c, e ≠ .server t c) :
    Arrived w' ∧ 40 * w'.pending ≤ 40 * w.pending + e.supply := by
  cases e with
  | server t c => exact absurd rfl (he t c)
  | connect =>
    cases hnext
    refine ⟨⟨harrived.consumed,harrived.accepted.trans (Nat.le_succ _),fun m hm => harrived.sent m (Nat.le_of_succ_le hm)⟩,
      Nat.le_of_eq ?_⟩
    simp only [World.pending, Event.supply]
    rw [Finset.sum_range_succ]
    simp [World.unread, harrived.sent _ le_rfl]
  | send n bytes =>
    obtain ⟨hopen,hw⟩ := Option.ite_none_right_eq_some.mp hnext
    cases hw
    refine ⟨⟨harrived.consumed,harrived.accepted,fun m hm => ?_⟩,?_⟩
    · rw [setClient_of_ne (Nat.ne_of_gt (hopen.1.trans_le hm))]
      exact harrived.sent m hm
    · calc 40 * (w.setClient n _).pending ≤ 40 * (w.pending + bytes.length) :=
            Nat.mul_le_mul_left _ (pending_setClient hopen.1 rfl)
        _ = 40 * w.pending + 40 * bytes.length := Nat.mul_add _ _ _
  | receive n k | endSending n | close n =>
    obtain ⟨_,hw⟩ := Option.ite_none_right_eq_some.mp hnext
    cases hw
    exact setClient_silent rfl harrived

theorem server_pending {t : Tid} {c : Choice} {s : System} (hreach : Reachable W w.system)
    (harrived : Arrived w) (hstep : step W w.system t c = some s)
    (hadmits : (w.answers room t (w.system.op W t) c || (w.system.op W t).faults c) = true) :
    Arrived { w with system := s } ∧ (w.system.op W t).credit c + 40 * ({ w with system := s } : World).pending ≤
      40 * w.pending + (w.system.op W t).interrupted c := by
  rcases step_reads hreach hstep with ⟨n,k,b,hop,rfl,hn,hshared⟩ | ⟨k,hop,rfl,haccepted,hconsumed⟩ |
      ⟨hcredit,haccepted,hconsumed⟩
  · -- a byte that is read is pending no more
    rw [hop] at hadmits ⊢
    obtain ⟨rest,hrest⟩ := unread_of_byte hadmits
    have hpending : ({ w with system := s } : World).pending + 1 ≤ w.pending + 0 := by
      refine Potential.sum_step_le n 0 (Finset.mem_range.mpr (hn.trans_le harrived.accepted)) ?_ fun m hm => ?_
      · have hlength := congrArg List.length hrest
        simp only [World.unread, List.length_drop, List.length_cons] at hlength
        simp only [World.unread, hshared, Shared.setConn, Function.update_self, List.length_drop, List.length_append,
          List.length_cons, List.length_nil]
        omega
      · simp only [World.unread, hshared, Shared.setConn, Function.update_of_ne hm]
        exact Nat.le_add_right _ _
    refine ⟨⟨fun m hm => ?_,?_,harrived.sent⟩,?_⟩
    · have hne : m ≠ n := by
        simp only [hshared, Shared.setConn] at hm
        omega
      simp only [hshared, Shared.setConn, Function.update_of_ne hne] at hm ⊢
      exact harrived.consumed m hm
    · simp only [hshared, Shared.setConn]
      exact harrived.accepted
    · simp only [Op.credit, Choice.credit, Op.interrupted]
      omega
  · rw [hop] at hadmits ⊢
    -- nothing has been read from the connection that is accepted
    have hwaiting : w.system.shared.accepted < w.connected := by simpa [World.answers, Op.faults] using hadmits
    have hsame : ∀ n, (s.shared.conns n).consumed = (w.system.shared.conns n).consumed := by
      intro n
      rw [hconsumed n]
      split
      · rename_i hn
        rw [harrived.consumed n hn.ge]
      · rfl
    refine ⟨⟨fun n hn => ?_,?_,harrived.sent⟩,?_⟩
    · rw [hsame n]
      exact harrived.consumed n (by dsimp only at hn; omega)
    · dsimp only
      omega
    · rw [pending_congr hsame]
      simp [Op.credit]
  · refine ⟨⟨fun n hn => ?_,?_,harrived.sent⟩,?_⟩
    · rw [hconsumed n]
      exact harrived.consumed n (haccepted ▸ hn)
    · exact haccepted.trans_le harrived.accepted
    · rw [pending_congr hconsumed]
      omega

theorem run_arrived (h : World.run W room .initial events = some w) : Arrived w := by
  refine world_run_induction (I := fun _ w => Arrived w) ⟨fun _ _ => rfl,le_rfl,fun _ _ => rfl⟩
    (fun pre w e w' hrun hnext hw => ?_) h
  rcases next_inversion hnext with ⟨t,c,s,rfl,hstep,rfl,hadmits⟩ | ⟨hclient,_⟩
  · exact (server_pending (world_run_system hrun) hw hstep hadmits).1
  · exact (client_pending hw hnext hclient).1

end Worlds

section Stuck
variable {W room : ℕ} {s s' : System} {w w' : World} {t : Tid} {c : Choice} {events later : List Event}

def Main.stocks : Main.Pc → Bool
  | .createControl _ ingest | .initControl _ ingest | .poolCreate _ ingest _ => ingest
  | .sigmask | .pubsubCreate | .createIngest _ | .finish | .failed | .exited => false
  | _ => true

/-- Only the creation of the queue gives `main` one. -/
theorem Main.Follows.stocks {pc p : Main.Pc} (h : Main.Follows W pc p) (hp : Main.stocks p = true) :
    Main.stocks pc = true ∨ ∃ context, pc = .createIngest context ∧ p = .createControl context true := by
  cases h with
  | createIngest context ingest => exact Or.inr ⟨context,rfl,by rw [show ingest = true from hp]⟩
  | createControl | noControl | initControl => exact Or.inl hp
  | sigmask | pubsubCreate | fails | destroyIngest | exits => cases hp
  | _ => exact Or.inl rfl

theorem step_ingest (h : Main.stocks (s.pcs .main) = true → Live s.shared .ingest) (hstep : step W s t c = some s')
    (hstocks : Main.stocks (s'.pcs .main) = true) : Live s'.shared .ingest := by
  obtain ⟨_,p,sh',hexec,rfl⟩ := step_inversion hstep
  have heff := exec_effect hexec
  by_cases ht : .main = t
  · subst ht
    simp only [Function.update_self] at hstocks
    change Effect .main s.shared (Main.code W (s.pcs .main)) p sh' at heff
    rcases (heff.all (Main.code_follows W (s.pcs .main))).stocks hstocks with hold | ⟨context,hpc,rfl⟩
    · refine (heff.live (h hold)).resolve_right fun hdestroys => ?_
      obtain ⟨next,hop⟩ := hdestroys
      rw [hop] at heff
      cases heff
      rw [Main.site_of_code hop rfl] at hstocks
      cases hstocks
    · rw [hpc] at heff
      generalize hnext : Main.Pc.createControl context true = next at heff
      cases heff with
      | queueCreated => simp [Live, Shared.ring, Shared.setQueue]
      | queueNotCreated => cases hnext
  · simp only [Function.update_of_ne ht] at hstocks
    refine (heff.live (h hstocks)).resolve_right fun hdestroys => ht ?_
    obtain ⟨next,hop⟩ := hdestroys
    have hdisciplined := code_disciplined W t (s.pcs t)
    rw [show code W t (s.pcs t) = _ from hop] at hdisciplined
    exact hdisciplined.1

theorem run_ingest (h : Reachable W s) : Main.stocks (s.pcs .main) = true → Live s.shared .ingest :=
  h.invariant (I := fun s => Main.stocks (s.pcs .main) = true → Live s.shared .ingest) (fun h => by cases h)
    fun _ _ _ _ hs hstep => step_ingest hs hstep

/-- `main` ends with the process. -/
theorem main_running (h : Reachable W s) (hexited : s.shared.exited = false) : s.Running .main := by
  refine ⟨hexited,?_⟩
  have hborn : s.shared.status .main ≠ .unborn :=
    h.invariant (I := fun s => s.shared.status .main ≠ .unborn) (by simp [System.initial, Shared.initial])
      fun s t c s' hs hstep => by
        obtain ⟨_,p,sh',hexec,rfl⟩ := step_inversion hstep
        exact (exec_effect hexec).born hs
  cases hstatus : s.shared.status .main with
  | unborn => exact absurd hstatus hborn
  | running => rfl
  | returned => exact ((run_staffed h).ended .main hstatus).elim

/-- After the request some thread has a step, or the process has exited, or a client blocks it. -/
theorem exists_enabled (hrun : World.run W room .initial events = some w) (hstop : w.system.shared.stop = true) :
    w.system.shared.exited = true ∨ w.BlockedOnClient W room ∨ ∃ t, w.system.Running t ∧ w.Enabled W room t := by
  have hreach := world_run_system hrun
  cases hexited : w.system.shared.exited with
  | true => exact Or.inl rfl
  | false =>
    refine Or.inr ?_
    have hmain := main_running hreach hexited
    have hpc := (run_requested hreach hstop).resolve_left (by simp [hexited])
    by_cases hshutting : Main.ShuttingDown (w.system.pcs .main)
    · by_cases hblocked : w.BlockedOnClient W room
      · exact Or.inl hblocked
      · exact Or.inr ((run_atShutdown hrun hmain hshutting).exists_enabled hblocked)
    · -- one of the three queues is shut down next
      refine Or.inr ⟨.main,hmain,enabled_of_ready hmain ?_⟩
      have hingest := run_ingest hreach
      have howned := (run_tidy hreach).owned .main
      change w.Ready room (Main.code W (w.system.pcs .main))
      generalize w.system.pcs .main = pc at hpc hshutting hingest howned
      cases pc with
      | shutdownIngest started => exact hingest rfl
      | shutdownTelemetry started =>
        exact howned .consumerTelemetry (Or.inr ⟨Nat.le_of_ble_eq_true rfl,Nat.le_of_ble_eq_true rfl⟩)
      | shutdownAlerts started => exact howned .consumerAlerts ⟨Nat.le_of_ble_eq_true rfl,Nat.le_of_ble_eq_true rfl⟩
      | _ => first | exact absurd trivial hshutting | cases hpc

end Stuck

section Ending
variable {W room : ℕ} {w w' : World} {e : Event} {events later : List Event}

def Ending (W room : ℕ) (w : World) : Prop :=
  (∃ events, World.run W room .initial events = some w) ∧ w.system.shared.stop = true

theorem next_ending (h : Ending W room w) (hnext : World.next W room w e = some w') : Ending W room w' := by
  obtain ⟨⟨events,hrun⟩,hstop⟩ := h
  refine ⟨⟨events ++ [e],(world_run_concat hrun e).trans hnext⟩,?_⟩
  rcases next_inversion hnext with ⟨t,c,s,_,hstep,rfl,_⟩ | ⟨_,hsystem,_⟩
  · obtain ⟨_,p,sh',hexec,rfl⟩ := step_inversion hstep
    exact (exec_effect hexec).stop_mono hstop
  · rw [hsystem]
    exact hstop

/-- A step of the server is paid for, up to an interrupted call. -/
theorem server_potential {t : Tid} {c : Choice} {s : System} (h : Ending W room w)
    (hstep : step W w.system t c = some s)
    (hadmits : (w.answers room t (w.system.op W t) c || (w.system.op W t).faults c) = true) :
    ({ w with system := s } : World).potential W + 1 ≤ w.potential W + (w.system.op W t).interrupted c := by
  obtain ⟨⟨events,hrun⟩,hstop⟩ := h
  have hreach := world_run_system hrun
  have hsteps := step_potential hreach hstop hstep
  have hpending := (server_pending hreach (run_arrived hrun) hstep hadmits).2
  simp only [World.potential]
  omega

theorem next_potential (h : Ending W room w) (hnext : World.next W room w e = some w') :
    w'.potential W + e.steps ≤ w.potential W + e.supply := by
  rcases next_inversion hnext with ⟨t,c,s,rfl,hstep,rfl,hadmits⟩ | ⟨hclient,hsystem,_⟩
  · exact (server_potential h hstep hadmits).trans (Nat.add_le_add_left (interrupted_le _ t c) _)
  · obtain ⟨⟨events,hrun⟩,_⟩ := h
    have hpending := (client_pending (run_arrived hrun) hnext hclient).2
    have hsteps : e.steps = 0 := by
      cases e with
      | server t c => exact absurd rfl (hclient t c)
      | _ => rfl
    simp only [World.potential, hsystem, hsteps]
    omega

theorem pollAnswer_ne (w : World) (t : Tid) : w.pollAnswer t ≠ .eintr := by
  unfold World.pollAnswer
  split
  · split
    · exact nofun
    · split <;> exact nofun
  · split <;> exact nofun

theorem readAnswer_ne (w : World) (n : ℕ) : w.readAnswer n ≠ some .eintr := by
  unfold World.readAnswer
  split
  · exact nofun
  · split <;> exact nofun

/-- The clients and the sockets interrupt no call. -/
theorem not_interrupted {P : Type} {op : Op P} {t : Tid} {c : Choice} (h : w.answers room t op c = true) :
    op.interrupted c = 0 := by
  unfold Op.interrupted
  split
  · exact absurd (of_decide_eq_true h).symm (pollAnswer_ne w t)
  · exact absurd (of_decide_eq_true h) (readAnswer_ne w _)
  · cases h
  · rfl

theorem run_ending (h : Ending W room w) (hlater : World.run W room w later = some w') : Ending W room w' := by
  induction later generalizing w with
  | nil =>
    cases hlater
    exact h
  | cons e rest ih =>
    obtain ⟨m,hm,hrest⟩ := Option.bind_eq_some_iff.mp hlater
    exact ih (next_ending h hm) hrest

/-- The process ends once the shutdown has been requested, whatever the scheduler and the
clients do. Its steps are bounded by a constant, 40 for each byte that a client has sent
and that is not read yet, 40 for each byte sent from now on, and 2 for each interrupted
call. When no running thread has a step left, the process has exited or a client blocks the
transport thread; and without any help of the clients it can be brought to that point. -/
theorem shutdown_terminates (hrun : World.run W room .initial events = some w)
    (hstop : w.system.shared.stop = true) :
    (∀ later w', World.run W room w later = some w' → (later.map Event.steps).sum ≤
      371 + 23 * W + 27 * defaultCapacity + 40 * w.pending + (later.map Event.supply).sum) ∧
    (∀ later w', World.run W room w later = some w' → (∀ t, w'.system.Running t → ¬ w'.Enabled W room t) →
      w'.system.shared.exited = true ∨ w'.BlockedOnClient W room) ∧
    ∃ schedule w', World.run W room w (serve schedule) = some w' ∧
      (w'.system.shared.exited = true ∨ w'.BlockedOnClient W room) := by
  have hending : Ending W room w := ⟨⟨events,hrun⟩,hstop⟩
  refine ⟨fun later w' hlater => ?_,fun later w' hlater hstuck => ?_,?_⟩
  · have hnext : ∀ m e m', Ending W room m → World.next W room m e = some m' → Ending W room m' :=
      fun _ _ _ => next_ending
    have hcost := Potential.run_cost_le hnext (fun _ _ _ => next_potential) hending hlater
    have hpotential := potential_le (world_run_system hrun)
    simp only [World.potential] at hcost
    omega
  · obtain ⟨⟨events',hrun'⟩,hstop'⟩ := run_ending hending hlater
    rcases exists_enabled hrun' hstop' with hexited | hblocked | ⟨t,hrunning,henabled⟩
    · exact Or.inl hexited
    · exact Or.inr hblocked
    · exact absurd henabled (hstuck t hrunning)
  · have hnext : ∀ (m : World) (a : Tid × Choice) (m' : World), Ending W room m →
        World.next W room m (.server a.1 a.2) = some m' → Ending W room m' := fun _ _ _ => next_ending
    -- a thread that has a step takes it, and the potential gets smaller
    have hgo : ∀ m, Ending W room m → ¬ (m.system.shared.exited = true ∨ m.BlockedOnClient W room) →
        ∃ (a : Tid × Choice) (m' : World), World.next W room m (.server a.1 a.2) = some m' ∧
          m'.potential W < m.potential W := by
      rintro m ⟨⟨events',hrun'⟩,hstop'⟩ hopen
      rcases exists_enabled hrun' hstop' with hexited | hblocked | ⟨t,hrunning,c,s,hanswers,hstep⟩
      · exact absurd (Or.inl hexited) hopen
      · exact absurd (Or.inr hblocked) hopen
      · have hadmits : (m.answers room t (m.system.op W t) c || (m.system.op W t).faults c) = true := by
          rw [hanswers, Bool.true_or]
        have hpays := server_potential ⟨⟨events',hrun'⟩,hstop'⟩ hstep hadmits
        rw [not_interrupted hanswers] at hpays
        exact ⟨(t,c),{ m with system := s },by simp only [World.next, hadmits, hstep]; rfl,hpays⟩
    obtain ⟨schedule,w',hschedule,hgoal⟩ := Potential.exists_run_to hnext hgo hending
    refine ⟨schedule,w',?_,hgoal⟩
    rw [World.run, serve, List.foldlM_map]
    exact hschedule

def lateCommand : List Event := servedShutdown ++ [.send 0 (ascii "SET_INTERVAL 50\n")]

theorem shutdown_terminates_served : ∃ w,
    World.run Main.workerPoolDefaultSize 4096 .initial lateCommand = some w ∧ w.system.shared.stop = true ∧
    w.pending = 16 ∧ ∃ schedule w', World.run Main.workerPoolDefaultSize 4096 w (serve schedule) = some w' ∧
      (w'.system.shared.exited = true ∨ w'.BlockedOnClient Main.workerPoolDefaultSize 4096) := by
  have hobserved : (World.run Main.workerPoolDefaultSize 4096 .initial lateCommand).map (fun w =>
      (w.system.shared.stop,w.connected,(w.unread 0).length)) = some (true,1,16) := by
    decide +kernel
  obtain ⟨w,hrun,hw⟩ := Option.map_eq_some_iff.mp hobserved
  simp only [Prod.mk.injEq] at hw
  obtain ⟨hstop,hconnected,hunread⟩ := hw
  refine ⟨w,hrun,hstop,?_,(shutdown_terminates hrun hstop).2.2⟩
  rw [World.pending, hconnected, Finset.sum_range_one, hunread]

end Ending

end RadioSim.Process
