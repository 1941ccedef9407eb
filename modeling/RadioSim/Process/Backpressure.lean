import RadioSim.Process.Roles

/-! # The producer under back-pressure

When the producer returns. Its telemetry waits for room in the ingest queue, but
its periodic alert does not, and a full queue at that moment ends the routine.
-/
namespace RadioSim.Process
open Queue Pubsub

section Shutdown
variable {P : Type} {t : Tid} {sh sh' : Shared} {op : Op P} {p : P}

def Op.shuts : Op P → Option QueueId
  | .queueShutdown q _ => some q
  | _ => none

theorem deliver_closed (item : Item) (ok : Bool) (r : RingQueue Item) (h : Heap) :
    (deliver item ok r h).2.1.closed = r.closed := by
  unfold deliver
  split
  · rfl
  · rename_i clone h' _
    have hclosed := r.tryEnqueue_closed clone
    generalize r.tryEnqueue clone = e at hclosed
    obtain ⟨ok,r'⟩ := e
    cases ok
    · dsimp only
      split
      · exact hclosed
      · split <;> exact hclosed
    · exact hclosed

def ClosedIn (sh : Shared) (q : QueueId) : Prop := ∃ r, sh.ring q = some r ∧ r.closed = true

theorem closedIn_setQueue {q q' : QueueId} {r : RingQueue Item}
    (h : ClosedIn (sh.setQueue q (.live r)) q') : (q' = q ∧ r.closed = true) ∨ ClosedIn sh q' := by
  obtain ⟨r',hr',hclosed⟩ := h
  rw [ring_setQueue] at hr'
  split at hr'
  · rename_i hq
    cases hr'
    exact Or.inl ⟨hq,hclosed⟩
  · exact Or.inr ⟨r',hr',hclosed⟩

/-- A queue gets closed by its shutdown only. -/
theorem Effect.closed (h : Effect t sh op p sh') {q : QueueId} (hclosed : ClosedIn sh' q) :
    ClosedIn sh q ∨ op.shuts = some q := by
  cases h with
  | queueCreated q' k =>
    rcases closedIn_setQueue hclosed with ⟨_,hnew⟩ | hold
    · cases hnew
    · exact Or.inl hold
  | queueDestroyed q' next r hr =>
    obtain ⟨r',hr',hc⟩ := hclosed
    rw [ring_setQueue] at hr'
    split at hr'
    · cases hr'
    · exact Or.inl ⟨r',hr',hc⟩
  | queueShutdown q' next r hr =>
    rcases closedIn_setQueue hclosed with ⟨rfl,_⟩ | hold
    · exact Or.inr rfl
    · exact Or.inl hold
  | enqueue q' item k r hr _ | tryEnqueue q' item k r hr =>
    rcases closedIn_setQueue hclosed with ⟨rfl,hc⟩ | hold
    · exact Or.inl ⟨r,hr,(r.tryEnqueue_closed item).symm.trans hc⟩
    · exact Or.inl hold
  | dequeue q' k r hr _ | tryDequeue q' k r hr =>
    rcases closedIn_setQueue hclosed with ⟨rfl,hc⟩ | hold
    · exact Or.inl ⟨r,hr,r.tryDequeue_closed.symm.trans hc⟩
    · exact Or.inl hold
  | deliver q' item next r hr ok =>
    rcases closedIn_setQueue hclosed with ⟨rfl,hc⟩ | hold
    · exact Or.inl ⟨r,hr,(deliver_closed item ok r sh.heap).symm.trans hc⟩
    · exact Or.inl hold
  | _ => exact Or.inl hclosed

theorem Effect.stop_mono (h : Effect t sh op p sh') (hstop : sh.stop = true) : sh'.stop = true := by
  cases h <;> first | exact hstop | rfl

end Shutdown

section Routines

/-- The main thread is about to shut down the ingest queue. -/
def Closing : (t : Tid) → Pc t → Prop
  | .main => fun pc => ∃ started, pc = Main.Pc.shutdownIngest started
  | _ => fun _ => False

def Leaving : (t : Tid) → Pc t → Prop
  | .producer => fun pc => (∃ a, pc = Producer.Pc.discard a) ∨ pc = Producer.Pc.done
  | _ => fun _ => False

theorem shuts_manages {P : Type} {op : Op P} {q : QueueId} (h : op.shuts = some q) : op.manages = true := by
  cases op <;> first | rfl | cases h

theorem Transport.shuts (pc : Transport.Pc) : (Transport.code pc).shuts = none := by
  cases pc with
  | handshake n hs =>
    rcases Transport.handshake_op n hs with ⟨next,hop,_⟩ | ⟨bytes,k,hop,_⟩ | ⟨k,hop,_⟩ <;> rw [hop] <;> rfl
  | write c item rest | subscribeTelemetry c | subscribeAlerts c | joinListener c | unsubscribeTelemetry c
  | unsubscribeAlerts c | destroyTelemetry c | destroyAlerts c =>
    simp only [Transport.code, writeAll]
    split <;> rfl
  | _ => rfl

theorem code_shuts {W : ℕ} {t : Tid} {pc : Pc t} (h : (code W t pc).shuts = some .ingest) : Closing t pc := by
  rcases code_manages (shuts_manages h) with rfl | rfl
  · change (Main.code W pc).shuts = _ at h
    cases pc with
    | shutdownIngest started => exact ⟨started,rfl⟩
    | poolCreate context ingest control | workerArgs control i | joinWorkers started i =>
      simp only [Main.code] at h
      split at h <;> cases h
    | _ => cases h
  · change (Transport.code pc).shuts = _ at h
    rw [Transport.shuts] at h
    cases h

/-- The main thread gets to the shutdown of the queue only by requesting shutdown. -/
theorem code_closing (W : ℕ) (t : Tid) (pc : Pc t) :
    (∃ next, code W t pc = .shutdownRequest next) ∨ (code W t pc).All fun p => ¬ Closing t p := by
  cases t with
  | main =>
    change (∃ next, Main.code W pc = .shutdownRequest next) ∨ (Main.code W pc).All _
    cases pc with
    | requestShutdown started => exact Or.inl ⟨_,rfl⟩
    | poolCreate context ingest control | workerArgs control i | joinWorkers started i =>
      right
      simp only [Main.code]
      split
      all_goals first
        | (rintro ⟨_,h⟩; cases h)
        | (rintro b ⟨_,h⟩; cases b <;> cases h)
    | poolDone control started =>
      right
      rintro ⟨_,h⟩
      split at h
      · cases h
      · split at h <;> cases h
    | createAlerts started telemetry =>
      right
      rintro b ⟨_,h⟩
      cases b <;> cases telemetry <;> cases h
    | _ =>
      right
      first
        | (rintro ⟨_,h⟩; cases h)
        | (rintro b ⟨_,h⟩; cases b <;> cases h)
  | _ => exact Or.inr (Op.all_of_forall (fun _ h => h) _)

end Routines

section Survival
variable {W : ℕ} {s s' : System} {t : Tid} {c : Choice}

/-- The producer is about to offer its periodic alert to a full ingest queue,
with no shutdown requested. -/
def AlertMeetsFullQueue (s : System) (t : Tid) : Prop :=
  t = .producer ∧ s.shared.stop = false ∧ ∃ counter a r, s.pcs .producer = Producer.Pc.enqueueAlert counter a ∧
    s.shared.ring .ingest = some r ∧ r.full = true

/-- A step in which the producer's allocation, if there is one, succeeds and its
periodic alert, if it is offered, finds room. -/
def RoomyStep (W : ℕ) (s s' : System) : Prop :=
  ∃ t c, step W s t c = some s' ∧ ¬ (t = .producer ∧ c = .fail) ∧ ¬ AlertMeetsFullQueue s t

structure Orderly (s : System) : Prop where
  closed : ClosedIn s.shared .ingest → s.shared.stop = true
  closing : ∀ t, Closing t (s.pcs t) → s.shared.stop = true
  leaving : Leaving .producer (s.pcs .producer) → s.shared.stop = true
  returned : s.shared.status .producer = .returned → Leaving .producer (s.pcs .producer)

/-- The producer leaves for a reason: shutdown is requested, the closed queue
refused its telemetry, or the full queue refused its alert. -/
theorem producer_leaving {sh sh' : Shared} {pc pc' : Producer.Pc} (hok : c ≠ .fail)
    (hclosed : ClosedIn sh .ingest → sh.stop = true) (hbefore : Leaving .producer pc → sh.stop = true)
    (hroom : ∀ counter a, pc = .enqueueAlert counter a → ∀ r, sh.ring .ingest = some r → r.full = true →
      sh.stop = true)
    (hexec : exec .producer c sh (Producer.code pc) = some (pc',sh')) (hleave : Leaving .producer pc') :
    sh.stop = true := by
  have hnot : ∀ {pc' : Producer.Pc}, (∀ a, pc' ≠ .discard a) → pc' ≠ .done → ¬ Leaving .producer pc' := by
    rintro pc' hd hn (⟨a,h⟩ | h)
    · exact hd a h
    · exact hn h
  cases pc with
  | loop counter =>
    cases hstop : sh.stop
    · simp only [Producer.code, exec, hstop, Bool.false_eq_true, ↓reduceIte] at hexec
      cases hexec
      exact absurd hleave (hnot (fun _ h => by cases h) (fun h => by cases h))
    · rfl
  | allocTelemetry counter | allocAlert counter =>
    cases c with
    | ok =>
      cases hexec
      exact absurd hleave (hnot (fun _ h => by cases h) (fun h => by cases h))
    | fail => exact absurd rfl hok
    | _ => cases hexec
  | enqueueTelemetry counter a =>
    cases exec_effect hexec with
    | enqueue _ _ _ r hr hopen =>
      -- the blocking call answers false only when the queue is shut down
      cases hfull : r.full with
      | true =>
        refine hclosed ⟨r,hr,?_⟩
        simpa [hfull] using hopen
      | false =>
        simp only [hfull, Bool.not_false, ↓reduceIte] at hleave
        split at hleave
        · exact absurd hleave (hnot (fun _ h => by cases h) (fun h => by cases h))
        · exact absurd hleave (hnot (fun _ h => by cases h) (fun h => by cases h))
  | enqueueAlert counter a =>
    cases exec_effect hexec with
    | tryEnqueue _ _ _ r hr =>
      cases hfull : r.full with
      | true => exact hroom counter a rfl r hr hfull
      | false =>
        simp only [hfull, Bool.not_false, ↓reduceIte] at hleave
        exact absurd hleave (hnot (fun _ h => by cases h) (fun h => by cases h))
  | discard a => exact hbefore (Or.inl ⟨a,rfl⟩)
  | readInterval counter | slice counter totalMs sleptMs =>
    cases hexec
    exact absurd hleave (hnot (fun _ h => by cases h) (fun h => by cases h))
  | sleep counter totalMs sleptMs =>
    simp only [Producer.code] at hexec
    split at hexec
    · cases hstop : sh.stop
      · simp only [exec, hstop, Bool.false_eq_true, ↓reduceIte] at hexec
        cases hexec
        exact absurd hleave (hnot (fun _ h => by cases h) (fun h => by cases h))
      · rfl
    · cases hexec
      exact absurd hleave (hnot (fun _ h => by cases h) (fun h => by cases h))
  | done => exact hbefore (Or.inr rfl)

theorem step_orderly (hs : Orderly s) (hstep : RoomyStep W s s') : Orderly s' := by
  obtain ⟨t,c,h,hok,hroom⟩ := hstep
  obtain ⟨hrunning,p,sh',hexec,rfl⟩ := step_inversion h
  have heff := exec_effect hexec
  have hmono := heff.stop_mono
  constructor
  · intro hclosed
    rcases heff.closed hclosed with hold | hshuts
    · exact hmono (hs.closed hold)
    · exact hmono (hs.closing t (code_shuts hshuts))
  · intro t' hclosing
    by_cases ht : t' = t
    · subst ht
      rcases code_closing W t' (s.pcs t') with ⟨next,hop⟩ | hall
      · rw [System.op, hop] at heff
        cases heff
        rfl
      · simp only [Function.update_self] at hclosing
        exact absurd hclosing (heff.all hall)
    · simp only [Function.update_of_ne ht] at hclosing
      exact hmono (hs.closing t' hclosing)
  · intro hleave
    by_cases ht : (.producer : Tid) = t
    · subst ht
      simp only [Function.update_self] at hleave
      apply hmono
      refine producer_leaving (fun hc => hok ⟨rfl,hc⟩) hs.closed hs.leaving ?_ hexec hleave
      intro counter a hpc r hr hfull
      cases hstop : s.shared.stop
      · exact absurd ⟨rfl,hstop,counter,a,r,hpc,hr,hfull⟩ hroom
      · rfl
    · simp only [Function.update_of_ne ht] at hleave
      exact hmono (hs.leaving hleave)
  · -- only its last statement makes the producer return
    intro hret
    rcases heff.returned hret with hold | ⟨ht,hop⟩
    · by_cases ht : (.producer : Tid) = t
      · subst ht
        rw [hrunning.2] at hold
        cases hold
      · simp only [Function.update_of_ne ht]
        exact hs.returned hold
    · subst ht
      simp only [Function.update_self]
      change Producer.code (s.pcs .producer) = _ at hop
      generalize s.pcs .producer = pc at hop
      cases pc with
      | done =>
        cases hop
        exact Or.inr rfl
      | sleep counter totalMs sleptMs =>
        simp only [Producer.code] at hop
        split at hop <;> cases hop
      | _ => cases hop

theorem initial_orderly : Orderly .initial := by
  constructor
  · rintro ⟨r,hr,_⟩
    cases hr
  · intro t h
    cases t with
    | main =>
      obtain ⟨started,h⟩ := h
      cases h
    | _ => cases h
  · rintro (⟨a,h⟩ | h) <;> cases h
  · intro h
    cases h

/-- In every run in which the producer's allocations succeed and its periodic
alerts find room in the ingest queue, the producer has returned only once
shutdown has been requested. -/
theorem producer_returns_after_request (W : ℕ) (s : System)
    (hrun : Relation.ReflTransGen (RoomyStep W) .initial s)
    (hret : s.shared.status .producer = .returned) : s.shared.stop = true := by
  have horderly : ∀ s, Relation.ReflTransGen (RoomyStep W) .initial s → Orderly s := by
    intro s hs
    induction hs with
    | refl => exact initial_orderly
    | tail _ hstep ih => exact step_orderly ih hstep
  exact (horderly s hrun).leaving ((horderly s hrun).returned hret)

def refusedAlerts (s : System) (t : Tid) (_ : System) : List Addr :=
  match t, s.pcs .producer with
  | .producer, .enqueueAlert _ a => if !s.shared.stop && (s.shared.ring .ingest).any RingQueue.full then [a] else []
  | _, _ => []

theorem roomyStep_of_note (h : step W s t c = some s') (hok : c ≠ .fail) (hnone : refusedAlerts s t s' = []) :
    RoomyStep W s s' := by
  refine ⟨t,c,h,fun hfail => hok hfail.2,?_⟩
  rintro ⟨rfl,hstop,counter,a,r,hpc,hring,hfull⟩
  simp [refusedAlerts, hpc, hstop, hring, hfull] at hnone

theorem roomy_of_record {schedule : List (Tid × Choice)} (hok : ∀ a ∈ schedule, a.2 ≠ .fail)
    (hnone : record refusedAlerts W s schedule = []) (h : run W s schedule = some s') :
    Relation.ReflTransGen (RoomyStep W) s s' := by
  induction schedule generalizing s with
  | nil =>
    cases h
    exact .refl
  | cons head rest ih =>
    obtain ⟨m,hm,hrest⟩ := Option.bind_eq_some_iff.mp h
    rw [record_cons hm, List.append_eq_nil_iff] at hnone
    rw [List.forall_mem_cons] at hok
    exact .head (roomyStep_of_note hm hok.1 hnone.1) (ih hok.2 hnone.2 hrest)

/-- The producer ticks five times, its alert finds room, and it returns after the request. -/
def fiveTicks : List (Tid × Choice) := startUp ++ proceed .producer 127 ++ proceed .main 3 ++ proceed .producer 2

/-- A run with an orderly shutdown in which the producer does return. -/
theorem producer_returns_at_shutdown :
    ∃ s, run Main.workerPoolDefaultSize .initial fiveTicks = some s ∧
      Relation.ReflTransGen (RoomyStep Main.workerPoolDefaultSize) .initial s ∧
      (s.shared.contents .ingest).map (fun item => item.type) =
        [.telemetry, .telemetry, .telemetry, .telemetry, .telemetry, .alert] ∧
      s.shared.status .producer = .returned ∧ s.shared.stop = true := by
  have hobserved : (run Main.workerPoolDefaultSize .initial fiveTicks).map
      (fun s => ((s.shared.contents .ingest).map (fun item => item.type),s.shared.status .producer)) =
        some ([.telemetry, .telemetry, .telemetry, .telemetry, .telemetry, .alert],.returned) := by decide +kernel
  obtain ⟨s,hrun,heq⟩ := Option.map_eq_some_iff.mp hobserved
  obtain ⟨htypes,hret⟩ := Prod.mk.inj heq
  have hok : ∀ a ∈ fiveTicks, a.2 ≠ .fail := by
    intro a ha
    simp only [fiveTicks, startUp, proceed, List.mem_append, List.mem_replicate] at ha
    rcases ha with ((⟨_,rfl⟩ | ⟨_,rfl⟩) | ⟨_,rfl⟩) | ⟨_,rfl⟩ <;> exact Choice.noConfusion
  have hroomy := roomy_of_record hok (by decide +kernel) hrun
  exact ⟨s,hrun,hroomy,htypes,hret,producer_returns_after_request _ s hroomy hret⟩

end Survival

section GivingUp
variable {W : ℕ}

def GrantedStep (W : ℕ) (s s' : System) : Prop := ∃ t c, step W s t c = some s' ∧ c ≠ .fail

theorem granted_of_run {s s' : System} {schedule : List (Tid × Choice)} (hok : ∀ a ∈ schedule, a.2 ≠ .fail)
    (h : run W s schedule = some s') : Relation.ReflTransGen (GrantedStep W) s s' :=
  run_path (fun a ha _ _ hm => ⟨a.1,a.2,hm,hok a ha⟩) h

structure Filled (sh : Shared) (n : ℕ) : Prop where
  exited : sh.exited = false
  stop : sh.stop = false
  interval : sh.intervalMs = 1000
  producer : sh.status .producer = .running
  worker : sh.status (.worker 0) = .running
  ring : ∃ r, sh.ring .ingest = some r ∧ r.capacity = defaultCapacity ∧ r.contents.length = n

/-- A state of that kind, with the two threads at given program points, is reached
without a failing call. -/
def Stage (W : ℕ) (pc : Producer.Pc) (w : Worker.Pc) (n : ℕ) : Prop :=
  ∃ s, Relation.ReflTransGen (GrantedStep W) .initial s ∧ s.pcs .producer = pc ∧ s.pcs (.worker 0) = w ∧
    Filled s.shared n

variable {pc pc' : Producer.Pc} {w w' : Worker.Pc} {n n' : ℕ}

/-- One operation of the producer. -/
theorem Stage.advance (h : Stage W pc w n) {Q : Producer.Pc → Prop}
    (hexec : ∀ sh, Filled sh n → ∃ pc' sh', exec .producer .ok sh (Producer.code pc) = some (pc',sh') ∧
      Q pc' ∧ Filled sh' n') : ∃ pc', Q pc' ∧ Stage W pc' w n' := by
  obtain ⟨s,hreach,hpc,hw,hfilled⟩ := h
  obtain ⟨pc',sh',hstep,hQ,hfilled'⟩ := hexec s.shared hfilled
  refine ⟨pc',hQ,⟨Function.update s.pcs .producer pc',sh'⟩,hreach.tail ⟨.producer,.ok,?_,by simp⟩,?_,?_,hfilled'⟩
  · have hop : s.op W .producer = Producer.code pc := congrArg Producer.code hpc
    rw [step, if_pos ⟨hfilled.exited,hfilled.producer⟩, hop, hstep]
    rfl
  · simp only [Function.update_self]
  · simp only [Function.update_of_ne (show (.worker 0 : Tid) ≠ .producer by simp)]
    exact hw

theorem Stage.advance_to (h : Stage W pc w n) (pc' : Producer.Pc) (n' : ℕ)
    (hexec : ∀ sh, Filled sh n → ∃ sh', exec .producer .ok sh (Producer.code pc) = some (pc',sh') ∧
      Filled sh' n') : Stage W pc' w n' := by
  obtain ⟨p,rfl,hstage⟩ := h.advance (Q := fun p => p = pc') fun sh hsh => by
    obtain ⟨sh',hstep,hfilled⟩ := hexec sh hsh
    exact ⟨pc',sh',hstep,rfl,hfilled⟩
  exact hstage

/-- An item is accepted. -/
theorem Filled.enqueue {sh : Shared} (h : Filled sh n) (hroom : n < defaultCapacity) (item : Item) :
    ∃ r, sh.ring .ingest = some r ∧ r.full = false ∧
      Filled (sh.setQueue .ingest (.live (r.tryEnqueue item).2)) (n + 1) := by
  obtain ⟨r,hr,hcap,hlen⟩ := h.ring
  have hfull : r.full = false := by simp [RingQueue.full, hcap, hlen, hroom]
  refine ⟨r,hr,hfull,h.exited,h.stop,h.interval,h.producer,h.worker,(r.tryEnqueue item).2,?_,?_,?_⟩
  · simp [ring_setQueue]
  · simpa using hcap
  · simp [hfull, hlen]

theorem Filled.heap {sh : Shared} (h : Filled sh n) (heap : Heap) : Filled { sh with heap := heap } n :=
  ⟨h.exited,h.stop,h.interval,h.producer,h.worker,h.ring⟩

theorem Stage.slices {counter : UInt32} (h : Stage W (.sleep counter 1000 0) w n) (j : ℕ) (hj : j ≤ 10) :
    Stage W (.sleep counter 1000 (UInt32.ofNat (100 * j))) w n := by
  induction j with
  | zero => exact h
  | succ j ih =>
    have hlt : j < 10 := hj
    have hmore : UInt32.ofNat (100 * j) < 1000 := by interval_cases j <;> decide
    have hslice : UInt32.ofNat (100 * j) + Producer.sliceMs 1000 (UInt32.ofNat (100 * j)) =
        UInt32.ofNat (100 * (j + 1)) := by interval_cases j <;> decide
    have hcheck := (ih (by omega)).advance_to (.slice counter 1000 (UInt32.ofNat (100 * j))) _
      fun sh hsh => ⟨sh,by simp only [Producer.code, hmore, ↓reduceIte, exec, hsh.stop, Bool.false_eq_true],hsh⟩
    exact hcheck.advance_to _ _ fun sh hsh => ⟨sh,by simp only [Producer.code, exec, hslice],hsh⟩

theorem Stage.sleep {counter : UInt32} (h : Stage W (.readInterval counter) w n) : Stage W (.loop counter) w n := by
  have hsleep := h.advance_to (.sleep counter 1000 0) _ fun sh hsh =>
    ⟨sh,by simp only [Producer.code, exec, hsh.interval],hsh⟩
  have hslept : ¬ UInt32.ofNat (100 * 10) < 1000 := by decide
  exact (hsleep.slices 10 le_rfl).advance_to _ _ fun sh hsh =>
    ⟨sh,by simp only [Producer.code, hslept, ↓reduceIte, exec],hsh⟩

/-- The producer has allocated its next telemetry payload. -/
theorem Stage.telemetry {counter : UInt32} (h : Stage W (.loop counter) w n) :
    ∃ a, Stage W (.enqueueTelemetry (counter + 1) a) w n := by
  have halloc := h.advance_to (.allocTelemetry (counter + 1)) _ fun sh hsh =>
    ⟨sh,by simp only [Producer.code, exec, hsh.stop, Bool.false_eq_true, ↓reduceIte],hsh⟩
  obtain ⟨_,⟨a,rfl⟩,hstage⟩ := halloc.advance (Q := fun p => ∃ a, p = .enqueueTelemetry (counter + 1) a)
    fun sh hsh => ⟨_,_,rfl,⟨_,rfl⟩,hsh.heap _⟩
  exact ⟨a,hstage⟩

theorem Stage.enqueueTelemetry {counter : UInt32} {a : Addr} (h : Stage W (.enqueueTelemetry counter a) w n)
    (hroom : n < defaultCapacity) :
    Stage W (if counter % 5 = 0 then .allocAlert counter else .readInterval counter) w (n + 1) := by
  refine h.advance_to _ _ fun sh hsh => ?_
  obtain ⟨r,hr,hfull,hfilled⟩ := hsh.enqueue hroom (Producer.telemetryItem counter a)
  refine ⟨_,?_,hfilled⟩
  simp [Producer.code, exec, hr, RingQueue.enqueue_eq, hfull]

theorem Stage.alert {counter : UInt32} (h : Stage W (.allocAlert counter) w n) :
    ∃ a, Stage W (.enqueueAlert counter a) w n := by
  obtain ⟨_,⟨a,rfl⟩,hstage⟩ := h.advance (Q := fun p => ∃ a, p = .enqueueAlert counter a)
    fun sh hsh => ⟨_,_,rfl,⟨_,rfl⟩,hsh.heap _⟩
  exact ⟨a,hstage⟩

/-- One tick: one telemetry item, and on every fifth tick an alert. -/
theorem Stage.tick {k : ℕ} (h : Stage W (.loop (UInt32.ofNat k)) w n) (hk : k + 1 < 2 ^ 32)
    (hroom : n + (if (k + 1) % 5 = 0 then 2 else 1) ≤ defaultCapacity) :
    Stage W (.loop (UInt32.ofNat (k + 1))) w (n + if (k + 1) % 5 = 0 then 2 else 1) := by
  have hcounter : UInt32.ofNat k + 1 = UInt32.ofNat (k + 1) := by simp
  have hfifth : UInt32.ofNat (k + 1) % 5 = 0 ↔ (k + 1) % 5 = 0 := by
    rw [← UInt32.toNat_inj, UInt32.toNat_mod, UInt32.toNat_ofNat_of_lt' hk]
    rfl
  obtain ⟨a,htelemetry⟩ := h.telemetry
  rw [hcounter] at htelemetry
  by_cases hdue : (k + 1) % 5 = 0
  · simp only [hdue, ↓reduceIte] at hroom ⊢
    have halloc := htelemetry.enqueueTelemetry (by omega)
    rw [if_pos (hfifth.mpr hdue)] at halloc
    obtain ⟨a',halert⟩ := halloc.alert
    have hsent : Stage W (.readInterval (UInt32.ofNat (k + 1))) w (n + 1 + 1) := by
      refine halert.advance_to _ _ fun sh hsh => ?_
      obtain ⟨r,hr,hfull,hfilled⟩ := hsh.enqueue (by omega) (Producer.alertItem (UInt32.ofNat (k + 1)) a')
      refine ⟨_,?_,hfilled⟩
      simp [Producer.code, exec, hr, hfull]
    exact hsent.sleep
  · simp only [hdue, ↓reduceIte] at hroom ⊢
    have hsent := htelemetry.enqueueTelemetry (by omega)
    rw [if_neg (fun h => hdue (hfifth.mp h))] at hsent
    exact hsent.sleep

theorem Stage.ticks (h : Stage W (.loop 0) w 0) (k : ℕ) (hk : k ≤ 854) :
    Stage W (.loop (UInt32.ofNat k)) w (k + k / 5) := by
  induction k with
  | zero => exact h
  | succ k ih =>
    have hcapacity : defaultCapacity = 1024 := rfl
    have htick := (ih (by omega)).tick (by omega) (by split <;> omega)
    have hcount : k + k / 5 + (if (k + 1) % 5 = 0 then 2 else 1) = k + 1 + (k + 1) / 5 := by
      split <;> omega
    rwa [hcount] at htick

/-- A worker takes one item. -/
theorem Stage.dequeue (h : Stage W pc .dequeue (n + 1)) : ∃ w, Stage W pc w n := by
  obtain ⟨s,hreach,hpc,hw,hfilled⟩ := h
  obtain ⟨r,hr,hcap,hlen⟩ := hfilled.ring
  obtain ⟨item,rest,hcontents⟩ := List.exists_cons_of_length_eq_add_one hlen
  refine ⟨.sequence item,⟨Function.update s.pcs (.worker 0) (.sequence item),
    s.shared.takeFrom .ingest r.tryDequeue⟩,hreach.tail ⟨.worker 0,.ok,?_,by simp⟩,?_,?_,?_⟩
  · have hop : s.op W (.worker 0) = Worker.code .dequeue := congrArg Worker.code hw
    rw [step, if_pos ⟨hfilled.exited,hfilled.worker⟩, hop]
    simp [Worker.code, exec, hr, RingQueue.dequeue_eq, hcontents]
  · simp only [Function.update_of_ne (show (.producer : Tid) ≠ .worker 0 by simp)]
    exact hpc
  · simp only [Function.update_self]
  · refine ⟨hfilled.exited,hfilled.stop,hfilled.interval,hfilled.producer,hfilled.worker,r.tryDequeue.2,?_,?_,?_⟩
    · exact (ring_setQueue s.shared .ingest .ingest (.live r.tryDequeue.2)).trans (if_pos rfl)
    · simpa using hcap
    · simp [hlen]

/-- The workers stall for 854 ticks, in which the producer fills the ingest queue.
A worker then takes one item, the telemetry of tick 855 takes its place, and the
alert of that tick ends the producer although no shutdown was requested. -/
theorem producer_gives_up :
    ∃ s, Relation.ReflTransGen (GrantedStep Main.workerPoolDefaultSize) .initial s ∧
      s.shared.status .producer = .returned ∧ s.shared.stop = false := by
  have hstart : Stage Main.workerPoolDefaultSize (.loop 0) .dequeue 0 := by
    obtain ⟨s,hrun,hpc,hw,hfilled⟩ : ∃ s, run Main.workerPoolDefaultSize .initial startUp = some s ∧
        s.pcs .producer = Producer.Pc.loop 0 ∧ s.pcs (.worker 0) = Worker.Pc.dequeue ∧ Filled s.shared 0 :=
      ⟨_,rfl,rfl,rfl,rfl,rfl,rfl,rfl,rfl,newQueue,rfl,rfl,rfl⟩
    have hgranted : ∀ a ∈ startUp, a.2 ≠ .fail := by
      intro a ha
      rw [List.eq_of_mem_replicate ha]
      simp
    exact ⟨s,granted_of_run hgranted hrun,hpc,hw,hfilled⟩
  have hfull := hstart.ticks 854 le_rfl
  obtain ⟨a,htelemetry⟩ := hfull.telemetry
  obtain ⟨w,hroom⟩ := Stage.dequeue (n := 1023) htelemetry
  have halloc := hroom.enqueueTelemetry (by decide)
  rw [if_pos (by decide)] at halloc
  obtain ⟨a',halert⟩ := halloc.alert
  have hdiscard := halert.advance_to (.discard a') 1024 fun sh hsh => by
    obtain ⟨r,hr,hcap,hlen⟩ := hsh.ring
    have hfull : r.full = true := by simp [RingQueue.full, hcap, hlen, defaultCapacity]
    exact ⟨sh.setQueue .ingest (.live r),by simp [Producer.code, exec, hr, RingQueue.tryEnqueue_of_full, hfull],
      hsh.exited,hsh.stop,hsh.interval,hsh.producer,hsh.worker,r,by simp [ring_setQueue],hcap,hlen⟩
  have hdone := hdiscard.advance_to .done _ fun sh hsh => ⟨_,rfl,hsh.heap _⟩
  obtain ⟨s,hreach,hpc,_,hfilled⟩ := hdone
  refine ⟨⟨Function.update s.pcs .producer .done,s.shared.setStatus .producer .returned⟩,
    hreach.tail ⟨.producer,.ok,?_,by simp⟩,by simp [Shared.setStatus],hfilled.stop⟩
  have hop : s.op Main.workerPoolDefaultSize .producer = Producer.code .done := congrArg Producer.code hpc
  rw [step, if_pos ⟨hfilled.exited,hfilled.producer⟩, hop]
  rfl

end GivingUp

end RadioSim.Process
