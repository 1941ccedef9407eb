import RadioSim.Foundation.Locking
import RadioSim.Queue.Waiters

/-! # The queue, statement by statement

The functions of `msg_queue.c` between their lock and their unlock, one program
point for each statement. Statements that `msg_queue_enqueue` and
`msg_queue_try_enqueue`, or the two dequeues, have in common share their points.
Any number of threads call any of the functions of one queue; a thread can be
interrupted between any two statements.
-/
namespace RadioSim.Queue
open BoundedFifo Locking Waking
variable {α : Type*}

inductive Point (α : Type*)
  | enqueueTest (x : α)
  | enqueueWait (x : α)
  | enqueueGuard (x : α)
  | tryEnqueueTest (x : α)
  | store (x : α)
  | advanceTail
  | countUp
  | signalNotEmpty
  | dequeueTest
  | dequeueWait
  | dequeueGuard
  | load
  | advanceHead (x : α)
  | countDown (x : α)
  | signalNotFull (x : α)
  | readSize
  | setFlag
  | broadcastNotEmpty
  | broadcastNotFull
  | resetHead
  | resetTail
  | resetSize
  | unlock (a : Answer α)

def sectionOf : Call α → Point α
  | .enqueue x => .enqueueTest x
  | .tryEnqueue x => .tryEnqueueTest x
  | .dequeue => .dequeueTest
  | .tryDequeue => .dequeueGuard
  | .size => .readSize
  | .clear => .resetHead
  | .shutdown => .setFlag

def MsgQueue.setBuffer (q : MsgQueue α) (buffer : QueueBuffer α) : MsgQueue α := { q with buffer := buffer }

def statement : Point α → Stmt Condition (MsgQueue α) (Point α) (Answer α)
  | .enqueueTest x => .access fun q => (if q.enqueueWaits then .enqueueWait x else .enqueueGuard x,q)
  | .enqueueWait x => .wait .notFull (.enqueueTest x)
  | .enqueueGuard x => .access fun q =>
    (if q.shuttingDown && decide (q.buffer.size ≥ q.buffer.capacity) then .unlock (.flag false) else .store x,q)
  | .tryEnqueueTest x => .access fun q =>
    (if q.buffer.size ≥ q.buffer.capacity then .unlock (.flag false) else .store x,q)
  | .store x => .access fun q =>
    (.advanceTail,q.setBuffer { q.buffer with items := Function.update q.buffer.items q.buffer.tail x })
  | .advanceTail => .access fun q =>
    (.countUp,q.setBuffer { q.buffer with tail := sizeAdd q.buffer.tail 1 % q.buffer.capacity })
  | .countUp => .access fun q => (.signalNotEmpty,q.setBuffer { q.buffer with size := sizeAdd q.buffer.size 1 })
  | .signalNotEmpty => .signal .notEmpty (.unlock (.flag true))
  | .dequeueTest => .access fun q => (if q.dequeueWaits then .dequeueWait else .dequeueGuard,q)
  | .dequeueWait => .wait .notEmpty .dequeueTest
  | .dequeueGuard => .access fun q => (if q.buffer.size = 0 then .unlock (.item none) else .load,q)
  | .load => .access fun q => (.advanceHead (q.buffer.items q.buffer.head),q)
  | .advanceHead x => .access fun q =>
    (.countDown x,q.setBuffer { q.buffer with head := sizeAdd q.buffer.head 1 % q.buffer.capacity })
  | .countDown x => .access fun q =>
    (.signalNotFull x,q.setBuffer { q.buffer with size := sizeSub q.buffer.size 1 })
  | .signalNotFull x => .signal .notFull (.unlock (.item (some x)))
  | .readSize => .access fun q => (.unlock (.count q.buffer.size),q)
  | .setFlag => .access fun q => (.broadcastNotEmpty,{ q with shuttingDown := true })
  | .broadcastNotEmpty => .broadcast .notEmpty .broadcastNotFull
  -- the last broadcast of msg_queue_shutdown, and the one of msg_queue_clear
  | .broadcastNotFull => .broadcast .notFull (.unlock .unit)
  | .resetHead => .access fun q => (.resetTail,q.setBuffer { q.buffer with head := 0 })
  | .resetTail => .access fun q => (.resetSize,q.setBuffer { q.buffer with tail := 0 })
  | .resetSize => .access fun q => (.broadcastNotFull,q.setBuffer { q.buffer with size := 0 })
  | .unlock a => .unlock a

def msgQueueRoutines : Routines (Call α) Condition (MsgQueue α) (Point α) (Answer α) :=
  ⟨fun _ => none,sectionOf,statement⟩

section Sections
variable {c : Call α} {m m' : MsgQueue α} {ws : List (Wake Condition)} {p : Point α}

/-- Where a call that began on the queue `m` can be: the notifications it has sent, its
program point and the queue by now, and what the call will answer. -/
def Reached (c : Call α) (m : MsgQueue α) (ws : List (Wake Condition)) : Point α → MsgQueue α → Prop
  | .enqueueTest x, m' => c = .enqueue x ∧ ws = [] ∧ m' = m
  | .enqueueWait x, m' => c = .enqueue x ∧ ws = [] ∧ m' = m ∧ m.enqueueWaits = true
  | .enqueueGuard x, m' => c = .enqueue x ∧ ws = [] ∧ m' = m ∧ m.enqueueWaits = false
  | .tryEnqueueTest x, m' => c = .tryEnqueue x ∧ ws = [] ∧ m' = m
  | .store x, m' => ws = [] ∧ m' = m ∧ wakes c (.flag true) = [.signal .notEmpty] ∧
    exec m c = some (.flag true,m.setBuffer (m.buffer.push x))
  | .advanceTail, m' => ws = [] ∧ wakes c (.flag true) = [.signal .notEmpty] ∧ ∃ x,
    m' = m.setBuffer { m.buffer with items := Function.update m.buffer.items m.buffer.tail x } ∧
    exec m c = some (.flag true,m.setBuffer (m.buffer.push x))
  | .countUp, m' => ws = [] ∧ wakes c (.flag true) = [.signal .notEmpty] ∧
    exec m c = some (.flag true,m'.setBuffer { m'.buffer with size := sizeAdd m'.buffer.size 1 })
  | .signalNotEmpty, m' => ws = [] ∧ wakes c (.flag true) = [.signal .notEmpty] ∧ exec m c = some (.flag true,m')
  | .dequeueTest, m' => c = .dequeue ∧ ws = [] ∧ m' = m
  | .dequeueWait, m' => c = .dequeue ∧ ws = [] ∧ m' = m ∧ m.dequeueWaits = true
  | .dequeueGuard, m' => ws = [] ∧ m' = m ∧ (∀ x, wakes c (.item (some x)) = [.signal .notFull]) ∧
    wakes c (.item none) = [] ∧ exec m c = some (.item (msgQueueTryDequeue m).1,(msgQueueTryDequeue m).2)
  | .load, m' => ws = [] ∧ m' = m ∧ (∀ x, wakes c (.item (some x)) = [.signal .notFull]) ∧
    exec m c = some (.item (some (m.buffer.items m.buffer.head)),m.setBuffer m.buffer.pop)
  | .advanceHead x, m' => ws = [] ∧ m' = m ∧ wakes c (.item (some x)) = [.signal .notFull] ∧
    exec m c = some (.item (some x),m.setBuffer m.buffer.pop)
  | .countDown x, m' => ws = [] ∧ wakes c (.item (some x)) = [.signal .notFull] ∧
    exec m c = some (.item (some x),m'.setBuffer { m'.buffer with size := sizeSub m'.buffer.size 1 })
  | .signalNotFull x, m' => ws = [] ∧ wakes c (.item (some x)) = [.signal .notFull] ∧
    exec m c = some (.item (some x),m')
  | .readSize, m' => c = .size ∧ ws = [] ∧ m' = m
  | .setFlag, m' => c = .shutdown ∧ ws = [] ∧ m' = m
  | .broadcastNotEmpty, m' => ws = [] ∧ wakes c (.unit : Answer α) = [.broadcast .notEmpty,.broadcast .notFull] ∧
    exec m c = some (.unit,m')
  | .broadcastNotFull, m' => wakes c (.unit : Answer α) = ws ++ [.broadcast .notFull] ∧
    exec m c = some (.unit,m')
  | .resetHead, m' => c = .clear ∧ ws = [] ∧ m' = m
  | .resetTail, m' => c = .clear ∧ ws = [] ∧ m' = m.setBuffer { m.buffer with head := 0 }
  | .resetSize, m' => c = .clear ∧ ws = [] ∧ m' = m.setBuffer { m.buffer with head := 0, tail := 0 }
  | .unlock a, m' => ws = wakes c a ∧ exec m c = some (a,m')

theorem reached_sectionOf (c : Call α) (m : MsgQueue α) : Reached c m [] (sectionOf c) m := by
  cases c with
  | tryDequeue => exact ⟨rfl,rfl,fun _ => rfl,rfl,rfl⟩
  | _ => exact ⟨rfl,rfl,rfl⟩

theorem reached_access {f : MsgQueue α → Point α × MsgQueue α} (h : Reached c m ws p m')
    (hcode : statement p = .access f) : Reached c m ws (f m').1 (f m').2 := by
  cases p with
  | enqueueWait | signalNotEmpty | dequeueWait | signalNotFull | broadcastNotEmpty | broadcastNotFull | unlock =>
    cases hcode
  | enqueueTest x =>
    cases hcode
    obtain ⟨rfl,rfl,rfl⟩ := h
    dsimp only
    split
    · rename_i hwaits
      exact ⟨rfl,rfl,rfl,hwaits⟩
    · rename_i hwaits
      exact ⟨rfl,rfl,rfl,by simpa using hwaits⟩
  | enqueueGuard x =>
    cases hcode
    obtain ⟨rfl,rfl,rfl,hwaits⟩ := h
    dsimp only
    split
    · rename_i hfull
      exact ⟨rfl,by simp [exec, msgQueueEnqueue, hwaits, hfull]⟩
    · rename_i hfull
      refine ⟨rfl,rfl,rfl,?_⟩
      simp only [exec, msgQueueEnqueue, hwaits, hfull]
      rfl
  | tryEnqueueTest x =>
    cases hcode
    obtain ⟨rfl,rfl,rfl⟩ := h
    dsimp only
    split
    · rename_i hfull
      exact ⟨rfl,by simp [exec, msgQueueTryEnqueue, hfull]⟩
    · rename_i hfull
      refine ⟨rfl,rfl,rfl,?_⟩
      simp only [exec, msgQueueTryEnqueue, hfull]
      rfl
  | store x =>
    cases hcode
    obtain ⟨rfl,rfl,hwakes,hexec⟩ := h
    exact ⟨rfl,hwakes,x,rfl,hexec⟩
  | advanceTail =>
    cases hcode
    obtain ⟨rfl,hwakes,x,rfl,hexec⟩ := h
    exact ⟨rfl,hwakes,by simpa only [QueueBuffer.push, MsgQueue.setBuffer] using hexec⟩
  | countUp =>
    cases hcode
    obtain ⟨rfl,hwakes,hexec⟩ := h
    exact ⟨rfl,hwakes,hexec⟩
  | dequeueTest =>
    cases hcode
    obtain ⟨rfl,rfl,rfl⟩ := h
    dsimp only
    split
    · rename_i hwaits
      exact ⟨rfl,rfl,rfl,hwaits⟩
    · rename_i hwaits
      exact ⟨rfl,rfl,fun _ => rfl,rfl,by simp [exec, dequeue_eq, hwaits]⟩
  | dequeueGuard =>
    cases hcode
    obtain ⟨rfl,rfl,hsome,hnone,hexec⟩ := h
    unfold msgQueueTryDequeue at hexec
    dsimp only
    split
    · rename_i hempty
      rw [if_pos hempty] at hexec
      exact ⟨hnone.symm,hexec⟩
    · rename_i hempty
      rw [if_neg hempty] at hexec
      exact ⟨rfl,rfl,hsome,hexec⟩
  | load =>
    cases hcode
    obtain ⟨rfl,rfl,hsome,hexec⟩ := h
    exact ⟨rfl,rfl,hsome _,hexec⟩
  | advanceHead x =>
    cases hcode
    obtain ⟨rfl,rfl,hwakes,hexec⟩ := h
    exact ⟨rfl,hwakes,by simpa only [QueueBuffer.pop, MsgQueue.setBuffer] using hexec⟩
  | countDown x =>
    cases hcode
    obtain ⟨rfl,hwakes,hexec⟩ := h
    exact ⟨rfl,hwakes,hexec⟩
  | readSize =>
    cases hcode
    obtain ⟨rfl,rfl,rfl⟩ := h
    exact ⟨rfl,rfl⟩
  | setFlag =>
    cases hcode
    obtain ⟨rfl,rfl,rfl⟩ := h
    exact ⟨rfl,rfl,rfl⟩
  | resetHead =>
    cases hcode
    obtain ⟨rfl,rfl,rfl⟩ := h
    exact ⟨rfl,rfl,rfl⟩
  | resetTail =>
    cases hcode
    obtain ⟨rfl,rfl,rfl⟩ := h
    exact ⟨rfl,rfl,rfl⟩
  | resetSize =>
    cases hcode
    obtain ⟨rfl,rfl,rfl⟩ := h
    exact ⟨rfl,rfl⟩

theorem reached_signal {k : Condition} {next : Point α} (h : Reached c m ws p m')
    (hcode : statement p = .signal k next) : Reached c m (ws ++ [.signal k]) next m' := by
  cases p <;> cases hcode
  all_goals
    obtain ⟨rfl,hwakes,hexec⟩ := h
    exact ⟨hwakes.symm,hexec⟩

theorem reached_broadcast {k : Condition} {next : Point α} (h : Reached c m ws p m')
    (hcode : statement p = .broadcast k next) : Reached c m (ws ++ [.broadcast k]) next m' := by
  cases p <;> cases hcode
  · obtain ⟨rfl,hwakes,hexec⟩ := h
    exact ⟨hwakes,hexec⟩
  · obtain ⟨hwakes,hexec⟩ := h
    exact ⟨hwakes.symm,hexec⟩

/-- A section of a call, run alone, does what the call does as one step. -/
theorem section_reached (h : Section msgQueueRoutines (sectionOf c) m ws p m') : Reached c m ws p m' :=
  h.invariant (reached_sectionOf c m) (fun _ _ _ _ => reached_access) (fun _ _ _ _ _ => reached_signal)
    (fun _ _ _ _ _ => reached_broadcast)

theorem section_answers {a : Answer α} (h : Section msgQueueRoutines (sectionOf c) m ws p m')
    (hcode : statement p = .unlock a) : ws = wakes c a ∧ exec m c = some (a,m') := by
  have hreached := section_reached h
  cases p <;> cases hcode
  exact hreached

theorem section_waits {k : Condition} {next : Point α} (h : Section msgQueueRoutines (sectionOf c) m ws p m')
    (hcode : statement p = .wait k next) : next = sectionOf c ∧ ws = [] ∧ m' = m ∧
      ∃ b : Blocking α, c = b.call ∧ k = b.condition ∧ exec m c = none := by
  have hreached := section_reached h
  cases p <;> cases hcode
  · obtain ⟨rfl,rfl,rfl,hwaits⟩ := hreached
    exact ⟨rfl,rfl,rfl,.enqueue _,rfl,rfl,by simp [exec, enqueue_eq, hwaits]⟩
  · obtain ⟨rfl,rfl,rfl,hwaits⟩ := hreached
    exact ⟨rfl,rfl,rfl,.dequeue,rfl,rfl,by simp [exec, dequeue_eq, hwaits]⟩

/-- The functions of `msg_queue.c` implement a bounded FIFO list. -/
theorem msgQueue_implements : Implements (msgQueueRoutines (α := α)) BoundedFifo.exec MsgQueue.WellFormed
    MsgQueue.toFifo (fun c p => p = sectionOf c) where
  early _ _ _ h := by cases h
  entry _ _ := rfl
  answers := by
    rintro c p m ws q m' a rfl hm hsection hcode
    obtain ⟨_,hexec⟩ := section_answers hsection hcode
    refine ⟨(exec_wellFormed hm hexec).1,?_⟩
    rw [exec_refines hm, hexec]
    rfl
  waits := by
    rintro c p m ws q m' k next rfl hm hsection hcode
    obtain ⟨rfl,_,rfl,_⟩ := section_waits hsection hcode
    exact ⟨rfl,hm,rfl⟩

end Sections

section Waiters
variable {T : Type*} [DecidableEq T]

def threadState : Place (Call α) Condition (Point α) (Answer α) → ThreadState α
  | .asleep (.enqueue x) _ _ => .unnotified (.enqueue x)
  | .asleep .dequeue _ _ => .unnotified .dequeue
  | .awake (.enqueue x) _ _ notified => if notified then .notified (.enqueue x) else .spurious (.enqueue x)
  | .awake .dequeue _ _ notified => if notified then .notified .dequeue else .spurious .dequeue
  | _ => .outside

/-- Who waits has made a blocking call, waits for its condition, and will test it again. -/
def Waits : Place (Call α) Condition (Point α) (Answer α) → Prop
  | .asleep c k p | .awake c k p _ => p = sectionOf c ∧ ∃ b : Blocking α, c = b.call ∧ k = b.condition
  | _ => True

def toMonitor (a : Between T (Call α) Condition (MsgQueue α) (Point α) (Answer α)) : Monitor T α :=
  ⟨a.memory,fun t => threadState (a.threads t)⟩

theorem threadState_asleep {c : Call α} {k : Condition} {p : Point α} {b : Blocking α} (hb : c = b.call) :
    threadState (.asleep c k p) = .unnotified b := by
  cases b <;> cases hb <;> rfl

theorem threadState_awake {c : Call α} {k : Condition} {p : Point α} {b : Blocking α} (hb : c = b.call)
    (notified : Bool) :
    threadState (.awake c k p notified) = if notified then .notified b else .spurious b := by
  cases b <;> cases hb <;> rfl

variable {f g : T → Place (Call α) Condition (Point α) (Answer α)} {ws : List (Wake Condition)} {t : T}
  {x : Place (Call α) Condition (Point α) (Answer α)}
  {a a' : Between T (Call α) Condition (MsgQueue α) (Point α) (Answer α)}

theorem threadState_update : (fun u => threadState (Function.update f t x u)) =
    Function.update (fun u => threadState (f u)) t (threadState x) := by
  funext u
  by_cases hu : u = t
  · subst hu
    simp only [Function.update_self]
  · simp only [Function.update_of_ne hu]

theorem waits_update (hf : ∀ t, Waits (f t)) (hx : Waits x) (u : T) : Waits (Function.update f t x u) :=
  forall_update (Q := fun _ x => Waits x) (fun u _ => hf u) hx u

theorem rouse_waits (hx : Waits x) : Waits (sleepers.rouse x) := by
  cases x <;> exact hx

theorem wokenAll_waits (hf : ∀ t, Waits (f t)) (h : WokenAll sleepers ws f g) (t : T) : Waits (g t) := by
  rcases h.place t with hsame | ⟨_,_,hroused⟩
  · rw [hsame]
    exact hf t
  · rw [hroused]
    exact rouse_waits (hf t)

theorem threadState_asleepOn (hx : Waits x) : ThreadState.sleepers.asleepOn (threadState x) = sleepers.asleepOn x := by
  cases x with
  | asleep c k p =>
    obtain ⟨_,b,hb,rfl⟩ := hx
    rw [threadState_asleep hb]
    rfl
  | awake c k p notified =>
    obtain ⟨_,b,hb,_⟩ := hx
    rw [threadState_awake hb]
    cases notified <;> rfl
  | _ => rfl

theorem threadState_rouse {k : Condition} (hx : Waits x) (hk : sleepers.asleepOn x = some k) :
    threadState (sleepers.rouse x) = ThreadState.sleepers.rouse (threadState x) := by
  cases x with
  | asleep c k p =>
    obtain ⟨_,b,hb,_⟩ := hx
    rw [threadState_asleep hb]
    exact threadState_awake hb true
  | _ => cases hk

theorem wokenAll_threadState (hf : ∀ t, Waits (f t)) (h : WokenAll sleepers ws f g) :
    WokenAll ThreadState.sleepers ws (fun t => threadState (f t)) (fun t => threadState (g t)) :=
  h.map (Q := Waits) (fun _ => rouse_waits) (fun _ => threadState_asleepOn) (fun _ _ => threadState_rouse) hf

/-- A thread that starts a section may run it in the waiting model. -/
theorem starts_ready {c : Call α} {p : Point α} (hx : Waits x) (h : x.Starts msgQueueRoutines c p) :
    p = sectionOf c ∧ (threadState x).Ready c := by
  cases x with
  | calling c' =>
    obtain ⟨rfl,_,rfl⟩ := h
    exact ⟨rfl,trivial⟩
  | awake c' k p' notified =>
    obtain ⟨rfl,rfl⟩ := h
    obtain ⟨hp,b,hb,_⟩ := hx
    refine ⟨hp,?_⟩
    rw [threadState_awake hb]
    cases notified <;> exact hb
  | _ => exact h.elim

theorem toMonitor_update (h : threadState (a.threads t) = threadState x) :
    toMonitor { a with threads := Function.update a.threads t x } = toMonitor a := by
  simp only [toMonitor]
  rw [threadState_update, ← h, Function.update_eq_self]

/-- A critical section is a step of the waiting model; calls and returns are none. -/
theorem step_monitor {events : List (Event T (Call α) (Answer α))} (ha : ∀ t, Waits (a.threads t))
    (h : AtomicStep msgQueueRoutines a events a') :
    (∀ t, Waits (a'.threads t)) ∧ (toMonitor a' = toMonitor a ∨ Step (toMonitor a) (toMonitor a')) := by
  cases h with
  | @invoke t c ht =>
    refine ⟨waits_update (x := .calling c) ha trivial,Or.inl ?_⟩
    exact toMonitor_update (by rw [ht]; rfl)
  | returnEarly _ hearly => cases hearly
  | @respond t c b ht =>
    refine ⟨waits_update (x := .idle) ha trivial,Or.inl ?_⟩
    exact toMonitor_update (by rw [ht]; rfl)
  | @wakeSpuriously t c k p ht =>
    have hwaits := ha t
    rw [ht] at hwaits
    refine ⟨waits_update (x := .awake c k p false) ha hwaits,Or.inr ?_⟩
    obtain ⟨_,b,hb,_⟩ := hwaits
    simp only [toMonitor]
    rw [threadState_update, threadState_awake hb]
    exact .wakeSpuriously (s := toMonitor a) (by simp only [toMonitor, ht, threadState_asleep hb])
  | @finish t c p q ws f m b hstarts hsection hcode hwoken =>
    refine ⟨waits_update (x := .returning c b) (wokenAll_waits ha hwoken) trivial,Or.inr ?_⟩
    obtain ⟨rfl,hready⟩ := starts_ready (ha t) hstarts
    obtain ⟨hwakes,hexec⟩ := section_answers hsection hcode
    have hmoved := hwoken.update (x := .returning c b) (hwoken.of_awake hstarts.awake) rfl
    have hall := wokenAll_threadState (waits_update (x := .returning c b) ha trivial) hmoved
    rw [hwakes, threadState_update] at hall
    exact .finish (s := toMonitor a) hready hexec hall
  | @park t c k p q next ws f m hstarts hsection hcode hwoken =>
    obtain ⟨rfl,hready⟩ := starts_ready (ha t) hstarts
    obtain ⟨rfl,rfl,rfl,b,rfl,rfl,hnone⟩ := section_waits hsection hcode
    cases hwoken
    have hwaits : Waits (.asleep b.call b.condition (sectionOf b.call)) := ⟨rfl,b,rfl,rfl⟩
    refine ⟨waits_update ha hwaits,Or.inr ?_⟩
    simp only [toMonitor]
    rw [threadState_update, threadState_asleep rfl]
    exact .park (s := toMonitor a) hready hnone

theorem run_monitor {memory : ℕ → α} {capacity : ℕ} {trace : List (Event T (Call α) (Answer α))}
    (h : Run (AtomicStep msgQueueRoutines) (.start (fresh memory capacity)) trace a) :
    (∀ t, Waits (a.threads t)) ∧ Reachable memory capacity (toMonitor a) := by
  induction h with
  | refl => exact ⟨fun _ => trivial,.refl⟩
  | tail _ hstep ih =>
    obtain ⟨hwaits,hreach⟩ := ih
    obtain ⟨hwaits',hsame | hnext⟩ := step_monitor hwaits hstep
    · exact ⟨hwaits',by rwa [hsame]⟩
    · exact ⟨hwaits',hreach.tail hnext⟩

end Waiters

section Results
variable {T : Type*} [DecidableEq T] {memory : ℕ → α} {capacity : ℕ} {trace : List (Event T (Call α) (Answer α))}
  {s : State T (Call α) Condition (MsgQueue α) (Point α) (Answer α)}

/-- How many statements are left up to the unlock or the wait, at most. -/
def Point.rank : Point α → ℕ
  | .enqueueTest _ | .dequeueTest => 6
  | .enqueueGuard _ | .tryEnqueueTest _ | .dequeueGuard => 5
  | .store _ | .load | .resetHead => 4
  | .advanceTail | .advanceHead _ | .setFlag | .resetTail => 3
  | .countUp | .countDown _ | .broadcastNotEmpty | .resetSize => 2
  | .signalNotEmpty | .signalNotFull _ | .broadcastNotFull | .readSize => 1
  | .enqueueWait _ | .dequeueWait | .unlock _ => 0

theorem rank_descends : Descends (msgQueueRoutines (α := α)) Point.rank := by
  intro p
  cases p with
  | enqueueTest | enqueueGuard | tryEnqueueTest | dequeueTest | dequeueGuard =>
    intro m
    dsimp only
    split <;> simp [Point.rank]
  | enqueueWait | dequeueWait | unlock => exact trivial
  | signalNotEmpty | signalNotFull | broadcastNotEmpty | broadcastNotFull => exact Nat.lt_succ_self _
  | _ => exact fun _ => Nat.lt_succ_self _

/-- Statement by statement, whatever the threads and the schedule, a queue of `msg_queue.c`
is linearizable: its calls and returns are those of a bounded FIFO list that serves each
call at one moment between its invocation and its return. While no thread is in a critical
section, the memory is the list after all calls answered so far. -/
theorem msgQueue_linearizable (hpos : 1 ≤ capacity) (hcap : capacity < sizeRange)
    (h : Run (AnyStep msgQueueRoutines) (.start (fresh memory capacity)) trace s) :
    Linearizable BoundedFifo.exec (BoundedFifo.empty capacity) (trace.filter Event.visible) ∧
    (s.mutex = none → s.memory.WellFormed ∧
      Serves BoundedFifo.exec (BoundedFifo.empty capacity) trace s.memory.toFifo) := by
  have hfresh := fresh_wellFormed memory hpos hcap
  refine ⟨run_linearizable msgQueue_implements hfresh h,fun hfree => ?_⟩
  obtain ⟨a,hrun,hlags⟩ := run_lags h
  have hserved := run_served msgQueue_implements hfresh hrun
  cases hlags with
  | free m f hnot => exact ⟨hserved.memory,hserved.serves⟩
  | held => cases hfree

/-- A consumer waits on a queue of one slot; a producer stores 7 and wakes it, and the
consumer takes the item before the producer has returned. -/
def Handover (trace : List (Event Bool (Call ℕ) (Answer ℕ)))
    (s : State Bool (Call ℕ) Condition (MsgQueue ℕ) (Point ℕ) (Answer ℕ)) : Prop :=
  Run (AnyStep msgQueueRoutines) (.start (fresh (fun _ => 0) 1)) trace s ∧ s.mutex = none ∧
  trace.filter Event.visible = [.invoke false .dequeue,.invoke true (.enqueue 7),
    .respond false .dequeue (.item (some 7)),.respond true (.enqueue 7) (.flag true)]

/-- On its way the consumer sleeps while the producer is idle, and then the producer is about
to store its item. -/
theorem handover_runs :
    (∃ trace s, Run (AnyStep (T := Bool) (msgQueueRoutines (α := ℕ))) (.start (fresh (fun _ => 0) 1)) trace s ∧
      s.threads false = .asleep .dequeue .notEmpty .dequeueTest ∧ s.threads true = .idle) ∧
    (∃ trace s, Run (AnyStep (T := Bool) (msgQueueRoutines (α := ℕ))) (.start (fresh (fun _ => 0) 1)) trace s ∧
      s.threads true = .running (.enqueue 7) (.store 7)) ∧
    ∃ trace s, Handover trace s := by
  have h : Run (AnyStep (T := Bool) (msgQueueRoutines (α := ℕ))) (.start (fresh (fun _ => 0) 1)) [] _ := .refl
  replace h := h.tail ⟨false,.invoke (c := .dequeue) rfl⟩
  replace h := h.tail ⟨false,.lock rfl rfl rfl⟩
  replace h := h.tail ⟨false,.access rfl rfl⟩
  replace h := h.tail ⟨false,.wait rfl rfl⟩
  refine ⟨⟨_,_,h,rfl,rfl⟩,?_⟩
  replace h := h.tail ⟨true,.invoke (c := .enqueue 7) rfl⟩
  replace h := h.tail ⟨true,.lock rfl rfl rfl⟩
  replace h := h.tail ⟨true,.access rfl rfl⟩
  replace h := h.tail ⟨true,.access rfl rfl⟩
  refine ⟨⟨_,_,h,rfl⟩,?_⟩
  replace h := h.tail ⟨true,.access rfl rfl⟩
  replace h := h.tail ⟨true,.access rfl rfl⟩
  replace h := h.tail ⟨true,.access rfl rfl⟩
  replace h := h.tail ⟨true,.signal rfl rfl (.signal (t := false) rfl)⟩
  replace h := h.tail ⟨true,.unlock rfl rfl⟩
  replace h := h.tail ⟨false,.relock rfl rfl⟩
  replace h := h.tail ⟨false,.access rfl rfl⟩
  replace h := h.tail ⟨false,.access rfl rfl⟩
  replace h := h.tail ⟨false,.access rfl rfl⟩
  replace h := h.tail ⟨false,.access rfl rfl⟩
  replace h := h.tail ⟨false,.access rfl rfl⟩
  replace h := h.tail ⟨false,.signal rfl rfl (.nobody fun t ht => by cases t <;> cases ht)⟩
  replace h := h.tail ⟨false,.unlock rfl rfl⟩
  replace h := h.tail ⟨false,.respond rfl⟩
  replace h := h.tail ⟨true,.respond rfl⟩
  exact ⟨_,_,h,rfl,rfl⟩

theorem msgQueue_linearizable_handover : ∃ trace s, Handover trace s ∧
    Linearizable BoundedFifo.exec (BoundedFifo.empty 1) (trace.filter Event.visible) := by
  obtain ⟨_,_,trace,s,h⟩ := handover_runs
  exact ⟨trace,s,h,(msgQueue_linearizable le_rfl (by decide) h.1).1⟩

variable [Fintype T]

/-- Statement by statement, the threads of a queue exclude each other and do not get stuck.
A thread inside a critical section has the mutex, and at most seven of its own statements
give it back. If no thread in a call can execute its next statement, the mutex is free, all
of them wait, and rightly so: the queue is not shut down, it is empty if one of them waits
for an item, and full if one of them waits for room. -/
theorem msgQueue_progress (hpos : 1 ≤ capacity) (hcap : capacity < sizeRange)
    (h : Run (AnyStep msgQueueRoutines) (.start (fresh memory capacity)) trace s) :
    (∀ t c p, s.threads t = .running c p → s.mutex = some t ∧
      ∃ n ≤ 7, ∃ s', Alone msgQueueRoutines t n s s' ∧ s'.mutex = none) ∧
    ((∀ t, ¬ Advances msgQueueRoutines s t) → s.mutex = none ∧ ∀ t, s.threads t = .idle ∨
      ∃ b : Blocking α, s.threads t = .asleep b.call b.condition (sectionOf b.call) ∧
        s.memory.shuttingDown = false ∧ (b.condition = .notEmpty → s.memory.buffer.size = 0) ∧
        (b.condition = .notFull → s.memory.buffer.size = capacity)) := by
  obtain ⟨a,hrun,hlags⟩ := run_lags h
  refine ⟨fun t c p ht => ⟨(hlags.running ht).1,?_⟩,fun hstuck => ?_⟩
  · obtain ⟨n,hn,hreleases⟩ := releases rank_descends ht
    have hrank : p.rank ≤ 6 := by cases p <;> simp [Point.rank]
    exact ⟨n,by omega,hreleases⟩
  · obtain ⟨hfree,hasleep⟩ := hlags.stuck hstuck
    refine ⟨hfree,fun t => (hasleep t).imp_right fun ht => ?_⟩
    obtain ⟨hwaits,hreach⟩ := run_monitor hrun
    obtain ⟨hinv,hcapacity⟩ := reachable_noLostWakeup hpos hcap hreach
    cases hlags with
    | held => cases hfree
    | free m f hnot =>
      dsimp only at ht hasleep ⊢
      have hplace := hwaits t
      -- nobody has been woken, so the balance of the wakeups leaves nothing to take
      have hnobody : ∀ k, awakened k (fun t => threadState (f t)) = 0 := by
        refine fun k => Counting.count_eq_zero_iff.mpr fun u hu => ?_
        rcases hasleep u with hidle | hsleeps
        · rw [hidle] at hu
          exact hu
        · have hwaitsu := hwaits u
          cases hf : f u with
          | asleep c k' p =>
            dsimp only at hwaitsu
            rw [hf] at hwaitsu
            obtain ⟨_,b,hb,_⟩ := hwaitsu
            rw [hf, threadState_asleep hb] at hu
            exact hu
          | _ =>
            rw [hf] at hsleeps
            exact hsleeps
      cases hf : f t with
      | asleep c k p =>
        dsimp only at hplace
        rw [hf] at hplace
        obtain ⟨rfl,b,rfl,rfl⟩ := hplace
        have hsleeping : 0 < sleeping b.condition (fun t => threadState (f t)) :=
          Counting.count_pos_iff.mpr ⟨t,by rw [hf, threadState_asleep rfl]; rfl⟩
        refine ⟨b,rfl,?_,fun hb => ?_,fun hb => ?_⟩
        · cases hshut : m.shuttingDown with
          | false => rfl
          | true => exact absurd (hinv.shut hshut b.condition) hsleeping.ne'
        · have hitems := hinv.items (by rw [← hb]; exact hsleeping)
          have hzero := hnobody .notEmpty
          simp only [toMonitor] at hitems
          omega
        · have hslots := hinv.slots (by rw [← hb]; exact hsleeping)
          have hle := hinv.wellFormed.size_le
          have hzero := hnobody .notFull
          simp only [toMonitor] at hslots hle hcapacity
          omega
      | _ =>
        rw [hf] at ht
        exact ht.elim

theorem msgQueue_progress_handover :
    (∃ trace s, Run (AnyStep (T := Bool) (msgQueueRoutines (α := ℕ))) (.start (fresh (fun _ => 0) 1)) trace s ∧
      s.threads false = .asleep .dequeue .notEmpty .dequeueTest ∧ (∀ t, ¬ Advances msgQueueRoutines s t) ∧
      s.mutex = none ∧ s.memory.shuttingDown = false ∧ s.memory.buffer.size = 0) ∧
    ∃ trace s, Run (AnyStep (T := Bool) (msgQueueRoutines (α := ℕ))) (.start (fresh (fun _ => 0) 1)) trace s ∧
      s.threads true = .running (.enqueue 7) (.store 7) ∧ s.mutex = some true ∧
      ∃ n ≤ 7, ∃ s', Alone msgQueueRoutines true n s s' ∧ s'.mutex = none := by
  obtain ⟨⟨trace,s,h,hasleep,hidle⟩,⟨trace',s',h',hstores⟩,_⟩ := handover_runs
  refine ⟨⟨trace,s,h,hasleep,?_⟩,⟨trace',s',h',hstores,(msgQueue_progress le_rfl (by decide) h').1 _ _ _ hstores⟩⟩
  have hstuck : ∀ t, ¬ Advances msgQueueRoutines s t := by
    rintro (_ | _) ⟨hcalls,hawake,_⟩
    · exact hawake (hasleep ▸ trivial)
    · exact hcalls hidle
  obtain ⟨hfree,hwaits⟩ := (msgQueue_progress le_rfl (by decide) h).2 hstuck
  rcases hwaits false with hidle' | ⟨b,hb,hopen,hempty,_⟩
  · rw [hasleep] at hidle'
    cases hidle'
  · rw [hasleep] at hb
    cases b <;> cases hb
    exact ⟨hstuck,hfree,hopen,hempty rfl⟩

end Results
end RadioSim.Queue
