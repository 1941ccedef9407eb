import RadioSim.Queue.Refinement
import RadioSim.Foundation.Counting
import RadioSim.Foundation.Waking
import Mathlib.Logic.Relation
import Mathlib.Tactic.FinCases

/-! # Threads waiting on the condition variables of a queue

Any number of threads call any operation of one queue. A state lies between two
critical sections. A thread in `pthread_cond_wait` is un-notified until a signal
or a broadcast reaches it or it wakes spuriously; an awake waiter competes for
the mutex with every other thread and rechecks its loop when it gets it.
-/
namespace RadioSim.Queue
open BoundedFifo Counting Waking
variable {α : Type*}

inductive Condition
  | notEmpty
  | notFull
  deriving DecidableEq

inductive Blocking (α : Type*)
  | enqueue (item : α)
  | dequeue

def Blocking.call : Blocking α → Call α
  | .enqueue x => .enqueue x
  | .dequeue => .dequeue

def Blocking.condition : Blocking α → Condition
  | .enqueue _ => .notFull
  | .dequeue => .notEmpty

inductive ThreadState (α : Type*)
  | outside
  | unnotified (wait : Blocking α)
  | notified (wait : Blocking α)
  | spurious (wait : Blocking α)

def ThreadState.UnnotifiedOn (c : Condition) : ThreadState α → Prop
  | .unnotified b => b.condition = c
  | _ => False

def ThreadState.NotifiedOn (c : Condition) : ThreadState α → Prop
  | .notified b => b.condition = c
  | _ => False

instance (c : Condition) : DecidablePred (ThreadState.UnnotifiedOn (α := α) c)
  | .unnotified b => inferInstanceAs (Decidable (b.condition = c))
  | .outside => isFalse id
  | .notified _ => isFalse id
  | .spurious _ => isFalse id

instance (c : Condition) : DecidablePred (ThreadState.NotifiedOn (α := α) c)
  | .notified b => inferInstanceAs (Decidable (b.condition = c))
  | .outside => isFalse id
  | .unnotified _ => isFalse id
  | .spurious _ => isFalse id

def ThreadState.sleepers : Sleepers Condition (ThreadState α) where
  asleepOn
    | .unnotified b => some b.condition
    | _ => none
  rouse
    | .unnotified b => .notified b
    | st => st
  rouse_awake st := by cases st <;> rfl

theorem ThreadState.asleepOn_iff {c : Condition} {st : ThreadState α} :
    sleepers.asleepOn st = some c ↔ st.UnnotifiedOn c := by
  cases st <;> simp [sleepers, UnnotifiedOn]

/-- The `pthread_cond_*` calls at the end of a critical section. -/
def wakes : Call α → Answer α → List (Wake Condition)
  | .enqueue _, .flag true => [.signal .notEmpty]
  | .tryEnqueue _, .flag true => [.signal .notEmpty]
  | .dequeue, .item (some _) => [.signal .notFull]
  | .tryDequeue, .item (some _) => [.signal .notFull]
  | .clear, _ => [.broadcast .notFull]
  | .shutdown, _ => [.broadcast .notEmpty,.broadcast .notFull]
  | _, _ => []

section Threads
variable {T : Type*} [DecidableEq T]

structure Monitor (T α : Type*) where
  queue : MsgQueue α
  threads : T → ThreadState α

/-- Who may run the critical section of a call: a thread that makes the call now,
or a waiter of this call that is awake. -/
def ThreadState.Ready (c : Call α) : ThreadState α → Prop
  | .outside => True
  | .unnotified _ => False
  | .notified b => c = b.call
  | .spurious b => c = b.call

inductive Step : Monitor T α → Monitor T α → Prop
  | finish {s : Monitor T α} {t : T} {c : Call α} {a : Answer α} {q : MsgQueue α}
      {f : T → ThreadState α} (ready : (s.threads t).Ready c) (done : exec s.queue c = some (a,q))
      (woken : WokenAll ThreadState.sleepers (wakes c a) (Function.update s.threads t .outside) f) : Step s ⟨q,f⟩
  | park {s : Monitor T α} {t : T} {b : Blocking α} (ready : (s.threads t).Ready b.call)
      (waits : exec s.queue b.call = none) :
      Step s ⟨s.queue,Function.update s.threads t (.unnotified b)⟩
  | wakeSpuriously {s : Monitor T α} {t : T} {b : Blocking α} (parked : s.threads t = .unnotified b) :
      Step s ⟨s.queue,Function.update s.threads t (.spurious b)⟩

def start (memory : ℕ → α) (capacity : ℕ) : Monitor T α := ⟨fresh memory capacity,fun _ => .outside⟩

def Reachable (memory : ℕ → α) (capacity : ℕ) : Monitor T α → Prop :=
  Relation.ReflTransGen Step (start memory capacity)

variable [Fintype T]

abbrev sleeping (c : Condition) (f : T → ThreadState α) : ℕ := count (ThreadState.UnnotifiedOn c) f
abbrev awakened (c : Condition) (f : T → ThreadState α) : ℕ := count (ThreadState.NotifiedOn c) f

theorem sleeping_update (c : Condition) (f : T → ThreadState α) (t : T) (st : ThreadState α) :
    sleeping c (Function.update f t st) + (if (f t).UnnotifiedOn c then 1 else 0) =
      sleeping c f + (if st.UnnotifiedOn c then 1 else 0) := count_update f t st

theorem awakened_update (c : Condition) (f : T → ThreadState α) (t : T) (st : ThreadState α) :
    awakened c (Function.update f t st) + (if (f t).NotifiedOn c then 1 else 0) =
      awakened c f + (if st.NotifiedOn c then 1 else 0) := count_update f t st

/-- A signal moves one waiter of its condition from asleep to awake, if any sleeps. -/
theorem signal_counts {c : Condition} {f g : T → ThreadState α} (h : Woken ThreadState.sleepers (.signal c) f g) :
    (sleeping c g = 0 ∨ (sleeping c g + 1 = sleeping c f ∧ awakened c g = awakened c f + 1)) ∧
    ∀ d, d ≠ c → sleeping d g = sleeping d f ∧ awakened d g = awakened d f := by
  cases h with
  | @signal _ t _ ht =>
    cases hf : f t with
    | unnotified b =>
      rw [hf] at ht
      cases ht
      change (sleeping _ (Function.update f t (.notified b)) = 0 ∨ _) ∧ _
      refine ⟨Or.inr ?_,?_⟩
      · have hs := sleeping_update b.condition f t (.notified b)
        have ha := awakened_update b.condition f t (.notified b)
        simp only [hf, ThreadState.UnnotifiedOn, ThreadState.NotifiedOn, ↓reduceIte] at hs ha
        exact ⟨hs,ha⟩
      · intro d hd
        have hs := sleeping_update d f t (.notified b)
        have ha := awakened_update d f t (.notified b)
        simp only [hf, ThreadState.UnnotifiedOn, ThreadState.NotifiedOn, hd.symm, ↓reduceIte] at hs ha
        exact ⟨hs,ha⟩
    | _ =>
      rw [hf] at ht
      cases ht
  | nobody hn =>
    exact ⟨Or.inl (count_eq_zero_iff.mpr fun t ht => hn t (ThreadState.asleepOn_iff.mpr ht)),fun _ _ => ⟨rfl,rfl⟩⟩

theorem notify_self (c : Condition) (st : ThreadState α) : ¬ (ThreadState.sleepers.notify c st).UnnotifiedOn c := by
  rw [← ThreadState.asleepOn_iff, Sleepers.notify]
  split
  · simp [ThreadState.sleepers.rouse_awake]
  · assumption

theorem notify_other {c d : Condition} (hd : d ≠ c) (st : ThreadState α) :
    ((ThreadState.sleepers.notify c st).UnnotifiedOn d ↔ st.UnnotifiedOn d) ∧
    ((ThreadState.sleepers.notify c st).NotifiedOn d ↔ st.NotifiedOn d) := by
  cases st with
  | unnotified b =>
    by_cases hb : b.condition = c
    · simp [Sleepers.notify, ThreadState.sleepers, ThreadState.UnnotifiedOn, ThreadState.NotifiedOn, hb, hd.symm]
    · simp [Sleepers.notify, ThreadState.sleepers, ThreadState.UnnotifiedOn, ThreadState.NotifiedOn, hb]
  | outside | notified | spurious => exact ⟨Iff.rfl,Iff.rfl⟩

/-- A broadcast leaves nobody asleep on its condition. -/
theorem broadcast_counts {c : Condition} {f g : T → ThreadState α}
    (h : Woken ThreadState.sleepers (.broadcast c) f g) :
    sleeping c g = 0 ∧ ∀ d, d ≠ c → sleeping d g = sleeping d f ∧ awakened d g = awakened d f := by
  cases h
  refine ⟨count_eq_zero_iff.mpr fun t => notify_self c (f t),fun d hd => ?_⟩
  simp only [sleeping, awakened, count, (notify_other hd _).1, (notify_other hd _).2, and_self]

/-- A thread that gets the mutex was not asleep; if it was notified, it was
notified for the very call it now finishes. -/
theorem ready_leave {c : Call α} {f : T → ThreadState α} {t : T} (h : (f t).Ready c) (d : Condition) :
    sleeping d (Function.update f t .outside) = sleeping d f ∧
    (awakened d (Function.update f t .outside) = awakened d f ∨
      (awakened d (Function.update f t .outside) + 1 = awakened d f ∧
        ∃ b : Blocking α, c = b.call ∧ b.condition = d)) := by
  have hs := sleeping_update d f t .outside
  have ha := awakened_update d f t .outside
  cases hf : f t with
  | outside =>
    simp only [hf, ThreadState.UnnotifiedOn, ThreadState.NotifiedOn, ↓reduceIte] at hs ha
    exact ⟨hs,Or.inl ha⟩
  | unnotified b => simp [hf, ThreadState.Ready] at h
  | spurious b =>
    simp only [hf, ThreadState.UnnotifiedOn, ThreadState.NotifiedOn, ↓reduceIte] at hs ha
    exact ⟨hs,Or.inl ha⟩
  | notified b =>
    simp only [hf, ThreadState.UnnotifiedOn, ThreadState.NotifiedOn, ↓reduceIte] at hs ha
    refine ⟨hs,?_⟩
    by_cases hb : b.condition = d
    · simp only [hb, ↓reduceIte] at ha
      exact Or.inr ⟨ha,b,by simpa [hf, ThreadState.Ready] using h,hb⟩
    · simp only [hb, ↓reduceIte] at ha
      exact Or.inl ha

end Threads

/-- What a finished critical section can have done to the queue, with the
notifications it sent. -/
inductive Effect (q r : MsgQueue α) (c : Call α) : List (Wake Condition) → Prop
  | pushed (room : q.buffer.size < q.buffer.capacity) (size : r.buffer.size = q.buffer.size + 1)
      (flag : r.shuttingDown = q.shuttingDown) (call : c ≠ .dequeue) : Effect q r c [.signal .notEmpty]
  | popped (size : r.buffer.size + 1 = q.buffer.size) (flag : r.shuttingDown = q.shuttingDown)
      (call : ∀ x, c ≠ .enqueue x) : Effect q r c [.signal .notFull]
  | cleared (size : r.buffer.size = 0) (flag : r.shuttingDown = q.shuttingDown) (call : c = .clear) :
      Effect q r c [.broadcast .notFull]
  | shut (size : r.buffer.size = q.buffer.size) (flag : r.shuttingDown = true) (call : c = .shutdown) :
      Effect q r c [.broadcast .notEmpty,.broadcast .notFull]
  | nothing (same : r = q) (blocked : ∀ b : Blocking α, c = b.call → q.shuttingDown = true) :
      Effect q r c []

section Effects
variable {q r : MsgQueue α} {c : Call α} {a : Answer α}

theorem tryEnqueue_effect (h : q.WellFormed) {x : α} (hc : c ≠ .dequeue)
    (hfull : q.buffer.size ≥ q.buffer.capacity →
      ∀ b : Blocking α, c = b.call → q.shuttingDown = true) :
    Effect q (msgQueueTryEnqueue q x).2 c
      (if (msgQueueTryEnqueue q x).1 then [.signal .notEmpty] else []) := by
  unfold msgQueueTryEnqueue
  by_cases hs : q.buffer.size ≥ q.buffer.capacity
  · simp only [hs, ↓reduceIte]
    exact .nothing rfl (hfull hs)
  · have hroom : q.buffer.size < q.buffer.capacity := by omega
    simp only [hs, ↓reduceIte]
    exact .pushed hroom (sizeAdd_of_lt (h.index_sums_lt.2.2 hroom)) rfl hc

theorem tryDequeue_effect (h : q.WellFormed) (hc : ∀ x, c ≠ .enqueue x)
    (hempty : q.buffer.size = 0 → ∀ b : Blocking α, c = b.call → q.shuttingDown = true) :
    Effect q (msgQueueTryDequeue q).2 c
      (if (msgQueueTryDequeue q).1.isSome then [.signal .notFull] else []) := by
  unfold msgQueueTryDequeue
  by_cases hs : q.buffer.size = 0
  · simp only [hs, ↓reduceIte]
    exact .nothing rfl (hempty hs)
  · have hpos : 0 < q.buffer.size := Nat.pos_of_ne_zero hs
    have hsub := sizeSub_of_le (h.size_le.trans_lt h.capacity_lt) hpos
    simp only [hs, ↓reduceIte, Option.isSome_some]
    refine .popped ?_ rfl hc
    simp only [QueueBuffer.pop, hsub]
    omega

theorem exec_effect (h : q.WellFormed) (he : exec q c = some (a,r)) : Effect q r c (wakes c a) := by
  cases c with
  | enqueue x =>
    simp only [exec, enqueue_eq] at he
    cases hw : q.enqueueWaits with
    | true => simp [hw] at he
    | false =>
      simp only [hw, Bool.false_eq_true, ↓reduceIte, Option.map_some, Option.some.injEq,
        Prod.mk.injEq] at he
      obtain ⟨rfl,rfl⟩ := he
      have heff := tryEnqueue_effect h (x := x) (c := .enqueue x) (by simp) (fun hs _ _ => by
        simpa [MsgQueue.enqueueWaits, hs] using hw)
      cases hf : (msgQueueTryEnqueue q x).1 <;> simpa [hf, wakes] using heff
  | tryEnqueue x =>
    cases he
    have heff := tryEnqueue_effect h (x := x) (c := .tryEnqueue x) (by simp) (fun _ b hb => by
      cases b <;> simp [Blocking.call] at hb)
    cases hf : (msgQueueTryEnqueue q x).1 <;> simpa [hf, wakes] using heff
  | dequeue =>
    simp only [exec, dequeue_eq] at he
    cases hw : q.dequeueWaits with
    | true => simp [hw] at he
    | false =>
      simp only [hw, Bool.false_eq_true, ↓reduceIte, Option.map_some, Option.some.injEq,
        Prod.mk.injEq] at he
      obtain ⟨rfl,rfl⟩ := he
      have heff := tryDequeue_effect h (c := .dequeue) (by simp) (fun hs _ _ => by
        simpa [MsgQueue.dequeueWaits, hs] using hw)
      cases hf : (msgQueueTryDequeue q).1 <;> simpa [hf, wakes] using heff
  | tryDequeue =>
    cases he
    have heff := tryDequeue_effect h (c := .tryDequeue) (by simp) (fun _ b hb => by
      cases b <;> simp [Blocking.call] at hb)
    cases hf : (msgQueueTryDequeue q).1 <;> simpa [hf, wakes] using heff
  | size =>
    cases he
    exact .nothing rfl (fun b hb => by cases b <;> simp [Blocking.call] at hb)
  | clear => cases he; exact .cleared rfl rfl rfl
  | shutdown => cases he; exact .shut rfl rfl rfl

/-- A blocking call waits only where there is nothing to take or no room. -/
theorem exec_waits {b : Blocking α} (hw : exec q b.call = none) :
    q.shuttingDown = false ∧ (b.condition = .notEmpty → q.buffer.size = 0) ∧
      (b.condition = .notFull → q.buffer.capacity ≤ q.buffer.size) := by
  cases b with
  | enqueue x =>
    simp only [Blocking.call, exec, enqueue_eq] at hw
    split at hw
    · rename_i hwait
      simp only [MsgQueue.enqueueWaits, Bool.and_eq_true, decide_eq_true_eq, Bool.not_eq_true'] at hwait
      exact ⟨hwait.2,by simp [Blocking.condition],fun _ => hwait.1⟩
    · simp at hw
  | dequeue =>
    simp only [Blocking.call, exec, dequeue_eq] at hw
    split at hw
    · rename_i hwait
      simp only [MsgQueue.dequeueWaits, Bool.and_eq_true, decide_eq_true_eq, Bool.not_eq_true'] at hwait
      exact ⟨hwait.2,fun _ => hwait.1,by simp [Blocking.condition]⟩
    · simp at hw

end Effects

section Invariant
variable {T : Type*} [DecidableEq T] [Fintype T]

/-- While somebody sleeps, enough others have been woken for everything that is
there to be taken; nobody sleeps on a queue that is shut down. -/
structure NoLostWakeup (s : Monitor T α) : Prop where
  wellFormed : s.queue.WellFormed
  items : 0 < sleeping .notEmpty s.threads → s.queue.buffer.size ≤ awakened .notEmpty s.threads
  slots : 0 < sleeping .notFull s.threads →
    s.queue.buffer.capacity - s.queue.buffer.size ≤ awakened .notFull s.threads
  shut : s.queue.shuttingDown = true → ∀ c, sleeping c s.threads = 0

theorem Blocking.call_condition {b d : Blocking α} (h : b.call = d.call) : b.condition = d.condition := by
  cases b <;> cases d <;> simp_all [Blocking.call, Blocking.condition]

/-- A thread that goes to sleep found nothing for itself. -/
theorem park_noLostWakeup {s : Monitor T α} (hs : NoLostWakeup s) {t : T} {b : Blocking α}
    (hr : (s.threads t).Ready b.call) (hw : exec s.queue b.call = none) :
    NoLostWakeup ⟨s.queue,Function.update s.threads t (.unnotified b)⟩ := by
  obtain ⟨hflag,hempty,hfull⟩ := exec_waits hw
  -- who parks has found its own condition false, so only the other one is in question
  have hother : ∀ d, b.condition ≠ d →
      sleeping d (Function.update s.threads t (.unnotified b)) = sleeping d s.threads ∧
      awakened d (Function.update s.threads t (.unnotified b)) = awakened d s.threads := by
    intro d hd
    obtain ⟨hsl,haw⟩ := ready_leave hr d
    have hs2 := sleeping_update d (Function.update s.threads t .outside) t (.unnotified b)
    have ha2 := awakened_update d (Function.update s.threads t .outside) t (.unnotified b)
    simp only [Function.update_idem, Function.update_self, ThreadState.UnnotifiedOn,
      ThreadState.NotifiedOn, hd, ↓reduceIte] at hs2 ha2
    rcases haw with haw | ⟨_,e,he,hcond⟩
    · omega
    · exact absurd ((Blocking.call_condition he).trans hcond) hd
  refine ⟨hs.wellFormed,?_,?_,fun h => by simp [hflag] at h⟩
  · intro hpos
    dsimp only at hpos ⊢
    by_cases hb : b.condition = .notEmpty
    · have := hempty hb
      omega
    · rw [(hother _ hb).1] at hpos
      rw [(hother _ hb).2]
      exact hs.items hpos
  · intro hpos
    dsimp only at hpos ⊢
    by_cases hb : b.condition = .notFull
    · have := hfull hb
      omega
    · rw [(hother _ hb).1] at hpos
      rw [(hother _ hb).2]
      exact hs.slots hpos

/-- A spurious wakeup takes a sleeper away and notifies nobody. -/
theorem spurious_noLostWakeup {s : Monitor T α} (hs : NoLostWakeup s) {t : T} {b : Blocking α}
    (ht : s.threads t = .unnotified b) :
    NoLostWakeup ⟨s.queue,Function.update s.threads t (.spurious b)⟩ := by
  have hle : ∀ d, sleeping d (Function.update s.threads t (.spurious b)) ≤ sleeping d s.threads ∧
      awakened d (Function.update s.threads t (.spurious b)) = awakened d s.threads := by
    intro d
    have hsl := sleeping_update d s.threads t (.spurious b)
    have haw := awakened_update d s.threads t (.spurious b)
    simp only [ht, ThreadState.UnnotifiedOn, ThreadState.NotifiedOn, ↓reduceIte] at hsl haw
    omega
  refine ⟨hs.wellFormed,?_,?_,?_⟩
  · intro hpos
    rw [(hle _).2]
    exact hs.items (hpos.trans_le (hle _).1)
  · intro hpos
    rw [(hle _).2]
    exact hs.slots (hpos.trans_le (hle _).1)
  · intro hshut c
    have := hs.shut hshut c
    have := (hle c).1
    dsimp only
    omega

/-- Every critical section restores the balance with the notifications it sends. -/
theorem finish_noLostWakeup {s : Monitor T α} (hs : NoLostWakeup s) {t : T} {c : Call α} {a : Answer α}
    {q : MsgQueue α} {f : T → ThreadState α} (hr : (s.threads t).Ready c)
    (he : exec s.queue c = some (a,q))
    (hw : WokenAll ThreadState.sleepers (wakes c a) (Function.update s.threads t .outside) f) : NoLostWakeup ⟨q,f⟩ := by
  obtain ⟨hq,hcap⟩ := exec_wellFormed hs.wellFormed he
  obtain ⟨hslE,hawE⟩ := ready_leave hr .notEmpty
  obtain ⟨hslF,hawF⟩ := ready_leave hr .notFull
  have hitems := hs.items
  have hslots := hs.slots
  have hshut := hs.shut
  have heff := exec_effect hs.wellFormed he
  generalize wakes c a = ws at heff hw
  cases heff with
  | pushed room size flag call =>
    -- one item more, and one sleeper less or nobody asleep; the caller was not waiting for items
    cases hw with
    | cons hsig hrest =>
      cases hrest
      obtain ⟨hE,hother⟩ := signal_counts hsig
      obtain ⟨hF,hF'⟩ := hother .notFull (by simp)
      refine ⟨hq,?_,?_,?_⟩
      · intro hpos
        dsimp only at hpos ⊢
        rcases hawE with hawE | ⟨_,b,hb,hcond⟩
        · omega
        · cases b with
          | enqueue x => simp [Blocking.condition] at hcond
          | dequeue => exact absurd hb call
      · intro hpos
        dsimp only at hpos ⊢
        rcases hawF with hawF | ⟨hawF,_⟩ <;> omega
      · intro h d
        have h0 := hshut (flag ▸ h)
        have hE0 := h0 .notEmpty
        have hF0 := h0 .notFull
        cases d <;> dsimp only <;> omega
  | popped size flag call =>
    cases hw with
    | cons hsig hrest =>
      cases hrest
      obtain ⟨hF,hother⟩ := signal_counts hsig
      obtain ⟨hE,hE'⟩ := hother .notEmpty (by simp)
      refine ⟨hq,?_,?_,?_⟩
      · intro hpos
        dsimp only at hpos ⊢
        rcases hawE with hawE | ⟨hawE,_⟩ <;> omega
      · intro hpos
        dsimp only at hpos ⊢
        rcases hawF with hawF | ⟨_,b,hb,hcond⟩
        · omega
        · cases b with
          | enqueue x => exact absurd hb (call x)
          | dequeue => simp [Blocking.condition] at hcond
      · intro h d
        have h0 := hshut (flag ▸ h)
        have hE0 := h0 .notEmpty
        have hF0 := h0 .notFull
        cases d <;> dsimp only <;> omega
  | cleared size flag call =>
    -- all slots are free, and everybody who waited for one is awake
    cases hw with
    | cons hb hrest =>
      cases hrest
      obtain ⟨hF,hother⟩ := broadcast_counts hb
      obtain ⟨hE,hE'⟩ := hother .notEmpty (by simp)
      refine ⟨hq,fun _ => by simp [size],fun hpos => absurd hF hpos.ne',?_⟩
      intro h d
      have hE0 := hshut (flag ▸ h) .notEmpty
      cases d <;> dsimp only <;> omega
  | shut size flag call =>
    cases hw with
    | cons hb hrest =>
      cases hrest with
      | cons hb' hrest =>
        cases hrest
        obtain ⟨hE,_⟩ := broadcast_counts hb
        obtain ⟨hF,hother⟩ := broadcast_counts hb'
        have hE' := (hother .notEmpty (by simp)).1.trans hE
        refine ⟨hq,fun hpos => absurd hE' hpos.ne',fun hpos => absurd hF hpos.ne',?_⟩
        intro _ d
        cases d
        · exact hE'
        · exact hF
  | nothing same blocked =>
    -- a waiter gives up only after the shutdown, when nobody sleeps
    cases hw
    subst same
    refine ⟨hq,?_,?_,?_⟩
    · intro hpos
      dsimp only at hpos ⊢
      rcases hawE with hawE | ⟨_,b,hb,_⟩
      · omega
      · have := hshut (blocked b hb) .notEmpty
        omega
    · intro hpos
      dsimp only at hpos ⊢
      rcases hawF with hawF | ⟨_,b,hb,_⟩
      · omega
      · have := hshut (blocked b hb) .notFull
        omega
    · intro h d
      exact (ready_leave hr d).1.trans (hshut h d)

theorem step_noLostWakeup {s s' : Monitor T α} (hs : NoLostWakeup s) (h : Step s s') :
    NoLostWakeup s' := by
  cases h with
  | finish ready done woken => exact finish_noLostWakeup hs ready done woken
  | park ready waits => exact park_noLostWakeup hs ready waits
  | wakeSpuriously parked => exact spurious_noLostWakeup hs parked

omit [DecidableEq T] in
theorem start_noLostWakeup (memory : ℕ → α) {capacity : ℕ} (hpos : 1 ≤ capacity)
    (hcap : capacity < sizeRange) : NoLostWakeup (start memory capacity : Monitor T α) := by
  have hzero : ∀ c, sleeping c (fun _ : T => (ThreadState.outside : ThreadState α)) = 0 :=
    fun c => count_eq_zero_iff.mpr (fun _ h => h)
  refine ⟨fresh_wellFormed memory hpos hcap,?_,?_,fun _ c => hzero c⟩
  · intro h
    exact absurd (hzero _) h.ne'
  · intro h
    exact absurd (hzero _) h.ne'

theorem reachable_noLostWakeup {memory : ℕ → α} {capacity : ℕ} (hpos : 1 ≤ capacity)
    (hcap : capacity < sizeRange) {s : Monitor T α} (h : Reachable memory capacity s) :
    NoLostWakeup s ∧ s.queue.buffer.capacity = capacity := by
  induction h with
  | refl => exact ⟨start_noLostWakeup memory hpos hcap,rfl⟩
  | tail _ hstep ih =>
    refine ⟨step_noLostWakeup ih.1 hstep,?_⟩
    cases hstep with
    | finish _ done _ => exact (exec_wellFormed ih.1.wellFormed done).2.trans ih.2
    | park _ _ => exact ih.2
    | wakeSpuriously _ => exact ih.2

/-- No wakeup is lost, whatever the threads, their calls and the schedule. -/
theorem no_lost_wakeup (memory : ℕ → α) {capacity : ℕ} (hpos : 1 ≤ capacity)
    (hcap : capacity < sizeRange) (s : Monitor T α) (h : Reachable memory capacity s) :
    ((∃ t, (s.threads t).UnnotifiedOn .notEmpty) →
      s.queue.buffer.size ≤ awakened .notEmpty s.threads) ∧
    ((∃ t, (s.threads t).UnnotifiedOn .notFull) →
      capacity - s.queue.buffer.size ≤ awakened .notFull s.threads) ∧
    (s.queue.shuttingDown = true → ∀ t c, ¬ (s.threads t).UnnotifiedOn c) ∧
    ¬ ((∃ t, (s.threads t).UnnotifiedOn .notEmpty) ∧ 0 < s.queue.buffer.size ∧
      ∀ t, ¬ (s.threads t).NotifiedOn .notEmpty) ∧
    ¬ ((∃ t, (s.threads t).UnnotifiedOn .notFull) ∧ s.queue.buffer.size < capacity ∧
      ∀ t, ¬ (s.threads t).NotifiedOn .notFull) := by
  obtain ⟨hinv,hcapacity⟩ := reachable_noLostWakeup hpos hcap h
  have hitems : (∃ t, (s.threads t).UnnotifiedOn .notEmpty) →
      s.queue.buffer.size ≤ awakened .notEmpty s.threads := fun h => hinv.items (count_pos_iff.mpr h)
  have hslots : (∃ t, (s.threads t).UnnotifiedOn .notFull) →
      capacity - s.queue.buffer.size ≤ awakened .notFull s.threads := by
    intro h
    rw [← hcapacity]
    exact hinv.slots (count_pos_iff.mpr h)
  refine ⟨hitems,hslots,?_,?_,?_⟩
  · intro hshut t c
    exact count_eq_zero_iff.mp (hinv.shut hshut c) t
  · rintro ⟨hsleep,hsize,hnobody⟩
    have hzero : awakened .notEmpty s.threads = 0 := count_eq_zero_iff.mpr hnobody
    have := hitems hsleep
    omega
  · rintro ⟨hsleep,hsize,hnobody⟩
    have hzero : awakened .notFull s.threads = 0 := count_eq_zero_iff.mpr hnobody
    have := hslots hsleep
    omega

end Invariant

/-- Two consumers sleep on a queue of one slot; the item of a third thread wakes one. -/
def oneOfTwoWoken : Monitor (Fin 3) ℕ :=
  ⟨(msgQueueTryEnqueue (fresh (fun _ => 0) 1) 7).2,
    fun t => if t = 0 then .notified .dequeue else if t = 1 then .unnotified .dequeue else .outside⟩

theorem oneOfTwoWoken_reachable : Reachable (fun _ => 0) 1 oneOfTwoWoken := by
  let f1 : Fin 3 → ThreadState ℕ := Function.update (fun _ => .outside) 0 (.unnotified .dequeue)
  let f2 : Fin 3 → ThreadState ℕ := Function.update f1 1 (.unnotified .dequeue)
  have h1 : Step (start (fun _ => 0) 1) ⟨fresh (fun _ => 0) 1,f1⟩ := .park trivial rfl
  have h2 : Step ⟨fresh (fun _ => 0) 1,f1⟩ ⟨fresh (fun _ => 0) 1,f2⟩ := .park trivial rfl
  have hwoken : WokenAll ThreadState.sleepers [.signal .notEmpty] (Function.update f2 2 .outside)
      oneOfTwoWoken.threads := by
    have hf : oneOfTwoWoken.threads =
        Function.update (Function.update f2 2 .outside) 0 (.notified .dequeue) := by
      funext t
      fin_cases t <;> rfl
    rw [hf]
    exact .cons (.signal (t := 0) rfl) .nil
  have h3 : Step ⟨fresh (fun _ => 0) 1,f2⟩ oneOfTwoWoken :=
    .finish (t := 2) (c := .tryEnqueue 7) trivial rfl hwoken
  exact ((Relation.ReflTransGen.single h1).tail h2).tail h3

theorem no_lost_wakeup_two_consumers :
    (oneOfTwoWoken.threads 1).UnnotifiedOn .notEmpty ∧ oneOfTwoWoken.queue.buffer.size = 1 ∧
      oneOfTwoWoken.queue.buffer.size ≤ awakened .notEmpty oneOfTwoWoken.threads :=
  ⟨rfl,rfl,(no_lost_wakeup _ le_rfl (by decide) _ oneOfTwoWoken_reachable).1 ⟨1,rfl⟩⟩

end RadioSim.Queue
