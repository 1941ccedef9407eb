import RadioSim.Queue.Refinement

/-! # Queues that carry their index discipline

The components above `msg_queue.c` use a queue through these operations and
reason about its contents, its capacity and its shutdown flag only.
-/
namespace RadioSim.Queue
open BoundedFifo
variable {α : Type*}

structure RingQueue (α : Type*) where
  queue : MsgQueue α
  wellFormed : queue.WellFormed

namespace RingQueue

def contents (r : RingQueue α) : List α := r.queue.contents
def capacity (r : RingQueue α) : ℕ := r.queue.buffer.capacity
def closed (r : RingQueue α) : Bool := r.queue.shuttingDown
def full (r : RingQueue α) : Bool := decide (r.capacity ≤ r.contents.length)

def fresh (memory : ℕ → α) (capacity : ℕ) (hpos : 0 < capacity) (hcap : capacity < sizeRange) : RingQueue α :=
  ⟨Queue.fresh memory capacity,fresh_wellFormed memory hpos hcap⟩

def tryEnqueue (r : RingQueue α) (x : α) : Bool × RingQueue α :=
  ((msgQueueTryEnqueue r.queue x).1,
    ⟨(msgQueueTryEnqueue r.queue x).2,(tryEnqueue_refines r.wellFormed x).1.1⟩)

def tryDequeue (r : RingQueue α) : Option α × RingQueue α :=
  ((msgQueueTryDequeue r.queue).1,
    ⟨(msgQueueTryDequeue r.queue).2,(tryDequeue_refines r.wellFormed).1.1⟩)

theorem enqueue_keeps (r : RingQueue α) (x : α) (p : Bool × MsgQueue α)
    (h : msgQueueEnqueue r.queue x = some p) : p.2.WellFormed := by
  rw [enqueue_eq] at h
  split at h
  · cases h
  · cases h
    exact (r.tryEnqueue x).2.wellFormed

theorem dequeue_keeps (r : RingQueue α) (p : Option α × MsgQueue α)
    (h : msgQueueDequeue r.queue = some p) : p.2.WellFormed := by
  rw [dequeue_eq] at h
  split at h
  · cases h
  · cases h
    exact r.tryDequeue.2.wellFormed

def enqueue (r : RingQueue α) (x : α) : Option (Bool × RingQueue α) :=
  (msgQueueEnqueue r.queue x).pmap (fun p hp => (p.1,⟨p.2,hp⟩)) (r.enqueue_keeps x)

def dequeue (r : RingQueue α) : Option (Option α × RingQueue α) :=
  (msgQueueDequeue r.queue).pmap (fun p hp => (p.1,⟨p.2,hp⟩)) r.dequeue_keeps

def shutdown (r : RingQueue α) : RingQueue α := ⟨msgQueueShutdown r.queue,shutdown_wellFormed r.wellFormed⟩

theorem capacity_pos (r : RingQueue α) : 0 < r.capacity := r.wellFormed.capacity_pos

theorem toFifo_full (r : RingQueue α) : r.queue.toFifo.full = r.full := rfl

section Specs
variable (r : RingQueue α) (x : α)

theorem offer_eq : offer r.queue.toFifo x =
    (.flag (r.tryEnqueue x).1,(r.tryEnqueue x).2.queue.toFifo) := (tryEnqueue_refines r.wellFormed x).2

theorem poll_eq : poll r.queue.toFifo = (.item r.tryDequeue.1,r.tryDequeue.2.queue.toFifo) :=
  (tryDequeue_refines r.wellFormed).2

@[simp] theorem tryEnqueue_fst : (r.tryEnqueue x).1 = !r.full := by
  have h := r.offer_eq x
  unfold offer at h
  rw [toFifo_full] at h
  cases hf : r.full <;> simp only [hf, Bool.false_eq_true, ↓reduceIte, Prod.mk.injEq, Answer.flag.injEq] at h
  · exact h.1.symm
  · exact h.1.symm

@[simp] theorem tryEnqueue_contents :
    (r.tryEnqueue x).2.contents = if r.full then r.contents else r.contents ++ [x] := by
  have h := r.offer_eq x
  unfold offer at h
  rw [toFifo_full] at h
  cases hf : r.full <;> simp only [hf, Bool.false_eq_true, ↓reduceIte, Prod.mk.injEq] at h ⊢
  · exact (congrArg Fifo.contents h.2).symm
  · exact (congrArg Fifo.contents h.2).symm

@[simp] theorem tryEnqueue_capacity : (r.tryEnqueue x).2.capacity = r.capacity :=
  (tryEnqueue_refines r.wellFormed x).1.2

@[simp] theorem tryEnqueue_closed : (r.tryEnqueue x).2.closed = r.closed := by
  unfold tryEnqueue closed msgQueueTryEnqueue
  split <;> rfl

theorem tryEnqueue_of_full (h : r.full = true) : r.tryEnqueue x = (false,r) := by
  have hf : (r.tryEnqueue x).1 = false := by simp [h]
  have hq := tryEnqueue_false hf
  obtain ⟨q,hw⟩ := r
  unfold tryEnqueue at hf ⊢
  simp only [Prod.mk.injEq, mk.injEq]
  exact ⟨hf,hq⟩

@[simp] theorem tryDequeue_fst : r.tryDequeue.1 = r.contents.head? := by
  have h := poll_fst r.queue.toFifo
  rw [poll_eq] at h
  exact Answer.item.inj h

@[simp] theorem tryDequeue_contents : r.tryDequeue.2.contents = r.contents.tail := by
  have h := poll_contents r.queue.toFifo
  rw [poll_eq] at h
  exact h

@[simp] theorem tryDequeue_capacity : r.tryDequeue.2.capacity = r.capacity :=
  (tryDequeue_refines r.wellFormed).1.2

@[simp] theorem tryDequeue_closed : r.tryDequeue.2.closed = r.closed := by
  unfold tryDequeue closed msgQueueTryDequeue
  split <;> rfl

theorem tryDequeue_of_empty (h : r.contents = []) : r.tryDequeue = (none,r) := by
  have hf : r.tryDequeue.1 = none := by simp [h]
  have hq := tryDequeue_none hf
  obtain ⟨q,hw⟩ := r
  unfold tryDequeue at hf ⊢
  simp only [Prod.mk.injEq, mk.injEq]
  exact ⟨hf,hq⟩

theorem enqueue_eq : r.enqueue x = if r.full && !r.closed then none else some (r.tryEnqueue x) := by
  have hw : r.queue.enqueueWaits = (r.full && !r.closed) := by
    unfold full contents
    rw [contents_length]
    rfl
  unfold enqueue
  rw [← hw]
  have he := Queue.enqueue_eq r.queue x
  cases h : r.queue.enqueueWaits <;> simp only [h, Bool.false_eq_true, ↓reduceIte] at he ⊢
  · simp only [he, Option.pmap_some]
    rfl
  · simp only [he, Option.pmap_none]

theorem dequeue_eq : r.dequeue = if r.contents.isEmpty && !r.closed then none else some r.tryDequeue := by
  have hw : r.queue.dequeueWaits = (r.contents.isEmpty && !r.closed) := by
    unfold contents
    rw [contents_isEmpty]
    rfl
  unfold dequeue
  rw [← hw]
  have he := Queue.dequeue_eq r.queue
  cases h : r.queue.dequeueWaits <;> simp only [h, Bool.false_eq_true, ↓reduceIte] at he ⊢
  · simp only [he, Option.pmap_some]
    rfl
  · simp only [he, Option.pmap_none]

@[simp] theorem shutdown_contents : r.shutdown.contents = r.contents := rfl
@[simp] theorem shutdown_closed : r.shutdown.closed = true := rfl

end Specs

end RingQueue
end RadioSim.Queue
