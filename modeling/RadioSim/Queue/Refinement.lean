import RadioSim.Queue.Buffer

/-! # The ring buffer refines a bounded first-in first-out list

Each critical section is related to one call on the list. The index discipline
is re-established by every operation, so it holds along every sequence of calls
and no `size_t` operation is ever reduced.
-/
namespace RadioSim.Queue
open Window BoundedFifo
variable {α : Type*}

theorem sizeAdd_of_lt {a b : ℕ} (h : a + b < sizeRange) : sizeAdd a b = a + b := Nat.mod_eq_of_lt h

theorem sizeSub_of_le {a b : ℕ} (ha : a < sizeRange) (h : b ≤ a) : sizeSub a b = a - b := by
  unfold sizeSub
  have he : a + (sizeRange - b) = a - b + sizeRange := by omega
  rw [he, Nat.add_mod_right]
  exact Nat.mod_eq_of_lt (by omega)

section WellFormed
variable {q : MsgQueue α}

theorem MsgQueue.WellFormed.tail_lt (h : q.WellFormed) : q.buffer.tail < q.buffer.capacity := by
  rw [h.tail_eq]
  exact Nat.mod_lt _ h.capacity_pos

/-- The index sums the code forms before its `%` are below `2 ^ 64`. -/
theorem MsgQueue.WellFormed.index_sums_lt (h : q.WellFormed) :
    q.buffer.head + 1 < sizeRange ∧ q.buffer.tail + 1 < sizeRange ∧
      (q.buffer.size < q.buffer.capacity → q.buffer.size + 1 < sizeRange) := by
  have hh := h.head_lt
  have ht := h.tail_lt
  have hc := h.capacity_lt
  omega

@[simp] theorem contents_length (q : MsgQueue α) : q.contents.length = q.buffer.size :=
  window_length ..

theorem contents_eq_nil_iff : q.contents = [] ↔ q.buffer.size = 0 := by
  rw [← List.length_eq_zero_iff, contents_length]

theorem push_wellFormed (h : q.WellFormed) (hroom : q.buffer.size < q.buffer.capacity) (x : α) :
    ({ q with buffer := q.buffer.push x } : MsgQueue α).WellFormed := by
  obtain ⟨_,ht,hs⟩ := h.index_sums_lt
  refine ⟨h.capacity_pos,h.capacity_lt,h.head_lt,?_,?_⟩
  · simp only [QueueBuffer.push, sizeAdd_of_lt (hs hroom)]
    omega
  · simp only [QueueBuffer.push, sizeAdd_of_lt ht, sizeAdd_of_lt (hs hroom)]
    rw [h.tail_eq, Nat.mod_add_mod, Nat.add_assoc]

theorem push_contents (h : q.WellFormed) (hroom : q.buffer.size < q.buffer.capacity) (x : α) :
    ({ q with buffer := q.buffer.push x } : MsgQueue α).contents = q.contents ++ [x] := by
  obtain ⟨_,_,hs⟩ := h.index_sums_lt
  simp only [MsgQueue.contents, QueueBuffer.push, sizeAdd_of_lt (hs hroom), h.tail_eq]
  exact window_push _ _ hroom

theorem pop_wellFormed (h : q.WellFormed) (hne : 0 < q.buffer.size) :
    ({ q with buffer := q.buffer.pop } : MsgQueue α).WellFormed := by
  obtain ⟨hh,_,_⟩ := h.index_sums_lt
  have hsub := sizeSub_of_le (h.size_le.trans_lt h.capacity_lt) hne
  refine ⟨h.capacity_pos,h.capacity_lt,Nat.mod_lt _ h.capacity_pos,?_,?_⟩
  · have hle := h.size_le
    simp only [QueueBuffer.pop, hsub]
    omega
  · have he : q.buffer.head + 1 + (q.buffer.size - 1) = q.buffer.head + q.buffer.size := by omega
    simp only [QueueBuffer.pop, sizeAdd_of_lt hh, hsub]
    rw [h.tail_eq, Nat.mod_add_mod, he]

/-- The item at `head` is the oldest one, and popping leaves the rest. -/
theorem contents_eq_cons (h : q.WellFormed) (hne : 0 < q.buffer.size) :
    q.contents = q.buffer.items q.buffer.head ::
      ({ q with buffer := q.buffer.pop } : MsgQueue α).contents := by
  obtain ⟨hh,_,_⟩ := h.index_sums_lt
  have hsub := sizeSub_of_le (h.size_le.trans_lt h.capacity_lt) hne
  simp only [MsgQueue.contents, QueueBuffer.pop, sizeAdd_of_lt hh, hsub]
  rw [← window_pop _ _ h.head_lt, Nat.sub_add_cancel hne]

theorem clear_wellFormed (h : q.WellFormed) : (msgQueueClear q).WellFormed :=
  ⟨h.capacity_pos,h.capacity_lt,h.capacity_pos,Nat.zero_le _,by simp [msgQueueClear]⟩

theorem shutdown_wellFormed (h : q.WellFormed) : (msgQueueShutdown q).WellFormed :=
  ⟨h.capacity_pos,h.capacity_lt,h.head_lt,h.size_le,h.tail_eq⟩

end WellFormed

/-- `msg_queue_create` returns an empty ring over whatever the memory held, or
NULL as soon as one of its calls fails. -/
theorem create_eq (memory : ℕ → α) (calls : CreateCalls) (capacity : ℕ) :
    msgQueueCreate memory calls capacity =
      if calls.allSucceed then some (fresh memory (effectiveCapacity capacity)) else none := by
  obtain ⟨mallocQueue,mallocItems,mutexInit,notEmptyInit,notFullInit⟩ := calls
  cases mallocQueue <;> cases mallocItems <;> cases mutexInit <;> cases notEmptyInit <;>
    cases notFullInit <;> rfl

theorem fresh_wellFormed (memory : ℕ → α) {capacity : ℕ} (hpos : 0 < capacity)
    (hcap : capacity < sizeRange) : (fresh memory capacity).WellFormed :=
  ⟨hpos,hcap,hpos,Nat.zero_le _,by simp [fresh]⟩

section Calls
variable {q : MsgQueue α}

theorem toFifo_full (q : MsgQueue α) : q.toFifo.full = decide (q.buffer.size ≥ q.buffer.capacity) := by
  simp [Fifo.full, MsgQueue.toFifo]

theorem contents_isEmpty (q : MsgQueue α) : q.contents.isEmpty = decide (q.buffer.size = 0) := by
  rw [Bool.eq_iff_iff, List.isEmpty_iff, decide_eq_true_iff, contents_eq_nil_iff]

/-- `msg_queue_try_enqueue` answers and acts as an offer to the list. -/
theorem tryEnqueue_refines (h : q.WellFormed) (x : α) :
    ((msgQueueTryEnqueue q x).2.WellFormed ∧
      (msgQueueTryEnqueue q x).2.buffer.capacity = q.buffer.capacity) ∧
    offer q.toFifo x = (.flag (msgQueueTryEnqueue q x).1,(msgQueueTryEnqueue q x).2.toFifo) := by
  unfold msgQueueTryEnqueue offer
  rw [toFifo_full]
  by_cases hfull : q.buffer.size ≥ q.buffer.capacity
  · simp only [hfull, decide_true, ↓reduceIte]
    exact ⟨⟨h,trivial⟩,trivial⟩
  · have hroom : q.buffer.size < q.buffer.capacity := by omega
    simp only [hfull, decide_false, Bool.false_eq_true, ↓reduceIte]
    refine ⟨⟨push_wellFormed h hroom x,rfl⟩,?_⟩
    simp only [MsgQueue.toFifo, push_contents h hroom]
    rfl

/-- `msg_queue_try_dequeue` answers and acts as a poll of the list. -/
theorem tryDequeue_refines (h : q.WellFormed) :
    ((msgQueueTryDequeue q).2.WellFormed ∧
      (msgQueueTryDequeue q).2.buffer.capacity = q.buffer.capacity) ∧
    poll q.toFifo = (.item (msgQueueTryDequeue q).1,(msgQueueTryDequeue q).2.toFifo) := by
  unfold msgQueueTryDequeue poll
  by_cases hempty : q.buffer.size = 0
  · have hnil := contents_eq_nil_iff.mpr hempty
    simp only [hempty, ↓reduceIte, MsgQueue.toFifo, hnil]
    exact ⟨⟨h,trivial⟩,trivial⟩
  · have hne : 0 < q.buffer.size := Nat.pos_of_ne_zero hempty
    have hcons := contents_eq_cons h hne
    simp only [hempty, ↓reduceIte, MsgQueue.toFifo, hcons]
    exact ⟨⟨pop_wellFormed h hne,rfl⟩,rfl⟩

/-- A blocking enqueue that does not wait is a try_enqueue. -/
theorem enqueue_eq (q : MsgQueue α) (x : α) :
    msgQueueEnqueue q x = if q.enqueueWaits then none else some (msgQueueTryEnqueue q x) := by
  unfold msgQueueEnqueue msgQueueTryEnqueue MsgQueue.enqueueWaits
  by_cases hfull : q.buffer.size ≥ q.buffer.capacity <;> cases q.shuttingDown <;> simp [hfull]

/-- A blocking dequeue that does not wait is a try_dequeue. -/
theorem dequeue_eq (q : MsgQueue α) :
    msgQueueDequeue q = if q.dequeueWaits then none else some (msgQueueTryDequeue q) := by
  unfold msgQueueDequeue msgQueueTryDequeue
  by_cases hempty : q.buffer.size = 0 <;> simp [hempty]

/-- Every call keeps the index discipline and the capacity. -/
theorem exec_wellFormed (h : q.WellFormed) {c : Call α} {a : Answer α} {r : MsgQueue α}
    (he : exec q c = some (a,r)) : r.WellFormed ∧ r.buffer.capacity = q.buffer.capacity := by
  cases c with
  | enqueue x =>
    simp only [exec, enqueue_eq] at he
    split at he
    · cases he
    · cases he
      exact (tryEnqueue_refines h x).1
  | tryEnqueue x =>
    cases he
    exact (tryEnqueue_refines h x).1
  | dequeue =>
    simp only [exec, dequeue_eq] at he
    split at he
    · cases he
    · cases he
      exact (tryDequeue_refines h).1
  | tryDequeue =>
    cases he
    exact (tryDequeue_refines h).1
  | size => cases he; exact ⟨h,rfl⟩
  | clear => cases he; exact ⟨clear_wellFormed h,rfl⟩
  | shutdown => cases he; exact ⟨shutdown_wellFormed h,rfl⟩

/-- Every call waits exactly when the list waits, and otherwise answers and acts
as the list does. -/
theorem exec_refines (h : q.WellFormed) (c : Call α) :
    BoundedFifo.exec q.toFifo c = (exec q c).map fun r => (r.1,r.2.toFifo) := by
  cases c with
  | enqueue x =>
    simp only [BoundedFifo.exec, exec, enqueue_eq, toFifo_full, (tryEnqueue_refines h x).2]
    change (if q.enqueueWaits then none else _) = _
    split <;> rfl
  | tryEnqueue x => simp only [BoundedFifo.exec, exec, (tryEnqueue_refines h x).2, Option.map_some]
  | dequeue =>
    simp only [BoundedFifo.exec, exec, dequeue_eq, (tryDequeue_refines h).2]
    change (if q.contents.isEmpty && !q.shuttingDown then none else _) = _
    rw [contents_isEmpty]
    change (if q.dequeueWaits then none else _) = _
    split <;> rfl
  | tryDequeue => simp only [BoundedFifo.exec, exec, (tryDequeue_refines h).2, Option.map_some]
  | size => simp [BoundedFifo.exec, exec, MsgQueue.toFifo, msgQueueSize]
  | clear => rfl
  | shutdown => rfl

theorem tryEnqueue_false {x : α} (h : (msgQueueTryEnqueue q x).1 = false) :
    (msgQueueTryEnqueue q x).2 = q := by
  unfold msgQueueTryEnqueue at h ⊢
  split at h <;> simp_all

theorem tryDequeue_none (h : (msgQueueTryDequeue q).1 = none) : (msgQueueTryDequeue q).2 = q := by
  unfold msgQueueTryDequeue at h ⊢
  split at h <;> simp_all

/-- A call that answers `false` leaves the queue as it was. -/
theorem exec_isFalse {c : Call α} {a : Answer α} {r : MsgQueue α}
    (he : exec q c = some (a,r)) (hf : a.IsFalse) : r = q := by
  cases c with
  | enqueue x =>
    simp only [exec, enqueue_eq] at he
    split at he
    · cases he
    · cases he
      exact tryEnqueue_false hf
  | tryEnqueue x => cases he; exact tryEnqueue_false hf
  | dequeue =>
    simp only [exec, dequeue_eq] at he
    split at he
    · cases he
    · cases he
      exact tryDequeue_none hf
  | tryDequeue => cases he; exact tryDequeue_none hf
  | size => cases he; rfl
  | clear => cases he; exact hf.elim
  | shutdown => cases he; exact hf.elim

end Calls

theorem run_wellFormed {q : MsgQueue α} (h : q.WellFormed) {calls : List (Call α)}
    {answers : List (Answer α)} {r : MsgQueue α} (he : run exec q calls = some (answers,r)) :
    r.WellFormed ∧ r.buffer.capacity = q.buffer.capacity := by
  induction calls generalizing q answers with
  | nil => cases he; exact ⟨h,rfl⟩
  | cons c rest ih =>
    simp only [run] at he
    cases hc : exec q c with
    | none => simp [hc] at he
    | some step =>
      simp only [hc, Option.map_eq_some_iff] at he
      obtain ⟨tail,ht,heq⟩ := he
      obtain ⟨hs,hcap⟩ := exec_wellFormed h hc
      obtain ⟨hr,hcap'⟩ := ih hs (show run exec step.2 rest = some (tail.1,r) by rw [ht]; cases heq; rfl)
      exact ⟨hr,hcap'.trans hcap⟩

/-- Along every sequence of calls the ring and the list give the same answers and
stay related, or both wait at the same call. -/
theorem run_refines {q : MsgQueue α} (h : q.WellFormed) (calls : List (Call α)) :
    run BoundedFifo.exec q.toFifo calls = (run exec q calls).map fun r => (r.1,r.2.toFifo) := by
  induction calls generalizing q with
  | nil => rfl
  | cons c rest ih =>
    simp only [run, exec_refines h c]
    cases hc : exec q c with
    | none => rfl
    | some step =>
      simp only [Option.map_some, ih (exec_wellFormed h hc).1, Option.map_map]
      rfl

/-- `msg_queue.c` is a bounded FIFO list with a shutdown flag. Every sequence of
calls on a fresh queue gives the list's answers and waits where the list waits;
in the state it leads to the index discipline holds, no index sum reaches
`2 ^ 64`, a call that answers `false` changes nothing, and each blocking call
agrees with its non-blocking twin where it need not wait for room or an item. -/
theorem msgQueue_refines_fifo (memory : ℕ → α) {capacity : ℕ} (hpos : 1 ≤ capacity)
    (hcap : capacity < sizeRange) (calls : List (Call α)) :
    run BoundedFifo.exec (BoundedFifo.empty capacity) calls =
        (run exec (fresh memory capacity) calls).map (fun r => (r.1,r.2.toFifo)) ∧
    ∀ answers q, run exec (fresh memory capacity) calls = some (answers,q) →
      (q.buffer.capacity = capacity ∧ q.buffer.head < capacity ∧ q.buffer.tail < capacity ∧
        q.buffer.size ≤ capacity ∧ q.buffer.tail = (q.buffer.head + q.buffer.size) % capacity) ∧
      (q.buffer.head + 1 < sizeRange ∧ q.buffer.tail + 1 < sizeRange ∧
        (q.buffer.size < capacity → q.buffer.size + 1 < sizeRange)) ∧
      q.contents = (List.range q.buffer.size).map
        (fun i => q.buffer.items ((q.buffer.head + i) % capacity)) ∧
      (∀ c a r, exec q c = some (a,r) → a.IsFalse → r = q) ∧
      (∀ x, q.buffer.size < capacity → msgQueueEnqueue q x = some (msgQueueTryEnqueue q x)) ∧
      (0 < q.buffer.size → msgQueueDequeue q = some (msgQueueTryDequeue q)) := by
  have hfresh := fresh_wellFormed memory hpos hcap
  refine ⟨run_refines hfresh calls,?_⟩
  intro answers q hrun
  obtain ⟨hq,hcapacity⟩ := run_wellFormed hfresh hrun
  have hcapacity : q.buffer.capacity = capacity := hcapacity
  subst hcapacity
  refine ⟨⟨rfl,hq.head_lt,hq.tail_lt,hq.size_le,hq.tail_eq⟩,hq.index_sums_lt,rfl,?_,?_,?_⟩
  · intro c a r he hf
    exact exec_isFalse he hf
  · intro x hroom
    rw [enqueue_eq, if_neg]
    simp [MsgQueue.enqueueWaits, Nat.not_le.mpr hroom]
  · intro hne
    rw [dequeue_eq, if_neg]
    simp [MsgQueue.dequeueWaits, hne.ne']

/-- A ring of two slots that wraps, refuses, drains past a shutdown and restarts. -/
theorem msgQueue_refines_fifo_two_slots :
    (run exec (fresh (fun _ => 0) 2) [.enqueue 5,.enqueue 6,.tryEnqueue 7,.dequeue,.enqueue 7,
        .shutdown,.enqueue 8,.dequeue,.tryDequeue,.dequeue,.tryEnqueue 9,.clear,.size]).map Prod.fst =
      some [.flag true,.flag true,.flag false,.item (some 5),.flag true,
        .unit,.flag false,.item (some 6),.item (some 7),.item none,.flag true,.unit,.count 0] ∧
    run BoundedFifo.exec (BoundedFifo.empty 2) [.enqueue 5,.enqueue 6,.tryEnqueue 7,.dequeue] =
      (run exec (fresh (fun _ => 0) 2) [.enqueue 5,.enqueue 6,.tryEnqueue 7,.dequeue]).map
        (fun r => (r.1,r.2.toFifo)) :=
  ⟨by decide,(msgQueue_refines_fifo (fun _ => 0) (by decide) (by decide) _).1⟩

end RadioSim.Queue
