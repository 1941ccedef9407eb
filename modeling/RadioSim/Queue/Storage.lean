import RadioSim.Queue.Refinement

/-! # The slots of a queue and the block they lie in

`msg_queue_create` asks `malloc` for `sizeof(msg_item_t) * capacity` bytes, a product
of `size_t`; the operations index the block up to the stored capacity.
-/
namespace RadioSim.Queue
open BoundedFifo
variable {α : Type*}

/-- `sizeof(msg_item_t)`. -/
def sizeofMsgItem : ℕ := 24

def sizeMul (a b : ℕ) : ℕ := a * b % sizeRange

/-- `malloc(n)`: NULL, or a block of exactly `n` bytes. -/
def malloc (succeeds : Bool) (n : ℕ) : Option ℕ := if succeeds then some n else none

/-- `msg_queue_create` with the number of bytes in the block of its items. -/
def msgQueueAllocate (memory : ℕ → α) (calls : CreateCalls) (capacity : ℕ) : Option (MsgQueue α × ℕ) :=
  let capacity := effectiveCapacity capacity
  if !calls.mallocQueue then none
  else (malloc calls.mallocItems (sizeMul sizeofMsgItem capacity)).bind fun block =>
    if !calls.mutexInit then none
    else if !calls.notEmptyInit then none
    else if !calls.notFullInit then none
    else some (fresh memory capacity,block)

def MsgQueue.slot (q : MsgQueue α) : Call α → Option ℕ
  | .enqueue _ =>
    if q.enqueueWaits then none
    else if q.shuttingDown && decide (q.buffer.size ≥ q.buffer.capacity) then none
    else some q.buffer.tail
  | .tryEnqueue _ => if q.buffer.size ≥ q.buffer.capacity then none else some q.buffer.tail
  | .dequeue =>
    if q.dequeueWaits then none else if q.buffer.size = 0 then none else some q.buffer.head
  | .tryDequeue => if q.buffer.size = 0 then none else some q.buffer.head
  | _ => none

def InBlock (block i : ℕ) : Prop := sizeofMsgItem * i + sizeofMsgItem ≤ block

instance (block i : ℕ) : Decidable (InBlock block i) := inferInstanceAs (Decidable (_ ≤ _))

section Creation
variable (memory : ℕ → α) (calls : CreateCalls) (capacity : ℕ)

theorem allocate_eq : msgQueueAllocate memory calls capacity =
    if calls.allSucceed then
      some (fresh memory (effectiveCapacity capacity),sizeMul sizeofMsgItem (effectiveCapacity capacity))
    else none := by
  obtain ⟨mallocQueue,mallocItems,mutexInit,notEmptyInit,notFullInit⟩ := calls
  cases mallocQueue <;> cases mallocItems <;> cases mutexInit <;> cases notEmptyInit <;>
    cases notFullInit <;> rfl

/-- The queue is the one of `msg_queue_create`. -/
theorem allocate_create :
    (msgQueueAllocate memory calls capacity).map Prod.fst = msgQueueCreate memory calls capacity := by
  rw [allocate_eq, create_eq]
  split <;> rfl

end Creation

section Slots
variable {q r : MsgQueue α}

theorem slot_enqueue (q : MsgQueue α) (x : α) :
    q.slot (.enqueue x) = if q.enqueueWaits then none else q.slot (.tryEnqueue x) := by
  unfold MsgQueue.slot MsgQueue.enqueueWaits
  by_cases hfull : q.buffer.size ≥ q.buffer.capacity <;> cases q.shuttingDown <;> simp [hfull]

theorem slot_dequeue (q : MsgQueue α) :
    q.slot .dequeue = if q.dequeueWaits then none else q.slot .tryDequeue := rfl

theorem tryEnqueue_slot (q : MsgQueue α) (x : α) {i : ℕ} (h : q.slot (.tryEnqueue x) ≠ some i) :
    (msgQueueTryEnqueue q x).2.buffer.items i = q.buffer.items i := by
  unfold msgQueueTryEnqueue
  simp only [MsgQueue.slot] at h
  split
  · rfl
  · rename_i hroom
    rw [if_neg hroom] at h
    exact Function.update_of_ne (fun hi => h (congrArg some hi.symm)) ..

theorem tryDequeue_slot (q : MsgQueue α) :
    (msgQueueTryDequeue q).2.buffer.items = q.buffer.items ∧
    ∀ x, (msgQueueTryDequeue q).1 = some x → ∃ i, q.slot .tryDequeue = some i ∧ x = q.buffer.items i := by
  unfold msgQueueTryDequeue MsgQueue.slot
  split
  · rename_i hempty
    exact ⟨rfl,fun x hx => by cases hx⟩
  · exact ⟨rfl,fun x hx => ⟨q.buffer.head,rfl,(Option.some.inj hx).symm⟩⟩

/-- A call leaves every other slot as it was, and an item it hands out comes from its slot. -/
theorem exec_slot {c : Call α} {a : Answer α} (h : exec q c = some (a,r)) :
    (∀ i, q.slot c ≠ some i → r.buffer.items i = q.buffer.items i) ∧
    ∀ x, a = .item (some x) → ∃ i, q.slot c = some i ∧ x = q.buffer.items i := by
  cases c with
  | enqueue x =>
    simp only [exec, enqueue_eq] at h
    rw [slot_enqueue]
    split at h
    · cases h
    · rename_i hwaits
      cases h
      rw [if_neg hwaits]
      exact ⟨fun i hi => tryEnqueue_slot q x hi,fun y hy => by cases hy⟩
  | tryEnqueue x =>
    cases h
    exact ⟨fun i hi => tryEnqueue_slot q x hi,fun y hy => by cases hy⟩
  | dequeue =>
    simp only [exec, dequeue_eq] at h
    rw [slot_dequeue]
    split at h
    · cases h
    · rename_i hwaits
      cases h
      rw [if_neg hwaits]
      exact ⟨fun i _ => congrFun (tryDequeue_slot q).1 i,fun x hx => (tryDequeue_slot q).2 x (Answer.item.inj hx)⟩
  | tryDequeue =>
    cases h
    exact ⟨fun i _ => congrFun (tryDequeue_slot q).1 i,fun x hx => (tryDequeue_slot q).2 x (Answer.item.inj hx)⟩
  | size | clear | shutdown =>
    cases h
    exact ⟨fun _ _ => rfl,fun x hx => by cases hx⟩

/-- Only slots below the capacity are used. -/
theorem slot_lt (hq : q.WellFormed) {c : Call α} {i : ℕ} (h : q.slot c = some i) : i < q.buffer.capacity := by
  cases c with
  | enqueue x =>
    simp only [MsgQueue.slot, Option.ite_none_left_eq_some, Option.some.injEq] at h
    exact h.2.2 ▸ hq.tail_lt
  | tryEnqueue x =>
    simp only [MsgQueue.slot, Option.ite_none_left_eq_some, Option.some.injEq] at h
    exact h.2 ▸ hq.tail_lt
  | dequeue =>
    simp only [MsgQueue.slot, Option.ite_none_left_eq_some, Option.some.injEq] at h
    exact h.2.2 ▸ hq.head_lt
  | tryDequeue =>
    simp only [MsgQueue.slot, Option.ite_none_left_eq_some, Option.some.injEq] at h
    exact h.2 ▸ hq.head_lt
  | _ => cases h

/-- Filling an empty queue goes through its slots from the first on. -/
theorem run_fill (x : α) {k : ℕ} (hq : q.WellFormed) (hhead : q.buffer.head = 0)
    (hk : q.buffer.size + k < q.buffer.capacity) :
    ∃ answers r, run exec q (List.replicate k (.tryEnqueue x)) = some (answers,r) ∧
      r.slot (.tryEnqueue x) = some (q.buffer.size + k) := by
  induction k generalizing q with
  | zero =>
    refine ⟨[],q,rfl,?_⟩
    rw [Nat.add_zero] at hk ⊢
    simp only [MsgQueue.slot, if_neg (Nat.not_le.mpr hk), Option.some.injEq]
    rw [hq.tail_eq, hhead, Nat.zero_add, Nat.mod_eq_of_lt hk]
  | succ k ih =>
    have hroom : q.buffer.size < q.buffer.capacity := by omega
    have hpush : msgQueueTryEnqueue q x = (true,{ q with buffer := q.buffer.push x }) :=
      if_neg (Nat.not_le.mpr hroom)
    have hsize : (q.buffer.push x).size = q.buffer.size + 1 := sizeAdd_of_lt (hq.index_sums_lt.2.2 hroom)
    have hnext : (q.buffer.push x).size + k < q.buffer.capacity := by omega
    obtain ⟨answers,r,hrun,hslot⟩ := ih (push_wellFormed hq hroom x) hhead hnext
    refine ⟨.flag true :: answers,r,?_,?_⟩
    · simp only [List.replicate_succ, run, exec, hpush, hrun, Option.map_some]
    · rw [hslot, hsize, Nat.add_assoc, Nat.add_comm 1]

end Slots

/-- Every slot that the operations use lies in the block exactly when the product in
`msg_queue_create` does not wrap. -/
theorem slots_inside_iff (memory : ℕ → α) (calls : CreateCalls) {capacity block : ℕ} {q : MsgQueue α}
    (hcap : capacity < sizeRange) (hcreate : msgQueueAllocate memory calls capacity = some (q,block)) :
    (∀ ops answers r, run exec q ops = some (answers,r) → ∀ c i, r.slot c = some i → InBlock block i) ↔
      sizeofMsgItem * effectiveCapacity capacity < sizeRange := by
  rw [allocate_eq, Option.ite_none_right_eq_some] at hcreate
  obtain ⟨_,hcreated⟩ := hcreate
  obtain ⟨rfl,rfl⟩ := Prod.mk.inj (Option.some.inj hcreated)
  have hpos : 0 < effectiveCapacity capacity := by
    unfold effectiveCapacity
    split <;> [decide; omega]
  have hlt : effectiveCapacity capacity < sizeRange := by
    unfold effectiveCapacity
    split <;> [decide; exact hcap]
  have hfresh := fresh_wellFormed memory hpos hlt
  constructor
  · intro hinside
    by_contra hwraps
    -- the first slot that does not fit is below the capacity, and the queue can be filled up to it
    have hblock : sizeMul sizeofMsgItem (effectiveCapacity capacity) < sizeRange := Nat.mod_lt _ (by decide)
    generalize sizeMul sizeofMsgItem (effectiveCapacity capacity) = block at hblock hinside
    have hslot : 0 + block / sizeofMsgItem < effectiveCapacity capacity := by
      unfold sizeofMsgItem at hwraps ⊢
      omega
    obtain ⟨answers,r,hrun,hlast⟩ := run_fill (memory 0) hfresh rfl hslot
    have hin := hinside _ answers r hrun _ _ hlast
    simp only [InBlock, sizeofMsgItem, fresh, Nat.zero_add] at hin
    omega
  · intro hexact ops answers r hrun c i hslot
    obtain ⟨hr,hcapacity⟩ := run_wellFormed hfresh hrun
    have hi := slot_lt hr hslot
    rw [hcapacity] at hi
    unfold InBlock sizeMul
    rw [Nat.mod_eq_of_lt hexact]
    exact Nat.mul_le_mul_left sizeofMsgItem hi

theorem slots_inside_iff_default :
    msgQueueAllocate (fun _ => 0) ⟨true,true,true,true,true⟩ 0 = some (fresh (fun _ => 0) 1024,24576) ∧
    ∀ ops answers r, run exec (fresh (fun _ => 0) 1024) ops = some (answers,r) →
      ∀ c i, r.slot c = some i → InBlock 24576 i := by
  have hcreate : msgQueueAllocate (fun _ => 0) ⟨true,true,true,true,true⟩ 0 =
      some (fresh (fun _ => 0) 1024,24576) := rfl
  exact ⟨hcreate,(slots_inside_iff _ _ (by decide) hcreate).mpr (by decide)⟩

/-- For `2 ^ 61 + 1` items the block has room for one. -/
theorem slot_outside :
    ∃ q, msgQueueAllocate (fun _ => 0) ⟨true,true,true,true,true⟩ (2 ^ 61 + 1) = some (q,24) ∧
      ∃ r, run exec q [.enqueue 5] = some ([.flag true],r) ∧ r.slot (.enqueue 6) = some 1 ∧ ¬ InBlock 24 1 :=
  ⟨_,rfl,_,rfl,rfl,by decide⟩

end RadioSim.Queue
