import RadioSim.Foundation.Window
import RadioSim.Foundation.Fifo

/-! # The ring buffer of `msg_queue.c`

Every operation is its critical section taken as one step. The mutex is
therefore implicit, and the two condition variables appear in the waiting
conditions only. `size_t` arithmetic is reduced modulo `2 ^ 64` where the code
adds or subtracts; that nothing is ever reduced is proved, not assumed.
-/
namespace RadioSim.Queue
open Window
variable {α : Type*}

/-- `MSG_QUEUE_DEFAULT_CAPACITY`. -/
def defaultCapacity : ℕ := 1024

def sizeRange : ℕ := 2 ^ 64

def sizeAdd (a b : ℕ) : ℕ := (a + b) % sizeRange
def sizeSub (a b : ℕ) : ℕ := (a + (sizeRange - b)) % sizeRange

/-- `queue_buffer_t`. Slots are memory: `malloc` leaves them uninitialised and
`msg_queue_clear` leaves the stale items where they are. -/
structure QueueBuffer (α : Type*) where
  items : ℕ → α
  head : ℕ
  tail : ℕ
  size : ℕ
  capacity : ℕ

/-- `struct msg_queue` without its mutex and condition variables. -/
structure MsgQueue (α : Type*) where
  buffer : QueueBuffer α
  shuttingDown : Bool

def QueueBuffer.push (b : QueueBuffer α) (item : α) : QueueBuffer α :=
  { b with
    items := Function.update b.items b.tail item
    tail := sizeAdd b.tail 1 % b.capacity
    size := sizeAdd b.size 1 }

def QueueBuffer.pop (b : QueueBuffer α) : QueueBuffer α :=
  { b with
    head := sizeAdd b.head 1 % b.capacity
    size := sizeSub b.size 1 }

/-- Which of the five fallible calls of `msg_queue_create` succeed. -/
structure CreateCalls where
  mallocQueue : Bool
  mallocItems : Bool
  mutexInit : Bool
  notEmptyInit : Bool
  notFullInit : Bool
  deriving DecidableEq

def CreateCalls.allSucceed (calls : CreateCalls) : Bool :=
  calls.mallocQueue && calls.mallocItems && calls.mutexInit && calls.notEmptyInit && calls.notFullInit

def fresh (memory : ℕ → α) (capacity : ℕ) : MsgQueue α := ⟨⟨memory,0,0,0,capacity⟩,false⟩

def effectiveCapacity (capacity : ℕ) : ℕ := if capacity = 0 then defaultCapacity else capacity

def msgQueueCreate (memory : ℕ → α) (calls : CreateCalls) (capacity : ℕ) : Option (MsgQueue α) :=
  if !calls.mallocQueue then none
  else if !calls.mallocItems then none
  else if !calls.mutexInit then none
  else if !calls.notEmptyInit then none
  else if !calls.notFullInit then none
  else some (fresh memory (effectiveCapacity capacity))

/-- The condition of the wait loop on `not_full`. -/
def MsgQueue.enqueueWaits (q : MsgQueue α) : Bool :=
  decide (q.buffer.size ≥ q.buffer.capacity) && !q.shuttingDown

def MsgQueue.dequeueWaits (q : MsgQueue α) : Bool :=
  decide (q.buffer.size = 0) && !q.shuttingDown

/-- `msg_queue_enqueue`; `none` while its loop would wait on `not_full`. -/
def msgQueueEnqueue (q : MsgQueue α) (item : α) : Option (Bool × MsgQueue α) :=
  if q.enqueueWaits then none
  else if q.shuttingDown && decide (q.buffer.size ≥ q.buffer.capacity) then some (false,q)
  else some (true,{ q with buffer := q.buffer.push item })

def msgQueueTryEnqueue (q : MsgQueue α) (item : α) : Bool × MsgQueue α :=
  if q.buffer.size ≥ q.buffer.capacity then (false,q)
  else (true,{ q with buffer := q.buffer.push item })

/-- `msg_queue_dequeue`; `none` while its loop would wait on `not_empty`, and no
item for a C `false`. -/
def msgQueueDequeue (q : MsgQueue α) : Option (Option α × MsgQueue α) :=
  if q.dequeueWaits then none
  else if q.buffer.size = 0 then some (none,q)
  else some (some (q.buffer.items q.buffer.head),{ q with buffer := q.buffer.pop })

def msgQueueTryDequeue (q : MsgQueue α) : Option α × MsgQueue α :=
  if q.buffer.size = 0 then (none,q)
  else (some (q.buffer.items q.buffer.head),{ q with buffer := q.buffer.pop })

def msgQueueSize (q : MsgQueue α) : ℕ := q.buffer.size

def msgQueueShutdown (q : MsgQueue α) : MsgQueue α := { q with shuttingDown := true }

def msgQueueClear (q : MsgQueue α) : MsgQueue α :=
  { q with buffer := { q.buffer with head := 0, tail := 0, size := 0 } }

def exec (q : MsgQueue α) : BoundedFifo.Call α → Option (BoundedFifo.Answer α × MsgQueue α)
  | .enqueue x => (msgQueueEnqueue q x).map fun r => (.flag r.1,r.2)
  | .tryEnqueue x => some (.flag (msgQueueTryEnqueue q x).1,(msgQueueTryEnqueue q x).2)
  | .dequeue => (msgQueueDequeue q).map fun r => (.item r.1,r.2)
  | .tryDequeue => some (.item (msgQueueTryDequeue q).1,(msgQueueTryDequeue q).2)
  | .size => some (.count (msgQueueSize q),q)
  | .clear => some (.unit,msgQueueClear q)
  | .shutdown => some (.unit,msgQueueShutdown q)

/-- The index discipline: both indices are slots, and `tail` is `size` slots
behind `head`. `size` tells the full ring from the empty one. -/
structure MsgQueue.WellFormed (q : MsgQueue α) : Prop where
  capacity_pos : 0 < q.buffer.capacity
  capacity_lt : q.buffer.capacity < sizeRange
  head_lt : q.buffer.head < q.buffer.capacity
  size_le : q.buffer.size ≤ q.buffer.capacity
  tail_eq : q.buffer.tail = (q.buffer.head + q.buffer.size) % q.buffer.capacity

def MsgQueue.contents (q : MsgQueue α) : List α :=
  window q.buffer.items q.buffer.capacity q.buffer.head q.buffer.size

def MsgQueue.toFifo (q : MsgQueue α) : BoundedFifo.Fifo α :=
  ⟨q.contents,q.buffer.capacity,q.shuttingDown⟩

end RadioSim.Queue
