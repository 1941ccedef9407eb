import Mathlib.Data.List.Basic

/-! # Bounded first-in first-out queues

The purpose of a bounded blocking queue, in terms of a list: an element is
accepted while there is room, elements leave in the order in which they were
accepted, and a closed queue lets nobody wait any longer. A blocking call that
has to wait has no result.
-/
namespace RadioSim.BoundedFifo
variable {α : Type*}

structure Fifo (α : Type*) where
  contents : List α
  capacity : ℕ
  closed : Bool

inductive Call (α : Type*)
  | enqueue (item : α)
  | tryEnqueue (item : α)
  | dequeue
  | tryDequeue
  | size
  | clear
  | shutdown
  deriving DecidableEq

inductive Answer (α : Type*)
  | flag (accepted : Bool)
  | item (taken : Option α)
  | count (n : ℕ)
  | unit
  deriving DecidableEq

/-- The answers that stand for a C `false`. -/
def Answer.IsFalse : Answer α → Prop
  | .flag accepted => accepted = false
  | .item taken => taken = none
  | _ => False

def empty (capacity : ℕ) : Fifo α := ⟨[],capacity,false⟩

def Fifo.full (f : Fifo α) : Bool := decide (f.capacity ≤ f.contents.length)

def offer (f : Fifo α) (x : α) : Answer α × Fifo α :=
  if f.full then (.flag false,f) else (.flag true,{ f with contents := f.contents ++ [x] })

def poll (f : Fifo α) : Answer α × Fifo α :=
  match f.contents with
  | [] => (.item none,f)
  | x :: rest => (.item (some x),{ f with contents := rest })

theorem poll_fst (f : Fifo α) : (poll f).1 = .item f.contents.head? := by
  unfold poll
  split <;> simp [*]

theorem poll_contents (f : Fifo α) : (poll f).2.contents = f.contents.tail := by
  unfold poll
  split <;> simp [*]

/-- One call on the list; `none` when the caller has to wait. -/
def exec (f : Fifo α) : Call α → Option (Answer α × Fifo α)
  | .enqueue x => if f.full && !f.closed then none else some (offer f x)
  | .tryEnqueue x => some (offer f x)
  | .dequeue => if f.contents.isEmpty && !f.closed then none else some (poll f)
  | .tryDequeue => some (poll f)
  | .size => some (.count f.contents.length,f)
  | .clear => some (.unit,{ f with contents := [] })
  | .shutdown => some (.unit,{ f with closed := true })

def run {σ : Type*} (step : σ → Call α → Option (Answer α × σ)) :
    σ → List (Call α) → Option (List (Answer α) × σ)
  | s, [] => some ([],s)
  | s, c :: rest =>
    match step s c with
    | none => none
    | some (a,t) => (run step t rest).map fun r => (a :: r.1,r.2)

end RadioSim.BoundedFifo
