import Mathlib.Data.Fintype.Card
import Mathlib.Data.Fintype.Basic
import Mathlib.Tactic.Common

/-! # Counting threads by their state

A family of threads is a function from a finite type of names to local states.
One step changes the state of one thread, so a count moves by what that thread
contributed before and contributes after.
-/
namespace RadioSim.Counting
variable {T β : Type*} [Fintype T]

def count (p : β → Prop) [DecidablePred p] (f : T → β) : ℕ :=
  (Finset.univ.filter fun t => p (f t)).card

variable {p : β → Prop} [DecidablePred p]

theorem count_pos_iff {f : T → β} : 0 < count p f ↔ ∃ t, p (f t) := by
  simp [count, Finset.card_pos, Finset.Nonempty]

theorem count_eq_zero_iff {f : T → β} : count p f = 0 ↔ ∀ t, ¬ p (f t) := by
  simp [count, Finset.filter_eq_empty_iff]

variable [DecidableEq T]

/-- What an update adds and removes balances the two counts. -/
theorem count_update (f : T → β) (t : T) (b : β) :
    count p (Function.update f t b) + (if p (f t) then 1 else 0) =
      count p f + (if p b then 1 else 0) := by
  have hsplit : ∀ g : T → β, count p g =
      ((Finset.univ.erase t).filter fun u => p (g u)).card + (if p (g t) then 1 else 0) := by
    intro g
    unfold count
    rw [← Finset.insert_erase (Finset.mem_univ t), Finset.filter_insert]
    split
    · rw [Finset.card_insert_of_notMem (by simp)]
      simp
    · simp
  have hrest : ((Finset.univ.erase t).filter fun u => p (Function.update f t b u)) =
      (Finset.univ.erase t).filter fun u => p (f u) := by
    apply Finset.filter_congr
    intro u hu
    rw [Function.update_of_ne (Finset.ne_of_mem_erase hu)]
  rw [hsplit (Function.update f t b), hsplit f, hrest, Function.update_self]
  omega

end RadioSim.Counting
