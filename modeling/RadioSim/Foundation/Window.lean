import Mathlib.Data.List.Range
import Mathlib.Data.Nat.ModEq
import Mathlib.Logic.Function.Basic
import Mathlib.Tactic.Common

/-! # Circular windows

A ring of `capacity` slots is read through a window: `size` consecutive slots
that start at `head` and wrap around. Writing the slot behind the window grows
it at the back, moving the start by one slot shrinks it at the front.
-/
namespace RadioSim.Window
variable {α : Type*}

/-- The slots `head, head + 1, …` modulo the capacity, oldest first. -/
def window (items : ℕ → α) (capacity head size : ℕ) : List α :=
  (List.range size).map fun i => items ((head + i) % capacity)

@[simp] theorem window_length (items : ℕ → α) (capacity head size : ℕ) :
    (window items capacity head size).length = size := by simp [window]

/-- Two offsets below the capacity never share a slot. -/
theorem slot_injective {capacity head i j : ℕ} (hi : i < capacity) (hj : j < capacity)
    (h : (head + i) % capacity = (head + j) % capacity) : i = j := by
  have hm : i ≡ j [MOD capacity] := Nat.ModEq.add_left_cancel' head h
  exact Nat.ModEq.eq_of_lt_of_lt hm hi hj

/-- A slot outside the window may change without being seen through it. -/
theorem window_update_outside (items : ℕ → α) {capacity size : ℕ} (head : ℕ) (x : α)
    (hs : size < capacity) :
    window (Function.update items ((head + size) % capacity) x) capacity head size =
      window items capacity head size := by
  apply List.map_congr_left
  intro i hi
  have hlt := List.mem_range.mp hi
  apply Function.update_of_ne
  intro h
  have := slot_injective (hlt.trans hs) hs h
  omega

theorem window_push (items : ℕ → α) {capacity head size : ℕ} (x : α) (hs : size < capacity) :
    window (Function.update items ((head + size) % capacity) x) capacity head (size + 1) =
      window items capacity head size ++ [x] := by
  have hold := window_update_outside items head x hs
  unfold window at hold ⊢
  rw [List.range_succ, List.map_append, hold]
  simp

theorem window_pop (items : ℕ → α) {capacity head : ℕ} (size : ℕ) (hh : head < capacity) :
    window items capacity head (size + 1) =
      items head :: window items capacity ((head + 1) % capacity) size := by
  unfold window
  rw [List.range_succ_eq_map, List.map_cons, List.map_map, Nat.add_zero, Nat.mod_eq_of_lt hh]
  congr 1
  apply List.map_congr_left
  intro i _
  simp only [Function.comp_apply, Nat.mod_add_mod]
  congr 2
  omega

end RadioSim.Window
