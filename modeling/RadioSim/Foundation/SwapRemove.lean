import Mathlib.Data.List.Nodup
import Mathlib.Data.List.Perm.Basic
import Mathlib.Tactic.Common

/-! # Removing an element by moving the last one into its slot -/
namespace RadioSim.SwapRemove
variable {α : Type*}

/-- Slot `i` gets the last element, and the list gets one shorter. -/
def swapRemove (l : List α) (i : ℕ) : List α :=
  match l.getLast? with
  | none => l
  | some last => (l.set i last).dropLast

theorem swapRemove_perm (a b : List α) (x : α) : (swapRemove (a ++ x :: b) a.length).Perm (a ++ b) := by
  rcases List.eq_nil_or_concat' b with rfl | ⟨c,y,rfl⟩
  · simp [swapRemove]
  · have hlast : (a ++ x :: (c ++ [y])).getLast? = some y := by
      rw [← List.cons_append, ← List.append_assoc, List.getLast?_concat]
    have hset : (a ++ x :: (c ++ [y])).set a.length y = (a ++ y :: c) ++ [y] := by simp
    simp only [swapRemove, hlast, hset, List.dropLast_concat]
    exact List.Perm.append_left a (List.perm_append_singleton y c).symm

section Search
variable [DecidableEq α]

/-- The search loop together with the removal it ends in. -/
def remove (l : List α) (x : α) : Option (List α) := (l.findIdx? (· = x)).map (swapRemove l)

theorem remove_eq_none_iff {l : List α} {x : α} : remove l x = none ↔ x ∉ l := by
  simp only [remove, Option.map_eq_none_iff, List.findIdx?_eq_none_iff, decide_eq_false_iff_not]
  exact ⟨fun h hx => h x hx rfl,fun h y hy he => h (he ▸ hy)⟩

theorem remove_perm {l r : List α} {x : α} (h : remove l x = some r) : (x :: r).Perm l := by
  obtain ⟨i,hi,rfl⟩ := Option.map_eq_some_iff.mp h
  obtain ⟨hlt,hx,_⟩ := List.findIdx?_eq_some_iff_getElem.mp hi
  have hsplit : l = l.take i ++ x :: l.drop (i + 1) := by
    have hx : l[i] = x := by simpa using hx
    rw [← hx, List.getElem_cons_drop, List.take_append_drop]
  have hlen : (l.take i).length = i := by simp [Nat.le_of_lt hlt]
  have hperm := swapRemove_perm (l.take i) (l.drop (i + 1)) x
  rw [← hsplit, hlen] at hperm
  refine (hperm.cons x).trans ?_
  conv_rhs => rw [hsplit]
  exact List.perm_middle.symm

theorem mem_remove {l r : List α} {x y : α} (hl : l.Nodup) (h : remove l x = some r) :
    y ∈ r ↔ y ∈ l ∧ y ≠ x := by
  have hperm := remove_perm h
  have hnot : x ∉ r := (List.nodup_cons.mp (hperm.nodup_iff.mpr hl)).1
  rw [← hperm.mem_iff, List.mem_cons]
  constructor
  · intro hy
    exact ⟨Or.inr hy,fun he => hnot (he ▸ hy)⟩
  · rintro ⟨he | hy,hne⟩
    · exact absurd he hne
    · exact hy

theorem remove_nodup {l r : List α} {x : α} (hl : l.Nodup) (h : remove l x = some r) : r.Nodup :=
  (List.nodup_cons.mp ((remove_perm h).nodup_iff.mpr hl)).2

theorem remove_length {l r : List α} {x : α} (h : remove l x = some r) : r.length + 1 = l.length := by
  rw [← (remove_perm h).length_eq, List.length_cons]

end Search
end RadioSim.SwapRemove
