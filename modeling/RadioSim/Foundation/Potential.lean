import Mathlib.Algebra.GroupWithZero.Nat
import Mathlib.Algebra.Order.BigOperators.Group.Finset
import Mathlib.Algebra.BigOperators.Group.Finset.Piecewise

/-! # Potentials

The steps of a run are paid for out of a potential: what a label deposits is added
to it, what a label costs is taken from it. The potential of a family of processes
is the sum of what each of them still owes.
-/
namespace RadioSim.Potential

section Runs
variable {S L : Type*} {next : S → L → Option S} {I : S → Prop} {potential : S → ℕ} {cost deposit : L → ℕ}

/-- The costs of a run are covered by the potential at its start and by the deposits
on the way. -/
theorem run_cost_le (hinv : ∀ s l s', I s → next s l = some s' → I s')
    (hpay : ∀ s l s', I s → next s l = some s' → potential s' + cost l ≤ potential s + deposit l)
    {s s' : S} {labels : List L} (hs : I s) (h : labels.foldlM next s = some s') :
    potential s' + (labels.map cost).sum ≤ potential s + (labels.map deposit).sum := by
  induction labels generalizing s with
  | nil =>
    cases h
    exact le_rfl
  | cons l rest ih =>
    obtain ⟨m,hm,hrest⟩ := Option.bind_eq_some_iff.mp h
    have hfirst := hpay s l m hs hm
    have hlater := ih (hinv s l m hs hm) hrest
    simp only [List.map_cons, List.sum_cons]
    omega

/-- Where every state that is not a goal has a step that lowers the potential, some run
leads to a goal. -/
theorem exists_run_to {Q : S → Prop} (hinv : ∀ s l s', I s → next s l = some s' → I s')
    (hgo : ∀ s, I s → ¬ Q s → ∃ l s', next s l = some s' ∧ potential s' < potential s) {s : S} (hs : I s) :
    ∃ (labels : List L) (s' : S), labels.foldlM next s = some s' ∧ Q s' := by
  induction hn : potential s using Nat.strong_induction_on generalizing s with
  | _ n ih =>
    by_cases hgoal : Q s
    · exact ⟨[],s,rfl,hgoal⟩
    · obtain ⟨l,m,hm,hless⟩ := hgo s hs hgoal
      obtain ⟨labels,s',hrun,hs'⟩ := ih (potential m) (hn ▸ hless) (hinv s l m hs hm) rfl
      exact ⟨l :: labels,s',by rw [List.foldlM_cons, hm]; exact hrun,hs'⟩

end Runs

section Families
variable {ι : Type*} {T U : Finset ι} {owed owed' : ι → ℕ} {i : ι} {spent earned : ℕ}

/-- Only the members that owe something count. -/
theorem sum_eq_of_support (howed : ∀ j, owed j ≠ 0 → j ∈ T) (hsub : T ⊆ U) : ∑ j ∈ T, owed j = ∑ j ∈ U, owed j :=
  Finset.sum_subset hsub fun j _ hj => by_contra fun hne => hj (howed j hne)

theorem sum_union_le [DecidableEq ι] (owed : ι → ℕ) (T U : Finset ι) :
    ∑ j ∈ T ∪ U, owed j ≤ ∑ j ∈ T, owed j + ∑ j ∈ U, owed j :=
  (Nat.le_add_right _ _).trans_eq Finset.sum_union_inter

/-- One process makes a step, and pays what another one owes because of it. -/
theorem sum_step_le [DecidableEq ι] (child : ι) (charge : ℕ) (hi : i ∈ T)
    (hstep : owed' i + charge + spent ≤ owed i + earned)
    (hothers : ∀ j, j ≠ i → owed' j ≤ owed j + if j = child then charge else 0) :
    ∑ j ∈ T, owed' j + spent ≤ ∑ j ∈ T, owed j + earned := by
  have hcharge : ∑ j ∈ T.erase i, (if j = child then charge else 0) ≤ charge := by
    rw [Finset.sum_ite_eq']
    split
    · exact le_rfl
    · exact Nat.zero_le _
  have hrest : ∑ j ∈ T.erase i, owed' j ≤
      ∑ j ∈ T.erase i, owed j + ∑ j ∈ T.erase i, (if j = child then charge else 0) := by
    rw [← Finset.sum_add_distrib]
    exact Finset.sum_le_sum fun j hj => hothers j (Finset.ne_of_mem_erase hj)
  rw [← Finset.add_sum_erase T owed' hi, ← Finset.add_sum_erase T owed hi]
  omega

end Families

end RadioSim.Potential
