import Mathlib.Data.List.Nodup
import Mathlib.Logic.Function.Basic
import Mathlib.Order.Basic
import Mathlib.Tactic.Common

/-! # Tokens in custody

A token is handed out once by an allocator, and from then on is held by one
party, stored in one place, or freed. Parties hold at most one token at a time.
The moves below are all that may happen to tokens; along them no token is freed
twice and none that a party holds or a place stores has been freed.
-/
namespace RadioSim

@[ext] structure Custody (T Q : Type*) where
  held : T → Option ℕ
  stored : Q → List ℕ
  next : ℕ
  frees : ℕ → ℕ

namespace Custody
variable {T Q : Type*}

inductive Place (T Q : Type*)
  | unborn
  | party (t : T)
  | store (q : Q)
  | freed

/-- Every token is where the ledger `loc` says. -/
structure Accounted (loc : ℕ → Place T Q) (c : Custody T Q) : Prop where
  held_at : ∀ t p, c.held t = some p → loc p = .party t
  stored_at : ∀ q, ∀ p ∈ c.stored q, loc p = .store q
  stored_nodup : ∀ q, (c.stored q).Nodup
  frees_one : ∀ p, loc p = .freed → c.frees p = 1
  frees_zero : ∀ p, loc p ≠ .freed → c.frees p = 0
  unborn_of_le : ∀ p, c.next ≤ p → loc p = .unborn

def Sound (c : Custody T Q) : Prop := ∃ loc, Accounted loc c

def empty : Custody T Q := ⟨fun _ => none,fun _ => [],0,fun _ => 0⟩

theorem empty_sound : (empty : Custody T Q).Sound := by
  refine ⟨fun _ => .unborn,?_,?_,fun _ => List.nodup_nil,?_,fun _ _ => rfl,fun _ _ => rfl⟩
  · intro t p h
    cases h
  · intro q p h
    cases h
  · intro p h
    cases h

theorem Sound.frees_le {c : Custody T Q} (h : c.Sound) (p : ℕ) : c.frees p ≤ 1 := by
  obtain ⟨loc,hloc⟩ := h
  by_cases hp : loc p = .freed
  · exact Nat.le_of_eq (hloc.frees_one p hp)
  · rw [hloc.frees_zero p hp]
    exact Nat.zero_le 1

theorem Accounted.lt_next {loc : ℕ → Place T Q} {c : Custody T Q} (h : Accounted loc c) {p : ℕ}
    (hp : loc p ≠ .unborn) : p < c.next := by
  by_contra hle
  exact hp (h.unborn_of_le p (Nat.not_lt.mp hle))

theorem Sound.held_fresh {c : Custody T Q} (h : c.Sound) {t : T} {p : ℕ} (hp : c.held t = some p) :
    p < c.next ∧ c.frees p = 0 := by
  obtain ⟨loc,hloc⟩ := h
  have hat := hloc.held_at t p hp
  exact ⟨hloc.lt_next (by simp [hat]),hloc.frees_zero p (by simp [hat])⟩

theorem Sound.lt_of_frees {c : Custody T Q} (h : c.Sound) {p : ℕ} (hp : c.frees p ≠ 0) : p < c.next := by
  obtain ⟨loc,hloc⟩ := h
  refine hloc.lt_next fun hunborn => hp (hloc.frees_zero p ?_)
  simp [hunborn]

variable [DecidableEq T] [DecidableEq Q]

inductive Move : Custody T Q → Custody T Q → Prop
  | allocate (c : Custody T Q) (t : T) (h : c.held t = none) :
      Move c ⟨Function.update c.held t (some c.next),c.stored,c.next + 1,c.frees⟩
  | deposit (c : Custody T Q) (t : T) (q : Q) (p : ℕ) (h : c.held t = some p) :
      Move c ⟨Function.update c.held t none,Function.update c.stored q (c.stored q ++ [p]),c.next,c.frees⟩
  | withdraw (c : Custody T Q) (t : T) (q : Q) (p : ℕ) (rest : List ℕ) (h : c.held t = none)
      (hq : c.stored q = p :: rest) :
      Move c ⟨Function.update c.held t (some p),Function.update c.stored q rest,c.next,c.frees⟩
  | release (c : Custody T Q) (t : T) (p : ℕ) (h : c.held t = some p) :
      Move c ⟨Function.update c.held t none,c.stored,c.next,Function.update c.frees p (c.frees p + 1)⟩
  | copy (c : Custody T Q) (q : Q) :
      Move c ⟨c.held,Function.update c.stored q (c.stored q ++ [c.next]),c.next + 1,c.frees⟩
  | copyDropped (c : Custody T Q) :
      Move c ⟨c.held,c.stored,c.next + 1,Function.update c.frees c.next (c.frees c.next + 1)⟩
  | discard (c : Custody T Q) (q : Q) : Move c ⟨c.held,Function.update c.stored q [],c.next,c.frees⟩

section Updates
variable {held : T → Option ℕ} {stored : Q → List ℕ} {t t' : T} {q q' : Q} {p r : ℕ} {l : List ℕ}

omit [DecidableEq Q] in
theorem update_some (h : Function.update held t (some p) t' = some r) :
    (t' = t ∧ r = p) ∨ held t' = some r := by
  by_cases ht : t' = t
  · subst ht
    rw [Function.update_self] at h
    exact Or.inl ⟨rfl,(Option.some.inj h).symm⟩
  · rw [Function.update_of_ne ht] at h
    exact Or.inr h

omit [DecidableEq Q] in
theorem update_none (h : Function.update held t none t' = some r) : t' ≠ t ∧ held t' = some r := by
  by_cases ht : t' = t
  · subst ht
    simp at h
  · rw [Function.update_of_ne ht] at h
    exact ⟨ht,h⟩

omit [DecidableEq T] in
theorem mem_update (h : r ∈ Function.update stored q l q') :
    (q' = q ∧ r ∈ l) ∨ (q' ≠ q ∧ r ∈ stored q') := by
  by_cases hq : q' = q
  · subst hq
    rw [Function.update_self] at h
    exact Or.inl ⟨rfl,h⟩
  · rw [Function.update_of_ne hq] at h
    exact Or.inr ⟨hq,h⟩

omit [DecidableEq T] in
theorem nodup_update (h : ∀ q, (stored q).Nodup) (hl : l.Nodup) (q' : Q) :
    (Function.update stored q l q').Nodup := by
  by_cases hq : q' = q
  · subst hq
    rw [Function.update_self]
    exact hl
  · rw [Function.update_of_ne hq]
    exact h q'

end Updates

section Ledger
variable {loc : ℕ → Place T Q} {c : Custody T Q} {p : ℕ}

omit [DecidableEq T] [DecidableEq Q] in
/-- The ledger after token `p` went to `place`: what is to be checked is about `p` alone. -/
theorem Accounted.moved (h : Accounted loc c) {c' : Custody T Q} (place : Place T Q)
    (hheld : ∀ t r, c'.held t = some r → (r = p ∧ place = .party t) ∨ (r ≠ p ∧ c.held t = some r))
    (hstored : ∀ q, ∀ r ∈ c'.stored q, (r = p ∧ place = .store q) ∨ (r ≠ p ∧ r ∈ c.stored q))
    (hnodup : ∀ q, (c'.stored q).Nodup) (hother : ∀ r, r ≠ p → c'.frees r = c.frees r)
    (hone : place = .freed → c'.frees p = 1) (hzero : place ≠ .freed → c'.frees p = 0)
    (hnext : c.next ≤ c'.next) (hp : p < c'.next) : Accounted (Function.update loc p place) c' where
  held_at t r hr := by
    rcases hheld t r hr with ⟨rfl,hplace⟩ | ⟨hne,hr'⟩
    · rw [Function.update_self, hplace]
    · rw [Function.update_of_ne hne]
      exact h.held_at t r hr'
  stored_at q r hr := by
    rcases hstored q r hr with ⟨rfl,hplace⟩ | ⟨hne,hr'⟩
    · rw [Function.update_self, hplace]
    · rw [Function.update_of_ne hne]
      exact h.stored_at q r hr'
  stored_nodup := hnodup
  frees_one r hr := by
    by_cases hrp : r = p
    · subst hrp
      exact hone (by simpa using hr)
    · rw [Function.update_of_ne hrp] at hr
      rw [hother r hrp, h.frees_one r hr]
  frees_zero r hr := by
    by_cases hrp : r = p
    · subst hrp
      exact hzero (by simpa using hr)
    · rw [Function.update_of_ne hrp] at hr
      rw [hother r hrp, h.frees_zero r hr]
  unborn_of_le r hr := by
    rw [Function.update_of_ne (by omega)]
    exact h.unborn_of_le r (Nat.le_trans hnext hr)

omit [DecidableEq T] [DecidableEq Q] in
theorem Accounted.held_ne (h : Accounted loc c) {t : T} {r : ℕ} (hp : loc p ≠ .party t)
    (hr : c.held t = some r) : r ≠ p := by
  intro heq
  subst heq
  exact hp (h.held_at t r hr)

omit [DecidableEq T] [DecidableEq Q] in
theorem Accounted.stored_ne (h : Accounted loc c) {q : Q} {r : ℕ} (hp : loc p ≠ .store q)
    (hr : r ∈ c.stored q) : r ≠ p := by
  intro heq
  subst heq
  exact hp (h.stored_at q r hr)

omit [DecidableEq T] in
/-- Storing a token that is stored nowhere at the end of `q`. -/
theorem Accounted.stored_push (h : Accounted loc c) (hp : ∀ q, loc p ≠ .store q) (q : Q) :
    (∀ q', ∀ r ∈ Function.update c.stored q (c.stored q ++ [p]) q',
      (r = p ∧ (.store q : Place T Q) = .store q') ∨ (r ≠ p ∧ r ∈ c.stored q')) ∧
    ∀ q', (Function.update c.stored q (c.stored q ++ [p]) q').Nodup := by
  constructor
  · intro q' r hr
    rcases mem_update hr with ⟨rfl,hr⟩ | ⟨_,hr⟩
    · rcases List.mem_append.mp hr with hr | hr
      · exact Or.inr ⟨h.stored_ne (hp _) hr,hr⟩
      · exact Or.inl ⟨List.mem_singleton.mp hr,rfl⟩
    · exact Or.inr ⟨h.stored_ne (hp _) hr,hr⟩
  · have hnew := (h.stored_nodup q).concat fun hmem => h.stored_ne (hp q) hmem rfl
    rw [List.concat_eq_append] at hnew
    exact nodup_update h.stored_nodup hnew

omit [DecidableEq Q] in
/-- Taking its token from its holder. -/
theorem Accounted.held_drop (h : Accounted loc c) {t t' : T} {r : ℕ} (hp : loc p = .party t)
    (hr : Function.update c.held t none t' = some r) : r ≠ p ∧ c.held t' = some r := by
  obtain ⟨ht,hr⟩ := update_none hr
  refine ⟨h.held_ne (fun heq => ht ?_) hr,hr⟩
  exact (Place.party.inj (hp.symm.trans heq)).symm

omit [DecidableEq Q] in
/-- Giving a token that nobody holds to `t`. -/
theorem Accounted.held_gain (h : Accounted loc c) {t t' : T} {r : ℕ} (hp : ∀ t, loc p ≠ .party t)
    (hr : Function.update c.held t (some p) t' = some r) :
    (r = p ∧ (.party t : Place T Q) = .party t') ∨ (r ≠ p ∧ c.held t' = some r) := by
  rcases update_some hr with ⟨ht,hr⟩ | hr
  · exact Or.inl ⟨hr,by rw [ht]⟩
  · exact Or.inr ⟨h.held_ne (hp t') hr,hr⟩

end Ledger

/-- A move keeps the account: it changes the place of one token. -/
theorem Move.sound {c c' : Custody T Q} (hmove : Move c c') (h : c.Sound) : c'.Sound := by
  obtain ⟨loc,hloc⟩ := h
  have hnew : loc c.next = .unborn := hloc.unborn_of_le _ (Nat.le_refl _)
  have hnewHeld : ∀ t, loc c.next ≠ .party t := fun t ht => by simp [hnew] at ht
  have hnewStored : ∀ q, loc c.next ≠ .store q := fun q hq => by simp [hnew] at hq
  have hnewZero : c.frees c.next = 0 := hloc.frees_zero _ (by simp [hnew])
  cases hmove with
  | allocate t ht =>
    exact ⟨_,hloc.moved (.party t) (fun _ _ hr => hloc.held_gain hnewHeld hr)
      (fun q r hr => Or.inr ⟨hloc.stored_ne (hnewStored q) hr,hr⟩) hloc.stored_nodup (fun _ _ => rfl)
      (fun h => by cases h) (fun _ => hnewZero) (Nat.le_succ _) (Nat.lt_succ_self _)⟩
  | deposit t q p hp =>
    have hat := hloc.held_at t p hp
    obtain ⟨hstored,hnodup⟩ := hloc.stored_push (p := p) (fun q hq => by simp [hat] at hq) q
    exact ⟨_,hloc.moved (.store q) (fun _ _ hr => Or.inr (hloc.held_drop hat hr)) hstored hnodup
      (fun _ _ => rfl) (fun h => by cases h) (fun _ => hloc.frees_zero p (by simp [hat])) (Nat.le_refl _)
      (hloc.lt_next (by simp [hat]))⟩
  | withdraw t q p rest ht hq =>
    have hat := hloc.stored_at q p (by simp [hq])
    have hnodup := hloc.stored_nodup q
    rw [hq, List.nodup_cons] at hnodup
    refine ⟨_,hloc.moved (.party t)
      (fun _ _ hr => hloc.held_gain (fun t ht => by simp [hat] at ht) hr) ?_
      (nodup_update hloc.stored_nodup hnodup.2) (fun _ _ => rfl) (fun h => by cases h)
      (fun _ => hloc.frees_zero p (by simp [hat])) (Nat.le_refl _) (hloc.lt_next (by simp [hat]))⟩
    intro q' r hr
    rcases mem_update hr with ⟨rfl,hrest⟩ | ⟨hne,hr⟩
    · exact Or.inr ⟨fun heq => hnodup.1 (heq ▸ hrest),by simp [hq, hrest]⟩
    · refine Or.inr ⟨hloc.stored_ne (fun heq => hne ?_) hr,hr⟩
      exact (Place.store.inj (hat.symm.trans heq)).symm
  | release t p hp =>
    have hat := hloc.held_at t p hp
    refine ⟨_,hloc.moved .freed (fun _ _ hr => Or.inr (hloc.held_drop hat hr))
      (fun q r hr => Or.inr ⟨hloc.stored_ne (fun hq => by simp [hat] at hq) hr,hr⟩) hloc.stored_nodup
      (fun r hr => Function.update_of_ne hr ..) ?_ (fun h => absurd rfl h) (Nat.le_refl _)
      (hloc.lt_next (by simp [hat]))⟩
    intro _
    simp [hloc.frees_zero p (by simp [hat])]
  | copy q =>
    obtain ⟨hstored,hnodup⟩ := hloc.stored_push hnewStored q
    exact ⟨_,hloc.moved (.store q) (fun t r hr => Or.inr ⟨hloc.held_ne (hnewHeld t) hr,hr⟩) hstored hnodup
      (fun _ _ => rfl) (fun h => by cases h) (fun _ => hnewZero) (Nat.le_succ _) (Nat.lt_succ_self _)⟩
  | copyDropped =>
    refine ⟨_,hloc.moved .freed (fun t r hr => Or.inr ⟨hloc.held_ne (hnewHeld t) hr,hr⟩)
      (fun q r hr => Or.inr ⟨hloc.stored_ne (hnewStored q) hr,hr⟩) hloc.stored_nodup
      (fun r hr => Function.update_of_ne hr ..) ?_ (fun h => absurd rfl h) (Nat.le_succ _)
      (Nat.lt_succ_self _)⟩
    intro _
    simp [hnewZero]
  | discard q =>
    -- a discarded token keeps its place in the ledger, and is nowhere else
    refine ⟨loc,hloc.held_at,?_,nodup_update hloc.stored_nodup List.nodup_nil,hloc.frees_one,
      hloc.frees_zero,hloc.unborn_of_le⟩
    intro q' r hr
    rcases mem_update hr with ⟨_,hr⟩ | ⟨_,hr⟩
    · cases hr
    · exact hloc.stored_at q' r hr

section Sight
variable {c c' : Custody T Q} {p : ℕ}

def Placed (c : Custody T Q) (p : ℕ) : Prop := c.frees p ≠ 0 ∨ (∃ t, c.held t = some p) ∨ ∃ q, p ∈ c.stored q

omit [DecidableEq Q] in
theorem held_of_ne {held : T → Option ℕ} {t : T} (hr : held t ≠ some p) (h : ∃ t, held t = some p) (next : Option ℕ) :
    ∃ t', Function.update held t next t' = some p := by
  obtain ⟨t',ht'⟩ := h
  refine ⟨t',?_⟩
  rwa [Function.update_of_ne]
  rintro rfl
  exact hr ht'

omit [DecidableEq T] in
theorem stored_of_imp {stored : Q → List ℕ} {q : Q} {l : List ℕ} (hl : p ∈ stored q → p ∈ l)
    (h : ∃ q, p ∈ stored q) : ∃ q', p ∈ Function.update stored q l q' := by
  obtain ⟨q',hq'⟩ := h
  refine ⟨q',?_⟩
  by_cases hq : q' = q
  · subst hq
    rw [Function.update_self]
    exact hl hq'
  · rwa [Function.update_of_ne hq]

theorem Move.next_le (hmove : Move c c') : c.next ≤ c'.next := by
  cases hmove <;> simp

/-- A token gets out of sight only when the place that stores it is emptied. -/
theorem Move.placed (hmove : Move c c') (hp : p < c'.next) (h : p < c.next → c.Placed p) :
    c'.Placed p ∨ ∃ q, p ∈ c.stored q ∧ c'.stored q = [] := by
  cases hmove with
  | allocate t ht =>
    left
    by_cases hnew : p = c.next
    · exact Or.inr (Or.inl ⟨t,by simp [hnew]⟩)
    · exact (h (Nat.lt_of_le_of_ne (Nat.lt_succ_iff.mp hp) hnew)).imp_right
        (Or.imp_left fun hheld => held_of_ne (by simp [ht]) hheld _)
  | deposit t q r hr =>
    left
    by_cases hpr : p = r
    · exact Or.inr (Or.inr ⟨q,by simp [hpr]⟩)
    · exact (h hp).imp_right (Or.imp (fun hheld => held_of_ne (by simp [hr, Ne.symm hpr]) hheld _)
        (stored_of_imp (List.mem_append_left _)))
  | withdraw t q r rest ht hq =>
    left
    by_cases hpr : p = r
    · exact Or.inr (Or.inl ⟨t,by simp [hpr]⟩)
    · refine (h hp).imp_right (Or.imp (fun hheld => held_of_ne (by simp [ht]) hheld _) (stored_of_imp fun hmem => ?_))
      rw [hq] at hmem
      exact (List.mem_cons.mp hmem).resolve_left hpr
  | release t r hr =>
    left
    by_cases hpr : p = r
    · exact Or.inl (by simp [hpr])
    · refine (h hp).imp (fun hfreed => ?_) (Or.imp_left fun hheld => held_of_ne (by simp [hr, Ne.symm hpr]) hheld _)
      simpa [Function.update_of_ne hpr] using hfreed
  | copy q =>
    left
    by_cases hnew : p = c.next
    · exact Or.inr (Or.inr ⟨q,by simp [hnew]⟩)
    · exact (h (Nat.lt_of_le_of_ne (Nat.lt_succ_iff.mp hp) hnew)).imp_right
        (Or.imp_right (stored_of_imp (List.mem_append_left _)))
  | copyDropped =>
    left
    by_cases hnew : p = c.next
    · exact Or.inl (by simp [hnew])
    · refine (h (Nat.lt_of_le_of_ne (Nat.lt_succ_iff.mp hp) hnew)).imp_left fun hfreed => ?_
      simpa [Function.update_of_ne hnew] using hfreed
  | discard q =>
    by_cases hmem : p ∈ c.stored q
    · exact Or.inr ⟨q,hmem,by simp⟩
    · exact Or.inl ((h hp).imp_right (Or.imp_right (stored_of_imp fun hin => absurd hin hmem)))

end Sight

end Custody
end RadioSim
