import RadioSim.Foundation.Scan

/-! # Numerals as the C library reads them

What `strtol` and `%u` take for a number is white space, a sign and digits. A
scanned text is such a numeral followed by something that is no digit, and the
numeral fixes the value.
-/
namespace RadioSim

inductive Sign
  | none
  | plus
  | minus
  deriving DecidableEq

def Sign.text : Sign → Bytes
  | .none => []
  | .plus => [43]
  | .minus => [45]

/-- The text of one number; leading zeros are digits like any other. -/
structure Numeral where
  space : Bytes
  sign : Sign
  digits : Bytes
  space_all : ∀ b ∈ space, isSpace b = true
  digits_all : ∀ b ∈ digits, isDigit b = true
  digits_ne_nil : digits ≠ []

namespace Numeral

def text (x : Numeral) : Bytes := x.space ++ (x.sign.text ++ x.digits)

def magnitude (x : Numeral) : ℕ := digitsValue x.digits

def value (x : Numeral) : ℤ := if x.sign = .minus then -(x.magnitude : ℤ) else x.magnitude

/-- An optional minus sign and digits, and nothing else. -/
def Plain (x : Numeral) : Prop := x.space = [] ∧ x.sign ≠ .plus

end Numeral

def NoDigit (rest : Bytes) : Prop := ∀ b ∈ rest.head?, isDigit b = false

theorem noDigit_nil : NoDigit [] := by simp [NoDigit]

theorem noDigit_cons {b : Byte} (h : isDigit b = false) (rest : Bytes) : NoDigit (b :: rest) := by
  simpa [NoDigit] using h

section Digits

theorem digit_cases {b : Byte} (h : isDigit b = true) : isSpace b = false ∧ b ≠ 45 ∧ b ≠ 43 ∧ b ≠ 44 := by
  simp only [isDigit, Bool.and_eq_true, decide_eq_true_eq] at h
  obtain ⟨hlow,hhigh⟩ := h
  have hl : 48 ≤ b.toNat := UInt8.le_iff_toNat_le.mp hlow
  have hh : b.toNat ≤ 57 := UInt8.le_iff_toNat_le.mp hhigh
  refine ⟨?_,?_,?_,?_⟩
  · simp only [isSpace, Bool.or_eq_false_iff, beq_eq_false_iff_ne, Bool.and_eq_false_iff, decide_eq_false_iff_not,
      UInt8.le_iff_toNat_le, ne_eq]
    refine ⟨fun he => ?_,Or.inr ?_⟩
    · rw [he] at hl
      exact absurd hl (by decide)
    · have : (13 : UInt8).toNat = 13 := rfl
      omega
  all_goals
    intro he
    rw [he] at hl
    exact absurd hl (by decide)

theorem takeWhile_digits {ds rest : Bytes} (hds : ∀ b ∈ ds, isDigit b = true) (hrest : NoDigit rest) :
    (ds ++ rest).takeWhile isDigit = ds ∧ (ds ++ rest).dropWhile isDigit = rest := by
  rw [List.takeWhile_append_of_pos hds, List.dropWhile_append_of_pos hds]
  cases rest with
  | nil => exact ⟨List.append_nil _,rfl⟩
  | cons b rest =>
    have hb : isDigit b = false := hrest b rfl
    simp [hb]

end Digits

section Scanning
variable {s rest : Bytes}

theorem skipSpace_append {space : Bytes} (h : ∀ b ∈ space, isSpace b = true) (s : Bytes) :
    skipSpace (space ++ s) = skipSpace s :=
  List.dropWhile_append_of_pos h

theorem skipSpace_of_head (h : ∀ b ∈ s.head?, isSpace b = false) : skipSpace s = s := by
  cases s with
  | nil => rfl
  | cons b s => simp [skipSpace, h b rfl]

theorem scanSign_append (sign : Sign) {ds : Bytes} (hds : ∀ b ∈ ds.head?, isDigit b = true) :
    scanSign (sign.text ++ ds) = (decide (sign = .minus),ds) := by
  cases sign with
  | plus => rfl
  | minus => rfl
  | none =>
    cases ds with
    | nil => rfl
    | cons b ds =>
      obtain ⟨_,hminus,hplus,_⟩ := digit_cases (hds b rfl)
      simp only [Sign.text, List.nil_append]
      unfold scanSign
      split
      · rename_i heq
        exact absurd (List.cons.inj heq).1 hminus
      · rename_i heq
        exact absurd (List.cons.inj heq).1 hplus
      · rfl

theorem scanSign_spec (s : Bytes) :
    ∃ sign : Sign, s = sign.text ++ (scanSign s).2 ∧ (scanSign s).1 = decide (sign = .minus) := by
  unfold scanSign
  split
  · exact ⟨.minus,rfl,rfl⟩
  · exact ⟨.plus,rfl,rfl⟩
  · exact ⟨.none,rfl,rfl⟩

namespace Numeral

theorem digits_head (x : Numeral) (rest : Bytes) : ∀ b ∈ (x.digits ++ rest).head?, isDigit b = true := by
  intro b hb
  obtain ⟨_,ds,hds⟩ := List.exists_cons_of_ne_nil x.digits_ne_nil
  rw [hds] at hb
  cases hb
  exact x.digits_all b (by simp [hds])

theorem text_ne_nil (x : Numeral) : x.text ≠ [] := by
  intro h
  exact x.digits_ne_nil (List.append_eq_nil_iff.mp (List.append_eq_nil_iff.mp h).2).2

theorem text_noNul (x : Numeral) : ∀ b ∈ x.text, b ≠ 0 := by
  rintro b hb rfl
  rcases List.mem_append.mp hb with hb | hb
  · exact absurd (x.space_all 0 hb) (by decide)
  · rcases List.mem_append.mp hb with hb | hb
    · cases hs : x.sign <;> simp [hs, Sign.text] at hb
    · exact absurd (x.digits_all 0 hb) (by decide)

theorem skipSpace_text (x : Numeral) (rest : Bytes) :
    skipSpace (x.text ++ rest) = x.sign.text ++ (x.digits ++ rest) := by
  rw [text, List.append_assoc, skipSpace_append x.space_all, List.append_assoc]
  refine skipSpace_of_head fun b hb => ?_
  rw [List.head?_append] at hb
  cases hs : x.sign with
  | none =>
    rw [hs] at hb
    exact (digit_cases (x.digits_head rest b hb)).1
  | plus =>
    rw [hs] at hb
    cases hb
    rfl
  | minus =>
    rw [hs] at hb
    cases hb
    rfl

/-- A numeral is scanned up to the first byte that is no digit. -/
theorem scanNumeral_text (x : Numeral) (h : NoDigit rest) :
    scanNumeral (x.text ++ rest) = some (decide (x.sign = .minus),x.magnitude,rest) := by
  obtain ⟨htake,hdrop⟩ := takeWhile_digits x.digits_all h
  unfold scanNumeral
  simp only [x.skipSpace_text, scanSign_append x.sign (x.digits_head rest), htake, hdrop, if_neg x.digits_ne_nil]
  rfl

end Numeral

/-- What is scanned is a numeral, and no digit follows it. -/
theorem scanNumeral_some {negative : Bool} {n : ℕ} (h : scanNumeral s = some (negative,n,rest)) :
    ∃ x : Numeral, s = x.text ++ rest ∧ negative = decide (x.sign = .minus) ∧ n = x.magnitude ∧ NoDigit rest := by
  unfold scanNumeral at h
  simp only at h
  split at h
  · cases h
  · rename_i hne
    obtain ⟨hneg,hn,hrest⟩ := by simpa only [Option.some.injEq, Prod.mk.injEq] using h
    obtain ⟨sign,hsign,hminus⟩ := scanSign_spec (skipSpace s)
    refine ⟨⟨s.takeWhile isSpace,sign,_,fun b hb => List.mem_takeWhile_imp hb,fun b hb => List.mem_takeWhile_imp hb,
      hne⟩,?_,?_,hn.symm,?_⟩
    · rw [Numeral.text, List.append_assoc, List.append_assoc, ← hrest, List.takeWhile_append_dropWhile, ← hsign]
      exact List.takeWhile_append_dropWhile.symm
    · rw [← hneg, hminus]
    · rw [← hrest]
      intro b hb
      have hhead := List.head?_dropWhile_not isDigit (scanSign (skipSpace s)).2
      rw [hb] at hhead
      simpa using hhead

def saturate (z : ℤ) : ℤ := max longMin (min longMax z)

theorem saturate_of_mem {z : ℤ} (hlow : longMin ≤ z) (hhigh : z ≤ longMax) : saturate z = z := by
  unfold saturate
  omega

theorem strtol_text (x : Numeral) (h : NoDigit rest) : strtol (x.text ++ rest) = some (saturate x.value,rest) := by
  unfold strtol
  rw [x.scanNumeral_text h]
  simp [saturate, Numeral.value]

theorem strtol_some {v : ℤ} (h : strtol s = some (v,rest)) :
    ∃ x : Numeral, s = x.text ++ rest ∧ v = saturate x.value ∧ NoDigit rest := by
  obtain ⟨⟨negative,n,rest'⟩,hscan,hv⟩ := Option.map_eq_some_iff.mp h
  obtain ⟨x,hs,rfl,rfl,hrest⟩ := scanNumeral_some hscan
  simp only [Prod.mk.injEq] at hv
  obtain ⟨hv,rfl⟩ := hv
  refine ⟨x,hs,?_,hrest⟩
  rw [← hv]
  simp [saturate, Numeral.value]

end Scanning

section Decimals

/-- The numeral that `%d` prints. -/
def Numeral.ofInt (z : ℤ) : Numeral where
  space := []
  sign := if z < 0 then .minus else .none
  digits := decimal z.natAbs
  space_all := by simp
  digits_all := fun _ => isDigit_of_mem_decimal
  digits_ne_nil := decimal_ne_nil _

theorem Numeral.ofInt_text (z : ℤ) : (Numeral.ofInt z).text = decimalInt z := by
  unfold Numeral.text Numeral.ofInt decimalInt
  split <;> rfl

theorem Numeral.ofInt_value (z : ℤ) : (Numeral.ofInt z).value = z := by
  have hmag : (Numeral.ofInt z).magnitude = z.natAbs := foldl_decimal _
  unfold Numeral.value
  rw [hmag]
  by_cases hz : z < 0
  · rw [if_pos (by simp [Numeral.ofInt, hz])]
    omega
  · rw [if_neg (by simp [Numeral.ofInt, hz])]
    omega

theorem Numeral.ofInt_plain (z : ℤ) : (Numeral.ofInt z).Plain := by
  refine ⟨rfl,?_⟩
  unfold Numeral.ofInt
  split <;> simp

end Decimals

section Lists

def commaSeparated (xs : List Numeral) : Bytes := [44].intercalate (xs.map Numeral.text)

/-- Numerals that a comma each ends, the last one with or without it. -/
inductive Listed : List Numeral → Bytes → Prop
  | done : Listed [] []
  | last (x : Numeral) : Listed [x] x.text
  | comma (x : Numeral) {xs : List Numeral} {p : Bytes} : Listed xs p → Listed (x :: xs) (x.text ++ 44 :: p)

theorem commaSeparated_cons (x : Numeral) {xs : List Numeral} (h : xs ≠ []) :
    commaSeparated (x :: xs) = x.text ++ 44 :: commaSeparated xs := by
  unfold commaSeparated
  rw [List.map_cons, List.intercalate_cons_of_ne_nil (by simpa using h), List.append_assoc]
  rfl

theorem commaSeparated_singleton (x : Numeral) : commaSeparated [x] = x.text := List.intercalate_singleton

theorem listed_commaSeparated (xs : List Numeral) : Listed xs (commaSeparated xs) := by
  induction xs with
  | nil => exact .done
  | cons x xs ih =>
    by_cases hxs : xs = []
    · rw [hxs, commaSeparated_singleton]
      exact .last x
    · rw [commaSeparated_cons x hxs]
      exact .comma x ih

/-- A listed text is a comma-separated one, but for a comma at its end. -/
theorem Listed.eq_or {xs : List Numeral} {p : Bytes} (h : Listed xs p) :
    p = commaSeparated xs ∨ (xs ≠ [] ∧ p = commaSeparated xs ++ [44]) := by
  induction h with
  | done => exact Or.inl rfl
  | last x => exact Or.inl (commaSeparated_singleton x).symm
  | @comma x xs p hlisted ih =>
    by_cases hxs : xs = []
    · subst hxs
      cases hlisted
      exact Or.inr ⟨List.cons_ne_nil _ _,by rw [commaSeparated_singleton]⟩
    · rw [commaSeparated_cons x hxs]
      rcases ih with rfl | ⟨_,rfl⟩
      · exact Or.inl rfl
      · exact Or.inr ⟨List.cons_ne_nil _ _,by simp⟩

theorem Listed.length_le_count {xs : List Numeral} {p : Bytes} (h : Listed xs p) : xs.length ≤ p.count 44 + 1 := by
  induction h with
  | done => simp
  | last x => simp
  | comma x _ ih =>
    simp only [List.length_cons, List.count_append, List.count_cons_self]
    omega

theorem Listed.mem {xs : List Numeral} {p : Bytes} (h : Listed xs p) {x : Numeral} (hx : x ∈ xs) {b : Byte}
    (hb : b ∈ x.text) : b ∈ p := by
  induction h with
  | done => cases hx
  | last y => exact List.mem_singleton.mp hx ▸ hb
  | comma y _ ih =>
    rcases List.mem_cons.mp hx with rfl | hx
    · exact List.mem_append_left _ hb
    · exact List.mem_append_right _ (List.mem_cons_of_mem _ (ih hx))

theorem Listed.mem_cases {xs : List Numeral} {p : Bytes} (h : Listed xs p) {b : Byte} (hb : b ∈ p) :
    b = 44 ∨ ∃ x ∈ xs, b ∈ x.text := by
  induction h with
  | done => cases hb
  | last x => exact Or.inr ⟨x,List.mem_cons_self,hb⟩
  | comma x _ ih =>
    rcases List.mem_append.mp hb with hb | hb
    · exact Or.inr ⟨x,List.mem_cons_self,hb⟩
    · rcases List.mem_cons.mp hb with hb | hb
      · exact Or.inl hb
      · exact (ih hb).imp_right fun ⟨y,hy,hmem⟩ => ⟨y,List.mem_cons_of_mem x hy,hmem⟩

theorem Numeral.getLast_text (x : Numeral) : ∃ b, x.text.getLast? = some b ∧ isDigit b = true := by
  obtain ⟨ds,d,hds⟩ := List.eq_nil_or_concat x.digits |>.resolve_left x.digits_ne_nil
  refine ⟨d,?_,x.digits_all d (by simp [hds])⟩
  simp [Numeral.text, hds]

theorem getLast_commaSeparated {xs : List Numeral} (h : xs ≠ []) :
    ∃ b, (commaSeparated xs).getLast? = some b ∧ isDigit b = true := by
  induction xs with
  | nil => exact absurd rfl h
  | cons x xs ih =>
    by_cases hxs : xs = []
    · rw [hxs, commaSeparated_singleton]
      exact x.getLast_text
    · obtain ⟨b,hb,hdigit⟩ := ih hxs
      refine ⟨b,?_,hdigit⟩
      rw [commaSeparated_cons x hxs, List.getLast?_append, List.getLast?_cons, hb]
      rfl

end Lists

end RadioSim
