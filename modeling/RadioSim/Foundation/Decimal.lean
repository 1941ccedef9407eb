import Mathlib.Data.Nat.Digits.Lemmas
import RadioSim.Foundation.CString

/-! # Decimal conversions of `printf`

The texts that `%u`, `%d` and `%lld` produce, and how long they can get.
-/
namespace RadioSim

def isDigit (b : Byte) : Bool := 48 ≤ b && b ≤ 57

def digitByte (d : ℕ) : Byte := UInt8.ofNat (48 + d)

def decimal (n : ℕ) : Bytes := if n = 0 then [48] else ((Nat.digits 10 n).map digitByte).reverse

def decimalInt (z : ℤ) : Bytes := if z < 0 then 45 :: decimal z.natAbs else decimal z.natAbs

theorem isDigit_digitByte {d : ℕ} (h : d < 10) : isDigit (digitByte d) = true := by
  unfold digitByte
  interval_cases d <;> rfl

theorem isDigit_of_mem_decimal {n : ℕ} {b : Byte} (h : b ∈ decimal n) : isDigit b = true := by
  unfold decimal at h
  split at h
  · rw [List.mem_singleton.mp h]
    rfl
  · obtain ⟨d,hd,hb⟩ := List.mem_map.mp (List.mem_reverse.mp h)
    exact hb ▸ isDigit_digitByte (Nat.digits_lt_base (by decide) hd)

theorem mem_decimalInt {z : ℤ} {b : Byte} (h : b ∈ decimalInt z) : b = 45 ∨ isDigit b = true := by
  unfold decimalInt at h
  split at h
  · rcases List.mem_cons.mp h with hb | hb
    · exact Or.inl hb
    · exact Or.inr (isDigit_of_mem_decimal hb)
  · exact Or.inr (isDigit_of_mem_decimal h)

theorem newline_notMem_decimal (n : ℕ) : 10 ∉ decimal n := by
  intro h
  exact absurd (isDigit_of_mem_decimal h) (by decide)

theorem newline_notMem_decimalInt (z : ℤ) : 10 ∉ decimalInt z := by
  intro h
  rcases mem_decimalInt h with h | h
  · exact absurd h (by decide)
  · exact absurd h (by decide)

theorem toNat_digitByte {d : ℕ} (h : d < 10) : (digitByte d).toNat = 48 + d := by
  unfold digitByte
  interval_cases d <;> rfl

theorem decimal_ne_nil (n : ℕ) : decimal n ≠ [] := by
  unfold decimal
  split
  · exact List.cons_ne_nil _ _
  · rename_i hn
    simpa [Nat.digits_eq_nil_iff_eq_zero] using hn

/-- The digits of a decimal give back its number. -/
theorem foldl_decimal (n : ℕ) : (decimal n).foldl (fun v b => 10 * v + (b.toNat - 48)) 0 = n := by
  have hfold : ∀ ds : List ℕ, (∀ d ∈ ds, d < 10) →
      (ds.map digitByte).foldr (fun b v => 10 * v + (b.toNat - 48)) 0 = Nat.ofDigits 10 ds := by
    intro ds
    induction ds with
    | nil => exact fun _ => rfl
    | cons d ds ih =>
      intro h
      rw [List.map_cons, List.foldr_cons, ih fun e he => h e (List.mem_cons_of_mem d he),
        toNat_digitByte (h d List.mem_cons_self), Nat.ofDigits_cons]
      omega
  unfold decimal
  split
  · rename_i hn
    rw [hn]
    rfl
  · rw [List.foldl_reverse, hfold _ fun d hd => Nat.digits_lt_base (by decide) hd, Nat.ofDigits_digits]

/-- No decimal but that of zero starts with a zero. -/
theorem decimal_head {n : ℕ} (hn : n ≠ 0) : ∃ b bytes, decimal n = b :: bytes ∧ b ≠ 48 := by
  have hne : Nat.digits 10 n ≠ [] := Nat.digits_ne_nil_iff_ne_zero.mpr hn
  have hlast := Nat.getLast_digit_ne_zero 10 hn
  have hlt := Nat.digits_lt_base (b := 10) (by decide) (List.getLast_mem hne)
  obtain ⟨ds,d,hds⟩ := List.eq_nil_or_concat (Nat.digits 10 n) |>.resolve_left hne
  simp only [hds, List.concat_eq_append, List.getLast_append_singleton] at hlast hlt
  refine ⟨digitByte d,(ds.map digitByte).reverse,?_,fun heq => hlast ?_⟩
  · unfold decimal
    rw [if_neg hn, hds]
    simp
  · have hnat := congrArg UInt8.toNat heq
    rw [toNat_digitByte hlt] at hnat
    simpa using hnat

theorem decimal_length_le {n k : ℕ} (hk : 0 < k) (h : n < 10 ^ k) : (decimal n).length ≤ k := by
  unfold decimal
  split
  · exact hk
  · rw [List.length_reverse, List.length_map]
    exact (Nat.digits_length_le_iff (by decide) n).mpr h

theorem decimalInt_length_le {z : ℤ} {k : ℕ} (hk : 0 < k) (h : z.natAbs < 10 ^ k) :
    (decimalInt z).length ≤ k + 1 := by
  have hlen := decimal_length_le hk h
  unfold decimalInt
  split
  · exact Nat.succ_le_succ hlen
  · omega

theorem decimal_uint32_length (x : UInt32) : (decimal x.toNat).length ≤ 10 :=
  decimal_length_le (by decide) (x.toNat_lt.trans (by decide))

theorem decimalInt_int32_length (x : Int32) : (decimalInt x.toInt).length ≤ 11 := by
  have hlt := x.toInt_lt
  have hle := x.le_toInt
  exact decimalInt_length_le (by decide) (show x.toInt.natAbs < 10 ^ 10 by omega)

theorem decimalInt_int64_length (x : Int64) : (decimalInt x.toInt).length ≤ 20 := by
  have hlt := x.toInt_lt
  have hle := x.le_toInt
  exact decimalInt_length_le (by decide) (show x.toInt.natAbs < 10 ^ 19 by omega)

end RadioSim
