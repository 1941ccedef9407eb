import RadioSim.Foundation.CharArray
import RadioSim.Foundation.Numeral

/-! # Reading through a pointer

A pointer into a character array is the part of the array from it on; the pointer to
the end is the empty part. A load there has no result, so a result says that every
byte read was inside. On a string with its NUL and nothing behind it the functions of
the C library below read no further than the NUL, and they do what the functions on
strings say.
-/
namespace RadioSim.Pointer

/-- `*p`. -/
def load (p : Bytes) : Option Byte := p.head?

/-- `p + n`, inside the array or at its end. -/
def offset (p : Bytes) (n : ℕ) : Option Bytes := if n ≤ p.length then some (p.drop n) else none

/-- `while (test(*p)) p++`. -/
def advance (test : Byte → Bool) : Bytes → Option Bytes
  | [] => none
  | b :: p => if test b then advance test p else some (b :: p)

def loadSign (p : Bytes) : Option (Bool × Bytes) :=
  (load p).map fun b => if b = 45 then (true,p.tail) else if b = 43 then (false,p.tail) else (false,p)

/-- The digits that `strtol` reads, after others of value `v`. -/
def loadDigits : ℕ → Bytes → Option (ℕ × Bytes)
  | _, [] => none
  | v, b :: p => if isDigit b then loadDigits (10 * v + (b.toNat - 48)) p else some (v,b :: p)

/-- `strtol(p, &end, 10)`: the value and `end`, which is `p` when there is no number. -/
def strtol (p : Bytes) : Option (ℤ × Bytes) :=
  (advance isSpace p).bind fun start =>
    (loadSign start).bind fun (negative,digits) =>
      (loadDigits 0 digits).map fun (n,fin) =>
        if fin.length = digits.length then (0,p) else (saturate (if negative then -(n : ℤ) else n),fin)

/-- The bytes that `%s` prints. -/
def string : Bytes → Option Bytes
  | [] => none
  | b :: p => if b = 0 then some [] else (string p).map (b :: ·)

/-- `strncmp(p, q, n) == 0`. -/
def strncmp : ℕ → Bytes → Bytes → Option Bool
  | 0, _, _ => some true
  | n + 1, p, q => (load p).bind fun a => (load q).bind fun b =>
    if a ≠ b then some false else if a = 0 then some true else strncmp n p.tail q.tail

def store {α : Type*} (array : List α) (i : ℕ) (v : α) : Option (List α) :=
  if i < array.length then some (array.set i v) else none

section Strings
variable (s behind : Bytes)

theorem load_nul : load (s ++ 0 :: behind) = some (s.headD 0) := by
  cases s <;> rfl

theorem advance_nul {test : Byte → Bool} (htest : test 0 = false) :
    advance test (s ++ 0 :: behind) = some (s.dropWhile test ++ 0 :: behind) := by
  induction s with
  | nil => simp [advance, htest]
  | cons b s ih =>
    cases hb : test b with
    | true => simpa [advance, hb] using ih
    | false => simp [advance, hb]

theorem loadSign_nul : loadSign (s ++ 0 :: behind) = some ((scanSign s).1,(scanSign s).2 ++ 0 :: behind) := by
  cases s with
  | nil => rfl
  | cons b s =>
    by_cases hminus : b = 45
    · subst hminus
      rfl
    · by_cases hplus : b = 43
      · subst hplus
        rfl
      · have hnone : scanSign (b :: s) = (false,b :: s) := by
          unfold scanSign
          split <;> simp_all
        rw [hnone]
        simp [loadSign, load, hminus, hplus]

theorem loadDigits_nul (v : ℕ) :
    loadDigits v (s ++ 0 :: behind) =
      some ((s.takeWhile isDigit).foldl (fun v d => 10 * v + (d.toNat - 48)) v,s.dropWhile isDigit ++ 0 :: behind) := by
  induction s generalizing v with
  | nil => rfl
  | cons b s ih =>
    cases hb : isDigit b with
    | true => simpa [loadDigits, hb] using ih _
    | false => simp [loadDigits, hb]

/-- `strtol` on a string with its NUL. -/
theorem strtol_nul :
    strtol (s ++ 0 :: behind) = some (match RadioSim.strtol s with
      | none => (0,s ++ 0 :: behind)
      | some (v,rest) => (v,rest ++ 0 :: behind)) := by
  have hspace : advance isSpace (s ++ 0 :: behind) = some (skipSpace s ++ 0 :: behind) :=
    advance_nul s behind (by decide)
  unfold strtol
  rw [hspace, Option.bind_some, loadSign_nul, Option.bind_some]
  simp only [loadDigits_nul, Option.map_some]
  congr 1
  unfold RadioSim.strtol scanNumeral
  dsimp only
  have hsplit := congrArg List.length (List.takeWhile_append_dropWhile (p := isDigit) (l := (scanSign (skipSpace s)).2))
  simp only [List.length_append] at hsplit
  by_cases hds : (scanSign (skipSpace s)).2.takeWhile isDigit = []
  · rw [hds, List.length_nil, Nat.zero_add] at hsplit
    simp [hds, hsplit]
  · have hpos := List.length_pos_iff.mpr hds
    rw [if_neg hds, if_neg (by simp only [List.length_append]; omega)]
    rfl

/-- `strncmp` with a word that has no NUL in it. -/
theorem strncmp_nul {word : Bytes} (hword : 0 ∉ word) (rest : Bytes) :
    strncmp word.length (s ++ 0 :: behind) (word ++ rest) = some (decide (s.take word.length = word)) := by
  induction word generalizing s with
  | nil => simp [strncmp]
  | cons b word ih =>
    have hb : b ≠ 0 := fun h => hword (h ▸ List.mem_cons_self)
    have hrest : 0 ∉ word := fun h => hword (List.mem_cons_of_mem b h)
    cases s with
    | nil => simp [strncmp, load, Ne.symm hb]
    | cons a s =>
      by_cases ha : a = b
      · subst ha
        simpa [strncmp, load, hb] using ih s hrest
      · simp [strncmp, load, ha]

theorem string_nul (hs : 0 ∉ s) : string (s ++ 0 :: behind) = some s := by
  induction s with
  | nil => rfl
  | cons b s ih =>
    have hb : b ≠ 0 := fun h => hs (h ▸ List.mem_cons_self)
    have hrest := ih fun h => hs (List.mem_cons_of_mem b h)
    simp [string, hb, hrest]

end Strings

/-- An array with a NUL in it holds a string, its NUL, and whatever stands behind. -/
theorem ofBuffer_split {array : Bytes} (h : 0 ∈ array) :
    ∃ behind, array = (CString.ofBuffer array).bytes ++ 0 :: behind := by
  have hne : array.dropWhile (· ≠ 0) ≠ [] := by
    rw [Ne, List.dropWhile_eq_nil_iff]
    exact fun hall => by simpa using hall 0 h
  obtain ⟨b,behind,hcons⟩ := List.exists_cons_of_ne_nil hne
  have hb : b = 0 := by
    have hhead := List.head?_dropWhile_not (fun b : Byte => decide (b ≠ 0)) array
    rw [hcons] at hhead
    simpa using hhead
  refine ⟨behind,?_⟩
  rw [← hb, ← hcons]
  exact List.takeWhile_append_dropWhile.symm

theorem string_of_mem {array : Bytes} (h : 0 ∈ array) : string array = some (CString.ofBuffer array).bytes := by
  obtain ⟨behind,hsplit⟩ := ofBuffer_split h
  have hstring := string_nul _ behind (CString.ofBuffer array).noNul
  rwa [← hsplit] at hstring

theorem store_of_lt {α : Type*} {array : List α} {i : ℕ} (h : i < array.length) (v : α) :
    store array i v = some (array.set i v) := if_pos h

end RadioSim.Pointer
