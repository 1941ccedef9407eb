import RadioSim.Foundation.Decimal

/-! # Number and word scanning of the C library

`strtol` and the `%s` and `%u` conversions of `sscanf` on the bytes of a string,
with a 64-bit `long` and a 32-bit `int`.
-/
namespace RadioSim

def isSpace (b : Byte) : Bool := b == 32 || (9 ≤ b && b ≤ 13)

def skipSpace (s : Bytes) : Bytes := s.dropWhile isSpace

def digitsValue (ds : Bytes) : ℕ := ds.foldl (fun v d => 10 * v + (d.toNat - 48)) 0

def scanSign : Bytes → Bool × Bytes
  | 45 :: rest => (true,rest)
  | 43 :: rest => (false,rest)
  | s => (false,s)

def scanNumeral (s : Bytes) : Option (Bool × ℕ × Bytes) :=
  let signed := scanSign (skipSpace s)
  let ds := signed.2.takeWhile isDigit
  if ds = [] then none else some (signed.1,digitsValue ds,signed.2.dropWhile isDigit)

def longMin : ℤ := -2 ^ 63
def longMax : ℤ := 2 ^ 63 - 1

/-- `strtol(s, &end, 10)`: the saturated value and the text from `end` on;
`none` when there is no conversion and `end = s`. -/
def strtol (s : Bytes) : Option (ℤ × Bytes) :=
  (scanNumeral s).map fun (negative,n,rest) =>
    (max longMin (min longMax (if negative then -(n : ℤ) else n)),rest)

/-- Conversion of a `long` to an `int`. -/
def toInt32 (v : ℤ) : ℤ := Int.bmod v (2 ^ 32)

/-- `%<width>s`: a word of at most `width` bytes, after white space. -/
def scanWord (width : ℕ) (s : Bytes) : Option (Bytes × Bytes) :=
  let start := skipSpace s
  let word := (start.takeWhile fun b => !isSpace b).take width
  if word = [] then none else some (word,start.drop word.length)

/-- `%u`: an `unsigned long`, saturated or negated modulo its range, cut to 32 bits. -/
def scanUnsigned (s : Bytes) : Option UInt32 :=
  (scanNumeral s).map fun (negative,n,_) =>
    UInt32.ofNat (if n ≥ 2 ^ 64 then 2 ^ 64 - 1 else if negative then 2 ^ 64 - n else n)

theorem scanWord_spec {width : ℕ} {s word rest : Bytes} (h : scanWord width s = some (word,rest)) :
    word ≠ [] ∧ word.length ≤ width ∧ ∀ b ∈ word, b ∈ s ∧ isSpace b = false := by
  unfold scanWord at h
  simp only at h
  split at h
  · cases h
  · rename_i hne
    obtain ⟨hword,_⟩ := Prod.mk.inj (Option.some.inj h)
    subst hword
    refine ⟨hne,List.length_take_le ..,?_⟩
    intro b hb
    have hmem := List.mem_of_mem_take hb
    have hspace := List.mem_takeWhile_imp (p := fun b => !isSpace b) hmem
    refine ⟨?_,by simpa using hspace⟩
    exact (List.dropWhile_suffix _).subset ((List.takeWhile_prefix _).subset hmem)

end RadioSim
