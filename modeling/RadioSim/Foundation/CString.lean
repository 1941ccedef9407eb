import Mathlib.Data.List.TakeWhile
import Mathlib.Tactic.Common

/-! # Character strings of C

A string is the bytes in front of its terminating NUL; a buffer is all the bytes
of a character array, whatever they are.
-/
namespace RadioSim

abbrev Byte := UInt8
abbrev Bytes := List Byte

def ascii (s : String) : Bytes := s.toList.map fun c => UInt8.ofNat c.toNat

structure CString where
  bytes : Bytes
  noNul : 0 ∉ bytes
  deriving DecidableEq

namespace CString

@[ext] theorem ext {s t : CString} (h : s.bytes = t.bytes) : s = t := by
  cases s
  cases t
  simpa using h

def strlen (s : CString) : ℕ := s.bytes.length

def ofBuffer (buffer : Bytes) : CString :=
  ⟨buffer.takeWhile (· ≠ 0),fun h => by simpa using List.mem_takeWhile_imp h⟩

theorem ofBuffer_bytes (s : CString) : ofBuffer s.bytes = s := by
  apply ext
  refine List.takeWhile_eq_self_iff.mpr fun b hb => ?_
  have hne : b ≠ 0 := fun h => s.noNul (h ▸ hb)
  simpa using hne

/-- What stands behind a NUL does not matter. -/
theorem ofBuffer_nul (front rest : Bytes) : ofBuffer (front ++ 0 :: rest) = ofBuffer front := by
  apply ext
  simp only [ofBuffer]
  induction front with
  | nil => simp
  | cons b front ih => simp only [List.cons_append, List.takeWhile_cons, ih]

/-- What `strncpy` writes into its `n` bytes: a prefix, padded with NULs. -/
def strncpy (s : CString) (n : ℕ) : Bytes := s.bytes.take n ++ List.replicate (n - s.bytes.length) 0

def truncate (s : CString) (n : ℕ) : CString :=
  ⟨s.bytes.take n,fun h => s.noNul (List.mem_of_mem_take h)⟩

theorem truncate_of_le {s : CString} {n : ℕ} (h : s.strlen ≤ n) : s.truncate n = s :=
  ext (List.take_of_length_le h)

theorem strlen_truncate (s : CString) (n : ℕ) : (s.truncate n).strlen = min n s.strlen :=
  List.length_take ..

@[simp] theorem strncpy_length (s : CString) (n : ℕ) : (s.strncpy n).length = n := by
  simp only [strncpy, List.length_append, List.length_take, List.length_replicate]
  omega

/-- A bounded copy that is then terminated by hand holds the truncated string. -/
theorem ofBuffer_strncpy (s : CString) (n : ℕ) : ofBuffer (s.strncpy n ++ [0]) = s.truncate n := by
  apply ext
  have htake : ∀ b ∈ s.bytes.take n, decide (b ≠ 0) = true := by
    intro b hb
    have hne : b ≠ 0 := fun h => s.noNul (h ▸ List.mem_of_mem_take hb)
    simpa using hne
  have hrest : List.takeWhile (fun b : Byte => decide (b ≠ 0))
      (List.replicate (n - s.bytes.length) 0 ++ [0]) = [] := by
    cases n - s.bytes.length <;> simp [List.replicate_succ]
  simp only [ofBuffer, strncpy, truncate, List.append_assoc]
  rw [List.takeWhile_append_of_pos htake, hrest, List.append_nil]

end CString
end RadioSim
