import RadioSim.Foundation.CString

/-! # Stores into a character array

Single stores and `snprintf` on an array of bytes. A store outside the array has
no result, so a result says that every index was inside.
-/
namespace RadioSim.CharArray

def store (array : Bytes) (i : ℕ) (b : Byte) : Option Bytes :=
  if i < array.length then some (array.set i b) else none

def storeAll : Bytes → ℕ → Bytes → Option Bytes
  | array, _, [] => some array
  | array, i, b :: rest => (store array i b).bind fun array => storeAll array (i + 1) rest

/-- `snprintf(array + i, size, ...)` that prints `text`: the length of the whole
text, and the array with as much of it as fits and a NUL. -/
def snprintf (array : Bytes) (i size : ℕ) (text : Bytes) : Option (ℕ × Bytes) :=
  if size = 0 then some (text.length,array)
  else (storeAll array i (text.take (size - 1) ++ [0])).map fun array => (text.length,array)

variable {array : Bytes} {i : ℕ}

theorem take_set_succ {α : Type*} {array : List α} {b : α} (h : i < array.length) :
    (array.set i b).take (i + 1) = array.take i ++ [b] := by
  rw [List.set_eq_take_append_cons_drop, if_pos h, List.take_append, List.length_take_of_le h.le,
    List.take_take, Nat.min_eq_right (Nat.le_succ i)]
  simp

theorem storeAll_eq (array : Bytes) (i : ℕ) (bytes : Bytes) (h : i + bytes.length ≤ array.length) :
    storeAll array i bytes = some (array.take i ++ (bytes ++ array.drop (i + bytes.length))) := by
  induction bytes generalizing array i with
  | nil => simp [storeAll]
  | cons b rest ih =>
    simp only [List.length_cons] at h ⊢
    have hi : i < array.length := by omega
    simp only [storeAll, store, if_pos hi, Option.bind_some]
    rw [ih _ _ (by simp only [List.length_set]; omega), take_set_succ hi, List.drop_set, if_pos (by omega), Nat.add_assoc,
      Nat.add_comm 1, List.append_assoc]
    rfl

/-- A `snprintf` into the rest of an array stays inside of it, and when the text
fits in front of the NUL, the array holds it. -/
theorem snprintf_spec (array text : Bytes) (hi : i < array.length) :
    ∃ array', snprintf array i (array.length - i) text = some (text.length,array') ∧
      array'.length = array.length ∧
      (i + text.length < array.length → array'.take (i + text.length) = array.take i ++ text) := by
  have hsize : array.length - i ≠ 0 := by omega
  have hlen : (text.take (array.length - i - 1) ++ [0]).length = min (array.length - i - 1) text.length + 1 := by
    simp
  have hstore := storeAll_eq array i (text.take (array.length - i - 1) ++ [0]) (by rw [hlen]; omega)
  refine ⟨_,by rw [snprintf, if_neg hsize, hstore]; rfl,?_,fun hfits => ?_⟩
  · simp only [List.length_append, List.length_take, List.length_drop, List.length_singleton]
    omega
  · have htake : text.take (array.length - i - 1) = text := List.take_of_length_le (by omega)
    have hi' : (array.take i ++ text).length = i + text.length := by
      simp only [List.length_append, List.length_take]
      omega
    rw [htake, ← hi', ← List.append_assoc, ← List.append_assoc, List.append_assoc _ [0]]
    exact List.take_left

end RadioSim.CharArray
