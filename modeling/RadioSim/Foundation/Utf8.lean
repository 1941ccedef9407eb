import Mathlib.Data.List.Basic
import RadioSim.Foundation.CString

/-! # UTF-8

Texts as lists of characters and as bytes, after the encoding of the core library.
An ASCII byte in an encoded text is a character of its own, so that a text can be
cut in front of it.
-/
namespace RadioSim

def utf8 (text : List Char) : Bytes := text.flatMap String.utf8EncodeChar

def decodeUtf8 (bytes : Bytes) : Option (List Char) := (String.fromUTF8? bytes.toByteArray).map String.toList

theorem utf8_append (l m : List Char) : utf8 (l ++ m) = utf8 l ++ utf8 m := List.flatMap_append

theorem decodeUtf8_utf8 (l : List Char) : decodeUtf8 (utf8 l) = some l := by
  have hvalid : (utf8 l).toByteArray.IsValidUTF8 := ⟨l,rfl⟩
  have hstring : String.fromUTF8 (utf8 l).toByteArray hvalid = String.ofList l := rfl
  simp only [decodeUtf8, String.fromUTF8?, hvalid, ↓reduceDIte, hstring, Option.map_some, String.toList_ofList]

theorem utf8_of_decodeUtf8 {bytes : Bytes} {l : List Char} (h : decodeUtf8 bytes = some l) : utf8 l = bytes := by
  unfold decodeUtf8 String.fromUTF8? at h
  split at h
  · rename_i hvalid
    simp only [Option.map_some, Option.some.injEq] at h
    have hbytes : l.utf8Encode = bytes.toByteArray := by
      rw [← h, String.utf8Encode_toList]
      rfl
    have hlists := congrArg (fun b : ByteArray => b.data.toList) hbytes
    simpa [List.utf8Encode, utf8] using hlists
  · cases h

theorem utf8_injective {l m : List Char} (h : utf8 l = utf8 m) : l = m := by
  have heq := congrArg decodeUtf8 h
  rw [decodeUtf8_utf8, decodeUtf8_utf8] at heq
  exact Option.some.inj heq

/-- The beginning of an encoded text is the beginning of the text. -/
theorem utf8_strip {l m : List Char} {v : Bytes} (h : utf8 l = utf8 m ++ v) :
    ∃ rest, l = m ++ rest ∧ utf8 rest = v := by
  induction m generalizing l with
  | nil => exact ⟨l,rfl,h⟩
  | cons c m ih =>
    cases l with
    | nil =>
      have hlength := congrArg List.length h
      have hpos := Char.utf8Size_pos c
      simp only [utf8, List.flatMap_nil, List.flatMap_cons, List.length_nil, List.length_append,
        String.length_utf8EncodeChar] at hlength
      omega
    | cons d l =>
      have hbytes : String.utf8EncodeChar d ++ utf8 l = String.utf8EncodeChar c ++ (utf8 m ++ v) := by
        rw [← List.append_assoc]
        exact h
      have hchar : d = c := by
        have hd := ByteArray.utf8DecodeChar?_utf8EncodeChar_append (b := (utf8 l).toByteArray) (c := d)
        have hc := ByteArray.utf8DecodeChar?_utf8EncodeChar_append (b := (utf8 m ++ v).toByteArray) (c := c)
        rw [← List.toByteArray_append] at hd hc
        rw [hbytes] at hd
        exact Option.some.inj (hd.symm.trans hc)
      subst hchar
      obtain ⟨rest,rfl,hrest⟩ := ih (List.append_cancel_left hbytes)
      exact ⟨rest,rfl,hrest⟩

section Ascii

theorem utf8EncodeChar_of_lt {c : Char} (h : c.toNat < 128) : String.utf8EncodeChar c = [UInt8.ofNat c.toNat] := by
  unfold String.utf8EncodeChar
  exact if_pos (Nat.le_of_lt_succ h)

/-- The bytes of an ASCII text are its characters. -/
theorem ascii_eq_utf8 {s : String} (h : (s.toList.all fun c => decide (c.toNat < 128)) = true) :
    ascii s = utf8 s.toList := by
  unfold ascii utf8
  generalize s.toList = l at h
  induction l with
  | nil => rfl
  | cons c rest ih =>
    rw [List.all_cons, Bool.and_eq_true, decide_eq_true_eq] at h
    rw [List.map_cons, List.flatMap_cons, utf8EncodeChar_of_lt h.1, ih h.2]
    rfl

def ofAscii (bytes : Bytes) : List Char := bytes.map fun b => Char.ofNat b.toNat

theorem toNat_ofNat_ascii {b : Byte} (h : b < 128) : (Char.ofNat b.toNat).toNat = b.toNat := by
  have hb : b.toNat < 128 := h
  have hvalid : b.toNat.isValidChar := Or.inl (by omega)
  rw [Char.ofNat, dif_pos hvalid]
  rfl

theorem utf8_ofAscii {bytes : Bytes} (h : ∀ b ∈ bytes, b < 128) : utf8 (ofAscii bytes) = bytes := by
  unfold utf8 ofAscii
  induction bytes with
  | nil => rfl
  | cons b rest ih =>
    have hb := h b List.mem_cons_self
    have hnat := toNat_ofNat_ascii hb
    have hsmall : (Char.ofNat b.toNat).toNat < 128 := by
      rw [hnat]
      exact hb
    rw [List.map_cons, List.flatMap_cons, utf8EncodeChar_of_lt hsmall, hnat,
      ih fun d hd => h d (List.mem_cons_of_mem b hd), UInt8.ofNat_toNat]
    rfl

/-- A character is one byte, or all its bytes are beyond ASCII. -/
theorem utf8EncodeChar_bytes (c : Char) :
    (∃ b, String.utf8EncodeChar c = [b]) ∨ ∀ b ∈ String.utf8EncodeChar c, 128 ≤ b := by
  have hge : ∀ m : ℕ, 128 ≤ m → m < 256 → (128 : Byte) ≤ UInt8.ofNat m := by
    intro m hle hlt
    rw [UInt8.le_iff_toNat_le, UInt8.toNat_ofNat', Nat.mod_eq_of_lt hlt]
    exact hle
  unfold String.utf8EncodeChar
  dsimp only
  split
  · exact Or.inl ⟨_,rfl⟩
  · right
    split
    · simp only [List.forall_mem_cons]
      exact ⟨hge _ (by omega) (by omega),hge _ (by omega) (by omega),nofun⟩
    · split
      · simp only [List.forall_mem_cons]
        exact ⟨hge _ (by omega) (by omega),hge _ (by omega) (by omega),hge _ (by omega) (by omega),nofun⟩
      · simp only [List.forall_mem_cons]
        exact ⟨hge _ (by omega) (by omega),hge _ (by omega) (by omega),hge _ (by omega) (by omega),
          hge _ (by omega) (by omega),nofun⟩

/-- An encoded text can be cut in front of an ASCII byte. -/
theorem utf8_cut {l : List Char} {u v : Bytes} {b : Byte} (hb : b < 128) (h : utf8 l = u ++ b :: v) :
    ∃ l₁ l₂, l = l₁ ++ l₂ ∧ utf8 l₁ = u ∧ utf8 l₂ = b :: v := by
  induction l generalizing u with
  | nil =>
    have hempty : [] = u ++ b :: v := h
    simp at hempty
  | cons c rest ih =>
    have hcons : String.utf8EncodeChar c ++ utf8 rest = u ++ b :: v := h
    cases u with
    | nil => exact ⟨[],c :: rest,rfl,rfl,h⟩
    | cons x u =>
      rcases List.append_eq_append_iff.mp hcons with ⟨more,hu,hrest⟩ | ⟨more,hchar,hrest⟩
      · obtain ⟨l₁,l₂,rfl,h₁,h₂⟩ := ih hrest
        refine ⟨c :: l₁,l₂,rfl,?_,h₂⟩
        rw [hu, ← h₁]
        rfl
      · cases more with
        | nil =>
          rw [List.append_nil] at hchar
          refine ⟨[c],rest,rfl,?_,hrest.symm⟩
          simpa [utf8] using hchar
        | cons y more =>
          -- the ASCII byte would be inside the encoding of one character
          obtain ⟨rfl,_⟩ := List.cons.inj hrest
          rcases utf8EncodeChar_bytes c with ⟨z,hz⟩ | hall
          · rw [hz] at hchar
            simp at hchar
          · have hbig : (128 : Byte) ≤ b := hall b (by simp [hchar])
            exact absurd hb (UInt8.not_lt.mpr hbig)

end Ascii

end RadioSim
