import Mathlib.Tactic.IntervalCases
import RadioSim.Foundation.Decimal
import RadioSim.Foundation.Utf8

/-! # JSON texts

A reader for JSON texts. A number is read as `mantissa * 10 ^ exponent`, a string as
its characters after all escapes. Each reader takes what it reads from the front of
the text; the lemmas say what it leaves.
-/
namespace RadioSim

inductive Json
  | null
  | bool (b : Bool)
  | number (mantissa exponent : ℤ)
  | string (s : List Char)
  | array (items : List Json)
  | object (members : List (List Char × Json))

namespace Json

abbrev Reader (α : Type) := List Char → Option (α × List Char)

def isWhitespace (c : Char) : Bool := c = ' ' || c = '\t' || c = '\n' || c = '\r'

def skip (s : List Char) : List Char := s.dropWhile isWhitespace

theorem skip_cons {c : Char} (h : isWhitespace c = false) (s : List Char) : skip (c :: s) = c :: s := by
  simp [skip, h]

section Strings

def hexDigit (c : Char) : Option ℕ :=
  if '0' ≤ c ∧ c ≤ '9' then some (c.toNat - 48)
  else if 'a' ≤ c ∧ c ≤ 'f' then some (c.toNat - 87)
  else if 'A' ≤ c ∧ c ≤ 'F' then some (c.toNat - 55)
  else none

def hex4 : Reader ℕ
  | a :: b :: c :: d :: rest =>
    (hexDigit a).bind fun a => (hexDigit b).bind fun b => (hexDigit c).bind fun c =>
      (hexDigit d).map fun d => (((a * 16 + b) * 16 + c) * 16 + d,rest)
  | _ => none

/-- The second half of a surrogate pair that starts with `u`. -/
def lowSurrogate (u : ℕ) : Reader Char
  | a :: b :: rest =>
    if a = '\x5c' ∧ b = 'u' then
      (hex4 rest).bind fun v =>
        if 0xDC00 ≤ v.1 ∧ v.1 < 0xE000 then
          some (Char.ofNat (0x10000 + (u - 0xD800) * 0x400 + (v.1 - 0xDC00)),v.2)
        else none
    else none
  | _ => none

def unicodeEscape (s : List Char) : Option (Char × List Char) :=
  (hex4 s).bind fun u =>
    if 0xD800 ≤ u.1 ∧ u.1 < 0xDC00 then lowSurrogate u.1 u.2
    else if 0xDC00 ≤ u.1 ∧ u.1 < 0xE000 then none
    else some (Char.ofNat u.1,u.2)

def simpleEscape (c : Char) : Option Char :=
  if c = '\x22' ∨ c = '\x5c' ∨ c = '/' then some c
  else if c = 'b' then some '\x08'
  else if c = 'f' then some '\x0c'
  else if c = 'n' then some '\n'
  else if c = 'r' then some '\r'
  else if c = 't' then some '\t'
  else none

def escape : Reader Char
  | [] => none
  | c :: rest => if c = 'u' then unicodeEscape rest else (simpleEscape c).map fun d => (d,rest)

/-- A character that stands for itself in a string. -/
def Plain (c : Char) : Prop := c ≠ '\x22' ∧ c ≠ '\x5c' ∧ 32 ≤ c.toNat

instance (c : Char) : Decidable (Plain c) := inferInstanceAs (Decidable (_ ∧ _ ∧ _))

-- characters are finitely many, so that deciding the quantifier itself may try them all
theorem plain_of_all {s : List Char} (h : (s.all fun c => decide (Plain c)) = true) : ∀ c ∈ s, Plain c :=
  fun c hc => of_decide_eq_true (List.all_eq_true.mp h c hc)

def stringChar : Reader Char
  | [] => none
  | c :: rest => if c = '\x5c' then escape rest else if Plain c then some (c,rest) else none

/-- A string after its opening quote; every turn consumes a character. -/
def stringBody : ℕ → Reader (List Char)
  | 0, _ => none
  | _ + 1, [] => none
  | fuel + 1, c :: rest =>
    if c = '\x22' then some ([],rest)
    else (stringChar (c :: rest)).bind fun p => (stringBody fuel p.2).map fun q => (p.1 :: q.1,q.2)

def quoted : Reader (List Char)
  | [] => none
  | c :: rest => if c = '\x22' then stringBody (rest.length + 1) rest else none

theorem hexDigit_quote : hexDigit '\x22' = none := by decide

theorem hex4_raw {s rest : List Char} {u : ℕ} (h : hex4 s = some (u,rest)) :
    ∃ raw, s = raw ++ rest ∧ '\x22' ∉ raw := by
  unfold hex4 at h
  split at h
  · rename_i a b c d r
    obtain ⟨_,ha,h⟩ := Option.bind_eq_some_iff.mp h
    obtain ⟨_,hb,h⟩ := Option.bind_eq_some_iff.mp h
    obtain ⟨_,hc,h⟩ := Option.bind_eq_some_iff.mp h
    obtain ⟨_,hd,h⟩ := Option.map_eq_some_iff.mp h
    cases h
    have hne : ∀ {x : Char} {v : ℕ}, hexDigit x = some v → '\x22' ≠ x := by
      rintro x v hx rfl
      rw [hexDigit_quote] at hx
      cases hx
    refine ⟨[a,b,c,d],rfl,?_⟩
    simp [hne ha, hne hb, hne hc, hne hd]
  · cases h

theorem unicodeEscape_raw {s rest : List Char} {c : Char} (h : unicodeEscape s = some (c,rest)) :
    ∃ raw, s = raw ++ rest ∧ '\x22' ∉ raw := by
  obtain ⟨⟨u,t⟩,hu,hread⟩ := Option.bind_eq_some_iff.mp h
  obtain ⟨raw,rfl,hraw⟩ := hex4_raw hu
  clear h
  dsimp only at hread
  split at hread
  · unfold lowSurrogate at hread
    split at hread
    · split at hread
      · rename_i hab
        obtain ⟨⟨v,t'⟩,hv,hlow⟩ := Option.bind_eq_some_iff.mp hread
        obtain ⟨raw',rfl,hraw'⟩ := hex4_raw hv
        dsimp only at hlow
        split at hlow
        · obtain ⟨_,rfl⟩ := Prod.mk.inj (Option.some.inj hlow)
          refine ⟨raw ++ '\x5c' :: 'u' :: raw',by simp [hab.1, hab.2],?_⟩
          simp [hraw, hraw']
        · cases hlow
      · cases hread
    · cases hread
  · split at hread
    · cases hread
    · cases hread
      exact ⟨raw,rfl,hraw⟩

/-- A character is read from itself, or from an escape of more characters; the only quote
in that is an escaped one. -/
theorem stringChar_raw {s rest : List Char} {c : Char} (h : stringChar s = some (c,rest)) :
    (s = c :: rest ∧ Plain c) ∨
    ∃ raw, s = raw ++ rest ∧ 2 ≤ raw.length ∧ ('\x22' ∉ raw ∨ raw = ['\x5c','\x22']) := by
  cases s with
  | nil => cases h
  | cons a t =>
    simp only [stringChar] at h
    split at h
    · rename_i hback
      subst hback
      right
      cases t with
      | nil => cases h
      | cons b t =>
        simp only [escape] at h
        split at h
        · rename_i hb
          subst hb
          obtain ⟨raw,rfl,hraw⟩ := unicodeEscape_raw h
          exact ⟨'\x5c' :: 'u' :: raw,rfl,by simp,Or.inl (by simp [hraw])⟩
        · obtain ⟨d,hd,heq⟩ := Option.map_eq_some_iff.mp h
          cases heq
          refine ⟨['\x5c',b],rfl,le_rfl,?_⟩
          by_cases hb : b = '\x22'
          · exact Or.inr (by rw [hb])
          · exact Or.inl (by simp [Ne.symm hb])
    · split at h
      · rename_i hplain
        cases h
        exact Or.inl ⟨rfl,hplain⟩
      · cases h

/-- A string is no longer than its text, and as long only if it has no escape. -/
theorem stringBody_length {fuel : ℕ} {s out rest : List Char} (h : stringBody fuel s = some (out,rest)) :
    out.length + rest.length + 1 ≤ s.length ∧
    (out.length + rest.length + 1 = s.length → ∀ c ∈ out, Plain c) := by
  induction fuel generalizing s out with
  | zero => cases h
  | succ fuel ih =>
    cases s with
    | nil => cases h
    | cons a t =>
      unfold stringBody at h
      split at h
      · cases h
        exact ⟨by simp,fun _ => nofun⟩
      · obtain ⟨⟨c,s'⟩,hchar,h⟩ := Option.bind_eq_some_iff.mp h
        obtain ⟨⟨l,r⟩,hbody,heq⟩ := Option.map_eq_some_iff.mp h
        dsimp only at hbody heq
        cases heq
        obtain ⟨hle,hplain⟩ := ih hbody
        simp only [List.length_cons]
        rcases stringChar_raw hchar with ⟨heq,hc⟩ | ⟨raw,heq,hraw,_⟩
        · obtain ⟨rfl,rfl⟩ := List.cons.inj heq
          refine ⟨by omega,fun hlen => ?_⟩
          exact List.forall_mem_cons.mpr ⟨hc,hplain (by omega)⟩
        · have hlen := congrArg List.length heq
          simp only [List.length_cons, List.length_append] at hlen
          exact ⟨by omega,fun hshort => by omega⟩

/-- A string ends at a quote of its text, or that quote is escaped and the string goes on
behind it. -/
theorem stringBody_quote {fuel : ℕ} {u v out rest : List Char}
    (h : stringBody fuel (u ++ '\x22' :: v) = some (out,rest)) :
    v.length ≤ rest.length ∨ ∃ fuel' out', stringBody fuel' v = some (out',rest) := by
  induction fuel generalizing u out with
  | zero => cases h
  | succ fuel ih =>
    cases u with
    | nil =>
      simp only [List.nil_append, stringBody, ↓reduceIte] at h
      cases h
      exact Or.inl le_rfl
    | cons a t =>
      simp only [List.cons_append, stringBody] at h
      split at h
      · cases h
        refine Or.inl ?_
        simp only [List.length_append, List.length_cons]
        omega
      · obtain ⟨⟨c,s'⟩,hchar,h⟩ := Option.bind_eq_some_iff.mp h
        obtain ⟨⟨l,r⟩,hbody,heq⟩ := Option.map_eq_some_iff.mp h
        dsimp only at hbody heq
        cases heq
        rcases stringChar_raw hchar with ⟨heq,_⟩ | ⟨raw,heq,hraw,hquote⟩
        · obtain ⟨_,rfl⟩ := List.cons.inj heq
          exact ih hbody
        · rw [← List.cons_append] at heq
          rcases List.append_eq_append_iff.mp heq with ⟨more,hmore,hrest⟩ | ⟨more,hmore,hrest⟩
          · -- the escape reaches over the quote
            cases more with
            | nil =>
              rw [List.nil_append] at hrest
              rw [← hrest] at hbody
              exact ih (u := []) hbody
            | cons b more =>
              obtain ⟨rfl,rfl⟩ := List.cons.inj hrest
              rcases hquote with hnot | hback
              · exact absurd (by simp [hmore]) hnot
              · rw [hback] at hmore
                have hnil : more = [] := by
                  have hlen := congrArg List.length hmore
                  simp only [List.length_cons, List.length_nil, List.length_append] at hlen
                  exact List.length_eq_zero_iff.mp (by omega)
                subst hnil
                exact Or.inr ⟨fuel,l,hbody⟩
          · rw [hrest] at hbody
            exact ih hbody

/-- A string of plain characters is read as it stands. -/
theorem stringBody_plain {fuel : ℕ} {s : List Char} (h : ∀ c ∈ s, Plain c) (hfuel : s.length < fuel)
    (rest : List Char) :
    stringBody fuel (s ++ '\x22' :: rest) = some (s,rest) := by
  induction s generalizing fuel with
  | nil =>
    obtain ⟨fuel,rfl⟩ := Nat.exists_eq_succ_of_ne_zero (Nat.ne_of_gt hfuel)
    simp [stringBody]
  | cons c s ih =>
    obtain ⟨fuel,rfl⟩ := Nat.exists_eq_succ_of_ne_zero (Nat.ne_of_gt (Nat.zero_lt_of_lt hfuel))
    have hc := h c List.mem_cons_self
    have hrest := ih (fun d hd => h d (List.mem_cons_of_mem c hd)) (Nat.lt_of_succ_lt_succ hfuel)
    simp [stringBody, stringChar, hc, hc.1, hc.2.1, hrest]

theorem quoted_plain {s : List Char} (h : ∀ c ∈ s, Plain c) (rest : List Char) :
    quoted ('\x22' :: (s ++ '\x22' :: rest)) = some (s,rest) := by
  simp only [quoted, ↓reduceIte]
  exact stringBody_plain h (by simp) rest

end Strings

section Numbers

def isDigit (c : Char) : Bool := '0' ≤ c && c ≤ '9'

def digitsValue (ds : List Char) : ℕ := ds.foldl (fun v c => 10 * v + (c.toNat - 48)) 0

def digits (s : List Char) : Option (List Char × List Char) :=
  if s.takeWhile isDigit = [] then none else some (s.takeWhile isDigit,s.dropWhile isDigit)

/-- The integer part, which has no leading zero. -/
def integer : Reader ℕ
  | [] => none
  | c :: rest => if c = '0' then some (0,rest) else (digits (c :: rest)).map fun p => (digitsValue p.1,p.2)

def fraction : Reader (List Char)
  | [] => some ([],[])
  | c :: rest => if c = '.' then digits rest else some ([],c :: rest)

def exponentDigits : Reader ℤ
  | [] => none
  | c :: rest =>
    if c = '+' then (digits rest).map fun p => ((digitsValue p.1 : ℤ),p.2)
    else if c = '-' then (digits rest).map fun p => (-(digitsValue p.1 : ℤ),p.2)
    else (digits (c :: rest)).map fun p => ((digitsValue p.1 : ℤ),p.2)

def exponentPart : Reader ℤ
  | [] => some (0,[])
  | c :: rest => if c = 'e' ∨ c = 'E' then exponentDigits rest else some (0,c :: rest)

def magnitude (s : List Char) : Option ((ℕ × ℤ) × List Char) :=
  (integer s).bind fun i => (fraction i.2).bind fun f => (exponentPart f.2).map fun e =>
    ((i.1 * 10 ^ f.1.length + digitsValue f.1,e.1 - f.1.length),e.2)

def readNumber : Reader Json
  | [] => none
  | c :: rest =>
    if c = '-' then (magnitude rest).map fun p => (.number (-(p.1.1 : ℤ)) p.1.2,p.2)
    else (magnitude (c :: rest)).map fun p => (.number p.1.1 p.1.2,p.2)

/-- What can follow a value inside an array or an object. -/
def Ends (rest : List Char) : Prop := ∃ c r, rest = c :: r ∧ (c = ',' ∨ c = '}' ∨ c = ']')

theorem digits_run {ds rest : List Char} (hds : ds ≠ []) (hdigits : ∀ c ∈ ds, isDigit c = true)
    (hrest : Ends rest) :
    digits (ds ++ rest) = some (ds,rest) := by
  obtain ⟨c,r,rfl,hc⟩ := hrest
  have hstop : isDigit c = false := by
    rcases hc with rfl | rfl | rfl <;> decide
  have htake : (ds ++ c :: r).takeWhile isDigit = ds := by
    rw [List.takeWhile_append_of_pos hdigits, List.takeWhile_cons_of_neg (by simp [hstop]), List.append_nil]
  have hdrop : (ds ++ c :: r).dropWhile isDigit = c :: r := by
    rw [List.dropWhile_append_of_pos hdigits, List.dropWhile_cons_of_neg (by simp [hstop])]
  unfold digits
  rw [htake, hdrop, if_neg hds]

theorem magnitude_integer {s rest : List Char} {n : ℕ} (h : integer s = some (n,rest)) (hrest : Ends rest) :
    magnitude s = some ((n,0),rest) := by
  obtain ⟨c,r,rfl,hc⟩ := hrest
  have hfraction : fraction (c :: r) = some ([],c :: r) := by
    rcases hc with rfl | rfl | rfl <;> rfl
  have hexponent : exponentPart (c :: r) = some (0,c :: r) := by
    rcases hc with rfl | rfl | rfl <;> rfl
  simp [magnitude, h, hfraction, hexponent, digitsValue]

end Numbers

section Values

def readLiteral (s : List Char) : Option (Json × List Char) :=
  if s.take 4 = "true".toList then some (.bool true,s.drop 4)
  else if s.take 5 = "false".toList then some (.bool false,s.drop 5)
  else if s.take 4 = "null".toList then some (.null,s.drop 4)
  else none

/-- A punctuation mark with white space before it. -/
def mark (c : Char) (s : List Char) : Option (List Char) :=
  match skip s with
  | [] => none
  | d :: rest => if d = c then some rest else none

mutual
/-- A value; the fuel bounds the nesting and the number of members, and the length of
the text is enough. -/
def readValue : ℕ → Reader Json
  | 0, _ => none
  | _ + 1, [] => none
  | fuel + 1, c :: rest =>
    if c = '\x22' then (quoted (c :: rest)).map fun p => (.string p.1,p.2)
    else if c = '\x7b' then
      match mark '\x7d' rest with
      | some r => some (.object [],r)
      | none => (readMembers fuel (skip rest)).map fun p => (.object p.1,p.2)
    else if c = '[' then
      match mark ']' rest with
      | some r => some (.array [],r)
      | none => (readElements fuel (skip rest)).map fun p => (.array p.1,p.2)
    else readLiteral (c :: rest) <|> readNumber (c :: rest)

def readMembers : ℕ → Reader (List (List Char × Json))
  | 0, _ => none
  | fuel + 1, s =>
    (quoted s).bind fun k => (mark ':' k.2).bind fun r => (readValue fuel (skip r)).bind fun v =>
      match mark ',' v.2 with
      | some r => (readMembers fuel (skip r)).map fun m => ((k.1,v.1) :: m.1,m.2)
      | none => (mark '\x7d' v.2).map fun r => ([(k.1,v.1)],r)

def readElements : ℕ → Reader (List Json)
  | 0, _ => none
  | fuel + 1, s =>
    (readValue fuel s).bind fun v =>
      match mark ',' v.2 with
      | some r => (readElements fuel (skip r)).map fun m => (v.1 :: m.1,m.2)
      | none => (mark ']' v.2).map fun r => ([v.1],r)
end

def parse (s : List Char) : Option Json :=
  (readValue (s.length + 1) (skip s)).bind fun p => if skip p.2 = [] then some p.1 else none

def toInt : Json → Option ℤ
  | .number mantissa exponent => if 0 ≤ exponent then some (mantissa * 10 ^ exponent.toNat) else none
  | _ => none

def toText : Json → Option (List Char)
  | .string s => some s
  | _ => none

end Values

section Reading

theorem mark_cons (c : Char) (h : isWhitespace c = false) (rest : List Char) : mark c (c :: rest) = some rest := by
  simp [mark, skip_cons h]

theorem mark_of_ne {c d : Char} (h : isWhitespace d = false) (hne : d ≠ c) (rest : List Char) :
    mark c (d :: rest) = none := by
  simp [mark, skip_cons h, hne]

/-- The text is read as the value wherever it stands. -/
structure Reads (text : List Char) (v : Json) : Prop where
  start : ∃ c rest, text = c :: rest ∧ isWhitespace c = false
  read : ∀ fuel rest, Ends rest → readValue (fuel + 1) (text ++ rest) = some (v,rest)

theorem Reads.skip {text : List Char} {v : Json} (h : Reads text v) (rest : List Char) :
    Json.skip (' ' :: (text ++ rest)) = text ++ rest := by
  obtain ⟨c,r,rfl,hc⟩ := h.start
  exact skip_cons hc (r ++ rest)

theorem reads_quoted {s : List Char} (h : ∀ c ∈ s, Plain c) : Reads ('\x22' :: (s ++ ['\x22'])) (.string s) where
  start := ⟨_,_,rfl,by decide⟩
  read fuel rest _ := by
    have hread := quoted_plain h rest
    simp only [List.cons_append, List.append_assoc, List.nil_append, readValue, ↓reduceIte, hread, Option.map_some]

theorem toNat_digit {b : Byte} (h : RadioSim.isDigit b = true) : (Char.ofNat b.toNat).toNat = b.toNat := by
  simp only [RadioSim.isDigit, Bool.and_eq_true, decide_eq_true_eq] at h
  exact toNat_ofNat_ascii (UInt8.lt_of_le_of_lt h.2 (by decide))

theorem isDigit_digit {b : Byte} (h : RadioSim.isDigit b = true) : isDigit (Char.ofNat b.toNat) = true := by
  have hnat := toNat_digit h
  simp only [RadioSim.isDigit, Bool.and_eq_true, decide_eq_true_eq] at h
  simp only [isDigit, Bool.and_eq_true, decide_eq_true_eq, Char.le_def, UInt32.le_iff_toNat_le]
  change 48 ≤ (Char.ofNat b.toNat).toNat ∧ (Char.ofNat b.toNat).toNat ≤ 57
  rw [hnat]
  exact h

theorem digitsValue_decimal (n : ℕ) : digitsValue (ofAscii (decimal n)) = n := by
  have hbytes : ∀ (bytes : Bytes) (v : ℕ), (∀ b ∈ bytes, RadioSim.isDigit b = true) →
      (ofAscii bytes).foldl (fun v c => 10 * v + (c.toNat - 48)) v =
        bytes.foldl (fun v b => 10 * v + (b.toNat - 48)) v := by
    intro bytes
    induction bytes with
    | nil => exact fun _ _ => rfl
    | cons b rest ih =>
      intro v h
      have hnat := toNat_digit (h b List.mem_cons_self)
      simp only [ofAscii, List.map_cons, List.foldl_cons, hnat]
      exact ih _ fun d hd => h d (List.mem_cons_of_mem b hd)
  exact (hbytes (decimal n) 0 fun b => isDigit_of_mem_decimal).trans (foldl_decimal n)

theorem integer_decimal (n : ℕ) {rest : List Char} (hrest : Ends rest) :
    integer (ofAscii (decimal n) ++ rest) = some (n,rest) := by
  by_cases hn : n = 0
  · subst hn
    rfl
  · obtain ⟨b,bytes,hdecimal,hb⟩ := decimal_head hn
    have hdigits : ∀ c ∈ ofAscii (decimal n), isDigit c = true := by
      intro c hc
      obtain ⟨d,hd,rfl⟩ := List.mem_map.mp hc
      exact isDigit_digit (isDigit_of_mem_decimal hd)
    have hread := digits_run (by simp [ofAscii, decimal_ne_nil n]) hdigits hrest
    have hvalue := digitsValue_decimal n
    have hdigit := isDigit_of_mem_decimal (n := n) (b := b) (by simp [hdecimal])
    have hne : Char.ofNat b.toNat ≠ '0' := by
      intro heq
      have hnat := toNat_digit hdigit
      rw [heq] at hnat
      exact hb (UInt8.toNat_inj.mp hnat.symm)
    rw [hdecimal] at hread hvalue ⊢
    simp only [ofAscii, List.map_cons, List.cons_append] at hread hvalue ⊢
    simp only [integer, hne, ↓reduceIte, hread, Option.map_some, hvalue]

theorem ne_of_number {c : Char} (hc : c = '-' ∨ isDigit c = true) (d : Char) (hminus : d ≠ '-')
    (hdigit : isDigit d = false) : c ≠ d := by
  rintro rfl
  rcases hc with rfl | hc
  · exact hminus rfl
  · rw [hc] at hdigit
    cases hdigit

theorem readValue_number {c : Char} {s : List Char} (hc : c = '-' ∨ isDigit c = true) (fuel : ℕ) :
    readValue (fuel + 1) (c :: s) = readNumber (c :: s) := by
  have hne := ne_of_number hc
  have hliteral : readLiteral (c :: s) = none := by
    have ht := hne 't' (by decide) (by decide)
    have hf := hne 'f' (by decide) (by decide)
    have hn := hne 'n' (by decide) (by decide)
    simp [readLiteral, ht, hf, hn]
  simp only [readValue, hne '\x22' (by decide) (by decide), hne '\x7b' (by decide) (by decide),
    hne '[' (by decide) (by decide), ↓reduceIte, hliteral]
  rfl

theorem isWhitespace_number {c : Char} (hc : c = '-' ∨ isDigit c = true) : isWhitespace c = false := by
  have hne := ne_of_number hc
  simp [isWhitespace, hne ' ' (by decide) (by decide), hne '\t' (by decide) (by decide),
    hne '\n' (by decide) (by decide), hne '\r' (by decide) (by decide)]

/-- What `%u` and `%lld` print is read as the number. -/
theorem reads_decimalInt (z : ℤ) : Reads (ofAscii (decimalInt z)) (.number z 0) := by
  have hnat : ∀ (n : ℕ) (rest : List Char), Ends rest →
      magnitude (ofAscii (decimal n) ++ rest) = some ((n,0),rest) := fun n rest hrest =>
    magnitude_integer (integer_decimal n hrest) hrest
  unfold decimalInt
  split
  · rename_i hneg
    refine ⟨⟨'-',_,rfl,by decide⟩,fun fuel rest hrest => ?_⟩
    have hread := hnat z.natAbs rest hrest
    have hz : -(z.natAbs : ℤ) = z := by omega
    have hminus : Char.ofNat (UInt8.toNat 45) = '-' := rfl
    simp only [ofAscii, List.map_cons, List.cons_append, hminus] at hread ⊢
    rw [readValue_number (Or.inl rfl)]
    simp only [readNumber, ↓reduceIte, hread, Option.map_some, hz]
  · rename_i hpos
    obtain ⟨b,bytes,hdecimal⟩ := List.exists_cons_of_ne_nil (decimal_ne_nil z.natAbs)
    have hdigit := isDigit_digit (isDigit_of_mem_decimal (n := z.natAbs) (b := b) (by simp [hdecimal]))
    have hne : Char.ofNat b.toNat ≠ '-' := by
      intro heq
      rw [heq] at hdigit
      exact absurd hdigit (by decide)
    have hz : (z.natAbs : ℤ) = z := by omega
    refine ⟨⟨Char.ofNat b.toNat,ofAscii bytes,by rw [hdecimal]; rfl,isWhitespace_number (Or.inr hdigit)⟩,
      fun fuel rest hrest => ?_⟩
    have hread := hnat z.natAbs rest hrest
    rw [hdecimal] at hread ⊢
    simp only [ofAscii, List.map_cons, List.cons_append] at hread ⊢
    rw [readValue_number (Or.inr hdigit)]
    simp only [readNumber, hne, ↓reduceIte, hread, Option.map_some, hz]

theorem reads_decimal (n : ℕ) : Reads (ofAscii (decimal n)) (.number n 0) := reads_decimalInt n

theorem reads_one : Reads ['1'] (.number 1 0) := by
  have hread := reads_decimal 1
  simpa [decimal, ofAscii, digitByte] using hread

theorem utf8_decimalInt (z : ℤ) : utf8 (ofAscii (decimalInt z)) = decimalInt z := by
  refine utf8_ofAscii fun b hb => ?_
  rcases mem_decimalInt hb with rfl | hdigit
  · decide
  · simp only [RadioSim.isDigit, Bool.and_eq_true, decide_eq_true_eq] at hdigit
    exact UInt8.lt_of_le_of_lt hdigit.2 (by decide)

theorem utf8_decimal (n : ℕ) : utf8 (ofAscii (decimal n)) = decimal n := utf8_decimalInt n

/-- With distinct keys every member is found. -/
theorem lookup_of_mem {members : List (List Char × Json)} {key : List Char} {v : Json}
    (hnodup : (members.map Prod.fst).Nodup) (h : (key,v) ∈ members) : members.lookup key = some v := by
  induction members with
  | nil => cases h
  | cons member members ih =>
    obtain ⟨hnot,hnodup⟩ := List.nodup_cons.mp hnodup
    rcases List.mem_cons.mp h with rfl | h
    · exact List.lookup_cons_self
    · have hne : (key == member.1) = false :=
        beq_false_of_ne fun heq => hnot (heq ▸ List.mem_map_of_mem h)
      rw [List.lookup_cons, hne]
      exact ih hnodup h

section Members
variable {key text rest : List Char} {v : Json} {fuel : ℕ}

/-- A member as `printf` formats lay it out: the key in quotes, a colon and a space. -/
def field (key text : List Char) : List Char := '\x22' :: (key ++ '\x22' :: ':' :: ' ' :: text)

theorem quoted_field (hkey : ∀ c ∈ key, Plain c) (rest : List Char) :
    quoted (field key text ++ rest) = some (key,':' :: ' ' :: (text ++ rest)) := by
  have hread := quoted_plain hkey (':' :: ' ' :: (text ++ rest))
  simpa only [field, List.cons_append, List.append_assoc] using hread

theorem skip_field (rest : List Char) : skip (' ' :: (field key text ++ rest)) = field key text ++ rest :=
  skip_cons (c := '\x22') (by decide) _

/-- One member, and a comma after it. -/
theorem readMembers_cons (hkey : ∀ c ∈ key, Plain c) (h : Reads text v) (rest : List Char) :
    readMembers (fuel + 2) (field key text ++ ',' :: rest) =
      (readMembers (fuel + 1) (skip rest)).map fun m => ((key,v) :: m.1,m.2) := by
  have hread := h.read fuel (',' :: rest) ⟨_,_,rfl,Or.inl rfl⟩
  rw [readMembers]
  simp only [quoted_field hkey, Option.bind_some, mark_cons ':' (by decide), h.skip, hread,
    mark_cons ',' (by decide)]

/-- The last member. -/
theorem readMembers_last (hkey : ∀ c ∈ key, Plain c) (h : Reads text v) (rest : List Char) :
    readMembers (fuel + 2) (field key text ++ '\x7d' :: rest) = some ([(key,v)],rest) := by
  have hread := h.read fuel ('\x7d' :: rest) ⟨_,_,rfl,Or.inr (Or.inl rfl)⟩
  rw [readMembers]
  simp only [quoted_field hkey, Option.bind_some, mark_cons ':' (by decide), h.skip, hread,
    mark_of_ne (c := ',') (d := '\x7d') (by decide) (by decide), mark_cons '\x7d' (by decide), Option.map_some]

/-- An object that starts with a member. -/
theorem parse_object {s : List Char} (hs : s = '\x7b' :: (field key text ++ rest)) :
    parse s = (readMembers s.length (field key text ++ rest)).bind fun m =>
      if skip m.2 = [] then some (.object m.1) else none := by
  have hskip : skip s = s := by
    rw [hs]
    exact skip_cons (by decide) _
  have hmembers : skip (field key text ++ rest) = field key text ++ rest := skip_cons (c := '\x22') (by decide) _
  have hmark : mark '\x7d' (field key text ++ rest) = none := mark_of_ne (d := '\x22') (by decide) (by decide) _
  unfold parse
  rw [hskip]
  generalize s.length = fuel
  rw [hs, readValue]
  have hne : '\x7b' ≠ '\x22' := by decide
  simp only [hne, ↓reduceIte, hmark, hmembers, Option.bind_map]
  rfl

/-- A member as it is printed, with the value that the print stands for. -/
structure Member where
  key : List Char
  text : List Char
  value : Json

structure Member.Legible (m : Member) : Prop where
  plain : ∀ c ∈ m.key, Plain c
  reads : Reads m.text m.value

def Member.entry (m : Member) : List Char × Json := (m.key,m.value)

def printMembers : Member → List Member → List Char
  | m, [] => field m.key m.text
  | m, m' :: ms => field m.key m.text ++ ',' :: ' ' :: printMembers m' ms

theorem printMembers_field (m : Member) (ms : List Member) :
    ∃ tail, printMembers m ms = field m.key m.text ++ tail := by
  cases ms with
  | nil => exact ⟨[],(List.append_nil _).symm⟩
  | cons m' ms => exact ⟨_,rfl⟩

theorem length_printMembers (m : Member) (ms : List Member) : ms.length < (printMembers m ms).length := by
  induction ms generalizing m with
  | nil => simp [printMembers, field]
  | cons m' ms ih =>
    have hlength := ih m'
    simp only [printMembers, List.length_append, List.length_cons]
    omega

theorem readMembers_print {m : Member} {ms : List Member} (h : ∀ x ∈ m :: ms, x.Legible) (fuel : ℕ)
    (rest : List Char) :
    readMembers (fuel + ms.length + 2) (printMembers m ms ++ '\x7d' :: rest) =
      some ((m :: ms).map Member.entry,rest) := by
  induction ms generalizing m with
  | nil => exact readMembers_last (h m List.mem_cons_self).plain (h m List.mem_cons_self).reads rest
  | cons m' ms ih =>
    obtain ⟨hplain,hreads⟩ := h m List.mem_cons_self
    obtain ⟨tail,htail⟩ := printMembers_field m' ms
    have hskip : skip (' ' :: (printMembers m' ms ++ '\x7d' :: rest)) = printMembers m' ms ++ '\x7d' :: rest := by
      rw [htail, List.append_assoc]
      exact skip_field _
    rw [printMembers, List.append_assoc, List.cons_append, readMembers_cons hplain hreads, List.cons_append, hskip]
    exact congrArg (Option.map _) (ih fun x hx => h x (List.mem_cons_of_mem m hx))

/-- An object of legible members is read back, whatever white space follows it. -/
theorem parse_print {m : Member} {ms : List Member} (h : ∀ x ∈ m :: ms, x.Legible) {rest : List Char}
    (hrest : skip rest = []) :
    parse ('\x7b' :: (printMembers m ms ++ '\x7d' :: rest)) = some (.object ((m :: ms).map Member.entry)) := by
  obtain ⟨tail,htail⟩ := printMembers_field m ms
  have hlength := length_printMembers m ms
  obtain ⟨fuel,hfuel⟩ : ∃ fuel, ('\x7b' :: (printMembers m ms ++ '\x7d' :: rest)).length = fuel + ms.length + 2 := by
    refine ⟨(printMembers m ms).length + rest.length - ms.length,?_⟩
    simp only [List.length_cons, List.length_append]
    omega
  have hparse := parse_object (s := '\x7b' :: (printMembers m ms ++ '\x7d' :: rest))
    (congrArg ('\x7b' :: ·) ((congrArg (· ++ '\x7d' :: rest) htail).trans (List.append_assoc ..)))
  rw [hparse, hfuel, ← List.append_assoc, ← htail, readMembers_print h, Option.bind_some, if_pos hrest]

/-- Whatever stands between the quotes, a string that is read as it was printed is plain: if
its closing quote were escaped, the string would end at the next key, and no mark follows there. -/
theorem readMembers_string {code tail : List Char} {k : Char} {ks : List Char} {m : List (List Char × Json)}
    (hkey : ∀ c ∈ key, Plain c) (hk : isWhitespace k = false ∧ k ≠ ',' ∧ k ≠ '\x7d')
    (h : readMembers (fuel + 2) (field key ('\x22' :: (code ++ ['\x22'])) ++
      ',' :: ' ' :: (field (k :: ks) text ++ tail)) = some (m,rest)) :
    ∃ out more, m = (key,.string out) :: more ∧ (out = code → ∀ c ∈ code, Plain c) := by
  rw [readMembers] at h
  simp only [quoted_field hkey, Option.bind_some, mark_cons ':' (by decide)] at h
  obtain ⟨⟨v,r⟩,hv,hmarks⟩ := Option.bind_eq_some_iff.mp h
  obtain ⟨⟨out,r'⟩,hout,heq⟩ := Option.map_eq_some_iff.mp (show
    (stringBody _ (code ++ ['\x22'] ++ ',' :: ' ' :: (field (k :: ks) text ++ tail))).map
      (fun p => (Json.string p.1,p.2)) = some (v,r) from hv)
  cases heq
  rw [List.append_assoc, List.singleton_append] at hout
  rcases stringBody_quote hout with hlong | ⟨fuel',out',hnext⟩
  · have hplain : out = code → ∀ c ∈ code, Plain c := by
      rintro rfl
      obtain ⟨hle,hplain⟩ := stringBody_length hout
      simp only [List.length_append, List.length_cons] at hlong hle hplain
      exact hplain (by omega)
    dsimp only at hmarks
    split at hmarks
    · obtain ⟨_,_,heq⟩ := Option.map_eq_some_iff.mp hmarks
      cases heq
      exact ⟨out,_,rfl,hplain⟩
    · obtain ⟨_,_,heq⟩ := Option.map_eq_some_iff.mp hmarks
      cases heq
      exact ⟨out,_,rfl,hplain⟩
  · have hlead : r' = k :: (ks ++ '\x22' :: ':' :: ' ' :: text ++ tail) := by
      match fuel' with
      | 0 | 1 | 2 => cases hnext
      | fuel' + 3 =>
        simp only [stringBody, field, List.cons_append] at hnext
        exact (Prod.mk.inj (Option.some.inj hnext)).2.symm
    rw [hlead] at hmarks
    simp only [mark_of_ne hk.1 hk.2.1, mark_of_ne hk.1 hk.2.2, Option.map_none] at hmarks
    cases hmarks

end Members

end Reading

end Json
end RadioSim
