import RadioSim.Foundation.Pointer
import RadioSim.Process.Reading

/-! # Parsing the client's versions

`parse_client_versions` of `handshake.c`, byte by byte through its pointer and element
by element into its array. It ends on every line, inside of both, with the versions
that `parseClientVersions` has; and the lines that `read_line` delivers are too short
for its last refusal.
-/
namespace RadioSim.Process.Handshake
open Loop Pointer

inductive Exit
  | mismatch
  | emptyList
  | tooMany
  | noNumber
  | garbage
  | parsed
  deriving DecidableEq

structure Parse where
  p : Bytes
  count : ℕ
  out : List ℤ

def parseClientVersionsStart (line : Bytes) (out : List ℤ) : Option (Control Parse Exit) :=
  (strncmp clientPrefix.length line (clientPrefix ++ [0])).bind fun same =>
    if same then (offset line clientPrefix.length).bind fun p =>
      (load p).map fun c => if c = 0 then .returned .emptyList ⟨p,0,out⟩ else .again ⟨p,0,out⟩
    else some (.returned .mismatch ⟨line,0,out⟩)

/-- The loop, with its test at the head of the body. `count` is below the capacity
where it is incremented. -/
def parseClientVersionsLoop (capacity : ℕ) : Loop Parse Unit Exit where
  exit _ := none
  body s _ := (load s.p).bind fun c =>
    if c = 0 then some (.returned .parsed s)
    else if s.count ≥ capacity then some (.returned .tooMany s)
    else (Pointer.strtol s.p).bind fun (v,fin) =>
      if fin.length = s.p.length then some (.returned .noNumber s)
      else (store s.out s.count (toInt32 v)).bind fun out =>
        (load fin).bind fun c =>
          if c = 44 then (offset fin 1).map fun p => .again ⟨p,s.count + 1,out⟩
          else if c ≠ 0 then some (.returned .garbage ⟨fin,s.count + 1,out⟩)
          else some (.again ⟨fin,s.count + 1,out⟩)

/-- `parse_client_versions` for an array of the given capacity, up to a number of turns. -/
def parseClientVersionsRun (turns : ℕ) (line : Bytes) (out : List ℤ) : Option (Control Parse Exit) :=
  (parseClientVersionsStart line out).bind ((parseClientVersionsLoop out.length).resume (List.replicate turns ()))

/-- What the caller has of the array: the returned count is 0 unless all was parsed. -/
def Parse.versions (s : Parse) (exit : Exit) : List ℤ := if exit = .parsed then s.out.take s.count else []

section Turns
variable {rest behind : Bytes} {count : ℕ} {out : List ℤ}

/-- A number stands at the front, with a comma and `next` behind it, or with nothing. -/
def Listing (rest : Bytes) (v : ℤ) (next : Bytes) : Prop :=
  RadioSim.strtol rest = some (v,44 :: next) ∨ next = [] ∧ RadioSim.strtol rest = some (v,[])

inductive Turn (behind rest : Bytes) (count : ℕ) (out : List ℤ) : Control Parse Exit → Prop
  | parsed : rest = [] → Turn behind rest count out (.returned .parsed ⟨rest ++ 0 :: behind,count,out⟩)
  | tooMany : rest ≠ [] → out.length = count →
      Turn behind rest count out (.returned .tooMany ⟨rest ++ 0 :: behind,count,out⟩)
  | noNumber : rest ≠ [] → count < out.length → RadioSim.strtol rest = none →
      Turn behind rest count out (.returned .noNumber ⟨rest ++ 0 :: behind,count,out⟩)
  | garbage (v : ℤ) (c : Byte) (q : Bytes) : count < out.length → RadioSim.strtol rest = some (v,c :: q) → c ≠ 44 →
      Turn behind rest count out
        (.returned .garbage ⟨c :: q ++ 0 :: behind,count + 1,out.set count (toInt32 v)⟩)
  | number (v : ℤ) (next : Bytes) : count < out.length → Listing rest v next →
      Turn behind rest count out (.again ⟨next ++ 0 :: behind,count + 1,out.set count (toInt32 v)⟩)

theorem strtol_shorter {v : ℤ} {after : Bytes} (h : RadioSim.strtol rest = some (v,after)) :
    after.length < rest.length ∧ ∀ b ∈ after, b ∈ rest := by
  obtain ⟨x,hrest,_,_⟩ := strtol_some h
  have htext := List.length_pos_iff.mpr x.text_ne_nil
  subst hrest
  refine ⟨?_,fun b hb => List.mem_append_right _ hb⟩
  rw [List.length_append]
  omega

theorem Listing.shorter {v : ℤ} {next : Bytes} (h : Listing rest v next) :
    next.length < rest.length ∧ ∀ b ∈ next, b ∈ rest := by
  rcases h with h | ⟨rfl,h⟩
  · obtain ⟨hshort,hmem⟩ := strtol_shorter h
    exact ⟨Nat.lt_of_succ_lt hshort,fun b hb => hmem b (List.mem_cons_of_mem 44 hb)⟩
  · exact strtol_shorter h

theorem Listing.parseLoop_eq {v : ℤ} {next : Bytes} (h : Listing rest v next) {capacity : ℕ} {vs : List ℤ}
    (hroom : vs.length < capacity) (fuel : ℕ) :
    parseLoop capacity (fuel + 1) rest vs = parseLoop capacity fuel next (vs ++ [toInt32 v]) := by
  have hne : rest ≠ [] := List.length_pos_iff.mp (Nat.zero_lt_of_lt h.shorter.1)
  rw [parseLoop.eq_3 _ _ _ _ hne, if_neg (Nat.not_le_of_lt hroom)]
  rcases h with h | ⟨rfl,h⟩
  · rw [h]
    rfl
  · rw [h, parseLoop.eq_1]

theorem parse_turn (hrest : 0 ∉ rest) (behind : Bytes) (hcount : count ≤ out.length) :
    ∃ c, (parseClientVersionsLoop out.length).body ⟨rest ++ 0 :: behind,count,out⟩ () = some c ∧
      Turn behind rest count out c := by
  simp only [parseClientVersionsLoop, load_nul, strtol_nul, Option.bind_some]
  by_cases hempty : rest = []
  · subst hempty
    exact ⟨_,rfl,.parsed rfl⟩
  have hhead : rest.headD 0 ≠ 0 := by
    obtain ⟨b,tail,rfl⟩ := List.exists_cons_of_ne_nil hempty
    exact fun h => hrest (h ▸ List.mem_cons_self)
  rw [if_neg hhead]
  by_cases hfull : count ≥ out.length
  · rw [if_pos hfull]
    exact ⟨_,rfl,.tooMany hempty (Nat.le_antisymm hfull hcount)⟩
  rw [if_neg hfull]
  have hroom := Nat.lt_of_not_ge hfull
  cases hnumber : RadioSim.strtol rest with
  | none =>
    dsimp only
    rw [if_pos rfl]
    exact ⟨_,rfl,.noNumber hempty hroom hnumber⟩
  | some number =>
    obtain ⟨v,after⟩ := number
    obtain ⟨hshort,hafter⟩ := strtol_shorter hnumber
    dsimp only
    rw [if_neg (by simp only [List.length_append]; omega), store_of_lt hroom, Option.bind_some, load_nul, Option.bind_some]
    cases after with
    | nil => exact ⟨_,rfl,.number v [] hroom (Or.inr ⟨rfl,hnumber⟩)⟩
    | cons c q =>
      by_cases hc : c = 44
      · subst hc
        exact ⟨_,rfl,.number v q hroom (Or.inl hnumber)⟩
      · have hnul : c ≠ 0 := fun h => hrest (h ▸ hafter c List.mem_cons_self)
        rw [List.headD_cons, if_neg hc, if_pos hnul]
        exact ⟨_,rfl,.garbage v c q hroom hnumber hc⟩

theorem follow_returned {capacity : ℕ} {s m : Parse} {exit : Exit}
    (h : (parseClientVersionsLoop capacity).body s () = some (.returned exit m)) {n turns : ℕ} (hturns : n < turns) :
    (parseClientVersionsLoop capacity).follow s (List.replicate turns ()) = some (.returned exit m) := by
  obtain ⟨k,rfl⟩ := Nat.exists_eq_add_of_lt hturns
  rw [List.replicate_succ, follow_stop rfl (by simp [h]), h]

theorem follow_turn {capacity : ℕ} {s m : Parse}
    (h : (parseClientVersionsLoop capacity).body s () = some (.again m)) {n turns : ℕ} (hturns : n < turns) :
    (parseClientVersionsLoop capacity).follow s (List.replicate turns ()) =
      (parseClientVersionsLoop capacity).follow m (List.replicate (turns - 1) ()) := by
  obtain ⟨k,rfl⟩ := Nat.exists_eq_add_of_lt hturns
  rw [List.replicate_succ, follow_again rfl h, Nat.add_sub_cancel]

/-- The loop ends on what is left of a string after as many turns as it has bytes, with
the versions of `parseLoop`, and it has found too many of them only if there are more
bytes than places in the array. -/
theorem follow_parse (hrest : 0 ∉ rest) (behind : Bytes) (hcount : count ≤ out.length) {fuel : ℕ}
    (hfuel : rest.length ≤ fuel) :
    ∃ exit s, s.out.length = out.length ∧
      s.versions exit = (parseLoop out.length fuel rest (out.take count)).getD [] ∧
      (exit = .tooMany → out.length < count + rest.length) ∧
      ∀ turns > rest.length, (parseClientVersionsLoop out.length).follow ⟨rest ++ 0 :: behind,count,out⟩
        (List.replicate turns ()) = some (.returned exit s) := by
  -- on the bytes left: a turn that goes on consumes a number and a comma
  induction hn : rest.length using Nat.strong_induction_on generalizing rest count out fuel with
  | _ n ih =>
    obtain ⟨c,hbody,hturn⟩ := parse_turn hrest behind hcount
    have hlength : (out.take count).length = count := List.length_take_of_le hcount
    have hfuel' : rest ≠ [] → ∃ k, fuel = k + 1 := fun hne =>
      Nat.exists_eq_add_one.mpr (Nat.lt_of_lt_of_le (List.length_pos_iff.mpr hne) hfuel)
    cases hturn with
    | parsed hempty =>
      subst hempty
      exact ⟨_,_,rfl,by simp [Parse.versions, parseLoop],fun h => (by cases h),fun _ hturns => follow_returned hbody hturns⟩
    | tooMany hne hfull =>
      obtain ⟨k,rfl⟩ := hfuel' hne
      refine ⟨_,_,rfl,?_,fun _ => ?_,fun _ hturns => follow_returned hbody hturns⟩
      · rw [parseLoop.eq_3 _ _ _ _ hne, hlength, if_pos (Nat.le_of_eq hfull)]
        rfl
      · have hpos := List.length_pos_iff.mpr hne
        omega
    | noNumber hne hroom hnumber =>
      obtain ⟨k,rfl⟩ := hfuel' hne
      refine ⟨_,_,rfl,?_,fun h => (by cases h),fun _ hturns => follow_returned hbody hturns⟩
      rw [parseLoop.eq_3 _ _ _ _ hne, hlength, if_neg (Nat.not_le_of_lt hroom), hnumber]
      rfl
    | garbage v c q hroom hnumber hc =>
      have hne : rest ≠ [] := by
        rintro rfl
        cases hnumber
      obtain ⟨k,rfl⟩ := hfuel' hne
      refine ⟨_,_,List.length_set,?_,fun h => (by cases h),fun _ hturns => follow_returned hbody hturns⟩
      rw [parseLoop.eq_3 _ _ _ _ hne, hlength, if_neg (Nat.not_le_of_lt hroom), hnumber]
      simp [Parse.versions, hc]
    | number v next hroom hlisting =>
      obtain ⟨hshort,hmem⟩ := hlisting.shorter
      obtain ⟨k,rfl⟩ := hfuel' (List.length_pos_iff.mp (Nat.zero_lt_of_lt hshort))
      have hset : (out.set count (toInt32 v)).length = out.length := List.length_set
      obtain ⟨exit,s,hout,hversions,hmany,hfollow⟩ := ih next.length (hn ▸ hshort) (fun h => hrest (hmem 0 h))
        (hset.symm ▸ hroom) (by omega : next.length ≤ k) rfl
      rw [hset] at hout hversions hmany hfollow
      refine ⟨exit,s,hout,?_,fun h => ?_,fun turns hturns => ?_⟩
      · rw [hversions, hlisting.parseLoop_eq (hlength.symm ▸ hroom), CharArray.take_set_succ hroom]
      · have := hmany h
        omega
      · rw [follow_turn hbody hturns]
        exact hfollow _ (by omega)

end Turns

section Runs
variable {turns : ℕ} {object : Bytes} {out : List ℤ} {exit : Exit} {s : Parse}

theorem run_add (turns more : ℕ) (object : Bytes) (out : List ℤ) :
    parseClientVersionsRun (turns + more) object out = (parseClientVersionsRun turns object out).bind
      ((parseClientVersionsLoop out.length).resume (List.replicate more ())) := by
  unfold parseClientVersionsRun
  rw [Option.bind_assoc, ← List.replicate_append_replicate]
  congr 1
  funext c
  exact resume_append c _ _

/-- A run that has returned has been a run before, and it stays where it is. -/
theorem run_of_returns {enough : ℕ}
    (h : ∀ turns > enough, parseClientVersionsRun turns object out = some (.returned exit s)) :
    parseClientVersionsRun turns object out ≠ none ∧
      ∀ exit' s', parseClientVersionsRun turns object out = some (.returned exit' s') → exit' = exit := by
  have hlater := h (turns + (enough + 1)) (by omega)
  rw [run_add] at hlater
  constructor
  · intro hnone
    rw [hnone] at hlater
    cases hlater
  · intro exit' s' hreturned
    rw [hreturned] at hlater
    cases hlater
    rfl

theorem start_cases (line : CString) (behind : Bytes) (out : List ℤ) :
    (line.bytes.take clientPrefix.length ≠ clientPrefix ∧
      parseClientVersionsStart (line.bytes ++ 0 :: behind) out =
        some (.returned .mismatch ⟨line.bytes ++ 0 :: behind,0,out⟩)) ∨
    ∃ rest, line.bytes = clientPrefix ++ rest ∧
      parseClientVersionsStart (line.bytes ++ 0 :: behind) out = some (if rest = [] then
        .returned .emptyList ⟨rest ++ 0 :: behind,0,out⟩ else .again ⟨rest ++ 0 :: behind,0,out⟩) := by
  unfold parseClientVersionsStart
  rw [strncmp_nul _ _ (by decide), Option.bind_some]
  by_cases hmatch : line.bytes.take clientPrefix.length = clientPrefix
  · obtain ⟨rest,hrest⟩ := List.prefix_iff_eq_take.mpr hmatch.symm
    have hnul := line.noNul
    refine Or.inr ⟨rest,hrest.symm,?_⟩
    rw [← hrest] at hmatch hnul ⊢
    have hoffset : offset (clientPrefix ++ rest ++ 0 :: behind) clientPrefix.length = some (rest ++ 0 :: behind) := by
      rw [offset, if_pos (by simp), List.append_assoc, List.drop_left]
    simp only [hmatch, decide_true, ↓reduceIte, hoffset, Option.bind_some, load_nul, Option.map_some]
    cases rest with
    | nil => rfl
    | cons b rest =>
      have hb : b ≠ 0 := fun h => hnul (h ▸ by simp)
      simp [hb]
  · refine Or.inl ⟨hmatch,?_⟩
    simp only [hmatch, decide_false, Bool.false_eq_true, ↓reduceIte]

/-- `parse_client_versions` on a string with its NUL: it ends, with the versions of the
string, and it has found too many of them only if the string is long enough. -/
theorem run_parse (line : CString) (behind : Bytes) (out : List ℤ) :
    ∃ exit s, s.out.length = out.length ∧ s.versions exit = parseClientVersions line out.length ∧
      (exit = .tooMany → clientPrefix.length + out.length < line.strlen) ∧
      ∀ turns > line.strlen,
        parseClientVersionsRun turns (line.bytes ++ 0 :: behind) out = some (.returned exit s) := by
  unfold parseClientVersionsRun parseClientVersions
  rcases start_cases line behind out with ⟨hmatch,hstart⟩ | ⟨rest,hrest,hstart⟩
  · rw [if_neg hmatch, hstart]
    exact ⟨_,_,rfl,rfl,fun h => (by cases h),fun _ _ => rfl⟩
  · have hnul : 0 ∉ rest := fun h => line.noNul (hrest ▸ List.mem_append_right _ h)
    have hlength : line.strlen = clientPrefix.length + rest.length := by rw [CString.strlen, hrest, List.length_append]
    rw [hstart, hrest, if_pos List.take_left, List.drop_left, hlength]
    by_cases hempty : rest = []
    · rw [if_pos hempty]
      exact ⟨_,_,rfl,by simp [Parse.versions, hempty, parseLoop],fun h => (by cases h),fun _ _ => rfl⟩
    · rw [if_neg hempty]
      obtain ⟨exit,s,hout,hversions,hmany,hfollow⟩ := follow_parse hnul behind (Nat.zero_le out.length) le_rfl
      exact ⟨exit,s,hout,hversions,fun h => by have := hmany h; omega,fun turns hturns => hfollow turns (by omega)⟩

/-- What `read_line` delivers is a string that leaves a byte of its array unused. -/
theorem readLine_string {buf : Buffer} {reads : List ReadResult} {r : Filling} (hsize : 1 ≤ buf.bytes.length)
    (h : (readLineLoop buf.bytes.length).follow (.start buf) reads = some (.returned true r)) :
    ∃ (line : CString) (behind : Bytes), r.array = line.bytes ++ 0 :: behind ∧ line.strlen + 1 < buf.bytes.length := by
  obtain ⟨text,htext,rfl⟩ := (readLine_readsLines buf.bytes.length).delivered hsize h
  have hnul : 0 ∈ (terminated buf text).array := by simp [terminated]
  obtain ⟨behind,hsplit⟩ := ofBuffer_split hnul
  have hle : (CString.ofBuffer (terminated buf text).array).strlen ≤ text.length := by
    rw [terminated, CString.ofBuffer_nul]
    exact (List.takeWhile_prefix _).length_le
  exact ⟨_,behind,hsplit,by omega⟩

/-- `parse_client_versions` is bounded on every line and for every capacity: it reads no
byte behind the NUL, it stores nothing behind the array, and it returns. On the lines
that `read_line` delivers to the handshake it never finds more versions than the
array has places for. -/
theorem parseClientVersions_bounded :
    (∀ (line : CString) (out : List ℤ),
      (∀ turns, parseClientVersionsRun turns (line.bytes ++ [0]) out ≠ none) ∧
      ∃ exit s, s.out.length = out.length ∧ s.versions exit = parseClientVersions line out.length ∧
        ∀ turns > line.strlen, parseClientVersionsRun turns (line.bytes ++ [0]) out = some (.returned exit s)) ∧
    ∀ (buf : Buffer) (reads : List ReadResult) (r : Filling), buf.bytes.length = lineMax →
      (readLineLoop lineMax).follow (.start buf) reads = some (.returned true r) →
      ∀ out : List ℤ, out.length = lineMax → ∀ turns s,
        parseClientVersionsRun turns r.array out ≠ some (.returned .tooMany s) := by
  constructor
  · intro line out
    obtain ⟨exit,s,hout,hversions,_,hreturns⟩ := run_parse line [] out
    exact ⟨fun turns => (run_of_returns hreturns).1,exit,s,hout,hversions,hreturns⟩
  · intro buf reads r hbuf hread out hout turns s hrun
    rw [← hbuf] at hread
    obtain ⟨line,behind,harray,hline⟩ := readLine_string (by rw [hbuf]; decide) hread
    obtain ⟨exit,_,_,_,hmany,hreturns⟩ := run_parse line behind out
    rw [harray] at hrun
    have hlong := hmany ((run_of_returns hreturns).2 _ _ hrun).symm
    rw [hout] at hlong
    rw [hbuf] at hline
    omega

end Runs

end RadioSim.Process.Handshake
