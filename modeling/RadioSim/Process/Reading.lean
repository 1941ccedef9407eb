import RadioSim.Foundation.CharArray
import RadioSim.Process.Effect
import RadioSim.Process.System
import RadioSim.Process.Writing

/-! # Reading a line into a buffer

`read_line` of `handshake.c` and `read_command_line` of `command.c`, for a buffer of
any size, store by store; and the threads that read, turn by turn, as they do.
-/
namespace RadioSim.Process
open Queue CharArray Loop

/-- The local variable of the line readers, the array that they fill, and the bytes
that they have read. -/
structure Filling where
  len : ℕ
  array : Bytes
  consumed : Bytes

def Filling.start (buf : Buffer) : Filling := ⟨0,buf.bytes,[]⟩

def Filling.exit (bufSize : ℕ) (s : Filling) : Option Bool := if sizeAdd s.len 1 < bufSize then none else some false

def Filling.receive (s : Filling) (c : Byte) : Option (Control Filling Bool) :=
  if c = 10 then (store s.array s.len 0).map fun array => .returned true ⟨s.len,array,s.consumed ++ [c]⟩
  else (store s.array s.len c).map fun array => .again ⟨sizeAdd s.len 1,array,s.consumed ++ [c]⟩

def Handshake.readLineLoop (bufSize : ℕ) : Loop Filling ReadResult Bool where
  exit := Filling.exit bufSize
  body s
    | .byte c => s.receive c
    | .eof => some (.returned false s)
    | .eintr => some (.again s)
    | .error => some (.returned false s)

/-- What one turn of `read_command_line` is told: by `poll`, then by the two flags
after a timeout or by `read`. -/
inductive Polled
  | error
  | eintr
  | timeout (stop peerAlive : Bool)
  | hangup
  | ready (r : ReadResult)

def Command.readCommandLineLoop (bufSize : ℕ) : Loop Filling Polled Bool where
  exit := Filling.exit bufSize
  body s
    | .error => some (.returned false s)
    | .eintr => some (.again s)
    | .timeout stop peerAlive => if stop || !peerAlive then some (.returned false s) else some (.again s)
    | .hangup => some (.returned false s)
    | .ready (.byte c) => s.receive c
    | .ready .eof => some (.returned false s)
    | .ready .eintr => some (.again s)
    | .ready .error => some (.returned false s)

section Answers

def ReadResult.told : ReadResult → Option Byte
  | .byte c => some c
  | _ => none

def ReadResult.quiet : ReadResult → Bool
  | .byte _ | .eintr => true
  | _ => false

def Polled.told : Polled → Option Byte
  | .ready r => r.told
  | _ => none

/-- A byte, an interruption, or a timeout at which nothing asks the reader to stop. -/
def Polled.quiet : Polled → Bool
  | .eintr => true
  | .timeout stop peerAlive => !stop && peerAlive
  | .ready r => r.quiet
  | _ => false

/-- Both readers, told nothing but bytes. -/
def fillLoop (bufSize : ℕ) : Loop Filling Byte Bool where
  exit := Filling.exit bufSize
  body := Filling.receive

theorem follow_readLine {reads : List ReadResult} (h : ∀ r ∈ reads, r.quiet = true) (bufSize : ℕ) (s : Filling) :
    (Handshake.readLineLoop bufSize).follow s reads = (fillLoop bufSize).follow s (reads.filterMap ReadResult.told) := by
  refine follow_filterMap ReadResult.told (fun _ => rfl) (fun m r hr htold => ?_) (fun m r hr c htold => ?_)
  · have hquiet := h r hr
    cases r with
    | byte c => cases htold
    | eintr => rfl
    | eof | error => cases hquiet
  · cases r with
    | byte c =>
      cases htold
      rfl
    | _ => cases htold

theorem follow_readCommandLine {polls : List Polled} (h : ∀ r ∈ polls, r.quiet = true) (bufSize : ℕ) (s : Filling) :
    (Command.readCommandLineLoop bufSize).follow s polls =
      (fillLoop bufSize).follow s (polls.filterMap Polled.told) := by
  refine follow_filterMap Polled.told (fun _ => rfl) (fun m r hr htold => ?_) (fun m r hr c htold => ?_)
  · have hquiet := h r hr
    cases r with
    | error | hangup => cases hquiet
    | eintr => rfl
    | timeout stop peerAlive =>
      cases stop <;> cases peerAlive <;> first | rfl | cases hquiet
    | ready r =>
      cases r with
      | byte c => cases htold
      | eintr => rfl
      | eof | error => cases hquiet
  · cases r with
    | ready r =>
      cases r with
      | byte c =>
        cases htold
        rfl
      | _ => cases htold
    | _ => cases htold

end Answers

section Filling
variable {buf : Buffer} {pre : Bytes} {c : Byte}

def filled (buf : Buffer) (pre : Bytes) : Filling := ⟨pre.length,pre ++ buf.bytes.drop pre.length,pre⟩

def terminated (buf : Buffer) (line : Bytes) : Filling :=
  ⟨line.length,line ++ 0 :: buf.bytes.drop (line.length + 1),line ++ [10]⟩

theorem filled_nil (buf : Buffer) : filled buf [] = .start buf := rfl

theorem store_filled (h : pre.length < buf.bytes.length) (b : Byte) :
    store (pre ++ buf.bytes.drop pre.length) pre.length b = some (pre ++ b :: buf.bytes.drop (pre.length + 1)) := by
  have hroom : pre.length < (pre ++ buf.bytes.drop pre.length).length := by
    rw [List.length_append, List.length_drop]
    omega
  rw [store, if_pos hroom, List.set_append_right _ _ le_rfl, Nat.sub_self, List.drop_eq_getElem_cons h, List.set_cons_zero]

theorem receive_newline (h : pre.length < buf.bytes.length) :
    (filled buf pre).receive 10 = some (.returned true (terminated buf pre)) := by
  simp only [Filling.receive, filled, ↓reduceIte, store_filled h, Option.map_some]
  rfl

theorem receive_byte (h : pre.length < buf.bytes.length) (hc : c ≠ 10) :
    (filled buf pre).receive c = some (.again (filled buf (pre ++ [c]))) := by
  have hadd : sizeAdd pre.length 1 = pre.length + 1 := sizeAdd_of_lt (Nat.lt_of_le_of_lt h buf.length_lt)
  simp only [Filling.receive, filled, if_neg hc, store_filled h, Option.map_some, hadd, List.length_append,
    List.length_singleton, List.append_assoc, List.singleton_append]

theorem exit_of_room (h : pre.length + 1 < buf.bytes.length) :
    (fillLoop buf.bytes.length).exit (filled buf pre) = none := by
  have hadd : sizeAdd pre.length 1 = pre.length + 1 := sizeAdd_of_lt (h.trans buf.length_lt)
  simp only [fillLoop, Filling.exit, filled, hadd, if_pos h]

theorem exit_of_full (hpre : pre.length < buf.bytes.length) (hfull : ¬ pre.length + 1 < buf.bytes.length) :
    (fillLoop buf.bytes.length).exit (filled buf pre) = some false := by
  have hadd : sizeAdd pre.length 1 = pre.length + 1 := sizeAdd_of_lt (Nat.lt_of_le_of_lt hpre buf.length_lt)
  simp only [fillLoop, Filling.exit, filled, hadd, if_neg hfull]

theorem exit_ne_true (bufSize : ℕ) (s : Filling) : Filling.exit bufSize s ≠ some true := by
  unfold Filling.exit
  split <;> exact fun h => by cases h

/-- A full buffer ends the loop, whatever comes next. -/
theorem follow_full (hpre : pre.length < buf.bytes.length) (hfull : ¬ pre.length + 1 < buf.bytes.length)
    (bytes : Bytes) :
    ∃ line rest, bytes = line ++ rest ∧ 10 ∉ line ∧ pre.length + line.length + 1 = buf.bytes.length ∧
      (fillLoop buf.bytes.length).follow (filled buf pre) bytes =
        some (.returned false (filled buf (pre ++ line))) := by
  refine ⟨[],bytes,rfl,List.not_mem_nil,?_,?_⟩
  · rw [List.length_nil]
    omega
  · rw [follow_exit (exit_of_full hpre hfull), List.append_nil]

/-- What the bytes of a stream make of a buffer: a line that ends in time, a line that
has not ended yet, or one that is too long. -/
theorem follow_fill (hpre : pre.length < buf.bytes.length) (bytes : Bytes) :
    (∃ line rest, bytes = line ++ 10 :: rest ∧ 10 ∉ line ∧ pre.length + line.length + 1 < buf.bytes.length ∧
      (fillLoop buf.bytes.length).follow (filled buf pre) bytes =
        some (.returned true (terminated buf (pre ++ line)))) ∨
    (10 ∉ bytes ∧ pre.length + bytes.length + 1 < buf.bytes.length ∧
      (fillLoop buf.bytes.length).follow (filled buf pre) bytes = some (.again (filled buf (pre ++ bytes)))) ∨
    ∃ line rest, bytes = line ++ rest ∧ 10 ∉ line ∧ pre.length + line.length + 1 = buf.bytes.length ∧
      (fillLoop buf.bytes.length).follow (filled buf pre) bytes =
        some (.returned false (filled buf (pre ++ line))) := by
  induction bytes generalizing pre with
  | nil =>
    by_cases hroom : pre.length + 1 < buf.bytes.length
    · refine Or.inr (Or.inl ⟨List.not_mem_nil,hroom,?_⟩)
      rw [follow, enter_of_none (exit_of_room hroom), List.append_nil]
    · exact Or.inr (Or.inr (follow_full hpre hroom []))
  | cons c bytes ih =>
    by_cases hroom : pre.length + 1 < buf.bytes.length
    · by_cases hc : c = 10
      · subst hc
        refine Or.inl ⟨[],bytes,rfl,List.not_mem_nil,hroom,?_⟩
        have hbody : (fillLoop buf.bytes.length).body (filled buf pre) 10 = _ := receive_newline hpre
        rw [follow_stop (exit_of_room hroom) (by simp [hbody]), hbody, List.append_nil]
      · have hnext : (fillLoop buf.bytes.length).follow (filled buf pre) (c :: bytes) =
            (fillLoop buf.bytes.length).follow (filled buf (pre ++ [c])) bytes :=
          follow_again (exit_of_room hroom) (receive_byte hpre hc)
        have hlength : (pre ++ [c]).length = pre.length + 1 := List.length_append
        have hmem : ∀ line : Bytes, 10 ∉ line → 10 ∉ c :: line := fun line hline hin =>
          (List.mem_cons.mp hin).elim (fun h => hc h.symm) hline
        rw [hnext]
        rcases ih (hlength ▸ hroom) with ⟨line,rest,rfl,hline,hlt,h⟩ | ⟨hline,hlt,h⟩ | ⟨line,rest,rfl,hline,heq,h⟩
        · refine Or.inl ⟨c :: line,rest,rfl,hmem line hline,?_,?_⟩
          · rw [List.length_cons]
            omega
          · rw [h, List.append_assoc, List.singleton_append]
        · refine Or.inr (Or.inl ⟨hmem bytes hline,?_,?_⟩)
          · rw [List.length_cons]
            omega
          · rw [h, List.append_assoc, List.singleton_append]
        · refine Or.inr (Or.inr ⟨c :: line,rest,rfl,hmem line hline,?_,?_⟩)
          · rw [List.length_cons]
            omega
          · rw [h, List.append_assoc, List.singleton_append]
    · exact Or.inr (Or.inr (follow_full hpre hroom (c :: bytes)))

theorem room_of_exit (hpre : pre.length < buf.bytes.length)
    (h : Filling.exit buf.bytes.length (filled buf pre) = none) : pre.length + 1 < buf.bytes.length := by
  by_contra hfull
  cases h.symm.trans (exit_of_full hpre hfull)

/-- There is still a place in the array for the NUL. -/
def Inside (buf : Buffer) (s : Filling) : Prop := ∃ pre, s = filled buf pre ∧ pre.length < buf.bytes.length

/-- A reader that does nothing with its array but to receive bytes, and that succeeds
with a newline only. -/
structure ReadsLines {R : Type} (l : Loop Filling R Bool) (bufSize : ℕ) : Prop where
  exit_eq : l.exit = Filling.exit bufSize
  body_cases : ∀ s r, l.body s r = some (.again s) ∨ (∃ c, l.body s r = s.receive c) ∨
    l.body s r = some (.returned false s)

theorem readLine_readsLines (bufSize : ℕ) : ReadsLines (Handshake.readLineLoop bufSize) bufSize where
  exit_eq := rfl
  body_cases s r := by
    cases r with
    | byte c => exact Or.inr (Or.inl ⟨c,rfl⟩)
    | eintr => exact Or.inl rfl
    | eof | error => exact Or.inr (Or.inr rfl)

theorem readCommandLine_readsLines (bufSize : ℕ) : ReadsLines (Command.readCommandLineLoop bufSize) bufSize where
  exit_eq := rfl
  body_cases s r := by
    cases r with
    | error | hangup => exact Or.inr (Or.inr rfl)
    | eintr => exact Or.inl rfl
    | timeout stop peerAlive =>
      cases stop <;> cases peerAlive <;> first | exact Or.inl rfl | exact Or.inr (Or.inr rfl)
    | ready r =>
      cases r with
      | byte c => exact Or.inr (Or.inl ⟨c,rfl⟩)
      | eintr => exact Or.inl rfl
      | eof | error => exact Or.inr (Or.inr rfl)

section Readers
variable {R : Type} {l : Loop Filling R Bool} {s : Filling}

/-- A turn of a reader: it goes on inside of the array, or it fails, or it has a line
that leaves a byte of the array unused. -/
theorem ReadsLines.turn (hl : ReadsLines l buf.bytes.length) (hs : Inside buf s) (hexit : l.exit s = none) (r : R) :
    (∃ s', Inside buf s' ∧ l.body s r = some (.again s')) ∨ l.body s r = some (.returned false s) ∨
    ∃ line, line.length + 1 < buf.bytes.length ∧ l.body s r = some (.returned true (terminated buf line)) := by
  obtain ⟨pre,rfl,hpre⟩ := hs
  have hroom : pre.length + 1 < buf.bytes.length := room_of_exit hpre (hl.exit_eq ▸ hexit)
  rcases hl.body_cases (filled buf pre) r with h | ⟨c,h⟩ | h
  · exact Or.inl ⟨_,⟨pre,rfl,hpre⟩,h⟩
  · rw [h]
    by_cases hc : c = 10
    · subst hc
      exact Or.inr (Or.inr ⟨pre,hroom,receive_newline hpre⟩)
    · refine Or.inl ⟨_,⟨pre ++ [c],rfl,?_⟩,receive_byte hpre hc⟩
      rwa [List.length_append]
  · exact Or.inr (Or.inl h)

theorem ReadsLines.step_inside (hl : ReadsLines l buf.bytes.length) (m : Filling) (r : R) (m' : Filling)
    (hm : Inside buf m) (hexit : l.exit m = none) (h : l.body m r = some (.again m')) : Inside buf m' := by
  rcases hl.turn hm hexit r with ⟨s',hs',hbody⟩ | hbody | ⟨_,_,hbody⟩
  · cases hbody.symm.trans h
    exact hs'
  · cases hbody.symm.trans h
  · cases hbody.symm.trans h

theorem inside_start (hsize : 1 ≤ buf.bytes.length) : Inside buf (.start buf) := ⟨[],rfl,hsize⟩

/-- Whatever it is told, a reader writes nothing outside of its buffer. -/
theorem ReadsLines.follow_inside (hl : ReadsLines l buf.bytes.length) (hsize : 1 ≤ buf.bytes.length)
    (answers : List R) : l.follow (.start buf) answers ≠ none := by
  refine follow_ne_none (inside_start hsize) hl.step_inside fun m r _ hm hexit h => ?_
  rcases hl.turn hm hexit r with ⟨_,_,hbody⟩ | hbody | ⟨_,_,hbody⟩
  all_goals
    rw [hbody] at h
    cases h

/-- Whatever it is told, a reader delivers no line but one that leaves a byte of the
array unused. -/
theorem ReadsLines.delivered (hl : ReadsLines l buf.bytes.length) (hsize : 1 ≤ buf.bytes.length) {answers : List R}
    (h : l.follow (.start buf) answers = some (.returned true s)) :
    ∃ line, line.length + 1 < buf.bytes.length ∧ s = terminated buf line := by
  rcases follow_cases (inside_start hsize) hl.step_inside answers with ⟨m,hm,hend⟩ | ⟨_,r,_,m,_,hm,hexit,_,hend,_⟩
  · rw [hend] at h
    cases hexit : l.exit m with
    | none =>
      rw [enter_of_none hexit] at h
      cases h
    | some ok =>
      rw [enter_of_some hexit] at h
      cases h
      rw [hl.exit_eq] at hexit
      exact absurd hexit (exit_ne_true _ _)
  · rw [hend] at h
    rcases hl.turn hm hexit r with ⟨_,_,hbody⟩ | hbody | ⟨line,hline,hbody⟩
    · cases hbody.symm.trans h
    · cases hbody.symm.trans h
    · cases hbody.symm.trans h
      exact ⟨line,hline,rfl⟩

end Readers

end Filling

section Lines
variable {buf : Buffer} {bytes line : Bytes} {ended : Bool}

/-- The stream starts with a line: newline-free bytes and a newline. -/
def StartsWith (bytes line : Bytes) : Prop := 10 ∉ line ∧ ∃ rest, bytes = line ++ 10 :: rest

theorem StartsWith.newline_mem (h : StartsWith bytes line) : 10 ∈ bytes := by
  obtain ⟨_,rest,rfl⟩ := h
  simp

/-- A part without a newline is no longer than the line that it begins. -/
theorem StartsWith.length_le {part rest : Bytes} (h : StartsWith (part ++ rest) line) (hpart : 10 ∉ part) :
    part.length ≤ line.length := by
  obtain ⟨_,rest',heq⟩ := h
  rcases List.append_eq_append_iff.mp heq with ⟨more,rfl,_⟩ | ⟨more,rfl,hmore⟩
  · simp
  · cases more with
    | nil => simp
    | cons c more =>
      obtain ⟨rfl,_⟩ := List.cons.inj hmore
      exact absurd (by simp) hpart

theorem StartsWith.unique {line' : Bytes} (h : StartsWith bytes line) (h' : StartsWith bytes line') : line' = line := by
  have hlength : line'.length = line.length := by
    obtain ⟨hline,rest,rfl⟩ := id h
    obtain ⟨hline',rest',heq⟩ := id h'
    exact Nat.le_antisymm ((heq ▸ h).length_le hline') (h'.length_le hline)
  obtain ⟨_,rest,rfl⟩ := h
  obtain ⟨_,rest',heq⟩ := h'
  exact (List.append_inj heq.symm hlength).1

/-- The reader uses its whole buffer on a stream: it accepts exactly the lines that
fit with their NUL, and then it has read the line and its newline and the array holds
the line; no store is outside of the array. -/
structure UsesWholeBuffer (buf : Buffer) (bytes : Bytes) (outcome : Option (Control Filling Bool)) : Prop where
  inside : outcome ≠ none
  accepts : (∃ s, outcome = some (.returned true s)) ↔
    ∃ line, StartsWith bytes line ∧ line.length + 1 ≤ buf.bytes.length
  holds : ∀ s line, outcome = some (.returned true s) → StartsWith bytes line →
    s.consumed = line ++ [10] ∧ s.array.length = buf.bytes.length ∧ s.array.take (line.length + 1) = line ++ [0]

/-- A stream that goes on, or whose end is the next thing that is read. -/
def atEnd (ended : Bool) (c : Control Filling Bool) : Control Filling Bool := if ended then c.stop false else c

theorem atEnd_again (ended : Bool) (m s : Filling) : atEnd ended (.again m) ≠ .returned true s := by
  cases ended <;> intro h <;> cases h

theorem atEnd_returned (ended ok : Bool) (m : Filling) : atEnd ended (.returned ok m) = .returned ok m := by
  cases ended <;> rfl

theorem follow_ended {R : Type} {l : Loop Filling R Bool} {eof : R} (heof : ∀ m, l.body m eof = some (.returned false m))
    (s : Filling) (answers : List R) (ended : Bool) :
    l.follow s (answers ++ if ended then [eof] else []) = (l.follow s answers).map (atEnd ended) := by
  cases ended with
  | true => exact follow_last heof s answers []
  | false => rw [if_neg Bool.false_ne_true, List.append_nil, show atEnd false = id from rfl, Option.map_id, id]

theorem terminated_holds (h : line.length < buf.bytes.length) :
    (terminated buf line).array.length = buf.bytes.length ∧
      (terminated buf line).array.take (line.length + 1) = line ++ [0] := by
  constructor
  · simp only [terminated, List.length_append, List.length_cons, List.length_drop]
    omega
  · have happend : (terminated buf line).array = (line ++ [0]) ++ buf.bytes.drop (line.length + 1) := by
      simp [terminated]
    rw [happend, List.take_left' (by simp)]

/-- A reader that does not accept uses its whole buffer if no line fits. -/
theorem usesWholeBuffer_of_rejects {c : Control Filling Bool} (hc : ∀ s, c ≠ .returned true s)
    (hline : ∀ line, StartsWith bytes line → ¬ line.length + 1 ≤ buf.bytes.length) :
    UsesWholeBuffer buf bytes (some c) where
  inside := Option.some_ne_none c
  accepts := ⟨fun ⟨s,hs⟩ => absurd (Option.some.inj hs) (hc s),fun ⟨line,hstarts,hle⟩ => absurd hle (hline line hstarts)⟩
  holds := fun s _ hs => absurd (Option.some.inj hs) (hc s)

theorem usesWholeBuffer_of_accepts (hstarts : StartsWith bytes line) (hlt : line.length < buf.bytes.length) :
    UsesWholeBuffer buf bytes (some (.returned true (terminated buf line))) where
  inside := Option.some_ne_none _
  accepts := ⟨fun _ => ⟨line,hstarts,hlt⟩,fun _ => ⟨_,rfl⟩⟩
  holds := by
    rintro s line' hs hstarts'
    cases hs
    rw [hstarts.unique hstarts']
    exact ⟨rfl,terminated_holds hlt⟩

/-- A reader uses its whole buffer on all streams but those whose first line would fill
it to the last byte. -/
theorem usesWholeBuffer_iff (hsize : 1 ≤ buf.bytes.length) (bytes : Bytes) (ended : Bool) :
    UsesWholeBuffer buf bytes (((fillLoop buf.bytes.length).follow (.start buf) bytes).map (atEnd ended)) ↔
      ∀ line, StartsWith bytes line → line.length + 1 ≠ buf.bytes.length := by
  have hempty : ([] : Bytes).length < buf.bytes.length := hsize
  rcases follow_fill hempty bytes with ⟨line,rest,hbytes,hline,hlt,h⟩ | ⟨hline,hlt,h⟩ | ⟨part,rest,hbytes,hpart,heq,h⟩
  · have hstarts : StartsWith bytes line := ⟨hline,rest,hbytes⟩
    rw [← filled_nil, h, Option.map_some, atEnd_returned]
    rw [List.length_nil, Nat.zero_add] at hlt
    refine iff_of_true (usesWholeBuffer_of_accepts hstarts (Nat.lt_of_succ_lt hlt)) fun line' hstarts' => ?_
    rw [hstarts.unique hstarts']
    exact Nat.ne_of_lt hlt
  · have hnone : ∀ line, ¬ StartsWith bytes line := fun line hstarts => hline hstarts.newline_mem
    rw [← filled_nil, h]
    exact iff_of_true (usesWholeBuffer_of_rejects (atEnd_again ended _) fun line hstarts => absurd hstarts (hnone line))
      fun line hstarts => absurd hstarts (hnone line)
  · subst hbytes
    rw [List.length_nil, Nat.zero_add] at heq
    rw [← filled_nil, h, Option.map_some, atEnd_returned]
    constructor
    · intro hwhole line hstarts hboundary
      obtain ⟨s,hs⟩ := hwhole.accepts.mpr ⟨line,hstarts,Nat.le_of_eq hboundary⟩
      cases hs
    · intro hne
      refine usesWholeBuffer_of_rejects (fun s hs => by cases hs) fun line hstarts hle => hne line hstarts ?_
      have := hstarts.length_le hpart
      omega

/-- The line readers use their whole buffer, whatever interruptions and timeouts come
between the bytes, exactly when the first line does not fill it up to the place of its
NUL: the newline of such a line is never read. They write nothing outside of the
buffer, whatever they are told. -/
theorem lineReaders_iff (buf : Buffer) (hsize : 1 ≤ buf.bytes.length) (ended : Bool) :
    (∀ reads : List ReadResult, (∀ r ∈ reads, r.quiet = true) →
      (UsesWholeBuffer buf (reads.filterMap ReadResult.told)
        ((Handshake.readLineLoop buf.bytes.length).follow (.start buf) (reads ++ if ended then [.eof] else [])) ↔
      ∀ line, StartsWith (reads.filterMap ReadResult.told) line → line.length + 1 ≠ buf.bytes.length)) ∧
    (∀ polls : List Polled, (∀ r ∈ polls, r.quiet = true) →
      (UsesWholeBuffer buf (polls.filterMap Polled.told)
        ((Command.readCommandLineLoop buf.bytes.length).follow (.start buf)
          (polls ++ if ended then [.ready .eof] else [])) ↔
      ∀ line, StartsWith (polls.filterMap Polled.told) line → line.length + 1 ≠ buf.bytes.length)) ∧
    (∀ reads, (Handshake.readLineLoop buf.bytes.length).follow (.start buf) reads ≠ none) ∧
    ∀ polls, (Command.readCommandLineLoop buf.bytes.length).follow (.start buf) polls ≠ none := by
  refine ⟨?_,?_,(readLine_readsLines _).follow_inside hsize,(readCommandLine_readsLines _).follow_inside hsize⟩
  · intro reads hquiet
    rw [follow_ended (fun _ => rfl), follow_readLine hquiet]
    exact usesWholeBuffer_iff hsize _ ended
  · intro polls hquiet
    rw [follow_ended (fun _ => rfl), follow_readCommandLine hquiet]
    exact usesWholeBuffer_iff hsize _ ended

def zeroed (size : ℕ) (h : size < sizeRange) : Buffer := ⟨List.replicate size 0,by rwa [List.length_replicate]⟩

theorem lineReaders_iff_short :
    (zeroed 4 (by decide)).bytes.length = 4 ∧
    UsesWholeBuffer (zeroed 4 (by decide)) [65, 10]
      ((Handshake.readLineLoop 4).follow (.start (zeroed 4 (by decide))) [.eintr, .byte 65, .byte 10]) ∧
    UsesWholeBuffer (zeroed 4 (by decide)) [65, 10]
      ((Command.readCommandLineLoop 4).follow (.start (zeroed 4 (by decide)))
        [.timeout false true, .ready (.byte 65), .eintr, .ready (.byte 10)]) := by
  have hstarts : StartsWith [65, 10] [65] := ⟨by decide,[],rfl⟩
  have hshort : ∀ line, StartsWith [65, 10] line → line.length + 1 ≠ 4 := fun line hline => by
    rw [hstarts.unique hline]
    decide
  obtain ⟨hread,hcommand,_⟩ := lineReaders_iff (zeroed 4 (by decide)) (by decide) false
  refine ⟨by decide,(hread [.eintr, .byte 65, .byte 10] (by decide)).mpr hshort,?_⟩
  exact (hcommand [.timeout false true, .ready (.byte 65), .eintr, .ready (.byte 10)] (by decide)).mpr hshort

/-- A line that fills the buffer with its NUL is not accepted. -/
theorem fill_boundary (hline : 10 ∉ line) (hlength : line.length + 1 = buf.bytes.length) :
    ¬ UsesWholeBuffer buf (line ++ [10]) ((fillLoop buf.bytes.length).follow (.start buf) (line ++ [10])) := by
  intro hwhole
  have hsize : 1 ≤ buf.bytes.length := hlength ▸ Nat.le_add_left 1 line.length
  have hiff := usesWholeBuffer_iff hsize (line ++ [10]) false
  rw [show atEnd false = id from rfl, Option.map_id] at hiff
  exact hiff.mp hwhole line ⟨hline,[],rfl⟩ hlength

def longestLine : Bytes := List.replicate 127 65

theorem longest_line_rejected :
    ¬ UsesWholeBuffer (zeroed 128 (by decide)) (longestLine ++ [10])
      ((Handshake.readLineLoop 128).follow (.start (zeroed 128 (by decide))) ((longestLine ++ [10]).map .byte)) ∧
    ¬ UsesWholeBuffer (zeroed 128 (by decide)) (longestLine ++ [10])
      ((Command.readCommandLineLoop 128).follow (.start (zeroed 128 (by decide)))
        ((longestLine ++ [10]).map fun c => .ready (.byte c))) := by
  have hfill : ¬ UsesWholeBuffer (zeroed 128 (by decide)) (longestLine ++ [10])
      ((fillLoop 128).follow (.start (zeroed 128 (by decide))) (longestLine ++ [10])) :=
    fill_boundary (by simp [longestLine]) (by simp [longestLine, zeroed])
  constructor
  · rw [follow_readLine (List.forall_mem_map.mpr fun _ _ => rfl), List.filterMap_map]
    simpa only [Function.comp_def, ReadResult.told, List.filterMap_some] using hfill
  · rw [follow_readCommandLine (List.forall_mem_map.mpr fun _ _ => rfl), List.filterMap_map]
    simpa only [Function.comp_def, Polled.told, ReadResult.told, List.filterMap_some] using hfill

end Lines

section Received
variable {buf : Buffer} {answers : List ReadResult} {line : Bytes} {s : Filling}

/-- The bytes that are read before an end or an error of the stream. -/
def bytesGiven (answers : List ReadResult) : Bytes := (answers.takeWhile ReadResult.quiet).filterMap ReadResult.told

theorem follow_bytesGiven (bufSize : ℕ) (s : Filling) (answers : List ReadResult) :
    ∃ ended, (Handshake.readLineLoop bufSize).follow s answers =
      ((fillLoop bufSize).follow s (bytesGiven answers)).map (atEnd ended) := by
  have hquiet : ∀ r ∈ answers.takeWhile ReadResult.quiet, r.quiet = true := fun _ => List.mem_takeWhile_imp
  have hsplit : answers.takeWhile ReadResult.quiet ++ answers.dropWhile ReadResult.quiet = answers :=
    List.takeWhile_append_dropWhile
  cases hrest : answers.dropWhile ReadResult.quiet with
  | nil =>
    refine ⟨false,?_⟩
    rw [hrest, List.append_nil] at hsplit
    rw [show atEnd false = id from rfl, Option.map_id, id, bytesGiven, ← follow_readLine hquiet, hsplit]
  | cons r rest =>
    have hr : r.quiet = false := by
      have hhead := List.head_dropWhile_not ReadResult.quiet (l := answers) (by simp [hrest])
      simpa only [hrest, List.head_cons] using hhead
    have hbody : ∀ m, (Handshake.readLineLoop bufSize).body m r = some (.returned false m) := by
      cases r with
      | eof | error => exact fun _ => rfl
      | byte | eintr => cases hr
    have hlast := follow_last hbody s (answers.takeWhile ReadResult.quiet) rest
    rw [← hrest, hsplit, follow_readLine hquiet] at hlast
    exact ⟨true,hlast⟩

/-- `read_line` returns true exactly when a line that leaves a byte of the array unused
is received. -/
theorem readLine_returns_iff (hsize : 1 ≤ buf.bytes.length) (answers : List ReadResult) (s : Filling) :
    (Handshake.readLineLoop buf.bytes.length).follow (.start buf) answers = some (.returned true s) ↔
      ∃ line, StartsWith (bytesGiven answers) line ∧ line.length + 1 < buf.bytes.length ∧ s = terminated buf line := by
  have hempty : ([] : Bytes).length < buf.bytes.length := hsize
  obtain ⟨ended,hfollow⟩ := follow_bytesGiven buf.bytes.length (.start buf) answers
  rw [hfollow, ← filled_nil]
  rcases follow_fill hempty (bytesGiven answers) with
    ⟨line,rest,hbytes,hline,hlt,h⟩ | ⟨hline,_,h⟩ | ⟨part,rest,hbytes,hpart,heq,h⟩
  · have hstarts : StartsWith (bytesGiven answers) line := ⟨hline,rest,hbytes⟩
    rw [List.length_nil, Nat.zero_add] at hlt
    rw [h, Option.map_some, atEnd_returned, List.nil_append]
    constructor
    · intro hs
      cases hs
      exact ⟨line,hstarts,hlt,rfl⟩
    · rintro ⟨line',hstarts',_,rfl⟩
      rw [hstarts.unique hstarts']
  · rw [h, Option.map_some]
    refine iff_of_false (fun hs => atEnd_again ended _ s (Option.some.inj hs)) ?_
    rintro ⟨line,hstarts,_⟩
    exact hline hstarts.newline_mem
  · rw [h, Option.map_some, atEnd_returned]
    refine iff_of_false (fun hs => by cases hs) ?_
    rintro ⟨line,hstarts,hlt,_⟩
    have hle := (hbytes ▸ hstarts).length_le hpart
    rw [List.length_nil, Nat.zero_add] at heq
    omega

end Received

section Threads
variable {R : Type} {l : Loop Filling R Bool} {size : ℕ} {answers : List R} {pre : Bytes} {r : R}

/-- The answers have filled the array with `pre`, whatever was in it before. -/
def Begun (l : Loop Filling R Bool) (size : ℕ) (answers : List R) (pre : Bytes) : Prop :=
  ∀ buf : Buffer, buf.bytes.length = size → l.follow (.start buf) answers = some (l.enter (filled buf pre))

/-- The answers make the reader return true with this line in the array. -/
def Delivers (l : Loop Filling R Bool) (size : ℕ) (answers : List R) (line : CString) : Prop :=
  ∀ buf : Buffer, buf.bytes.length = size →
    ∃ s, l.follow (.start buf) answers = some (.returned true s) ∧ CString.ofBuffer s.array = line

theorem begun_nil : Begun l size [] [] := fun _ _ => rfl

/-- A reader with room left asks for another byte. -/
theorem Begun.again (hl : l.exit = Filling.exit size) (h : Begun l size answers pre) (hroom : pre.length + 1 < size)
    {buf : Buffer} (hbuf : buf.bytes.length = size) :
    l.exit (filled buf pre) = none ∧ l.follow (.start buf) answers = some (.again (filled buf pre)) := by
  subst hbuf
  have hexit : l.exit (filled buf pre) = none := by
    rw [hl]
    exact exit_of_room hroom
  exact ⟨hexit,by rw [h buf rfl, enter_of_none hexit]⟩

theorem Begun.byte (hl : l.exit = Filling.exit size) (h : Begun l size answers pre) (hroom : pre.length + 1 < size)
    {c : Byte} (hr : ∀ s, l.body s r = s.receive c) (hc : c ≠ 10) : Begun l size (answers ++ [r]) (pre ++ [c]) := by
  intro buf hbuf
  obtain ⟨hexit,hfollow⟩ := h.again hl hroom hbuf
  have hbody := (hr (filled buf pre)).trans (receive_byte (by omega) hc)
  rw [follow_append hfollow, follow_again hexit hbody, follow]

theorem Begun.newline (hl : l.exit = Filling.exit size) (h : Begun l size answers pre) (hroom : pre.length + 1 < size)
    (hr : ∀ s, l.body s r = s.receive 10) : Delivers l size (answers ++ [r]) (.ofBuffer pre) := by
  intro buf hbuf
  obtain ⟨hexit,hfollow⟩ := h.again hl hroom hbuf
  have hbody := (hr (filled buf pre)).trans (receive_newline (by omega))
  refine ⟨terminated buf pre,?_,CString.ofBuffer_nul pre _⟩
  rw [follow_append hfollow, follow_stop hexit (by simp [hbody]), hbody]

/-- An answer that leaves the reader where it is. -/
theorem Begun.idle (hl : l.exit = Filling.exit size) (h : Begun l size answers pre) (hroom : pre.length + 1 < size)
    (hr : ∀ s, l.body s r = some (.again s)) : Begun l size (answers ++ [r]) pre := by
  intro buf hbuf
  obtain ⟨hexit,hfollow⟩ := h.again hl hroom hbuf
  rw [follow_append hfollow, follow_again hexit (hr _), follow]

theorem Begun.not_delivers (hl : l.exit = Filling.exit size) (hsize : size < sizeRange) (h : Begun l size answers pre) :
    ¬ ∃ line, Delivers l size answers line := by
  rintro ⟨line,hdelivers⟩
  obtain ⟨s,hs,_⟩ := hdelivers (zeroed size hsize) List.length_replicate
  rw [h (zeroed size hsize) List.length_replicate] at hs
  cases hexit : l.exit (filled (zeroed size hsize) pre) with
  | none =>
    rw [enter_of_none hexit] at hs
    cases hs
  | some ok =>
    rw [enter_of_some hexit] at hs
    cases hs
    rw [hl] at hexit
    exact exit_ne_true _ _ hexit

/-- An answer that ends the reader without a line. -/
theorem Begun.refused (hl : l.exit = Filling.exit size) (hsize : size < sizeRange) (h : Begun l size answers pre)
    (hroom : pre.length + 1 < size) (hr : ∀ s, l.body s r = some (.returned false s)) :
    ¬ ∃ line, Delivers l size (answers ++ [r]) line := by
  rintro ⟨line,hdelivers⟩
  have hbuf : (zeroed size hsize).bytes.length = size := List.length_replicate
  obtain ⟨s,hs,_⟩ := hdelivers (zeroed size hsize) hbuf
  obtain ⟨hexit,hfollow⟩ := h.again hl hroom hbuf
  rw [follow_append hfollow, follow_stop hexit (by simp [hr]), hr] at hs
  cases hs

theorem delivers_iff (hpos : 1 ≤ size) (hsize : size < sizeRange) (answers : List ReadResult) :
    (∃ line, Delivers (Handshake.readLineLoop size) size answers line) ↔
      ∃ line, StartsWith (bytesGiven answers) line ∧ line.length + 1 < size := by
  constructor
  · rintro ⟨_,hdelivers⟩
    obtain ⟨buf,hbuf⟩ : ∃ buf : Buffer, buf.bytes.length = size := ⟨zeroed size hsize,List.length_replicate⟩
    obtain ⟨s,hs,_⟩ := hdelivers buf hbuf
    subst hbuf
    obtain ⟨line,hstarts,hlt,_⟩ := (readLine_returns_iff hpos answers s).mp hs
    exact ⟨line,hstarts,hlt⟩
  · rintro ⟨line,hstarts,hlt⟩
    refine ⟨.ofBuffer line,fun buf hbuf => ⟨terminated buf line,?_,CString.ofBuffer_nul line _⟩⟩
    subst hbuf
    exact (readLine_returns_iff hpos answers _).mpr ⟨line,hstarts,hlt,rfl⟩

end Threads

section Standing
variable {R P X : Type} {l : Loop Filling R Bool} {t : Tid} {table : P → Op P} {place : Control Filling Bool → P}
  {K : Bytes → Shared → Prop} {buf : Buffer} {line : Bytes}

/-- The thread is where the reader stands, and `K` holds of what has been read. -/
structure Stands (place : Control Filling Bool → P) (K : Bytes → Shared → Prop) (c : Control Filling Bool)
    (m : P × Shared) : Prop where
  place : m.1 = place c
  shared : K c.state.consumed m.2

theorem follow_line (hline : 10 ∉ line) (hlen : line.length + 1 < buf.bytes.length) :
    (fillLoop buf.bytes.length).follow (.start buf) line = some (.again (filled buf line)) := by
  have hempty : ([] : Bytes).length < buf.bytes.length := Nat.lt_of_le_of_lt (Nat.zero_le _) hlen
  rcases follow_fill hempty line with ⟨_,rest,rfl,_⟩ | ⟨_,_,h⟩ | ⟨part,rest,rfl,_,heq,_⟩
  · exact absurd (by simp) hline
  · exact h
  · simp only [List.length_append, List.length_nil] at hlen heq
    omega

/-- A thread that takes the turns of a reader gets the line that the reader gets. -/
theorem runThread_delivers (answer : X → R) (choices : X → List Choice) (hl : ReadsLines l buf.bytes.length)
    (hturn : ∀ pre x c m, Stands place K (.again (filled buf pre)) m → pre.length + 1 < buf.bytes.length →
      l.body (filled buf pre) (answer x) = some c →
      ∃ m', runThread t table m (choices x) = some m' ∧ Stands place K c m')
    (hfull : ∀ pre m, Stands place K (.again (filled buf pre)) m → ¬ pre.length + 1 < buf.bytes.length →
      ∃ m', runThread t table m [.ok] = some m' ∧ Stands place K (.returned false (filled buf pre)) m')
    {turns : List X} {x : X} {m : P × Shared} (hm : Stands place K (.again (.start buf)) m) (hline : 10 ∉ line)
    (hlen : line.length + 1 < buf.bytes.length)
    (hturns : l.follow (.start buf) (turns.map answer) = (fillLoop buf.bytes.length).follow (.start buf) line)
    (hx : ∀ s, l.body s (answer x) = s.receive 10) :
    ∃ m', runThread t table m (turns.flatMap choices ++ choices x) = some m' ∧
      Stands place K (.returned true (terminated buf line)) m' := by
  have hsize : 1 ≤ buf.bytes.length := by omega
  obtain ⟨m₁,hrun,hm₁,_⟩ := runThread_again (t := t) (m := m)
    (A := fun c m => Stands place K c m ∧ ∀ s, c = .again s → Inside buf s) answer choices
    (fun s x c m hs hexit hbody => by
      obtain ⟨pre,rfl,hpre⟩ := hs.2 s rfl
      obtain ⟨m',hrun,hm'⟩ := hturn pre x c m hs.1 (room_of_exit hpre (hl.exit_eq ▸ hexit)) hbody
      refine ⟨m',hrun,hm',?_⟩
      rintro s' rfl
      exact hl.step_inside _ _ _ ⟨pre,rfl,hpre⟩ hexit hbody)
    (fun s v m hs hexit => by
      obtain ⟨pre,rfl,hpre⟩ := hs.2 s rfl
      rw [hl.exit_eq] at hexit
      have hend : ¬ pre.length + 1 < buf.bytes.length := fun hroom => by
        cases hexit.symm.trans (exit_of_room hroom)
      cases hexit.symm.trans (exit_of_full hpre hend)
      obtain ⟨m',hrun,hm'⟩ := hfull pre m hs.1 hend
      exact ⟨m',hrun,hm',fun s' hs' => by cases hs'⟩)
    ⟨hm,fun s hs => Control.again.inj hs ▸ inside_start hsize⟩ (hturns.trans (follow_line hline hlen))
  obtain ⟨m₂,hlast,hm₂⟩ := hturn line x _ m₁ hm₁ hlen ((hx _).trans (receive_newline (by omega)))
  exact ⟨m₂,by rw [runThread_append hrun, hlast],hm₂⟩

end Standing

section History
variable {P : Type} {t : Tid} {table : P → Op P} {s s' : P × Shared} {choices : List Choice} {past : List ReadResult}

def Op.readAnswer : Op P → Choice → List ReadResult
  | .sockRead _ _, .read r => [r]
  | _, _ => []

def readAnswers (t : Tid) (table : P → Op P) : P × Shared → List Choice → List ReadResult
  | _, [] => []
  | s, c :: rest =>
    (table s.1).readAnswer c ++ ((exec t c s.2 (table s.1)).map fun s' => readAnswers t table s' rest).getD []

/-- What holds of a thread and of the answers that it has been given. -/
theorem runThread_history {I : List ReadResult → P × Shared → Prop} (hs : I past s)
    (hstep : ∀ past s c s', I past s → exec t c s.2 (table s.1) = some s' → I (past ++ (table s.1).readAnswer c) s')
    (h : runThread t table s choices = some s') : I (past ++ readAnswers t table s choices) s' := by
  induction choices generalizing s past with
  | nil =>
    cases h
    rwa [readAnswers, List.append_nil]
  | cons c rest ih =>
    obtain ⟨m,hm,hrest⟩ := Option.bind_eq_some_iff.mp h
    rw [readAnswers, hm, Option.map_some, Option.getD_some, ← List.append_assoc]
    exact ih (hstep past s c m hs hm) hrest

end History

end RadioSim.Process

namespace RadioSim.Process.Handshake
open CharArray Loop
variable {t : Tid} {c : Choice} {versions : List ℤ} {n : ℕ} {pc p : Pc} {pre : Bytes} {sh sh' : Shared}
  {answers : List ReadResult}

section Delivery
variable {buf : Buffer} {base out : Bytes} {m : Pc × Shared}

def afterReadLine (versions : List ℤ) : Control Filling Bool → Pc
  | .again s => .readLine s.consumed
  | .returned true s => answer versions (.ofBuffer s.array)
  | .returned false _ => .done false 0

/-- The bytes read on the connection since `base`, while `out` was on the wire. -/
def Consumes (n : ℕ) (base out consumed : Bytes) (sh : Shared) : Prop :=
  (sh.conns n).consumed = base ++ consumed ∧ (sh.conns n).output = out

theorem readLine_stands (hbuf : buf.bytes.length = lineMax) {pre : Bytes} {r : ReadResult} {d : Control Filling Bool}
    (hm : Stands (afterReadLine versions) (Consumes n base out) (.again (filled buf pre)) m)
    (hroom : pre.length + 1 < buf.bytes.length) (hbody : (readLineLoop buf.bytes.length).body (filled buf pre) r = some d) :
    ∃ m', runThread t (code versions n) m [.read r] = some m' ∧
      Stands (afterReadLine versions) (Consumes n base out) d m' := by
  obtain ⟨pc,sh⟩ := m
  obtain ⟨rfl,hin,hout⟩ := hm
  have hrun : ∀ {q sh'}, exec t (.read r) sh (code versions n (.readLine pre)) = some (q,sh') →
      runThread t (code versions n) (.readLine pre,sh) [.read r] = some (q,sh') := fun h => by
    rw [runThread, h, Option.bind_some, runThread]
  have hroom' : pre.length + 1 < lineMax := hbuf ▸ hroom
  cases r with
  | byte b =>
    have hin' : ((sh.setConn n { sh.conns n with consumed := (sh.conns n).consumed ++ [b] }).conns n).consumed =
        base ++ (pre ++ [b]) := by
      have hpre : (sh.conns n).consumed = base ++ pre := hin
      simp only [Shared.setConn, Function.update_self, hpre, List.append_assoc]
    have hout' : ((sh.setConn n { sh.conns n with consumed := (sh.conns n).consumed ++ [b] }).conns n).output = out := by
      simpa only [Shared.setConn, Function.update_self] using hout
    by_cases hb : b = 10
    · subst hb
      cases (receive_newline (Nat.lt_of_succ_lt hroom)).symm.trans hbody
      refine ⟨_,hrun (by simp only [code, if_pos hroom', exec, ↓reduceIte]; rfl),?_,hin',hout'⟩
      simp only [afterReadLine, terminated, CString.ofBuffer_nul]
    · cases (receive_byte (Nat.lt_of_succ_lt hroom) hb).symm.trans hbody
      exact ⟨_,hrun (by simp only [code, if_pos hroom', exec, if_neg hb]; rfl),rfl,hin',hout'⟩
  | eintr =>
    cases hbody
    exact ⟨_,hrun (by simp only [code, if_pos hroom', exec]; rfl),rfl,hin,hout⟩
  | eof | error =>
    cases hbody
    exact ⟨_,hrun (by simp only [code, if_pos hroom', exec]),rfl,hin,hout⟩

theorem full_stands (hbuf : buf.bytes.length = lineMax) {pre : Bytes}
    (hm : Stands (afterReadLine versions) (Consumes n base out) (.again (filled buf pre)) m)
    (hfull : ¬ pre.length + 1 < buf.bytes.length) :
    ∃ m', runThread t (code versions n) m [.ok] = some m' ∧
      Stands (afterReadLine versions) (Consumes n base out) (.returned false (filled buf pre)) m' := by
  obtain ⟨pc,sh⟩ := m
  obtain ⟨rfl,hin,hout⟩ := hm
  have hfull' : ¬ pre.length + 1 < lineMax := hbuf ▸ hfull
  refine ⟨(.done false 0,sh),?_,rfl,hin,hout⟩
  simp only [runThread, afterReadLine, filled, code, if_neg hfull', exec, Option.bind_some]

/-- `read_line` accepts a line of up to 126 bytes, with any interruptions. -/
theorem runThread_line (versions : List ℤ) (n : ℕ) (t : Tid) (sh : Shared) {reads : List ReadResult} {line : Bytes}
    (hquiet : ∀ r ∈ reads, r.quiet = true) (hreads : reads.filterMap ReadResult.told = line) (hline : 10 ∉ line)
    (hlen : line.length + 1 < lineMax) :
    ∃ sh', runThread t (code versions n) (.readLine [],sh) (reads.map .read ++ [.read (.byte 10)]) =
        some (answer versions (.ofBuffer line),sh') ∧
      (sh'.conns n).consumed = (sh.conns n).consumed ++ (line ++ [10]) ∧
      (sh'.conns n).output = (sh.conns n).output := by
  let buf := zeroed lineMax (by decide)
  have hbuf : buf.bytes.length = lineMax := List.length_replicate
  have hdelivers : ∃ m, runThread t (code versions n) (.readLine [],sh)
        (reads.flatMap (fun r => [.read r]) ++ [.read (.byte 10)]) = some m ∧
      Stands (afterReadLine versions) (Consumes n (sh.conns n).consumed (sh.conns n).output)
        (.returned true (terminated buf line)) m :=
    runThread_delivers (x := .byte 10) id (fun r => [.read r]) (readLine_readsLines buf.bytes.length)
      (fun _ _ _ _ hm hroom hbody => readLine_stands hbuf hm hroom hbody) (fun _ _ hm hfull => full_stands hbuf hm hfull)
      ⟨rfl,by simp [Consumes, Control.state, Filling.start]⟩ hline (hbuf.symm ▸ hlen)
      (by rw [List.map_id, follow_readLine hquiet, hreads]) (fun _ => rfl)
  obtain ⟨⟨pc,sh'⟩,hrun,rfl,hin,hout⟩ := hdelivers
  refine ⟨sh',?_,hin,hout⟩
  simpa only [List.map_eq_flatMap, afterReadLine, terminated, CString.ofBuffer_nul] using hrun

end Delivery

def Reading (answers : List ReadResult) : Pc → Prop
  | .hello _ => answers = []
  | .readLine pre => Begun (readLineLoop lineMax) lineMax answers pre
  | _ => True

/-- The thread has read what `read_line` makes of the answers, and it has a newline
exactly when `read_line` has a line. -/
structure Heard (answers : List ReadResult) (pc : Pc) (conn : Conn) : Prop where
  reading : Reading answers pc
  newline_iff : 10 ∈ conn.consumed ↔ ∃ line, Delivers (readLineLoop lineMax) lineMax answers line

theorem reading_answer (versions : List ℤ) (line : CString) (answers : List ReadResult) :
    Reading answers (answer versions line) := by
  unfold answer
  split
  · exact trivial
  · dsimp only
    split
    · exact trivial
    · split <;> exact trivial

theorem writeAll_readAnswer {P : Type} (n : ℕ) (rest : Bytes) (again : Bytes → P) (written failed : P) (c : Choice) :
    (writeAll n rest again written failed).readAnswer c = [] := by
  unfold writeAll
  split <;> rfl

/-- A step at `read_line` is a turn of its loop. -/
theorem heard_readLine (h : exec t c sh (code versions n (.readLine pre)) = some (p,sh'))
    (hs : Heard answers (.readLine pre) (sh.conns n)) :
    Heard (answers ++ (code versions n (.readLine pre)).readAnswer c) p (sh'.conns n) := by
  have hnone : 10 ∉ (sh.conns n).consumed :=
    fun hin => hs.reading.not_delivers rfl (by decide) (hs.newline_iff.mp hin)
  rcases readLine_turn h with ⟨b,rfl,rfl,hroom,rfl⟩ | ⟨rfl,rfl,hroom,rfl⟩ | ⟨rfl,rfl,hends⟩
  · simp only [code, if_pos hroom, Op.readAnswer, Shared.setConn, Function.update_self]
    split
    · rename_i hb
      subst hb
      refine ⟨reading_answer ..,iff_of_true (by simp) ⟨_,hs.reading.newline rfl hroom fun _ => rfl⟩⟩
    · rename_i hb
      have hbegun := hs.reading.byte rfl hroom (r := .byte b) (fun _ => rfl) hb
      refine ⟨hbegun,iff_of_false ?_ (hbegun.not_delivers rfl (by decide))⟩
      simpa [hnone] using Ne.symm hb
  · simp only [code, if_pos hroom, Op.readAnswer]
    have hbegun := hs.reading.idle rfl hroom (r := .eintr) (fun _ => rfl)
    exact ⟨hbegun,iff_of_false hnone (hbegun.not_delivers rfl (by decide))⟩
  · refine ⟨trivial,iff_of_false hnone ?_⟩
    by_cases hroom : pre.length + 1 < lineMax
    · simp only [code, if_pos hroom]
      rcases hends hroom with rfl | rfl <;> exact hs.reading.refused rfl (by decide) hroom fun _ => rfl
    · simp only [code, if_neg hroom, Op.readAnswer, List.append_nil]
      exact hs.reading.not_delivers rfl (by decide)

theorem exec_heard (h : exec t c sh (code versions n pc) = some (p,sh')) (hs : Heard answers pc (sh.conns n)) :
    Heard (answers ++ (code versions n pc).readAnswer c) p (sh'.conns n) := by
  have heff := exec_effect h
  cases pc with
  | readLine pre => exact heard_readLine h hs
  | hello rest =>
    have hin := (writeAll_turn h).2.1
    rw [code, writeAll_readAnswer, List.append_nil]
    have hnil : answers = [] := hs.reading
    subst hnil
    refine ⟨heff.all (writeAll_all (I := Reading []) (fun _ => rfl) begun_nil trivial),?_⟩
    rw [hin]
    exact hs.newline_iff
  | nack rest | ack version rest =>
    have hin := (writeAll_turn h).2.1
    rw [code, writeAll_readAnswer, List.append_nil]
    refine ⟨heff.all (writeAll_all (I := Reading answers) (fun _ => trivial) trivial trivial),?_⟩
    rw [hin]
    exact hs.newline_iff
  | done ok version =>
    cases h
    rw [code, show Op.readAnswer (.tau _) c = [] from rfl, List.append_nil]
    exact hs

/-- In every run of a handshake the thread reads as `read_line` does with the answers
that the thread gets. -/
theorem runThread_heard {choices : List Choice} (hin : (sh.conns n).consumed = [])
    (h : runThread t (code versions n) (start versions,sh) choices = some (pc,sh')) :
    Heard (readAnswers t (code versions n) (start versions,sh) choices) pc (sh'.conns n) := by
  have hstart : Heard [] (start versions) (sh.conns n) := by
    refine ⟨?_,?_⟩
    · unfold start
      split
      · exact trivial
      · rfl
    · rw [hin]
      exact iff_of_false List.not_mem_nil (begun_nil.not_delivers rfl (by decide))
  exact runThread_history (I := fun answers s => Heard answers s.1 (s.2.conns n)) hstart
    (fun _ _ _ _ hs hstep => exec_heard hstep hs) h

/-- A handshake has a complete line exactly when one is received in time. -/
theorem newline_consumed_iff {choices : List Choice} (hin : (sh.conns n).consumed = [])
    (h : runThread t (code versions n) (start versions,sh) choices = some (pc,sh')) :
    10 ∈ (sh'.conns n).consumed ↔
      ∃ line, StartsWith (bytesGiven (readAnswers t (code versions n) (start versions,sh) choices)) line ∧
        line.length + 1 < lineMax := by
  rw [(runThread_heard hin h).newline_iff]
  exact delivers_iff (by decide) (by decide) _

end RadioSim.Process.Handshake

namespace RadioSim.Process.Command
open CharArray Loop
variable {t : Tid} {n : ℕ} {pc p : Pc} {pre : Bytes} {sh sh' : Shared}

/-- A listener has read what some answers make `read_command_line` read, and it
applies the lines that `read_command_line` delivers. -/
def Reading : Pc → Prop
  | .poll pre => ∃ answers, Begun (readCommandLineLoop commandLineMax) commandLineMax answers pre
  | .timedOut pre | .checkPeer pre | .read pre =>
    (∃ answers, Begun (readCommandLineLoop commandLineMax) commandLineMax answers pre) ∧
      pre.length + 1 < commandLineMax
  | .apply line => ∃ answers, Delivers (readCommandLineLoop commandLineMax) commandLineMax answers line
  | _ => True

theorem reading_afterApply (line : CString) : Reading (afterApply line) := by
  unfold afterApply
  split
  · exact trivial
  · exact trivial
  · exact ⟨[],begun_nil⟩

theorem effect_reading (h : Effect t sh (code n pc) p sh') (hs : Reading pc) : Reading p := by
  cases pc with
  | poll pre =>
    simp only [code] at h
    split at h
    · rename_i hroom
      cases h with
      | poll _ r =>
        cases r with
        | error => exact trivial
        | eintr => exact hs
        | timeout => exact ⟨hs,hroom⟩
        | ready hangup =>
          cases hangup with
          | true => exact trivial
          | false => exact ⟨hs,hroom⟩
    · cases h
      exact trivial
  | timedOut pre =>
    cases h with
    | shutdownRequested =>
      dsimp only
      split
      · exact trivial
      · exact hs
  | checkPeer pre =>
    cases h with
    | peerRead =>
      dsimp only
      split
      · exact hs.1
      · exact trivial
  | read pre =>
    obtain ⟨⟨answers,hs⟩,hroom⟩ := hs
    cases h with
    | readByte _ _ c =>
      dsimp only
      split
      · rename_i hc
        exact ⟨_,hs.newline rfl hroom (r := .ready (.byte c)) (fun _ => hc ▸ rfl)⟩
      · rename_i hc
        exact ⟨_,hs.byte rfl hroom (r := .ready (.byte c)) (fun _ => rfl) hc⟩
    | readNothing _ _ r hr =>
      cases r with
      | byte c => exact absurd rfl (hr c)
      | eintr => exact ⟨answers,hs⟩
      | eof | error => exact trivial
  | apply line => exact h.all (I := Reading) (reading_afterApply line)
  | allocAlert code antenna =>
    refine h.all (I := Reading) fun a => ?_
    cases a with
    | none => exact ⟨[],begun_nil⟩
    | some a => exact trivial
  | enqueueAlert item =>
    refine h.all (I := Reading) fun ok => ?_
    cases ok <;> exact trivial
  | setInterval ms => exact h.all (I := Reading) ⟨[],begun_nil⟩
  | dropAlert item | logAlert item => exact h.all (I := Reading) ⟨[],begun_nil⟩
  | clearPeer | done => exact h.all (I := Reading) trivial

end RadioSim.Process.Command

namespace RadioSim.Process
variable {W : ℕ} {s s' : System} {t : Tid} {c : Choice} {n : ℕ}

theorem step_reading (h : Command.Reading (s.pcs (.listener n))) (hstep : step W s t c = some s') :
    Command.Reading (s'.pcs (.listener n)) := by
  obtain ⟨_,p,sh,hexec,rfl⟩ := step_inversion hstep
  by_cases ht : t = .listener n
  · subst ht
    simp only [Function.update_self]
    exact Command.effect_reading (exec_effect hexec) h
  · simp only [Function.update_of_ne (Ne.symm ht)]
    exact h

/-- In every run of the process every listener reads as `read_command_line` does. -/
theorem run_reading (h : Reachable W s) (n : ℕ) : Command.Reading (s.pcs (.listener n)) :=
  h.invariant (I := fun s => Command.Reading (s.pcs (.listener n))) ⟨[],begun_nil⟩ fun _ _ _ _ => step_reading

end RadioSim.Process
