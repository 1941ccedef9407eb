import Mathlib.Data.List.Basic

/-! # Terminated lines

The lines of a text are the pieces that a terminator ends; what follows the last
terminator is not a line yet.
-/
namespace RadioSim
variable {α : Type*}

def joinLines (terminator : α) (lines : List (List α)) : List α := lines.flatMap fun line => line ++ [terminator]

@[simp] theorem joinLines_nil (terminator : α) : joinLines terminator [] = [] := rfl

theorem joinLines_cons (terminator : α) (line : List α) (lines : List (List α)) (rest : List α) :
    joinLines terminator (line :: lines) ++ rest = line ++ terminator :: (joinLines terminator lines ++ rest) := by
  simp [joinLines]

theorem joinLines_concat (terminator : α) (lines : List (List α)) (line : List α) :
    joinLines terminator (lines ++ [line]) = joinLines terminator lines ++ (line ++ [terminator]) := by
  simp [joinLines]

variable [BEq α] [LawfulBEq α]

def terminatedLines (terminator : α) (text : List α) : List (List α) := (text.splitOn terminator).dropLast

theorem terminatedLines_append {terminator : α} {line : List α} (h : terminator ∉ line) (rest : List α) :
    terminatedLines terminator (line ++ terminator :: rest) = line :: terminatedLines terminator rest := by
  unfold terminatedLines
  rw [List.splitOn_append_cons_self_of_not_mem h, List.dropLast_cons_of_ne_nil (List.splitOn_ne_nil _ _)]

theorem terminatedLines_of_notMem {terminator : α} {text : List α} (h : terminator ∉ text) :
    terminatedLines terminator text = [] := by
  unfold terminatedLines
  rw [List.splitOn_eq_singleton h]
  rfl

theorem terminatedLines_joinLines {terminator : α} {lines : List (List α)} (h : ∀ line ∈ lines, terminator ∉ line)
    (rest : List α) :
    terminatedLines terminator (joinLines terminator lines ++ rest) = lines ++ terminatedLines terminator rest := by
  induction lines with
  | nil => rfl
  | cons line lines ih =>
    rw [joinLines_cons, terminatedLines_append (h line List.mem_cons_self),
      ih fun l hl => h l (List.mem_cons_of_mem line hl), List.cons_append]

/-- Every line has its terminator. -/
theorem count_joinLines {terminator : α} {lines : List (List α)} (h : ∀ line ∈ lines, terminator ∉ line) :
    (joinLines terminator lines).count terminator = lines.length := by
  induction lines with
  | nil => rfl
  | cons line lines ih =>
    have hline : line.count terminator = 0 := List.count_eq_zero.mpr (h line List.mem_cons_self)
    have hlines := ih fun l hl => h l (List.mem_cons_of_mem line hl)
    rw [← List.append_nil (joinLines terminator (line :: lines)), joinLines_cons, List.append_nil, List.count_append,
      List.count_cons_self, hline, hlines, List.length_cons, Nat.zero_add]

/-- Lines at the beginning of a text of lines are its first lines, and lines follow them. -/
theorem joinLines_split {terminator : α} {got lines : List (List α)} {rest : List α}
    (hgot : ∀ line ∈ got, terminator ∉ line) (hlines : ∀ line ∈ lines, terminator ∉ line)
    (h : joinLines terminator got ++ rest = joinLines terminator lines) :
    ∃ more, lines = got ++ more ∧ rest = joinLines terminator more := by
  have hsplit : lines = got ++ terminatedLines terminator rest := by
    have hterminated := congrArg (terminatedLines terminator) h
    rw [terminatedLines_joinLines hgot, ← List.append_nil (joinLines terminator lines),
      terminatedLines_joinLines hlines, terminatedLines_of_notMem List.not_mem_nil, List.append_nil] at hterminated
    exact hterminated.symm
  refine ⟨_,hsplit,?_⟩
  have hjoin : joinLines terminator lines =
      joinLines terminator got ++ joinLines terminator (terminatedLines terminator rest) := by
    rw [hsplit]
    exact List.flatMap_append
  exact List.append_cancel_left (h.trans hjoin)

omit [BEq α] [LawfulBEq α] in
/-- A part of a text of lines without a terminator is no longer than the line it begins. -/
theorem length_le_of_joinLines {terminator : α} {lines : List (List α)} {part rest : List α}
    (hpart : terminator ∉ part) (hne : part ≠ []) (h : part ++ rest = joinLines terminator lines) :
    ∃ line ∈ lines, part.length ≤ line.length := by
  cases lines with
  | nil => exact absurd (List.append_eq_nil_iff.mp h).1 hne
  | cons line lines =>
    refine ⟨line,List.mem_cons_self,?_⟩
    rw [← List.append_nil (joinLines terminator (line :: lines)), joinLines_cons] at h
    rcases List.append_eq_append_iff.mp h with ⟨more,hline,_⟩ | ⟨more,hpart',hrest⟩
    · rw [hline, List.length_append]
      omega
    · cases more with
      | nil =>
        simp [hpart']
      | cons b more =>
        obtain ⟨rfl,_⟩ := List.cons.inj hrest
        exact absurd (by simp [hpart']) hpart

end RadioSim
