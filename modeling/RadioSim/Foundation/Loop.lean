import Mathlib.Data.Stream.Init

/-! # Loops around a call

A loop whose body makes one call and goes on with what the call answers. Before
each turn the test of the loop may end it. The answers are followed as far as they
go, and those after a return are not used. A turn has no result when its answer
cannot be given, or when an access would be outside of its object.
-/
namespace RadioSim

/-- Where a loop stands: it needs the answer of another call, or it has returned. -/
inductive Control (S V : Type*)
  | again (s : S)
  | returned (v : V) (s : S)
  deriving DecidableEq

def Control.state {S V : Type*} : Control S V → S
  | .again s => s
  | .returned _ s => s

def Control.stop {S V : Type*} (v : V) : Control S V → Control S V
  | .again s => .returned v s
  | .returned w s => .returned w s

structure Loop (S R V : Type*) where
  /-- What the function returns when the test fails. -/
  exit : S → Option V
  body : S → R → Option (Control S V)

namespace Loop
variable {S R V : Type*} (l : Loop S R V)

def enter (s : S) : Control S V :=
  match l.exit s with
  | none => .again s
  | some v => .returned v s

def follow : S → List R → Option (Control S V)
  | s, [] => some (l.enter s)
  | s, r :: rest =>
    match l.exit s with
    | some v => some (.returned v s)
    | none => (l.body s r).bind fun
      | .again s' => follow s' rest
      | .returned v s' => some (.returned v s')

attribute [local simp] enter follow

variable {l} {s m m' : S} {r : R} {v : V} {rest answers post : List R}

theorem enter_of_none (h : l.exit s = none) : l.enter s = .again s := by
  simp only [enter, h]

theorem enter_of_some (h : l.exit s = some v) : l.enter s = .returned v s := by
  simp only [enter, h]

theorem enter_again (h : l.enter s = .again m) : m = s ∧ l.exit s = none := by
  cases hexit : l.exit s with
  | none =>
    rw [enter_of_none hexit] at h
    exact ⟨(Control.again.inj h).symm,rfl⟩
  | some v =>
    rw [enter_of_some hexit] at h
    cases h

@[simp] theorem enter_state (s : S) : (l.enter s).state = s := by
  cases hexit : l.exit s with
  | none =>
    rw [enter_of_none hexit]
    rfl
  | some v =>
    rw [enter_of_some hexit]
    rfl

theorem follow_exit (h : l.exit s = some v) (answers : List R) : l.follow s answers = some (.returned v s) := by
  cases answers with
  | nil => rw [follow, enter_of_some h]
  | cons r rest => simp only [follow, h]

theorem follow_again (hexit : l.exit s = none) (h : l.body s r = some (.again m)) :
    l.follow s (r :: rest) = l.follow m rest := by
  simp only [follow, hexit, h, Option.bind_some]

/-- A turn that does not lead to another one ends the loop. -/
theorem follow_stop (hexit : l.exit s = none) (h : ∀ m, l.body s r ≠ some (.again m)) :
    l.follow s (r :: rest) = l.body s r := by
  simp only [follow, hexit]
  cases hbody : l.body s r with
  | none => rfl
  | some c =>
    cases c with
    | again m => exact absurd hbody (h m)
    | returned v m => rfl

variable (l) in
/-- More answers for a loop that may have returned: what follows a return is not used. -/
def resume (post : List R) : Control S V → Option (Control S V)
  | .again m => l.follow m post
  | .returned v m => some (.returned v m)

theorem follow_append_resume (s : S) (answers post : List R) :
    l.follow s (answers ++ post) = (l.follow s answers).bind (l.resume post) := by
  induction answers generalizing s with
  | nil =>
    cases hexit : l.exit s with
    | some v => rw [follow_exit hexit, follow_exit hexit, Option.bind_some, resume]
    | none => rw [follow, enter_of_none hexit, Option.bind_some, resume, List.nil_append]
  | cons r rest ih =>
    cases hexit : l.exit s with
    | some v => rw [follow_exit hexit, follow_exit hexit, Option.bind_some, resume]
    | none =>
      by_cases hbody : ∃ m, l.body s r = some (.again m)
      · obtain ⟨m,hbody⟩ := hbody
        rw [List.cons_append, follow_again hexit hbody, follow_again hexit hbody, ih]
      · have hstop : ∀ m, l.body s r ≠ some (.again m) := fun m hm => hbody ⟨m,hm⟩
        rw [List.cons_append, follow_stop hexit hstop, follow_stop hexit hstop]
        cases hturn : l.body s r with
        | none => rfl
        | some c =>
          cases c with
          | again m => exact absurd hturn (hstop m)
          | returned v m => rfl

theorem resume_append (c : Control S V) (answers post : List R) :
    l.resume (answers ++ post) c = (l.resume answers c).bind (l.resume post) := by
  cases c with
  | again m => exact follow_append_resume m answers post
  | returned v m => rfl

theorem follow_append (h : l.follow s answers = some (.again m)) (post : List R) :
    l.follow s (answers ++ post) = l.follow m post := by
  rw [follow_append_resume, h, Option.bind_some, resume]

theorem follow_append_returned (h : l.follow s answers = some (.returned v m)) (post : List R) :
    l.follow s (answers ++ post) = some (.returned v m) := by
  rw [follow_append_resume, h, Option.bind_some, resume]

/-- However far the answers go, the loop stands at its test, or one of its turns has
ended it; what every other turn keeps holds there. -/
theorem follow_cases {I : S → Prop} (hs : I s)
    (hbody : ∀ m r m', I m → l.exit m = none → l.body m r = some (.again m') → I m') (answers : List R) :
    (∃ m, I m ∧ l.follow s answers = some (l.enter m)) ∨
    ∃ pre r post m, answers = pre ++ r :: post ∧ I m ∧ l.exit m = none ∧ l.follow s pre = some (.again m) ∧
      l.follow s answers = l.body m r ∧ ∀ m', l.body m r ≠ some (.again m') := by
  induction answers generalizing s with
  | nil => exact Or.inl ⟨s,hs,rfl⟩
  | cons r rest ih =>
    cases hexit : l.exit s with
    | some v => exact Or.inl ⟨s,hs,by rw [follow_exit hexit, enter_of_some hexit]⟩
    | none =>
      by_cases hturn : ∃ m', l.body s r = some (.again m')
      · obtain ⟨m',hturn⟩ := hturn
        rw [follow_again hexit hturn]
        rcases ih (hbody s r m' hs hexit hturn) with hends | ⟨pre,r',post,m,hsplit,hm,hnone,hpre,hrest⟩
        · exact Or.inl hends
        · refine Or.inr ⟨r :: pre,r',post,m,by rw [hsplit, List.cons_append],hm,hnone,?_,hrest⟩
          rw [follow_again hexit hturn, hpre]
      · have hstop : ∀ m, l.body s r ≠ some (.again m) := fun m hm => hturn ⟨m,hm⟩
        refine Or.inr ⟨[],r,rest,s,rfl,hs,hexit,?_,follow_stop hexit hstop,hstop⟩
        rw [follow, enter_of_none hexit]

theorem exit_of_again (h : l.follow s answers = some (.again m)) : l.exit m = none := by
  rcases follow_cases (I := fun _ => True) trivial (fun _ _ _ _ _ _ => trivial) answers with
    ⟨m',_,hm⟩ | ⟨_,_,_,_,_,_,_,_,hm,hstop⟩
  · obtain ⟨rfl,hexit⟩ := enter_again (Option.some.inj (hm.symm.trans h))
    exact hexit
  · exact absurd (hm.symm.trans h) (hstop m)

/-- An answer on which every turn returns. -/
theorem follow_last (hr : ∀ m, l.body m r = some (.returned v m)) (s : S) (answers post : List R) :
    l.follow s (answers ++ r :: post) = (l.follow s answers).map (.stop v) := by
  cases h : l.follow s answers with
  | none => rw [follow_append_resume, h, Option.bind_none, Option.map_none]
  | some c =>
    cases c with
    | again m =>
      rw [follow_append h, follow_stop (exit_of_again h) (by simp [hr]), hr]
      rfl
    | returned w m =>
      rw [follow_append_returned h]
      rfl

/-- A loop whose turns all have a result has one for all answers. -/
theorem follow_ne_none {I : S → Prop} (hs : I s)
    (hbody : ∀ m r m', I m → l.exit m = none → l.body m r = some (.again m') → I m')
    (hdefined : ∀ m, ∀ r ∈ answers, I m → l.exit m = none → l.body m r ≠ none) : l.follow s answers ≠ none := by
  rcases follow_cases hs hbody answers with ⟨m,_,h⟩ | ⟨pre,r,post,m,hsplit,hm,hexit,_,h,_⟩
  · rw [h]
    exact Option.some_ne_none _
  · rw [h]
    exact hdefined m r (by simp [hsplit]) hm hexit

/-- Answers on which a loop only tries again can be left out, and the others can be
read through what they tell. -/
theorem follow_filterMap {B : Type*} {core : Loop S B V} (told : R → Option B) (hexit : ∀ m, l.exit m = core.exit m)
    (hidle : ∀ m, ∀ r ∈ answers, told r = none → l.body m r = some (.again m))
    (htold : ∀ m, ∀ r ∈ answers, ∀ b, told r = some b → l.body m r = core.body m b) :
    l.follow s answers = core.follow s (answers.filterMap told) := by
  induction answers generalizing s with
  | nil => simp only [follow, List.filterMap_nil, enter, hexit]
  | cons r rest ih =>
    have hrest := fun s' => ih (s := s') (fun m q hq => hidle m q (List.mem_cons_of_mem r hq))
      (fun m q hq => htold m q (List.mem_cons_of_mem r hq))
    cases hend : l.exit s with
    | some v => rw [follow_exit hend, follow_exit ((hexit s).symm.trans hend)]
    | none =>
      have hend' := (hexit s).symm.trans hend
      cases hr : told r with
      | none => rw [follow_again hend (hidle s r List.mem_cons_self hr), hrest s, List.filterMap_cons_none hr]
      | some b =>
        have hsame := htold s r List.mem_cons_self b hr
        rw [List.filterMap_cons_some hr]
        simp only [follow, hend, hend', hsame]
        congr 1
        funext c
        cases c with
        | again s' => exact hrest s'
        | returned v s' => rfl

section Termination

/-- The first answer of a sequence without end. -/
theorem returns_or_again (answers : Stream' R) (hdefined : l.follow s (answers.take 1) ≠ none) :
    (∃ n v m, l.follow s (answers.take n) = some (.returned v m)) ∨
    ∃ m, l.exit s = none ∧ l.body s answers.head = some (.again m) ∧
      ∀ n, l.follow s (answers.take (n + 1)) = l.follow m (answers.tail.take n) := by
  cases hexit : l.exit s with
  | some v => exact Or.inl ⟨0,v,s,follow_exit hexit _⟩
  | none =>
    cases hbody : l.body s answers.head with
    | none =>
      rw [Stream'.take_succ, follow_stop hexit (by simp [hbody]), hbody] at hdefined
      exact absurd rfl hdefined
    | some c =>
      cases c with
      | again m => exact Or.inr ⟨m,rfl,rfl,fun n => by rw [Stream'.take_succ, follow_again hexit hbody]⟩
      | returned v m =>
        refine Or.inl ⟨1,v,m,?_⟩
        rw [Stream'.take_succ, follow_stop hexit (by simp [hbody]), hbody]

variable (μ : S → ℕ) (idle : R → Prop)

/-- One answer that is not idle brings the loop nearer to its end. -/
theorem returns_or_nearer (hidle : ∀ s r m, l.exit s = none → idle r → l.body s r = some (.again m) → μ m ≤ μ s)
    (hmove : ∀ s r m, l.exit s = none → ¬ idle r → l.body s r = some (.again m) → μ m < μ s)
    (answers : Stream' R) (hdefined : ∀ n, l.follow s (answers.take n) ≠ none) {k : ℕ} (hk : ¬ idle (answers.get k)) :
    (∃ n v m, l.follow s (answers.take n) = some (.returned v m)) ∨
    ∃ j m, μ m < μ s ∧ ∀ n, l.follow s (answers.take (n + j)) = l.follow m ((answers.drop j).take n) := by
  induction k generalizing s answers with
  | zero =>
    rcases returns_or_again answers (hdefined 1) with hret | ⟨m,hexit,hbody,hnext⟩
    · exact Or.inl hret
    · exact Or.inr ⟨1,m,hmove s _ m hexit hk hbody,hnext⟩
  | succ k ih =>
    rcases returns_or_again answers (hdefined 1) with hret | ⟨m,hexit,hbody,hnext⟩
    · exact Or.inl hret
    · by_cases hhead : idle answers.head
      · have hle := hidle s _ m hexit hhead hbody
        rcases ih answers.tail (fun n => hnext n ▸ hdefined (n + 1)) hk with ⟨n,v,m',hret⟩ | ⟨j,m',hless,hrest⟩
        · exact Or.inl ⟨n + 1,v,m',(hnext n).trans hret⟩
        · refine Or.inr ⟨j + 1,m',Nat.lt_of_lt_of_le hless hle,fun n => ?_⟩
          rw [← Nat.add_assoc, hnext, hrest, Stream'.drop_tail']
      · exact Or.inr ⟨1,m,hmove s _ m hexit hhead hbody,hnext⟩

/-- A loop returns when, again and again, an answer brings it nearer to its end. -/
theorem returns (hidle : ∀ s r m, l.exit s = none → idle r → l.body s r = some (.again m) → μ m ≤ μ s)
    (hmove : ∀ s r m, l.exit s = none → ¬ idle r → l.body s r = some (.again m) → μ m < μ s)
    (answers : Stream' R) (hdefined : ∀ n, l.follow s (answers.take n) ≠ none)
    (hoften : ∀ n, ∃ k, n ≤ k ∧ ¬ idle (answers.get k)) :
    ∃ n v m, l.follow s (answers.take n) = some (.returned v m) := by
  induction hd : μ s using Nat.strong_induction_on generalizing s answers with
  | _ d ih =>
    obtain ⟨k,_,hk⟩ := hoften 0
    rcases returns_or_nearer μ idle hidle hmove answers hdefined hk with hret | ⟨j,m,hless,hrest⟩
    · exact hret
    · have hoften' : ∀ n, ∃ k, n ≤ k ∧ ¬ idle ((answers.drop j).get k) := by
        intro n
        obtain ⟨k,hle,hk⟩ := hoften (n + j)
        refine ⟨k - j,Nat.le_sub_of_add_le hle,?_⟩
        rwa [Stream'.get_drop, Nat.add_sub_of_le (Nat.le_of_add_left_le hle)]
      obtain ⟨n,v,m',hret⟩ := ih (μ m) (hd ▸ hless) (answers.drop j) (fun n => hrest n ▸ hdefined (n + j)) hoften' rfl
      exact ⟨n + j,v,m',(hrest n).trans hret⟩

end Termination

end Loop
end RadioSim
