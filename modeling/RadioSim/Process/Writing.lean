import RadioSim.Foundation.Loop
import RadioSim.Process.Handshake

/-! # Writing all of a buffer

`write_all`, which `transport.c` and `handshake.c` both have, against any sequence
of results of `write`; and the threads that write, turn by turn, as it does.
-/
namespace RadioSim.Process
open Queue

section Threads
variable {S R V P X : Type} {l : Loop S R V} {t : Tid} {table : P → Op P}

/-- A thread whose steps are the turns of a loop does what the loop does. `A` relates
where the loop stands to where the thread is; a loop that goes on has used all turns. -/
theorem runThread_follow (answer : X → R) (choices : X → List Choice) {A : Control S V → P × Shared → Prop}
    (hturn : ∀ s x c m, A (.again s) m → l.exit s = none → l.body s (answer x) = some c →
      ∃ m', runThread t table m (choices x) = some m' ∧ A c m')
    (hexit : ∀ s v m, A (.again s) m → l.exit s = some v →
      ∃ m', runThread t table m [.ok] = some m' ∧ A (.returned v s) m')
    {s : S} {turns : List X} {c : Control S V} {m : P × Shared} (hm : A (.again s) m)
    (h : l.follow s (turns.map answer) = some c) :
    ∃ used rest last m', turns = used ++ rest ∧ (last = [] ∨ last = [Choice.ok]) ∧
      ((∃ s', c = .again s') → rest = [] ∧ last = []) ∧
      runThread t table m (used.flatMap choices ++ last) = some m' ∧ A c m' := by
  -- the loop test comes before each turn, so the loop may end with turns left over
  induction turns generalizing s m with
  | nil =>
    cases hend : l.exit s with
    | some v =>
      rw [Loop.follow_exit hend] at h
      cases h
      obtain ⟨m',hrun,hm'⟩ := hexit s v m hm hend
      exact ⟨[],[],[.ok],m',rfl,Or.inr rfl,by rintro ⟨_,⟨⟩⟩,hrun,hm'⟩
    | none =>
      rw [List.map_nil, Loop.follow, Loop.enter_of_none hend] at h
      cases h
      exact ⟨[],[],[],m,rfl,Or.inl rfl,fun _ => ⟨rfl,rfl⟩,rfl,hm⟩
  | cons x rest ih =>
    rw [List.map_cons] at h
    cases hend : l.exit s with
    | some v =>
      rw [Loop.follow_exit hend] at h
      cases h
      obtain ⟨m',hrun,hm'⟩ := hexit s v m hm hend
      exact ⟨[],x :: rest,[.ok],m',rfl,Or.inr rfl,by rintro ⟨_,⟨⟩⟩,hrun,hm'⟩
    | none =>
      cases hbody : l.body s (answer x) with
      | none =>
        rw [Loop.follow_stop hend (by simp [hbody]), hbody] at h
        cases h
      | some turn =>
        obtain ⟨m₁,hrun₁,hm₁⟩ := hturn s x turn m hm hend hbody
        cases turn with
        | again s' =>
          rw [Loop.follow_again hend hbody] at h
          obtain ⟨used,rest',last,m',rfl,hlast,hall,hrun,hm'⟩ := ih hm₁ h
          refine ⟨x :: used,rest',last,m',rfl,hlast,hall,?_,hm'⟩
          rw [List.flatMap_cons, List.append_assoc, runThread_append hrun₁, hrun]
        | returned v s' =>
          rw [Loop.follow_stop hend (by simp [hbody]), hbody] at h
          cases h
          refine ⟨[x],rest,[],m₁,rfl,Or.inl rfl,by rintro ⟨_,⟨⟩⟩,?_,hm₁⟩
          rw [List.flatMap_singleton, List.append_nil, hrun₁]

/-- A loop that goes on takes the thread through all of its turns. -/
theorem runThread_again (answer : X → R) (choices : X → List Choice) {A : Control S V → P × Shared → Prop}
    (hturn : ∀ s x c m, A (.again s) m → l.exit s = none → l.body s (answer x) = some c →
      ∃ m', runThread t table m (choices x) = some m' ∧ A c m')
    (hexit : ∀ s v m, A (.again s) m → l.exit s = some v →
      ∃ m', runThread t table m [.ok] = some m' ∧ A (.returned v s) m')
    {s s' : S} {turns : List X} {m : P × Shared} (hm : A (.again s) m)
    (h : l.follow s (turns.map answer) = some (.again s')) :
    ∃ m', runThread t table m (turns.flatMap choices) = some m' ∧ A (.again s') m' := by
  obtain ⟨used,rest,last,m',rfl,_,hall,hrun,hm'⟩ := runThread_follow answer choices hturn hexit hm h
  obtain ⟨rfl,rfl⟩ := hall ⟨s',rfl⟩
  rw [List.append_nil] at hrun ⊢
  exact ⟨m',hrun,hm'⟩

end Threads

/-- A character array; its length is a `size_t`. -/
structure Buffer where
  bytes : Bytes
  length_lt : bytes.length < sizeRange

/-- The local variable of `write_all`, and the bytes that its calls have put on the wire. -/
structure Sent where
  written : ℕ
  wire : Bytes

def Sent.start : Sent := ⟨0,[]⟩

/-- `write_all` of `transport.c`. There is no `write` that takes more than it is given. -/
def Transport.writeAllLoop (buf : Buffer) : Loop Sent WriteResult Bool where
  exit s := if s.written < buf.bytes.length then none else some true
  body s
    | .wrote n =>
      if n ≤ sizeSub buf.bytes.length s.written then
        if n = 0 then some (.returned false s)
        else some (.again ⟨sizeAdd s.written n,s.wire ++ (buf.bytes.drop s.written).take n⟩)
      else none
    | .eintr => some (.again s)
    | .error => some (.returned false s)

def Handshake.writeAllLoop (buf : Buffer) : Loop Sent WriteResult Bool where
  exit s := if s.written < buf.bytes.length then none else some true
  body s
    | .wrote n =>
      if n ≤ sizeSub buf.bytes.length s.written then
        if n = 0 then some (.returned false s)
        else some (.again ⟨sizeAdd s.written n,s.wire ++ (buf.bytes.drop s.written).take n⟩)
      else none
    | .eintr => some (.again s)
    | .error => some (.returned false s)

/-- The results on which `write_all` gives up. -/
def WriteResult.fails : WriteResult → Bool
  | .wrote n => n = 0
  | .eintr => false
  | .error => true

section Turns
open Transport
variable {buf : Buffer} {s s' : Sent} {r : WriteResult}

def Sent.Of (s : Sent) (buf : Buffer) : Prop := s.written ≤ buf.bytes.length ∧ s.wire = buf.bytes.take s.written

theorem Sent.start_of (buf : Buffer) : Sent.start.Of buf := ⟨Nat.zero_le _,rfl⟩

theorem Sent.Of.wire_part (h : s.Of buf) : s.wire <+: buf.bytes := h.2 ▸ List.take_prefix _ _

theorem writeAllLoop_exit_none : (writeAllLoop buf).exit s = none ↔ s.written < buf.bytes.length := by
  simp [writeAllLoop]

theorem writeAllLoop_exit_some (h : ¬ s.written < buf.bytes.length) : (writeAllLoop buf).exit s = some true := by
  simp [writeAllLoop, h]

theorem requested_eq (h : s.written < buf.bytes.length) :
    sizeSub buf.bytes.length s.written = buf.bytes.length - s.written :=
  sizeSub_of_le buf.length_lt h.le

/-- A turn that goes on was interrupted, or `n` more bytes are on the wire. -/
theorem writeAllLoop_again (hlt : s.written < buf.bytes.length) (h : (writeAllLoop buf).body s r = some (.again s')) :
    (r = .eintr ∧ s' = s) ∨
    ∃ n, r = .wrote n ∧ 0 < n ∧ s.written + n ≤ buf.bytes.length ∧
      s' = ⟨s.written + n,s.wire ++ (buf.bytes.drop s.written).take n⟩ := by
  cases r with
  | wrote n =>
    simp only [writeAllLoop, requested_eq hlt] at h
    split at h
    · rename_i hle
      split at h
      · cases h
      · rename_i hpos
        have hsum : s.written + n ≤ buf.bytes.length := by omega
        have hadd : sizeAdd s.written n = s.written + n := sizeAdd_of_lt (hsum.trans_lt buf.length_lt)
        rw [hadd] at h
        exact Or.inr ⟨n,rfl,Nat.pos_of_ne_zero hpos,hsum,(Control.again.inj (Option.some.inj h)).symm⟩
    · cases h
  | eintr => exact Or.inl ⟨rfl,(Control.again.inj (Option.some.inj h)).symm⟩
  | error => cases h

/-- Every turn continues where the one before stopped. -/
theorem step_sent (hs : s.Of buf) (hexit : (writeAllLoop buf).exit s = none)
    (h : (writeAllLoop buf).body s r = some (.again s')) : s'.Of buf := by
  rcases writeAllLoop_again (writeAllLoop_exit_none.mp hexit) h with ⟨_,rfl⟩ | ⟨n,_,_,hle,rfl⟩
  · exact hs
  · refine ⟨hle,?_⟩
    rw [hs.2, List.take_add]

theorem writeAllLoop_fails (hr : r.fails = true) : (writeAllLoop buf).body s r = some (.returned false s) := by
  cases r with
  | wrote n =>
    have hzero : n = 0 := by simpa [WriteResult.fails] using hr
    subst hzero
    simp [writeAllLoop]
  | eintr => cases hr
  | error => rfl

theorem writeAllLoop_returned {ok : Bool} (h : (writeAllLoop buf).body s r = some (.returned ok s')) :
    r.fails = true ∧ ok = false ∧ s' = s := by
  cases r with
  | wrote n =>
    simp only [writeAllLoop] at h
    split at h
    · split at h
      · rename_i hzero
        cases h
        exact ⟨by simp [WriteResult.fails, hzero],rfl,rfl⟩
      · cases h
    · cases h
  | eintr => cases h
  | error =>
    cases h
    exact ⟨rfl,rfl,rfl⟩

theorem writeAllLoop_none (hlt : s.written < buf.bytes.length) :
    (writeAllLoop buf).body s r = none ↔ ∃ n, r = .wrote n ∧ buf.bytes.length - s.written < n := by
  cases r with
  | wrote n =>
    simp only [writeAllLoop, requested_eq hlt, WriteResult.wrote.injEq, exists_eq_left']
    split
    · rename_i hle
      split <;> simp [hle]
    · rename_i hle
      simpa using hle
  | eintr => simp [writeAllLoop]
  | error => simp [writeAllLoop]

end Turns

section Runs
open Transport Loop
variable {buf : Buffer} {results : List WriteResult} {c : Control Sent Bool}

/-- Where the sequence of results leaves `write_all`. -/
theorem follow_sent (buf : Buffer) (results : List WriteResult) :
    (∃ s : Sent, s.Of buf ∧ (writeAllLoop buf).follow .start results = some ((writeAllLoop buf).enter s)) ∨
    ∃ pre r post s, results = pre ++ r :: post ∧ s.Of buf ∧ s.written < buf.bytes.length ∧
      (writeAllLoop buf).follow .start pre = some (.again s) ∧
      ((r.fails = true ∧ (writeAllLoop buf).follow .start results = some (.returned false s)) ∨
        ∃ n, r = .wrote n ∧ buf.bytes.length - s.written < n ∧ (writeAllLoop buf).follow .start results = none) := by
  rcases follow_cases (l := writeAllLoop buf) (I := fun s => s.Of buf) (Sent.start_of buf)
      (fun _ _ _ => step_sent) results with
    hends | ⟨pre,r,post,s,hsplit,hs,hexit,hpre,hfollow,hstop⟩
  · exact Or.inl hends
  · have hlt := writeAllLoop_exit_none.mp hexit
    refine Or.inr ⟨pre,r,post,s,hsplit,hs,hlt,hpre,?_⟩
    rw [hfollow]
    cases hbody : (writeAllLoop buf).body s r with
    | none =>
      obtain ⟨n,hr,hn⟩ := (writeAllLoop_none hlt).mp hbody
      exact Or.inr ⟨n,hr,hn,rfl⟩
    | some c =>
      cases c with
      | again s' => exact absurd hbody (hstop s')
      | returned ok s' =>
        obtain ⟨hr,rfl,rfl⟩ := writeAllLoop_returned hbody
        exact Or.inl ⟨hr,rfl⟩

/-- The wire holds everything exactly when the loop test has ended the loop. -/
theorem wire_eq_iff {s : Sent} (hs : s.Of buf) : s.wire = buf.bytes ↔ ¬ s.written < buf.bytes.length := by
  rw [hs.2, List.take_eq_self_iff, Nat.not_lt]

theorem follow_fails {pre post : List WriteResult} {r : WriteResult} {s : Sent}
    (hpre : (writeAllLoop buf).follow .start pre = some (.again s)) (hr : r.fails = true) :
    (writeAllLoop buf).follow .start (pre ++ r :: post) = some (.returned false s) := by
  rw [follow_append hpre, follow_stop (exit_of_again hpre) (by simp [writeAllLoop_fails hr]), writeAllLoop_fails hr]

theorem follow_none_iff (results : List WriteResult) :
    (writeAllLoop buf).follow .start results = none ↔
      ∃ pre n post s, results = pre ++ .wrote n :: post ∧
        (writeAllLoop buf).follow .start pre = some (.again s) ∧ buf.bytes.length - s.written < n := by
  constructor
  · intro hnone
    rcases follow_sent buf results with ⟨s,_,h⟩ | ⟨pre,r,post,s,hsplit,_,_,hpre,⟨_,h⟩ | ⟨n,rfl,hn,_⟩⟩
    · rw [hnone] at h
      cases h
    · rw [hnone] at h
      cases h
    · exact ⟨pre,n,post,s,hsplit,hpre,hn⟩
  · rintro ⟨pre,n,post,s,rfl,hpre,hn⟩
    have hlt := writeAllLoop_exit_none.mp (exit_of_again hpre)
    have hbody := (writeAllLoop_none (r := .wrote n) hlt).mpr ⟨n,rfl,hn⟩
    rw [follow_append hpre, follow_stop (exit_of_again hpre) (by simp [hbody]), hbody]

theorem follow_wire (hc : (writeAllLoop buf).follow .start results = some c) :
    c.state.wire <+: buf.bytes ∧ ((∃ s, c = .returned true s) ↔ c.state.wire = buf.bytes) ∧
      ((∃ s, c = .returned false s) ↔ ∃ pre r post s, results = pre ++ r :: post ∧
        (writeAllLoop buf).follow .start pre = some (.again s) ∧ r.fails = true) := by
  have hgivesUp : (∃ pre r post s, results = pre ++ r :: post ∧
      (writeAllLoop buf).follow .start pre = some (.again s) ∧ r.fails = true) → ∃ s, c = .returned false s := by
    rintro ⟨pre,r,post,s,rfl,hpre,hr⟩
    rw [follow_fails hpre hr] at hc
    exact ⟨s,(Option.some.inj hc).symm⟩
  rcases follow_sent buf results with ⟨s,hs,h⟩ | ⟨pre,r,post,s,hsplit,hs,hlt,hpre,⟨hr,h⟩ | ⟨n,_,_,h⟩⟩
  · rw [hc] at h
    by_cases hlt : s.written < buf.bytes.length
    · rw [enter_of_none (writeAllLoop_exit_none.mpr hlt)] at h
      cases h
      refine ⟨hs.wire_part,⟨fun ⟨_,hm⟩ => (by cases hm),fun hall => ?_⟩,fun ⟨_,hm⟩ => (by cases hm),hgivesUp⟩
      exact absurd hlt ((wire_eq_iff hs).mp hall)
    · rw [enter_of_some (writeAllLoop_exit_some hlt)] at h
      cases h
      exact ⟨hs.wire_part,⟨fun _ => (wire_eq_iff hs).mpr hlt,fun _ => ⟨s,rfl⟩⟩,fun ⟨_,hm⟩ => (by cases hm),hgivesUp⟩
  · rw [hc] at h
    cases h
    refine ⟨hs.wire_part,⟨fun ⟨_,hm⟩ => (by cases hm),fun hall => ?_⟩,fun _ => ⟨pre,r,post,s,hsplit,hpre,hr⟩,hgivesUp⟩
    exact absurd hlt ((wire_eq_iff hs).mp hall)
  · rw [hc] at h
    cases h

/-- Every result but an interruption brings `write_all` nearer to its end. -/
theorem follow_returns (results : Stream' WriteResult)
    (hdefined : ∀ n, (writeAllLoop buf).follow .start (results.take n) ≠ none)
    (hoften : ∀ n, ∃ k, n ≤ k ∧ results.get k ≠ .eintr) :
    ∃ n ok s, (writeAllLoop buf).follow .start (results.take n) = some (.returned ok s) := by
  refine returns (fun s => buf.bytes.length - s.written) (fun r => r = .eintr) ?_ ?_ results hdefined hoften
  · intro s r s' hexit hr hbody
    rcases writeAllLoop_again (writeAllLoop_exit_none.mp hexit) hbody with ⟨_,rfl⟩ | ⟨n,rfl,_⟩
    · exact le_rfl
    · cases hr
  · intro s r s' hexit hr hbody
    rcases writeAllLoop_again (writeAllLoop_exit_none.mp hexit) hbody with ⟨rfl,_⟩ | ⟨n,_,hpos,hle,rfl⟩
    · exact absurd rfl hr
    · dsimp only
      omega

/-- `write_all` is exact: what it has put on the wire is always a first part of the
buffer, it returns true exactly when that is all of it, and false exactly on a result
of 0 or an error; it returns unless it is interrupted for ever. Both copies are the
same function. -/
theorem writeAll_exact (buf : Buffer) :
    (∀ results, (writeAllLoop buf).follow .start results = none ↔
      ∃ pre n post s, results = pre ++ .wrote n :: post ∧
        (writeAllLoop buf).follow .start pre = some (.again s) ∧ buf.bytes.length - s.written < n) ∧
    (∀ results c, (writeAllLoop buf).follow .start results = some c →
      c.state.wire <+: buf.bytes ∧ ((∃ s, c = .returned true s) ↔ c.state.wire = buf.bytes) ∧
      ((∃ s, c = .returned false s) ↔ ∃ pre r post s, results = pre ++ r :: post ∧
        (writeAllLoop buf).follow .start pre = some (.again s) ∧ r.fails = true)) ∧
    (∀ results : Stream' WriteResult, (∀ n, (writeAllLoop buf).follow .start (results.take n) ≠ none) →
      (∀ n, ∃ k, n ≤ k ∧ results.get k ≠ .eintr) →
      ∃ n ok s, (writeAllLoop buf).follow .start (results.take n) = some (.returned ok s)) ∧
    Handshake.writeAllLoop buf = writeAllLoop buf :=
  ⟨follow_none_iff,fun _ _ => follow_wire,follow_returns,rfl⟩

end Runs

section Threads
open Transport Loop
variable {P : Type} {t : Tid} {sh : Shared} {n : ℕ} {table : P → Op P} {again : Bytes → P} {written failed : P}
  {buf : Buffer} {s : Sent} {out : Bytes}

def place (buf : Buffer) (again : Bytes → P) (written failed : P) : Control Sent Bool → P
  | .again s => again (buf.bytes.drop s.written)
  | .returned ok _ => if ok then written else failed

def Shared.sent (sh : Shared) (n : ℕ) (bytes : Bytes) : Shared :=
  sh.setConn n { sh.conns n with output := bytes }

theorem sent_self (h : (sh.conns n).output = out) : sh.sent n out = sh := by
  subst h
  exact congrArg (fun conns => { sh with conns }) (Function.update_eq_self n sh.conns)

theorem sent_sent (sh : Shared) (n : ℕ) (first second : Bytes) :
    (sh.sent n first).sent n second = sh.sent n second := by
  simp [Shared.sent, Shared.setConn]

theorem sent_output (sh : Shared) (n : ℕ) (bytes : Bytes) : ((sh.sent n bytes).conns n).output = bytes := by
  simp [Shared.sent, Shared.setConn]

/-- A thread at its `write_all` takes the turns of the loop. -/
theorem exec_writeAll (hlt : s.written < buf.bytes.length) (hout : (sh.conns n).output = out ++ s.wire)
    (r : WriteResult) :
    exec t (.write r) sh (writeAll n (buf.bytes.drop s.written) again written failed) =
      ((writeAllLoop buf).body s r).map fun c => (place buf again written failed c,sh.sent n (out ++ c.state.wire)) := by
  have hrest : buf.bytes.drop s.written ≠ [] := by simpa using hlt
  rw [writeAll, if_neg hrest]
  cases r with
  | wrote m =>
    simp only [exec, writeAllLoop, requested_eq hlt, List.length_drop]
    split
    · rename_i hle
      by_cases hm : m = 0
      · subst hm
        simp [place, Control.state, ← hout, Shared.sent]
      · have hadd : sizeAdd s.written m = s.written + m :=
          sizeAdd_of_lt (Nat.lt_of_le_of_lt (by omega) buf.length_lt)
        simp only [if_neg hm, Option.map_some, place, Control.state, hadd, List.drop_drop, hout, List.append_assoc]
        rfl
    · rfl
  | eintr => simp [exec, writeAllLoop, place, Control.state, sent_self hout]
  | error => simp [exec, writeAllLoop, place, Control.state, sent_self hout]

/-- What `write_all` does on a sequence of results, a thread does that calls it. -/
theorem runThread_writeAllLoop (htable : ∀ rest, table (again rest) = writeAll n rest again written failed)
    (hout : (sh.conns n).output = out ++ s.wire) {results : List WriteResult} {c : Control Sent Bool}
    (h : (writeAllLoop buf).follow s results = some c) :
    ∃ used rest last, results = used ++ rest ∧ (last = [] ∨ last = [Choice.ok]) ∧
      runThread t table (again (buf.bytes.drop s.written),sh) (used.flatMap (fun r => [.write r]) ++ last) =
        some (place buf again written failed c,sh.sent n (out ++ c.state.wire)) := by
  let reached (c : Control Sent Bool) : P × Shared := (place buf again written failed c,sh.sent n (out ++ c.state.wire))
  have hturn : ∀ s r c m, m = reached (.again s) → (writeAllLoop buf).exit s = none →
      (writeAllLoop buf).body s r = some c → ∃ m', runThread t table m [.write r] = some m' ∧ m' = reached c := by
    rintro s r c _ rfl hexit hbody
    have hexec : exec t (.write r) (sh.sent n (out ++ s.wire)) (table (again (buf.bytes.drop s.written))) =
        some (place buf again written failed c,(sh.sent n (out ++ s.wire)).sent n (out ++ c.state.wire)) := by
      rw [htable, exec_writeAll (writeAllLoop_exit_none.mp hexit) (sent_output sh n _) r, hbody, Option.map_some]
    rw [sent_sent] at hexec
    exact ⟨reached c,by simp only [runThread, reached, Control.state, place, hexec, Option.bind_some],rfl⟩
  have hexit : ∀ s ok m, m = reached (.again s) → (writeAllLoop buf).exit s = some ok →
      ∃ m', runThread t table m [.ok] = some m' ∧ m' = reached (.returned ok s) := by
    rintro s ok _ rfl hend
    have hlt : ¬ s.written < buf.bytes.length := fun hlt => by
      rw [writeAllLoop_exit_none.mpr hlt] at hend
      cases hend
    rw [writeAllLoop_exit_some hlt] at hend
    cases hend
    have hrest : buf.bytes.drop s.written = [] := by simpa using hlt
    refine ⟨reached (.returned true s),?_,rfl⟩
    simp only [runThread, reached, place, hrest, htable, writeAll, ↓reduceIte, exec, Option.bind_some]
    rfl
  have hstart : (again (buf.bytes.drop s.written),sh) = reached (.again s) := by
    simp only [reached, place, Control.state, sent_self hout]
  obtain ⟨used,rest,last,m,hsplit,hlast,_,hrun,rfl⟩ :=
    runThread_follow (A := fun c m => m = reached c) id _ hturn hexit hstart (by rwa [List.map_id])
  exact ⟨used,rest,last,hsplit,hlast,hrun⟩

end Threads

end RadioSim.Process
