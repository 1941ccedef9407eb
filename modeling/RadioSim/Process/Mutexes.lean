import Mathlib.Data.List.Nodup
import RadioSim.Foundation.CString
import RadioSim.Foundation.Locking

/-! # The small mutexes

`next_sequence` of `worker_pool.c`, `radio_control.c` and `log.c`: three objects
with one mutex each and no condition variable, statement by statement, for any
number of threads.
-/
namespace RadioSim.Process
open Locking Waking
variable {T : Type*} [DecidableEq T]

namespace Sequence

/-- `next_seq++` reads the counter and stores its successor. -/
inductive Point
  | read
  | store (seq : UInt32)
  | unlock (seq : UInt32)

def routines : Routines Unit Empty UInt32 Point UInt32 where
  early _ := none
  entry _ := .read
  code
    | .read => .access fun nextSeq => (.store nextSeq,nextSeq)
    | .store seq => .access fun _ => (.unlock seq,seq + 1)
    | .unlock seq => .unlock seq

def counter (n : UInt32) (_ : Unit) : Option (UInt32 × UInt32) := some (n,n + 1)

def Reached (m : UInt32) : Point → UInt32 → Prop
  | .read, m' => m' = m
  | .store seq, m' => seq = m ∧ m' = m
  | .unlock seq, m' => seq = m ∧ m' = m + 1

theorem section_reached {m m' : UInt32} {ws : List (Wake Empty)} {p : Point}
    (h : Section routines .read m ws p m') : Reached m p m' := by
  refine h.invariant (J := fun _ p m' => Reached m p m') rfl ?_ (fun _ _ _ k => k.elim) (fun _ _ _ k => k.elim)
  intro ws p m' f hreached hcode
  cases p <;> cases hcode
  · exact ⟨hreached,hreached⟩
  · obtain ⟨rfl,rfl⟩ := hreached
    exact ⟨rfl,rfl⟩

theorem implements : Implements routines counter (fun _ => True) id (fun _ p => p = .read) where
  early _ _ _ h := by cases h
  entry _ _ := rfl
  answers := by
    rintro c p m ws q m' a rfl _ hsection hcode
    have hreached := section_reached hsection
    cases q <;> cases hcode
    obtain ⟨rfl,rfl⟩ := hreached
    exact ⟨trivial,rfl⟩
  waits _ _ _ _ _ _ k := k.elim

omit [DecidableEq T] in
theorem serves_range {trace : List (Event T Unit UInt32)} {n : UInt32} (h : Serves counter 1 trace n) :
    n = UInt32.ofNat ((commits trace).length + 1) ∧
    (commits trace).map (fun e => e.2.2) = (List.range (commits trace).length).map fun i => UInt32.ofNat (i + 1) := by
  refine h.invariant (J := fun l n => n = UInt32.ofNat (l.length + 1) ∧
    l.map (fun e => e.2.2) = (List.range l.length).map fun i => UInt32.ofNat (i + 1)) ⟨rfl,rfl⟩ ?_
  rintro l n n' t c a ⟨rfl,hl⟩ hspec
  cases hspec
  refine ⟨?_,?_⟩
  · simp [UInt32.ofNat_add]
  · simp [hl, List.range_succ]

/-- The draws of any number of threads are 1, 2, 3 and so on, in the order of their commits
and modulo `2 ^ 32`. Fewer than `2 ^ 32` draws are different numbers, and a call that has
returned before another one begins has the smaller number. -/
theorem nextSequence_consecutive {trace : List (Event T Unit UInt32)} {s : State T Unit Empty UInt32 Point UInt32}
    (h : Run (AnyStep routines) (.start 1) trace s) :
    (commits trace).map (fun e => e.2.2) = (List.range (commits trace).length).map (fun i => UInt32.ofNat (i + 1)) ∧
    ((commits trace).length < UInt32.size → ((commits trace).map fun e => e.2.2).Nodup ∧
      ∀ p q r w t u a b, trace = p ++ .respond t () a :: (q ++ .invoke u () :: (r ++ .respond u () b :: w)) → a < b) := by
  obtain ⟨a,hrun,_⟩ := run_lags h
  have hserved := run_served implements trivial hrun
  obtain ⟨_,hrange⟩ := serves_range hserved.serves
  have hvalue : ∀ i, i < UInt32.size → (UInt32.ofNat i).toNat = i := fun i hi => UInt32.toNat_ofNat_of_lt' hi
  refine ⟨hrange,fun hshort => ⟨?_,?_⟩⟩
  · rw [hrange]
    refine List.Nodup.map_on (fun i hi j hj hij => ?_) List.nodup_range
    have hi' := List.mem_range.mp hi
    have hj' := List.mem_range.mp hj
    have heq := congrArg UInt32.toNat hij
    rw [hvalue _ (by omega), hvalue _ (by omega)] at heq
    omega
  · intro p q r w t u a b htrace
    obtain ⟨l₁,l₂,l₃,hl⟩ := commits_real_time htrace fun v => ⟨_,hserved.alternates v⟩
    have hget : ∀ i e, (commits trace)[i]? = some e → e.2.2 = UInt32.ofNat (i + 1) ∧ i < (commits trace).length := by
      intro i e he
      have hi := (List.getElem?_eq_some_iff.mp he).1
      have hmap := congrArg (fun l => l[i]?) hrange
      simp only [List.getElem?_map, he, List.getElem?_range hi, Option.map_some, Option.some.injEq] at hmap
      exact ⟨hmap,hi⟩
    obtain ⟨ha,hi⟩ := hget l₁.length (t,(),a) (by simp [hl])
    obtain ⟨hb,hj⟩ := hget (l₁.length + l₂.length + 1) (u,(),b) (by
      rw [hl, List.getElem?_append_right (by omega)]
      simp [show l₁.length + l₂.length + 1 - l₁.length = l₂.length + 1 by omega])
    dsimp only at ha hb
    rw [ha, hb, UInt32.lt_iff_toNat_lt, hvalue _ (by omega), hvalue _ (by omega)]
    omega

/-- Two threads draw; the one that called last is served first. -/
theorem nextSequence_consecutive_two : ∃ trace s, Run (AnyStep (T := Bool) routines) (.start 1) trace s ∧
    commits trace = [(true,(),1),(false,(),2)] ∧ ((commits trace).map fun e => e.2.2).Nodup := by
  have h : Run (AnyStep (T := Bool) routines) (.start 1) [] _ := .refl
  replace h := h.tail ⟨false,.invoke (c := ()) rfl⟩
  replace h := h.tail ⟨true,.invoke (c := ()) rfl⟩
  replace h := h.tail ⟨true,.lock rfl rfl rfl⟩
  replace h := h.tail ⟨true,.access rfl rfl⟩
  replace h := h.tail ⟨true,.access rfl rfl⟩
  replace h := h.tail ⟨true,.unlock rfl rfl⟩
  replace h := h.tail ⟨false,.lock rfl rfl rfl⟩
  replace h := h.tail ⟨false,.access rfl rfl⟩
  replace h := h.tail ⟨false,.access rfl rfl⟩
  replace h := h.tail ⟨false,.unlock rfl rfl⟩
  replace h := h.tail ⟨true,.respond rfl⟩
  replace h := h.tail ⟨false,.respond rfl⟩
  exact ⟨_,_,h,rfl,((nextSequence_consecutive h).2 (by decide)).1⟩

end Sequence

namespace RadioControl

inductive Call
  | getIntervalMs
  | setIntervalMs (ms : UInt32)

inductive Point
  | load
  | store (ms : UInt32)
  | unlock (answer : Option UInt32)

def routines : Routines Call Empty UInt32 Point (Option UInt32) where
  -- an interval of 0 is refused before the lock
  early
    | .getIntervalMs => none
    | .setIntervalMs ms => if ms = 0 then some none else none
  entry
    | .getIntervalMs => .load
    | .setIntervalMs ms => .store ms
  code
    | .load => .access fun intervalMs => (.unlock (some intervalMs),intervalMs)
    | .store ms => .access fun _ => (.unlock none,ms)
    | .unlock answer => .unlock answer

def register (v : UInt32) : Call → Option (Option UInt32 × UInt32)
  | .getIntervalMs => some (some v,v)
  | .setIntervalMs ms => some (none,if ms = 0 then v else ms)

/-- `radio_control_create`: an interval of 0 stands for the default. -/
def initialIntervalMs (ms : UInt32) : UInt32 := if ms = 0 then 1000 else ms

def Starts (c : Call) (p : Point) : Prop := routines.early c = none ∧ p = routines.entry c

def Reached (c : Call) (m : UInt32) : Point → UInt32 → Prop
  | .load, m' => c = .getIntervalMs ∧ m' = m
  | .store ms, m' => c = .setIntervalMs ms ∧ ms ≠ 0 ∧ m' = m
  | .unlock answer, m' => register m c = some (answer,m')

theorem early_setIntervalMs {ms : UInt32} : routines.early (.setIntervalMs ms) = none ↔ ms ≠ 0 := by
  simp [routines]

theorem section_reached {c : Call} {m m' : UInt32} {ws : List (Wake Empty)} {p q : Point} (hstart : Starts c p)
    (h : Section routines p m ws q m') : Reached c m q m' := by
  obtain ⟨hlocks,rfl⟩ := hstart
  refine h.invariant (J := fun _ p m' => Reached c m p m') ?_ ?_ (fun _ _ _ k => k.elim) (fun _ _ _ k => k.elim)
  · cases c with
    | getIntervalMs => exact ⟨rfl,rfl⟩
    | setIntervalMs ms => exact ⟨rfl,early_setIntervalMs.mp hlocks,rfl⟩
  · intro ws p m' f hreached hcode
    cases p <;> cases hcode
    · obtain ⟨rfl,rfl⟩ := hreached
      rfl
    · obtain ⟨rfl,hms,rfl⟩ := hreached
      simp [Reached, register, hms]

theorem register_ne_zero {c : Call} {v v' : UInt32} {a : Option UInt32} (hv : v ≠ 0)
    (h : register v c = some (a,v')) : v' ≠ 0 := by
  cases c with
  | getIntervalMs =>
    cases h
    exact hv
  | setIntervalMs ms =>
    cases h
    split <;> assumption

theorem implements : Implements routines register (· ≠ 0) id Starts where
  early := by
    intro c m a hearly _
    cases c with
    | getIntervalMs => cases hearly
    | setIntervalMs ms =>
      simp only [routines, Option.ite_none_right_eq_some, Option.some.injEq] at hearly
      obtain ⟨rfl,rfl⟩ := hearly
      rfl
  entry _ hlocks := ⟨hlocks,rfl⟩
  answers := by
    intro c p m ws q m' a hstart hm hsection hcode
    have hreached := section_reached hstart hsection
    cases q <;> cases hcode
    exact ⟨register_ne_zero hm hreached,hreached⟩
  waits _ _ _ _ _ _ k := k.elim

theorem initialIntervalMs_ne_zero (ms : UInt32) : initialIntervalMs ms ≠ 0 := by
  unfold initialIntervalMs
  split
  · decide
  · assumption

/-- What a register holds and hands out is its first value or one that was stored. -/
def Stems (v : UInt32) (calls : List (T × Call × Option UInt32)) (w : UInt32) : Prop :=
  w ≠ 0 ∧ (w = v ∨ ∃ t, (t,.setIntervalMs w,none) ∈ calls)

omit [DecidableEq T] in
theorem Stems.mono {v w : UInt32} {calls : List (T × Call × Option UInt32)} (h : Stems v calls w)
    (e : T × Call × Option UInt32) : Stems v (calls ++ [e]) w :=
  ⟨h.1,h.2.imp_right fun ⟨t,hmem⟩ => ⟨t,List.mem_append_left _ hmem⟩⟩

omit [DecidableEq T] in
theorem serves_stems {trace : List (Event T Call (Option UInt32))} {v w : UInt32} (hv : v ≠ 0)
    (h : Serves register v trace w) :
    Stems v (commits trace) w ∧ ∀ t x, (t,.getIntervalMs,some x) ∈ commits trace → Stems v (commits trace) x := by
  refine h.invariant (J := fun l w => Stems v l w ∧ ∀ t x, (t,.getIntervalMs,some x) ∈ l → Stems v l x)
    ⟨⟨hv,Or.inl rfl⟩,nofun⟩ ?_
  rintro l w w' t c a ⟨hw,hl⟩ hspec
  cases c with
  | getIntervalMs =>
    cases hspec
    refine ⟨hw.mono _,fun u x hmem => ?_⟩
    rcases List.mem_append.mp hmem with hold | hnew
    · exact (hl u x hold).mono _
    · simp only [List.mem_singleton, Prod.mk.injEq, Option.some.injEq] at hnew
      rw [hnew.2.2]
      exact hw.mono _
  | setIntervalMs ms =>
    cases hspec
    refine ⟨?_,fun u x hmem => ?_⟩
    · split
      · exact hw.mono _
      · rename_i hms
        exact ⟨hms,Or.inr ⟨t,by simp⟩⟩
    rcases List.mem_append.mp hmem with hold | hnew
    · exact (hl u x hold).mono _
    · simp at hnew

/-- The interval is a linearizable register, whatever the threads that read and set it, and
no read returns 0: each returns the first interval or one that was set. To set 0 is to set
nothing. -/
theorem radioControl_register {trace : List (Event T Call (Option UInt32))}
    {s : State T Call Empty UInt32 Point (Option UInt32)} (initial : UInt32)
    (h : Run (AnyStep routines) (.start (initialIntervalMs initial)) trace s) :
    Linearizable register (initialIntervalMs initial) (trace.filter Event.visible) ∧
    ∀ t v, .respond t .getIntervalMs (some v) ∈ trace →
      v ≠ 0 ∧ (v = initialIntervalMs initial ∨ ∃ u, (u,.setIntervalMs v,none) ∈ commits trace) := by
  have hinitial := initialIntervalMs_ne_zero initial
  refine ⟨run_linearizable implements hinitial h,fun t v hmem => ?_⟩
  obtain ⟨a,hrun,_⟩ := run_lags h
  have hserved := run_served implements hinitial hrun
  obtain ⟨pre,post,htrace⟩ := List.append_of_mem hmem
  have halternates := hserved.alternates t
  rw [htrace] at halternates
  obtain ⟨pre₁,pre₂,rfl,_⟩ := halternates.responded.answered
  exact (serves_stems hinitial hserved.serves).2 t v (by simp [htrace, commits])

/-- The interval is set to 250, and to 0, while a read waits for the mutex. -/
theorem radioControl_register_set : ∃ trace s,
    Run (AnyStep (T := Bool) routines) (.start (initialIntervalMs 0)) trace s ∧
    .respond true (.setIntervalMs 0) none ∈ trace ∧ .respond false .getIntervalMs (some 250) ∈ trace ∧
    Linearizable register (initialIntervalMs 0) (trace.filter Event.visible) := by
  have h : Run (AnyStep (T := Bool) routines) (.start (initialIntervalMs 0)) [] _ := .refl
  replace h := h.tail ⟨false,.invoke (c := .getIntervalMs) rfl⟩
  replace h := h.tail ⟨true,.invoke (c := .setIntervalMs 250) rfl⟩
  replace h := h.tail ⟨true,.lock rfl rfl rfl⟩
  replace h := h.tail ⟨true,.access rfl rfl⟩
  replace h := h.tail ⟨true,.unlock rfl rfl⟩
  replace h := h.tail ⟨true,.respond rfl⟩
  replace h := h.tail ⟨true,.invoke (c := .setIntervalMs 0) rfl⟩
  replace h := h.tail ⟨true,.returnEarly rfl rfl⟩
  replace h := h.tail ⟨true,.respond rfl⟩
  replace h := h.tail ⟨false,.lock rfl rfl rfl⟩
  replace h := h.tail ⟨false,.access rfl rfl⟩
  replace h := h.tail ⟨false,.unlock rfl rfl⟩
  replace h := h.tail ⟨false,.respond rfl⟩
  exact ⟨_,_,h,by simp,List.mem_append_right _ (List.mem_singleton.mpr rfl),(radioControl_register 0 h).1⟩

end RadioControl

namespace Log

inductive Stream
  | stdout
  | stderr
  deriving DecidableEq

/-- A stream of stdio: what waits in its buffer, and what has been written out. -/
structure Output where
  buffer : Bytes
  written : Bytes

/-- `log_printf` and `log_fprintf`, with the text that their format gives. -/
structure Call where
  stream : Stream
  text : Bytes

inductive Point
  | put (stream : Stream) (rest : Bytes)
  | flush (stream : Stream)
  | unlock

abbrev Streams := Stream → Output

section Buffering
-- how many bytes stdio writes out when another byte is in the buffer: all of them where the
-- stream is unbuffered, a line or a block where it is not
variable (drains : Stream → Output → ℕ)

def put (out : Streams) (stream : Stream) (b : Byte) : Streams :=
  let buffer := (out stream).buffer ++ [b]
  let n := drains stream ⟨buffer,(out stream).written⟩
  Function.update out stream ⟨buffer.drop n,(out stream).written ++ buffer.take n⟩

def fflush (out : Streams) (stream : Stream) : Streams :=
  Function.update out stream ⟨[],(out stream).written ++ (out stream).buffer⟩

def routines : Routines Call Empty Streams Point Unit where
  early _ := none
  entry c := .put c.stream c.text
  code
    | .put stream [] => .access fun out => (.flush stream,out)
    | .put stream (b :: rest) => .access fun out => (.put stream rest,put drains out stream b)
    | .flush stream => .access fun out => (.unlock,fflush out stream)
    | .unlock => .unlock ()

def printer (files : Stream → Bytes) (c : Call) : Option (Unit × (Stream → Bytes)) :=
  some ((),Function.update files c.stream (files c.stream ++ c.text))

def Flushed (out : Streams) : Prop := ∀ stream, (out stream).buffer = []

def files (out : Streams) (stream : Stream) : Bytes := (out stream).written

/-- The beginning of the text that has been put is partly written out and partly buffered. -/
def Reached (c : Call) (out : Streams) : Point → Streams → Prop
  | .put stream rest, out' => stream = c.stream ∧ ∃ w b, w ++ b ++ rest = c.text ∧
    out' = Function.update out c.stream ⟨b,(out c.stream).written ++ w⟩
  | .flush stream, out' => stream = c.stream ∧ ∃ w b, w ++ b = c.text ∧
    out' = Function.update out c.stream ⟨b,(out c.stream).written ++ w⟩
  | .unlock, out' => out' = Function.update out c.stream ⟨[],(out c.stream).written ++ c.text⟩

variable {drains} {c : Call} {out out' : Streams} {p : Point}

theorem section_reached {ws : List (Wake Empty)} (hflushed : Flushed out)
    (h : Section (routines drains) (.put c.stream c.text) out ws p out') : Reached c out p out' := by
  refine h.invariant (J := fun _ p out' => Reached c out p out') ?_ ?_ (fun _ _ _ k => k.elim) (fun _ _ _ k => k.elim)
  · refine ⟨rfl,[],[],rfl,?_⟩
    rw [List.append_nil, ← hflushed c.stream]
    exact (Function.update_eq_self ..).symm
  · intro ws p out' f hreached hcode
    cases p with
    | put stream rest =>
      obtain ⟨rfl,w,b,htext,rfl⟩ := hreached
      cases rest with
      | nil =>
        cases hcode
        exact ⟨rfl,w,b,by simpa using htext,rfl⟩
      | cons x rest =>
        cases hcode
        let n := drains c.stream ⟨b ++ [x],(out c.stream).written ++ w⟩
        refine ⟨rfl,w ++ (b ++ [x]).take n,(b ++ [x]).drop n,?_,?_⟩
        · rw [List.append_assoc w, List.take_append_drop]
          simpa using htext
        · simp [put, n]
    | flush stream =>
      cases hcode
      obtain ⟨rfl,w,b,htext,rfl⟩ := hreached
      simp [Reached, fflush, ← htext]
    | unlock => cases hcode

theorem files_update (out : Streams) (stream : Stream) (buffer written : Bytes) :
    files (Function.update out stream ⟨buffer,written⟩) = Function.update (files out) stream written := by
  funext stream'
  by_cases hs : stream' = stream
  · subst hs
    simp [files]
  · simp [files, Function.update_of_ne hs]

/-- Inside its section a call has written out a beginning of its text, and nothing else. -/
theorem Reached.files (h : Reached c out p out') :
    ∃ w, w <+: c.text ∧ Log.files out' = Function.update (Log.files out) c.stream (Log.files out c.stream ++ w) := by
  cases p with
  | put stream rest =>
    obtain ⟨_,w,b,htext,rfl⟩ := h
    exact ⟨w,⟨b ++ rest,by rw [← htext, List.append_assoc]⟩,files_update ..⟩
  | flush stream =>
    obtain ⟨_,w,b,htext,rfl⟩ := h
    exact ⟨w,⟨b,htext⟩,files_update ..⟩
  | unlock =>
    obtain rfl := h
    exact ⟨c.text,List.prefix_rfl,files_update ..⟩

theorem implements : Implements (routines drains) printer Flushed files (fun c p => p = .put c.stream c.text) where
  early _ _ _ h := by cases h
  entry _ _ := rfl
  answers := by
    rintro c p out ws q out' a rfl hflushed hsection hcode
    have hreached := section_reached hflushed hsection
    cases q with
    | put stream rest => cases rest <;> cases hcode
    | flush stream => cases hcode
    | unlock =>
      cases hcode
      obtain rfl := hreached
      refine ⟨fun stream => ?_,?_⟩
      · by_cases hs : stream = c.stream
        · rw [hs, Function.update_self]
        · rw [Function.update_of_ne hs]
          exact hflushed stream
      · rw [files_update]
        rfl
  waits _ _ _ _ _ _ k := k.elim

end Buffering

def texts (stream : Stream) (calls : List (T × Call × Unit)) : List Bytes :=
  calls.filterMap fun e => if e.2.1.stream = stream then some e.2.1.text else none

omit [DecidableEq T] in
theorem serves_texts {trace : List (Event T Call Unit)} {f : Stream → Bytes}
    (h : Serves printer (fun _ => []) trace f) (stream : Stream) : f stream = (texts stream (commits trace)).flatten := by
  refine h.invariant (J := fun l f => f stream = (texts stream l).flatten) rfl ?_
  rintro l g g' t c a hg hspec
  cases hspec
  by_cases hs : c.stream = stream
  · subst hs
    simp [texts, hg]
  · simp [texts, hg, hs, Function.update_of_ne (Ne.symm hs)]

/-- The texts of different calls do not interleave, whatever the threads that log and
whenever stdio writes out what it has buffered: at every moment a stream consists of the
texts of the calls served so far, in their order, and of a beginning of the text of the
thread that has the mutex. While nobody has it, nothing waits in a buffer. -/
theorem log_untorn (drains : Stream → Output → ℕ) {trace : List (Event T Call Unit)}
    {s : State T Call Empty Streams Point Unit}
    (h : Run (AnyStep (routines drains)) (.start fun _ => ⟨[],[]⟩) trace s) (stream : Stream) :
    (∃ part, (s.memory stream).written = (texts stream (commits trace)).flatten ++ part ∧
      (part = [] ∨ ∃ t c p, s.mutex = some t ∧ s.threads t = .running c p ∧ c.stream = stream ∧ part <+: c.text)) ∧
    (s.mutex = none → (s.memory stream).buffer = []) := by
  obtain ⟨a,hrun,hlags⟩ := run_lags h
  have hserved := run_served implements (fun _ => rfl) hrun
  have htexts := serves_texts hserved.serves stream
  cases hlags with
  | free m f hnot =>
    refine ⟨⟨[],?_,Or.inl rfl⟩,fun _ => hserved.memory stream⟩
    rw [List.append_nil]
    exact htexts
  | @held m m₀ f f₀ t c p q ws hstarts hsection hwoken hnot =>
    refine ⟨?_,nofun⟩
    obtain ⟨hp,_⟩ := starts_fits implements hstarts (hserved.fits t)
    subst hp
    obtain ⟨w,hw,hfiles⟩ := (section_reached hserved.memory hsection).files
    have hwritten := congrFun hfiles stream
    dsimp only at htexts
    by_cases hs : stream = c.stream
    · subst hs
      rw [Function.update_self, htexts] at hwritten
      exact ⟨w,hwritten,Or.inr ⟨t,c,q,rfl,Function.update_self ..,rfl,hw⟩⟩
    · rw [Function.update_of_ne hs, htexts, ← List.append_nil (List.flatten _)] at hwritten
      exact ⟨[],hwritten,Or.inl rfl⟩

def unbufferedStderr : Stream → Output → ℕ
  | .stdout, _ => 0
  | .stderr, o => o.buffer.length

/-- A thread has printed to stderr, and another one has put the first byte of its text. -/
theorem log_untorn_stderr : ∃ trace s,
    Run (AnyStep (T := Bool) (routines unbufferedStderr)) (.start fun _ => ⟨[],[]⟩) trace s ∧
    (s.memory .stderr).written = [33,72] ∧ commits trace = [(true,⟨.stderr,[33]⟩,())] ∧
    ∃ part, (s.memory .stderr).written = (texts .stderr (commits trace)).flatten ++ part := by
  have h : Run (AnyStep (T := Bool) (routines unbufferedStderr)) (.start fun _ => ⟨[],[]⟩) [] _ := .refl
  replace h := h.tail ⟨false,.invoke (c := ⟨.stderr,[72,105]⟩) rfl⟩
  replace h := h.tail ⟨true,.invoke (c := ⟨.stderr,[33]⟩) rfl⟩
  replace h := h.tail ⟨true,.lock rfl rfl rfl⟩
  replace h := h.tail ⟨true,.access rfl rfl⟩
  replace h := h.tail ⟨true,.access rfl rfl⟩
  replace h := h.tail ⟨true,.access rfl rfl⟩
  replace h := h.tail ⟨true,.unlock rfl rfl⟩
  replace h := h.tail ⟨false,.lock rfl rfl rfl⟩
  replace h := h.tail ⟨false,.access rfl rfl⟩
  obtain ⟨⟨part,hpart,_⟩,_⟩ := log_untorn unbufferedStderr h .stderr
  exact ⟨_,_,h,rfl,rfl,part,hpart⟩

end Log
end RadioSim.Process
