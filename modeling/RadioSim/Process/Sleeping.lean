import RadioSim.Foundation.Loop
import RadioSim.Process.Slices

/-! # The slices of a sleep

`producer_sleep` of `main.c` on its own, against any answers of
`shutdown_requested`, and the producer's thread, which sleeps as it does.
-/
namespace RadioSim.Process.Producer
open Loop

/-- `struct timespec`, with 64-bit fields. -/
structure Timespec where
  tvSec : Int64
  tvNsec : Int64

def timespec (sliceMs : UInt32) : Timespec :=
  ⟨(sliceMs / 1000).toUInt64.toInt64,(sliceMs % 1000).toUInt64.toInt64 * 1000000⟩

structure Slice where
  ms : UInt32
  ts : Timespec

/-- The local variable of `producer_sleep`, and the slices it has started. -/
structure Slept where
  sleptMs : UInt32
  slices : List Slice

def Slept.start : Slept := ⟨0,[]⟩

def Slept.advance (totalMs : UInt32) (s : Slept) : Slept :=
  let slice := sliceMs totalMs s.sleptMs
  ⟨s.sleptMs + slice,s.slices ++ [⟨slice,timespec slice⟩]⟩

/-- `producer_sleep`; an answer is what `shutdown_requested` returns. -/
def producerSleep (totalMs : UInt32) : Loop Slept Bool Unit where
  exit s := if s.sleptMs < totalMs then none else some ()
  body s stop := if stop then some (.returned () s) else some (.again (s.advance totalMs))

section Slices

/-- A slice that `nanosleep` accepts and that is as long as it says. -/
structure Slice.Valid (x : Slice) : Prop where
  ms_pos : 1 ≤ x.ms
  ms_le : x.ms ≤ 100
  tvNsec_nonneg : 0 ≤ x.ts.tvNsec.toInt
  tvNsec_lt : x.ts.tvNsec.toInt < 10 ^ 9
  duration : x.ts.tvSec.toInt * 10 ^ 9 + x.ts.tvNsec.toInt = x.ms.toNat * 10 ^ 6

theorem toInt_long (x : UInt32) : x.toUInt64.toInt64.toInt = x.toNat := by
  have hlt := x.toNat_lt
  change x.toUInt64.toBitVec.toInt = _
  rw [BitVec.toInt_eq_toNat_of_lt]
  · simp
  · simp only [UInt64.toNat_toBitVec, UInt32.toNat_toUInt64]
    omega

theorem toInt_tvNsec (ms : UInt32) : (timespec ms).tvNsec.toInt = (ms.toNat % 1000 : ℕ) * 1000000 := by
  have hmod : (ms % 1000).toNat = ms.toNat % 1000 := UInt32.toNat_mod ..
  have hmillion : (1000000 : Int64).toInt = 1000000 := by decide
  simp only [timespec, Int64.toInt_mul, toInt_long, hmod, hmillion]
  refine Int.bmod_eq_of_le ?_ ?_ <;> norm_num <;> omega

theorem timespec_valid {ms : UInt32} (hpos : 1 ≤ ms) (hle : ms ≤ 100) : Slice.Valid ⟨ms,timespec ms⟩ := by
  have hnsec := toInt_tvNsec ms
  have hsec : (timespec ms).tvSec.toInt = (ms.toNat / 1000 : ℕ) := by
    have hdiv : (ms / 1000).toNat = ms.toNat / 1000 := UInt32.toNat_div ..
    simp only [timespec, toInt_long, hdiv]
  refine ⟨hpos,hle,?_,?_,?_⟩
  · dsimp only
    omega
  · dsimp only
    omega
  · dsimp only
    omega

end Slices

section Turns
variable {totalMs : UInt32} {s s' : Slept} {stop : Bool}

theorem producerSleep_exit_none : (producerSleep totalMs).exit s = none ↔ s.sleptMs < totalMs := by
  simp [producerSleep]

theorem producerSleep_exit_some (h : ¬ s.sleptMs < totalMs) : (producerSleep totalMs).exit s = some () := by
  simp [producerSleep, h]

def rounds (totalMs : UInt32) : ℕ := (totalMs.toNat + 99) / 100

/-- All slices but the last are full ones, they add up to the time slept, and there
are no more of them than it takes. -/
structure Slept.Exact (totalMs : UInt32) (s : Slept) : Prop where
  slept_eq : s.sleptMs.toNat = min (100 * s.slices.length) totalMs.toNat
  sum_eq : (s.slices.map fun x => x.ms.toNat).sum = s.sleptMs.toNat
  count_le : s.slices.length ≤ rounds totalMs
  valid : ∀ x ∈ s.slices, x.Valid

theorem start_exact (totalMs : UInt32) : Slept.start.Exact totalMs :=
  ⟨by simp [Slept.start],rfl,Nat.zero_le _,fun _ h => by cases h⟩

theorem advance_count (totalMs : UInt32) (s : Slept) : (s.advance totalMs).slices.length = s.slices.length + 1 := by
  simp [Slept.advance]

/-- One turn without a stop request starts one more slice. -/
theorem step_exact (hs : s.Exact totalMs) (hlt : s.sleptMs < totalMs) : (s.advance totalMs).Exact totalMs := by
  have hslice := toNat_sliceMs hlt
  have hsum := toNat_advance hlt
  have hlt' := UInt32.lt_iff_toNat_lt.mp hlt
  have hslept := hs.slept_eq
  refine ⟨?_,?_,?_,fun x hx => ?_⟩
  · simp only [Slept.advance, hsum, List.length_append, List.length_singleton]
    omega
  · simp only [Slept.advance, hsum, List.map_append, List.sum_append, hs.sum_eq, List.map_singleton, List.sum_singleton]
    omega
  · simp only [Slept.advance, List.length_append, List.length_singleton, rounds]
    omega
  · rcases List.mem_append.mp hx with hx | hx
    · exact hs.valid x hx
    · rw [List.mem_singleton.mp hx]
      refine timespec_valid (UInt32.le_iff_toNat_le.mpr ?_) (UInt32.le_iff_toNat_le.mpr ?_)
      · rw [hslice]
        have hone : (1 : UInt32).toNat = 1 := rfl
        omega
      · rw [hslice]
        exact Nat.min_le_left _ _

end Turns

section Runs
variable {totalMs : UInt32} {s : Slept}

theorem follow_defined (totalMs : UInt32) (s : Slept) (answers : List Bool) :
    (producerSleep totalMs).follow s answers ≠ none := by
  refine follow_ne_none (I := fun _ => True) trivial (fun _ _ _ _ _ _ => trivial) fun m stop _ _ _ => ?_
  cases stop <;> exact Option.some_ne_none _

/-- However the answers go, the slices started so far are exact. -/
theorem follow_exact {answers : List Bool} {c : Control Slept Unit}
    (h : (producerSleep totalMs).follow .start answers = some c) : c.state.Exact totalMs := by
  have hstep : ∀ m stop m', m.Exact totalMs → (producerSleep totalMs).exit m = none →
      (producerSleep totalMs).body m stop = some (.again m') → m'.Exact totalMs := by
    intro m stop m' hm hexit hbody
    cases stop with
    | true => cases hbody
    | false =>
      cases hbody
      exact step_exact hm (producerSleep_exit_none.mp hexit)
  rcases follow_cases (start_exact totalMs) hstep answers with ⟨m,hm,hend⟩ | ⟨_,stop,_,m,_,hm,_,_,hend,hstop⟩
  · rw [h] at hend
    cases hend
    rwa [enter_state]
  · rw [h] at hend
    cases stop with
    | true =>
      cases hend
      exact hm
    | false => exact absurd rfl (hstop _)

theorem rounds_le_iff (hs : s.Exact totalMs) : rounds totalMs ≤ s.slices.length ↔ ¬ s.sleptMs < totalMs := by
  have hslept := hs.slept_eq
  rw [UInt32.lt_iff_toNat_lt, rounds]
  omega

/-- While no stop is requested, every answer gives one more slice, up to the last. -/
theorem follow_unstopped (hs : s.Exact totalMs) (k : ℕ) :
    ∃ m : Slept, m.Exact totalMs ∧ m.slices.length = min (s.slices.length + k) (rounds totalMs) ∧
      (producerSleep totalMs).follow s (List.replicate k false) = some ((producerSleep totalMs).enter m) := by
  induction k generalizing s with
  | zero => exact ⟨s,hs,(Nat.min_eq_left hs.count_le).symm,rfl⟩
  | succ k ih =>
    by_cases hlt : s.sleptMs < totalMs
    · obtain ⟨m,hm,hcount,hfollow⟩ := ih (step_exact hs hlt)
      refine ⟨m,hm,?_,?_⟩
      · rw [hcount, advance_count, Nat.add_assoc, Nat.add_comm 1]
      · rw [List.replicate_succ, follow_again (producerSleep_exit_none.mpr hlt) rfl, hfollow]
    · have hexit := producerSleep_exit_some hlt
      refine ⟨s,hs,?_,by rw [follow_exit hexit, enter_of_some hexit]⟩
      have hrounds := (rounds_le_iff hs).mpr hlt
      have hcount := hs.count_le
      omega

/-- No more answers are needed than there are slices in the sleep. -/
theorem follow_returns (hs : s.Exact totalMs) {answers : List Bool}
    (h : rounds totalMs ≤ s.slices.length + answers.length) :
    ∃ m, (producerSleep totalMs).follow s answers = some (.returned () m) := by
  induction answers generalizing s with
  | nil => exact ⟨s,follow_exit (producerSleep_exit_some ((rounds_le_iff hs).mp h)) _⟩
  | cons stop rest ih =>
    by_cases hlt : s.sleptMs < totalMs
    · have hexit := producerSleep_exit_none.mpr hlt
      cases stop with
      | true => exact ⟨s,follow_stop hexit fun _ hm => by cases hm⟩
      | false =>
        rw [follow_again hexit rfl]
        refine ih (step_exact hs hlt) ?_
        rw [List.length_cons] at h
        rw [advance_count]
        omega
    · exact ⟨s,follow_exit (producerSleep_exit_some hlt) _⟩

/-- Once the request is seen, no slice is started. -/
theorem follow_stopped {pre : List Bool} {c : Control Slept Unit}
    (h : (producerSleep totalMs).follow .start pre = some c) (post : List Bool) :
    (producerSleep totalMs).follow .start (pre ++ true :: post) = some (.returned () c.state) := by
  rw [follow_last (fun _ => rfl), h]
  cases c <;> rfl

/-- The slicing of `producer_sleep` is exact, whatever `shutdown_requested` answers. The
slices add up to `slept_ms` without a wrap and never exceed `total_ms`, each of them is
a valid one, and the loop ends within `rounds` turns; without a request it has then slept
`total_ms` in as many slices, and after a request it starts none. -/
theorem producerSleep_exact (totalMs : UInt32) :
    (∀ answers, ∃ c, (producerSleep totalMs).follow .start answers = some c ∧ c.state.sleptMs ≤ totalMs ∧
      (c.state.slices.map fun x => x.ms.toNat).sum = c.state.sleptMs.toNat ∧ ∀ x ∈ c.state.slices, x.Valid) ∧
    (∀ answers : List Bool, rounds totalMs ≤ answers.length →
      ∃ s, (producerSleep totalMs).follow .start answers = some (.returned () s)) ∧
    (∀ k < rounds totalMs, ∃ s, (producerSleep totalMs).follow .start (List.replicate k false) = some (.again s) ∧
      s.slices.length = k) ∧
    (∀ k ≥ rounds totalMs, ∃ s, (producerSleep totalMs).follow .start (List.replicate k false) = some (.returned () s) ∧
      s.slices.length = rounds totalMs ∧ (s.slices.map fun x => x.ms.toNat).sum = totalMs.toNat) ∧
    (∀ pre post c, (producerSleep totalMs).follow .start pre = some c →
      (producerSleep totalMs).follow .start (pre ++ true :: post) = some (.returned () c.state)) := by
  refine ⟨fun answers => ?_,fun answers h => ?_,fun k hk => ?_,fun k hk => ?_,fun pre post c h => follow_stopped h post⟩
  · obtain ⟨c,hc⟩ := Option.ne_none_iff_exists'.mp (follow_defined totalMs .start answers)
    have hexact := follow_exact hc
    have hslept := hexact.slept_eq
    exact ⟨c,hc,UInt32.le_iff_toNat_le.mpr (by omega),hexact.sum_eq,hexact.valid⟩
  · exact follow_returns (start_exact totalMs) (by simpa [Slept.start] using h)
  · obtain ⟨s,hs,hcount,hfollow⟩ := follow_unstopped (start_exact totalMs) k
    simp only [Slept.start, List.length_nil, Nat.zero_add] at hcount
    have hlt : s.sleptMs < totalMs := not_not.mp fun h => absurd ((rounds_le_iff hs).mpr h) (by omega)
    exact ⟨s,by rw [hfollow, enter_of_none (producerSleep_exit_none.mpr hlt)],by omega⟩
  · obtain ⟨s,hs,hcount,hfollow⟩ := follow_unstopped (start_exact totalMs) k
    simp only [Slept.start, List.length_nil, Nat.zero_add] at hcount
    have hend : ¬ s.sleptMs < totalMs := (rounds_le_iff hs).mp (by omega)
    have hslept := hs.slept_eq
    rw [UInt32.lt_iff_toNat_lt] at hend
    refine ⟨s,?_,by omega,by rw [hs.sum_eq]; omega⟩
    rw [hfollow, enter_of_some (producerSleep_exit_some (UInt32.lt_iff_toNat_lt.not.mpr hend))]

end Runs

section Thread
variable {pc p : Pc}

def Sleeping : Pc → Prop
  | .sleep _ totalMs sleptMs => ∃ answers s, s.sleptMs = sleptMs ∧
    (producerSleep totalMs).follow .start answers = some ((producerSleep totalMs).enter s)
  | .slice _ totalMs sleptMs => ∃ answers s, s.sleptMs = sleptMs ∧
    (producerSleep totalMs).follow .start answers = some (.again s)
  | _ => True

theorem sleeping_of_awake (h : asleep pc = false) : Sleeping pc := by
  cases pc with
  | sleep | slice => cases h
  | _ => exact trivial

/-- The producer's steps are the turns of `producer_sleep`. -/
theorem effect_sleeping {t : Tid} {sh sh' : Shared} (h : Effect t sh (code pc) p sh') (hs : Sleeping pc) :
    Sleeping p := by
  cases hasleep : asleep pc with
  | false =>
    by_cases hpc : ∃ counter, pc = .readInterval counter
    · obtain ⟨counter,rfl⟩ := hpc
      cases h with
      | getInterval => exact ⟨[],.start,rfl,rfl⟩
    · exact sleeping_of_awake (h.all (code_awake hasleep fun counter heq => hpc ⟨counter,heq⟩))
  | true =>
    cases pc with
    | sleep counter totalMs sleptMs =>
      obtain ⟨answers,s,rfl,hfollow⟩ := hs
      simp only [code] at h
      split at h
      · rename_i hlt
        cases h with
        | shutdownRequested =>
          cases sh.stop with
          | true => exact trivial
          | false =>
            rw [enter_of_none (producerSleep_exit_none.mpr hlt)] at hfollow
            exact ⟨answers,s,rfl,hfollow⟩
      · cases h
        exact trivial
    | slice counter totalMs sleptMs =>
      obtain ⟨answers,s,rfl,hfollow⟩ := hs
      cases h
      refine ⟨answers ++ [false],s.advance totalMs,rfl,?_⟩
      rw [follow_append hfollow, follow_again (exit_of_again hfollow) rfl]
      rfl
    | _ => cases hasleep

end Thread

end RadioSim.Process.Producer

namespace RadioSim.Process
open Producer
variable {W : ℕ} {s s' : System} {t : Tid} {c : Choice}

theorem step_sleeping (h : Sleeping (s.pcs .producer)) (hstep : step W s t c = some s') :
    Sleeping (s'.pcs .producer) := by
  obtain ⟨_,p,sh,hexec,rfl⟩ := step_inversion hstep
  by_cases ht : t = .producer
  · subst ht
    simp only [Function.update_self]
    exact effect_sleeping (exec_effect hexec) h
  · simp only [Function.update_of_ne (Ne.symm ht)]
    exact h

/-- In every run of the process the producer sleeps as `producer_sleep` does. -/
theorem run_sleeping (h : Reachable W s) : Sleeping (s.pcs .producer) :=
  h.invariant (I := fun s => Sleeping (s.pcs .producer)) trivial fun _ _ _ _ => step_sleeping

end RadioSim.Process
