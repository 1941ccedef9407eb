import RadioSim.Process.Effect
import RadioSim.Process.System

/-! # The producer's sleep and the interval

`producer_sleep` is given the interval once, when the sleep begins. The run is
observed at two kinds of steps: those at which the producer starts a slice, with the
time slept and the interval stored at that moment, and those that store a new
interval while the producer has slices left to start.
-/
namespace RadioSim.Process.Producer

section Sleep
variable {totalMs sleptMs : UInt32}

/-- The time slept when the last slice of a sleep starts. -/
def lastStart (totalMs : UInt32) : ℕ :=
  (totalMs.toNat - 1) / producerSleepSliceMs.toNat * producerSleepSliceMs.toNat

/-- The time slept at the start of the last slice, if one is still to start. -/
def pending : Pc → Option ℕ
  | .sleep _ totalMs sleptMs => if sleptMs < totalMs then some (lastStart totalMs) else none
  | .slice _ totalMs sleptMs =>
    if sleptMs + sliceMs totalMs sleptMs < totalMs then some (lastStart totalMs) else none
  | _ => none

/-- Whole slices have been slept, and the slice in progress belongs to the sleep. -/
def Whole : Pc → Prop
  | .sleep _ totalMs sleptMs => sleptMs < totalMs → sleptMs.toNat % 100 = 0
  | .slice _ totalMs sleptMs => sleptMs < totalMs ∧ sleptMs.toNat % 100 = 0
  | _ => True

def asleep : Pc → Bool
  | .sleep _ _ _ | .slice _ _ _ => true
  | _ => false

theorem toNat_sliceMs (h : sleptMs < totalMs) :
    (sliceMs totalMs sleptMs).toNat = min 100 (totalMs.toNat - sleptMs.toNat) := by
  have hlt : sleptMs.toNat < totalMs.toNat := UInt32.lt_iff_toNat_lt.mp h
  have hsub : (totalMs - sleptMs).toNat = totalMs.toNat - sleptMs.toNat :=
    UInt32.toNat_sub_of_le _ _ (UInt32.le_iff_toNat_le.mpr hlt.le)
  have h100 : producerSleepSliceMs.toNat = 100 := rfl
  unfold sliceMs
  split
  · rename_i hshort
    have hshort' := UInt32.lt_iff_toNat_lt.mp hshort
    omega
  · rename_i hlong
    have hlong' := mt UInt32.lt_iff_toNat_lt.mpr hlong
    omega

/-- The sum of `slept_ms` and a slice does not wrap. -/
theorem toNat_advance (h : sleptMs < totalMs) :
    (sleptMs + sliceMs totalMs sleptMs).toNat = min (sleptMs.toNat + 100) totalMs.toNat := by
  have hlt : sleptMs.toNat < totalMs.toNat := UInt32.lt_iff_toNat_lt.mp h
  have hbound := totalMs.toNat_lt
  rw [UInt32.toNat_add, toNat_sliceMs h, Nat.mod_eq_of_lt (by omega)]
  omega

/-- Slices start at multiples of their length, so none starts after the last. -/
theorem le_lastStart (h : sleptMs < totalMs) (hwhole : sleptMs.toNat % 100 = 0) :
    sleptMs.toNat ≤ lastStart totalMs := by
  have hlt : sleptMs.toNat < totalMs.toNat := UInt32.lt_iff_toNat_lt.mp h
  have h100 : producerSleepSliceMs.toNat = 100 := rfl
  rw [lastStart, h100]
  omega

theorem lastStart_lt (h : 0 < totalMs) : lastStart totalMs < totalMs.toNat := by
  have hlt : 0 < totalMs.toNat := UInt32.lt_iff_toNat_lt.mp h
  have h100 : producerSleepSliceMs.toNat = 100 := rfl
  rw [lastStart, h100]
  omega

end Sleep

section Invariant
variable {pc p : Pc} {intervalMs : UInt32}

/-- The interval lasts beyond the start of every slice of the sleep still to come. -/
structure Keeps (pc : Pc) (intervalMs : UInt32) : Prop where
  whole : Whole pc
  covers : ∀ last ∈ pending pc, last < intervalMs.toNat

theorem keeps_of_awake (h : asleep pc = false) : Keeps pc intervalMs := by
  cases pc with
  | sleep | slice => cases h
  | _ => exact ⟨trivial,fun _ habs => by cases habs⟩

/-- Outside the sleep, only reading the interval leads into it. -/
theorem code_awake (h : asleep pc = false) (hpc : ∀ counter, pc ≠ .readInterval counter) :
    (code pc).All fun p => asleep p = false := by
  cases pc with
  | sleep | slice => cases h
  | readInterval counter => exact absurd rfl (hpc counter)
  | loop counter =>
    intro stop
    cases stop <;> rfl
  | allocTelemetry counter | allocAlert counter =>
    intro a
    cases a <;> rfl
  | enqueueTelemetry counter a =>
    intro ok
    cases ok
    · rfl
    · dsimp only
      rw [if_pos rfl]
      split <;> rfl
  | enqueueAlert counter a =>
    intro ok
    cases ok <;> rfl
  | discard a => rfl
  | done => rfl

/-- One step of the producer. The sleep begins with the interval as its length. -/
theorem effect_keeps {t : Tid} {sh sh' : Shared} (h : Effect t sh (code pc) p sh') (hk : Keeps pc sh.intervalMs) :
    Keeps p sh'.intervalMs := by
  cases hasleep : asleep pc with
  | false =>
    by_cases hpc : ∃ counter, pc = .readInterval counter
    · obtain ⟨counter,rfl⟩ := hpc
      cases h with
      | getInterval =>
        refine ⟨fun _ => rfl,fun last hlast => ?_⟩
        simp only [pending, Option.mem_def, Option.ite_none_right_eq_some, Option.some.injEq] at hlast
        obtain ⟨hpos,rfl⟩ := hlast
        exact lastStart_lt hpos
    · exact keeps_of_awake (h.all (code_awake hasleep fun counter heq => hpc ⟨counter,heq⟩))
  | true =>
    cases pc with
    | sleep counter totalMs sleptMs =>
      simp only [code] at h
      split at h
      · rename_i hlt
        cases h with
        | shutdownRequested =>
          cases sh.stop with
          | true => exact keeps_of_awake rfl
          | false =>
            refine ⟨⟨hlt,hk.whole hlt⟩,fun last hlast => hk.covers last ?_⟩
            simp only [Bool.false_eq_true, ↓reduceIte, pending, Option.mem_def,
              Option.ite_none_right_eq_some] at hlast ⊢
            exact ⟨hlt,hlast.2⟩
      · cases h
        exact keeps_of_awake rfl
    | slice counter totalMs sleptMs =>
      cases h
      obtain ⟨hlt,hwhole⟩ := hk.whole
      refine ⟨fun hless => ?_,hk.covers⟩
      have hless' := UInt32.lt_iff_toNat_lt.mp hless
      rw [toNat_advance hlt] at hless' ⊢
      omega
    | _ => cases hasleep

def sleepMs : Pc → Option UInt32
  | .sleep _ totalMs _ | .slice _ totalMs _ => some totalMs
  | _ => none

def readsInterval : Pc → Bool
  | .readInterval _ => true
  | _ => false

theorem sleepMs_of_awake (h : asleep pc = false) : sleepMs pc = none := by
  cases pc with
  | sleep | slice => cases h
  | _ => rfl

/-- The producer reads the length of its sleep, and it keeps it until it is awake. -/
theorem effect_sleepMs {t : Tid} {sh sh' : Shared} (h : Effect t sh (code pc) p sh') :
    (readsInterval pc = true ∧ sleepMs p = some sh.intervalMs) ∨
      (readsInterval pc = false ∧ (sleepMs p = sleepMs pc ∨ sleepMs p = none)) := by
  cases pc with
  | readInterval counter =>
    cases h
    exact Or.inl ⟨rfl,rfl⟩
  | sleep counter totalMs sleptMs =>
    refine Or.inr ⟨rfl,?_⟩
    simp only [code] at h
    split at h
    · cases h with
      | shutdownRequested =>
        cases sh.stop with
        | true => exact Or.inr rfl
        | false => exact Or.inl rfl
    · cases h
      exact Or.inr rfl
  | slice counter totalMs sleptMs =>
    cases h
    exact Or.inr ⟨rfl,Or.inl rfl⟩
  | _ => exact Or.inr ⟨rfl,Or.inr (sleepMs_of_awake (h.all (code_awake rfl fun _ hpc => by cases hpc)))⟩

/-- A new interval for a sleeping producer. -/
theorem Keeps.update {ms : UInt32} (h : Keeps pc intervalMs) (hms : ∀ last ∈ pending pc, last < ms.toNat) :
    Keeps pc ms :=
  ⟨h.whole,hms⟩

end Invariant

end RadioSim.Process.Producer

namespace RadioSim.Process
open Producer
variable {W : ℕ} {s s' : System} {t : Tid} {c : Choice}

/-- The interval that `radio_control_set_interval_ms` stores; it ignores 0. -/
def Op.newInterval {P : Type} : Op P → Option UInt32
  | .setInterval ms _ => if ms = 0 then none else some ms
  | _ => none

theorem Effect.interval {P : Type} {sh sh' : Shared} {op : Op P} {p : P} (h : Effect t sh op p sh') :
    sh'.intervalMs = op.newInterval.getD sh.intervalMs := by
  cases h with
  | setInterval ms next =>
    simp only [Op.newInterval]
    split <;> rfl
  | _ => rfl

/-- The producer starts a slice: the time slept so far, and the interval stored then. -/
def sliceStarts (s : System) (_ : Tid) (s' : System) : List (UInt32 × UInt32) :=
  match s.pcs .producer, s'.pcs .producer with
  | .sleep _ _ sleptMs, .slice _ _ _ => [(sleptMs,s.shared.intervalMs)]
  | _, _ => []

/-- A new interval while the producer has slices to start: the time slept when the
last of them starts, and the interval. -/
def resets (W : ℕ) (s : System) (t : Tid) (_ : System) : List (ℕ × UInt32) :=
  (s.op W t).newInterval.toList.flatMap fun ms => (pending (s.pcs .producer)).toList.map fun last => (last,ms)

theorem mem_resets {last : ℕ} {ms : UInt32} :
    (last,ms) ∈ resets W s t s' ↔ (s.op W t).newInterval = some ms ∧ pending (s.pcs .producer) = some last := by
  simp [resets, eq_comm]

theorem step_keeps (h : step W s t c = some s') (hresets : ∀ u ∈ resets W s t s', u.1 < u.2.toNat)
    (hk : Keeps (s.pcs .producer) s.shared.intervalMs) : Keeps (s'.pcs .producer) s'.shared.intervalMs := by
  obtain ⟨_,p,sh,hexec,rfl⟩ := step_inversion h
  have heffect := exec_effect hexec
  by_cases ht : t = .producer
  · subst ht
    simp only [Function.update_self]
    exact effect_keeps heffect hk
  · have hpc : Function.update s.pcs t p .producer = s.pcs .producer := Function.update_of_ne (Ne.symm ht) ..
    simp only [hpc, heffect.interval]
    cases hnew : (s.op W t).newInterval with
    | none => exact hk
    | some ms => exact hk.update fun last hlast => hresets (last,ms) (mem_resets.mpr ⟨hnew,hlast⟩)

theorem run_keeps {schedule : List (Tid × Choice)} (hrun : run W .initial schedule = some s)
    (hresets : ∀ u ∈ record (resets W) W .initial schedule, u.1 < u.2.toNat) :
    Keeps (s.pcs .producer) s.shared.intervalMs := by
  refine run_induction (I := fun pre s => (∀ u ∈ record (resets W) W .initial pre, u.1 < u.2.toNat) →
    Keeps (s.pcs .producer) s.shared.intervalMs) ?_ ?_ hrun hresets
  · exact fun _ => keeps_of_awake rfl
  · intro pre m t c m' hpre hstep ih hall
    rw [record_concat hpre hstep] at hall
    exact step_keeps hstep (fun u hu => hall u (List.mem_append_right _ hu))
      (ih fun u hu => hall u (List.mem_append_left _ hu))

theorem starts_of_step (h : step W s t c = some s') {a : UInt32 × UInt32} (ha : a ∈ sliceStarts s t s') :
    ∃ counter totalMs, s.pcs .producer = .sleep counter totalMs a.1 ∧ a.1 < totalMs ∧
      a.2 = s.shared.intervalMs := by
  obtain ⟨_,p,sh,hexec,rfl⟩ := step_inversion h
  unfold sliceStarts at ha
  split at ha
  · rename_i counter totalMs sleptMs _ _ _ hpc hpc'
    cases List.mem_singleton.mp ha
    refine ⟨counter,totalMs,hpc,?_,rfl⟩
    by_cases ht : t = .producer
    · subst ht
      have heffect : Effect .producer s.shared (Producer.code (s.pcs .producer)) p sh := exec_effect hexec
      simp only [Function.update_self] at hpc'
      rw [hpc, Producer.code] at heffect
      split at heffect
      · assumption
      · cases heffect
        cases hpc'
    · simp only [Function.update_of_ne (Ne.symm ht), hpc] at hpc'
      cases hpc'
  · cases ha

/-- A slice that starts, starts before the interval is over. -/
theorem step_starts (h : step W s t c = some s') (hk : Keeps (s.pcs .producer) s.shared.intervalMs) :
    ∀ a ∈ sliceStarts s t s', a.1 < a.2 := by
  intro a ha
  obtain ⟨counter,totalMs,hpc,hlt,heq⟩ := starts_of_step h ha
  rw [hpc] at hk
  have hcovers := hk.covers (lastStart totalMs) (by simp [pending, hlt])
  rw [heq, UInt32.lt_iff_toNat_lt]
  exact (le_lastStart hlt (hk.whole hlt)).trans_lt hcovers

theorem record_starts {schedule : List (Tid × Choice)} (hk : Keeps (s.pcs .producer) s.shared.intervalMs)
    (hresets : ∀ u ∈ record (resets W) W s schedule, u.1 < u.2.toNat) :
    ∀ a ∈ record sliceStarts W s schedule, a.1 < a.2 := by
  induction schedule generalizing s with
  | nil =>
    intro a ha
    cases ha
  | cons head rest ih =>
    obtain ⟨t,c⟩ := head
    cases hstep : step W s t c with
    | none =>
      intro a ha
      simp [record, hstep] at ha
    | some m =>
      rw [record_cons hstep] at hresets ⊢
      intro a ha
      have hkept := step_keeps hstep (fun u hu => hresets u (List.mem_append_left _ hu)) hk
      rcases List.mem_append.mp ha with ha | ha
      · exact step_starts hstep hk a ha
      · exact ih hkept (fun u hu => hresets u (List.mem_append_right _ hu)) a ha

theorem code_newInterval (pc : Producer.Pc) : (Producer.code pc).newInterval = none := by
  cases pc with
  | sleep counter totalMs sleptMs =>
    simp only [Producer.code]
    split <;> rfl
  | _ => rfl

def latest (W : ℕ) (ms : Option UInt32) (s : System) (t : Tid) : Option UInt32 :=
  if t = .producer then if readsInterval (s.pcs .producer) then none else ms else (s.op W t).newInterval.or ms

/-- The slices that start after an update during their sleep: the time slept, and the
last of these updates. -/
def lateUpdates (W : ℕ) : Option UInt32 → System → List (Tid × Choice) → List (UInt32 × UInt32)
  | _, _, [] => []
  | ms, s, (t,c) :: rest => ((step W s t c).map fun s' =>
      ((sliceStarts s t s').flatMap fun a => ms.toList.map fun new => (a.1,new)) ++
        lateUpdates W (latest W ms s t) s' rest).getD []

/-- The stored interval is the last update, or else the length of the sleep. -/
def Reflects (ms : Option UInt32) (s : System) : Prop :=
  ∀ stored ∈ ms.or (sleepMs (s.pcs .producer)), s.shared.intervalMs = stored

theorem step_reflects {ms : Option UInt32} (h : step W s t c = some s') (hs : Reflects ms s) :
    Reflects (latest W ms s t) s' := by
  obtain ⟨_,p,sh,hexec,rfl⟩ := step_inversion h
  have heffect := exec_effect hexec
  intro stored hstored
  change sh.intervalMs = stored
  -- the producer changes which sleep counts, the others what is stored
  by_cases ht : t = .producer
  · subst ht
    have hop : s.op W .producer = Producer.code (s.pcs .producer) := rfl
    rw [heffect.interval, hop, code_newInterval, Option.getD_none]
    simp only [latest, ↓reduceIte, Function.update_self] at hstored
    rcases effect_sleepMs (hop ▸ heffect) with ⟨hreads,hsleep⟩ | ⟨hreads,hsleep | hsleep⟩
    · rw [if_pos hreads, hsleep] at hstored
      exact Option.some.inj hstored
    · rw [hreads, if_neg Bool.false_ne_true, hsleep] at hstored
      exact hs stored hstored
    · rw [hreads, if_neg Bool.false_ne_true, hsleep, Option.or_none] at hstored
      exact hs stored (by rw [Option.mem_def.mp hstored]; rfl)
  · simp only [latest, if_neg ht, Function.update_of_ne (Ne.symm ht)] at hstored
    rw [heffect.interval]
    cases hnew : (s.op W t).newInterval with
    | none =>
      rw [hnew, Option.none_or] at hstored
      exact hs stored hstored
    | some new =>
      rw [hnew, Option.some_or, Option.some_or] at hstored
      exact Option.some.inj hstored

/-- Without an update during its sleep, a slice starts in time. -/
theorem step_late {ms : Option UInt32} (h : step W s t c = some s') (hs : Reflects ms s) :
    (∀ a ∈ sliceStarts s t s', a.1 < a.2) ↔
      ∀ a ∈ (sliceStarts s t s').flatMap fun a => ms.toList.map fun new => (a.1,new), a.1 < a.2 := by
  have hstored : ∀ a ∈ sliceStarts s t s', a.1 < a.2 ↔ ∀ new ∈ ms, a.1 < new := by
    intro a ha
    obtain ⟨counter,totalMs,hpc,hlt,heq⟩ := starts_of_step h ha
    rw [Reflects, hpc] at hs
    cases ms with
    | none =>
      rw [heq, hs totalMs rfl]
      exact iff_of_true hlt fun _ hnew => by cases hnew
    | some new =>
      rw [heq, hs new rfl]
      simp
  constructor
  · intro hall b hb
    obtain ⟨a,ha,hb⟩ := List.mem_flatMap.mp hb
    obtain ⟨new,hnew,rfl⟩ := List.mem_map.mp hb
    exact (hstored a ha).mp (hall a ha) new (Option.mem_toList.mp hnew)
  · intro hall a ha
    refine (hstored a ha).mpr fun new hnew => hall (a.1,new) ?_
    exact List.mem_flatMap.mpr ⟨a,ha,List.mem_map.mpr ⟨new,Option.mem_toList.mpr hnew,rfl⟩⟩

theorem record_late {ms : Option UInt32} {schedule : List (Tid × Choice)} (hs : Reflects ms s) :
    (∀ a ∈ record sliceStarts W s schedule, a.1 < a.2) ↔ ∀ a ∈ lateUpdates W ms s schedule, a.1 < a.2 := by
  induction schedule generalizing s ms with
  | nil => exact Iff.rfl
  | cons head rest ih =>
    obtain ⟨t,c⟩ := head
    cases hstep : step W s t c with
    | none => simp [record, lateUpdates, hstep]
    | some m =>
      rw [record_cons hstep, lateUpdates, hstep, Option.map_some, Option.getD_some, List.forall_mem_append,
        List.forall_mem_append, step_late hstep hs, ih (step_reflects hstep hs)]

/-- In every run the producer starts each slice before the stored interval is over
exactly if the slices that start after an update during their sleep start before the
last such update is over; and so it does in a run that never shortens the interval of
a sleep to the start of its last slice or below. -/
theorem slices_within_interval (W : ℕ) (schedule : List (Tid × Choice)) :
    ((∀ a ∈ record sliceStarts W .initial schedule, a.1 < a.2) ↔
      ∀ a ∈ lateUpdates W none .initial schedule, a.1 < a.2) ∧
    ((∀ u ∈ record (resets W) W .initial schedule, u.1 < u.2.toNat) →
      ∀ a ∈ record sliceStarts W .initial schedule, a.1 < a.2) :=
  ⟨record_late fun _ hstored => (by cases hstored),record_starts (s := .initial) (keeps_of_awake rfl)⟩

/-- The producer ticks, sleeps one slice, and the client sets other intervals. -/
def resetWhileAsleep (lines : List Bytes) : List (Tid × Choice) :=
  startUp ++ connect ++ proceed .producer 6 ++ lines.flatMap (fun line => command line ++ proceed (.listener 0) 1) ++
    proceed .producer 1

/-- A longer interval; and one that would be too short, with a longer one after it
before the next slice starts. -/
theorem slices_within_interval_longer :
    let longer := resetWhileAsleep [ascii "SET_INTERVAL 2000\n"]
    let corrected := resetWhileAsleep [ascii "SET_INTERVAL 50\n",ascii "SET_INTERVAL 2000\n"]
    (record (resets Main.workerPoolDefaultSize) Main.workerPoolDefaultSize .initial longer = [(900,2000)] ∧
      record sliceStarts Main.workerPoolDefaultSize .initial longer = [(0,1000),(100,2000)] ∧
      ∀ a ∈ record sliceStarts Main.workerPoolDefaultSize .initial longer, a.1 < a.2) ∧
    (record (resets Main.workerPoolDefaultSize) Main.workerPoolDefaultSize .initial corrected = [(900,50),(900,2000)] ∧
      lateUpdates Main.workerPoolDefaultSize none .initial corrected = [(100,2000)] ∧
      ∀ a ∈ record sliceStarts Main.workerPoolDefaultSize .initial corrected, a.1 < a.2) := by
  intro longer corrected
  have hresets : record (resets Main.workerPoolDefaultSize) Main.workerPoolDefaultSize .initial longer =
      [(900,2000)] := by decide +kernel
  have hlate : lateUpdates Main.workerPoolDefaultSize none .initial corrected = [(100,2000)] := by decide +kernel
  refine ⟨⟨hresets,by decide +kernel,(slices_within_interval _ _).2 ?_⟩,
    ⟨by decide +kernel,hlate,(slices_within_interval _ _).1.mpr ?_⟩⟩
  · rw [hresets]
    exact List.forall_mem_singleton.mpr (by decide)
  · rw [hlate]
    exact List.forall_mem_singleton.mpr (by decide)

/-- After one slice of a second the interval becomes 50 ms, and the next slice starts. -/
theorem slice_beyond_interval :
    let schedule := resetWhileAsleep [ascii "SET_INTERVAL 50\n"]
    (∃ s, run Main.workerPoolDefaultSize .initial schedule = some s ∧ s.shared.intervalMs = 50) ∧
    record sliceStarts Main.workerPoolDefaultSize .initial schedule = [(0,1000),(100,50)] := by
  intro schedule
  have hobserved : (run Main.workerPoolDefaultSize .initial schedule).map (fun s => s.shared.intervalMs) =
      some 50 := by decide +kernel
  exact ⟨Option.map_eq_some_iff.mp hobserved,by decide +kernel⟩

section Sharpness
variable {counter totalMs sleptMs : UInt32}

def System.producerAt (s : System) (pc : Producer.Pc) : System :=
  ⟨Function.update s.pcs .producer pc,s.shared⟩

theorem producerAt_pc (s : System) (pc : Producer.Pc) : (s.producerAt pc).pcs .producer = pc := by
  simp only [System.producerAt, Function.update_self]

/-- With a slice to start and no stop request, the producer starts it. -/
theorem step_sleep (W : ℕ) (hrunning : s.Running .producer) (hstop : s.shared.stop = false)
    (hpc : s.pcs .producer = .sleep counter totalMs sleptMs) (hlt : sleptMs < totalMs) :
    step W s .producer .ok = some (s.producerAt (.slice counter totalMs sleptMs)) := by
  have hop : s.op W .producer = .shutdownRequested fun stop =>
      if stop then .loop counter else .slice counter totalMs sleptMs := by
    simp only [System.op, code, hpc, Producer.code, hlt, ↓reduceIte]
  rw [step, if_pos hrunning, hop]
  simp [exec, hstop, System.producerAt]

theorem step_slice (W : ℕ) (hrunning : s.Running .producer)
    (hpc : s.pcs .producer = .slice counter totalMs sleptMs) :
    step W s .producer .ok =
      some (s.producerAt (.sleep counter totalMs (sleptMs + sliceMs totalMs sleptMs))) := by
  have hop : s.op W .producer = .tau (.sleep counter totalMs (sleptMs + sliceMs totalMs sleptMs)) := by
    simp only [System.op, code, hpc, Producer.code]
  rw [step, if_pos hrunning, hop]
  rfl

/-- Alone, the producer sleeps slice after slice. -/
theorem run_slices (W n : ℕ) (hrunning : s.Running .producer) (hstop : s.shared.stop = false)
    (hpc : s.pcs .producer = .sleep counter totalMs sleptMs) (hlt : sleptMs.toNat + 100 * n < totalMs.toNat) :
    ∃ m later, run W s (proceed .producer (2 * n)) = some m ∧ m.pcs .producer = .sleep counter totalMs later ∧
      later.toNat = sleptMs.toNat + 100 * n ∧ m.shared = s.shared := by
  induction n generalizing s sleptMs with
  | zero => exact ⟨s,sleptMs,rfl,hpc,rfl,rfl⟩
  | succ n ih =>
    have hless : sleptMs < totalMs := UInt32.lt_iff_toNat_lt.mpr (by omega)
    have hadvance := toNat_advance hless
    have hfirst := step_sleep W hrunning hstop hpc hless
    have hsecond := step_slice W (s := s.producerAt (.slice counter totalMs sleptMs)) hrunning (producerAt_pc ..)
    obtain ⟨m,later,hrun,hm,hlater,hshared⟩ := ih (s := (s.producerAt (.slice counter totalMs sleptMs)).producerAt
      (.sleep counter totalMs (sleptMs + sliceMs totalMs sleptMs))) hrunning hstop (producerAt_pc ..) (by omega)
    refine ⟨m,later,?_,hm,by omega,hshared⟩
    rw [Nat.mul_succ, proceed, List.replicate_succ, List.replicate_succ, run, hfirst, Option.bind_some, run, hsecond,
      Option.bind_some]
    exact hrun

/-- The sleeping producer, left alone, starts its last slice. -/
theorem reaches_lastStart (W : ℕ) (hrunning : s.Running .producer) (hstop : s.shared.stop = false)
    (hpc : s.pcs .producer = .sleep counter totalMs sleptMs) (hlt : sleptMs < totalMs)
    (hwhole : sleptMs.toNat % 100 = 0) :
    ∃ k, ∃ a ∈ record sliceStarts W s (proceed .producer k),
      a.1.toNat = lastStart totalMs ∧ a.2 = s.shared.intervalMs := by
  have hlast := le_lastStart hlt hwhole
  have hlast' : lastStart totalMs < totalMs.toNat := lastStart_lt (UInt32.lt_of_le_of_lt UInt32.zero_le hlt)
  have hmod : lastStart totalMs % 100 = 0 := Nat.mul_mod_left _ _
  have hcount : sleptMs.toNat + 100 * ((lastStart totalMs - sleptMs.toNat) / 100) = lastStart totalMs := by omega
  obtain ⟨m,later,hrun,hm,hlater,hshared⟩ :=
    run_slices W ((lastStart totalMs - sleptMs.toNat) / 100) hrunning hstop hpc (by omega)
  have hrunning' : m.Running .producer := ⟨hshared ▸ hrunning.1,hshared ▸ hrunning.2⟩
  have hstep := step_sleep W hrunning' (hshared ▸ hstop) hm (UInt32.lt_iff_toNat_lt.mpr (by omega))
  refine ⟨2 * ((lastStart totalMs - sleptMs.toNat) / 100) + 1,(later,m.shared.intervalMs),?_,
    hlater.trans hcount,by rw [hshared]⟩
  rw [proceed, List.replicate_succ', ← proceed, record_concat hrun hstep]
  refine List.mem_append_right _ ?_
  simp only [sliceStarts, hm, producerAt_pc, List.mem_singleton]

/-- The same from within a slice, if it is not the last. -/
theorem pending_starts (W : ℕ) (hrunning : s.Running .producer) (hstop : s.shared.stop = false)
    (hwhole : Whole (s.pcs .producer)) {last : ℕ} (hpending : pending (s.pcs .producer) = some last) :
    ∃ k, ∃ a ∈ record sliceStarts W s (proceed .producer k), a.1.toNat = last ∧ a.2 = s.shared.intervalMs := by
  cases hpc : s.pcs .producer with
  | sleep counter totalMs sleptMs =>
    rw [hpc] at hwhole hpending
    simp only [pending, Option.ite_none_right_eq_some, Option.some.injEq] at hpending
    obtain ⟨hlt,rfl⟩ := hpending
    exact reaches_lastStart W hrunning hstop hpc hlt (hwhole hlt)
  | slice counter totalMs sleptMs =>
    rw [hpc] at hwhole hpending
    simp only [pending, Option.ite_none_right_eq_some, Option.some.injEq] at hpending
    obtain ⟨hlt,rfl⟩ := hpending
    have hlt' := UInt32.lt_iff_toNat_lt.mp hlt
    have hadvance := toNat_advance hwhole.1
    have hwhole' := hwhole.2
    have hstep := step_slice W hrunning hpc
    obtain ⟨k,a,ha,hstart⟩ := reaches_lastStart W
      (s := s.producerAt (.sleep counter totalMs (sleptMs + sliceMs totalMs sleptMs))) hrunning hstop
      (producerAt_pc ..) hlt (by omega)
    refine ⟨k + 1,a,?_,hstart⟩
    rw [proceed, List.replicate_succ, record_cons hstep]
    exact List.mem_append_right _ ha
  | _ =>
    rw [hpc] at hpending
    cases hpending

theorem record_resets_producer (k : ℕ) : record (resets W) W s (proceed .producer k) = [] := by
  induction k generalizing s with
  | zero => rfl
  | succ k ih =>
    rw [proceed, List.replicate_succ]
    cases hstep : step W s .producer .ok with
    | none => simp [record, hstep]
    | some m =>
      have hnone : resets W s .producer m = [] := by
        rw [resets, System.op, show code W .producer = Producer.code from rfl, code_newInterval]
        rfl
      rw [record_cons hstep, hnone]
      exact ih

/-- Whether an update is harmful is decided by the sleep it comes into: after a run
without harmful updates, the next step is harmless exactly when the producer, left
alone, starts all its slices within the interval. -/
theorem harmless_iff {schedule : List (Tid × Choice)} (hrun : run W .initial schedule = some s)
    (hresets : ∀ u ∈ record (resets W) W .initial schedule, u.1 < u.2.toNat) (hstep : step W s t c = some s')
    (hrunning : s'.Running .producer) (hstop : s'.shared.stop = false) :
    (∀ u ∈ resets W s t s', u.1 < u.2.toNat) ↔
      ∀ k, ∀ a ∈ record sliceStarts W s' (proceed .producer k), a.1 < a.2 := by
  have hk := run_keeps hrun hresets
  constructor
  · intro hharmless k
    refine record_starts (step_keeps hstep hharmless hk) ?_
    rw [record_resets_producer]
    intro u hu
    cases hu
  · rintro hstarts ⟨last,ms⟩ hu
    obtain ⟨hnew,hpending⟩ := mem_resets.mp hu
    obtain ⟨_,p,sh,hexec,rfl⟩ := step_inversion hstep
    have ht : t ≠ .producer := by
      rintro rfl
      rw [System.op, show code W .producer = Producer.code from rfl, code_newInterval] at hnew
      cases hnew
    have hpc : (⟨Function.update s.pcs t p,sh⟩ : System).pcs .producer = s.pcs .producer :=
      Function.update_of_ne (Ne.symm ht) ..
    have hinterval : sh.intervalMs = ms := by rw [(exec_effect hexec).interval, hnew, Option.getD_some]
    obtain ⟨k,a,ha,hlast,heq⟩ := pending_starts W hrunning hstop (hpc ▸ hk.whole) (hpc ▸ hpending)
    have hlt := UInt32.lt_iff_toNat_lt.mp (hstarts k a ha)
    rw [hlast, heq] at hlt
    exact hinterval ▸ hlt

end Sharpness

end RadioSim.Process
