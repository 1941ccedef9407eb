import RadioSim.Foundation.Waking
import Mathlib.Data.List.Basic
import Mathlib.Data.List.Induction

/-! # Critical sections

Any number of threads call routines that share a memory under one mutex with
condition variables. A routine takes the mutex, runs statements, and gives the
mutex back with its answer; it may wait for a condition in between, and it may
return before it takes the mutex. A step of the
machine is one statement of one thread. A second machine runs a whole critical
section as one step. Every run of the first one shows the same events as a run of
the second, so it is enough to know what a section does when its thread is alone.
-/
namespace RadioSim.Locking
open Waking
variable {T K M C P A : Type*}

inductive Stmt (K M P A : Type*)
  | access (f : M → P × M)
  | signal (k : K) (next : P)
  | broadcast (k : K) (next : P)
  | wait (k : K) (next : P)
  | unlock (a : A)

/-- The answer of a call that returns before its lock, where the section of any other call
starts, and the statement at each program point. -/
structure Routines (C K M P A : Type*) where
  early : C → Option A
  entry : C → P
  code : P → Stmt K M P A

/-- Where a thread is: outside of all calls, before the lock of its call, at a statement,
in a wait with the point at which it continues, and between its unlock and its return. -/
inductive Place (C K P A : Type*)
  | idle
  | calling (c : C)
  | running (c : C) (p : P)
  | asleep (c : C) (k : K) (p : P)
  | awake (c : C) (k : K) (p : P) (notified : Bool)
  | returning (c : C) (a : A)

structure State (T C K M P A : Type*) where
  mutex : Option T
  memory : M
  threads : T → Place C K P A

/-- What an observer sees of the calls: the call, the end of the critical section that
answers it, and the return. -/
inductive Event (T C A : Type*)
  | invoke (t : T) (c : C)
  | commit (t : T) (c : C) (a : A)
  | respond (t : T) (c : C) (a : A)

def Place.Asleep : Place C K P A → Prop
  | .asleep _ _ _ => True
  | _ => False

def sleepers : Sleepers K (Place C K P A) where
  asleepOn
    | .asleep _ k _ => some k
    | _ => none
  rouse
    | .asleep c k p => .awake c k p true
    | place => place
  rouse_awake place := by cases place <;> rfl

inductive Run {S E : Type*} (step : S → List E → S → Prop) (s : S) : List E → S → Prop
  | refl : Run step s [] s
  | tail {m s' : S} {trace events : List E} : Run step s trace m → step m events s' → Run step s (trace ++ events) s'

theorem wokenAll_place [DecidableEq T] [DecidableEq K] {ws : List (Wake K)} {f g : T → Place C K P A}
    (h : WokenAll sleepers ws f g) (t : T) : g t = f t ∨ ∃ c k p, f t = .asleep c k p ∧ g t = .awake c k p true := by
  rcases h.place t with hsame | ⟨k,hk,hroused⟩
  · exact Or.inl hsame
  · cases hf : f t with
    | asleep c k' p => exact Or.inr ⟨c,k',p,rfl,by rw [hroused, hf]; rfl⟩
    | _ =>
      rw [hf] at hk
      cases hk

section Machines
variable [DecidableEq T] [DecidableEq K] (R : Routines C K M P A)

/-- One statement of thread `t`, or a spurious wakeup of it. -/
inductive Step (t : T) : State T C K M P A → List (Event T C A) → State T C K M P A → Prop
  | invoke {s : State T C K M P A} {c : C} (h : s.threads t = .idle) :
      Step t s [.invoke t c] { s with threads := Function.update s.threads t (.calling c) }
  | returnEarly {s : State T C K M P A} {c : C} {a : A} (h : s.threads t = .calling c) (hearly : R.early c = some a) :
      Step t s [.commit t c a] { s with threads := Function.update s.threads t (.returning c a) }
  | lock {s : State T C K M P A} {c : C} (h : s.threads t = .calling c) (hlocks : R.early c = none)
      (hfree : s.mutex = none) :
      Step t s [] { s with mutex := some t, threads := Function.update s.threads t (.running c (R.entry c)) }
  | relock {s : State T C K M P A} {c : C} {k : K} {p : P} {notified : Bool}
      (h : s.threads t = .awake c k p notified) (hfree : s.mutex = none) :
      Step t s [] { s with mutex := some t, threads := Function.update s.threads t (.running c p) }
  | access {s : State T C K M P A} {c : C} {p : P} {f : M → P × M} (h : s.threads t = .running c p)
      (hcode : R.code p = .access f) :
      Step t s [] { s with
        memory := (f s.memory).2
        threads := Function.update s.threads t (.running c (f s.memory).1) }
  | signal {s : State T C K M P A} {c : C} {k : K} {p next : P} {f : T → Place C K P A}
      (h : s.threads t = .running c p) (hcode : R.code p = .signal k next) (hwoken : Woken sleepers (.signal k) s.threads f) :
      Step t s [] { s with threads := Function.update f t (.running c next) }
  | broadcast {s : State T C K M P A} {c : C} {k : K} {p next : P} {f : T → Place C K P A}
      (h : s.threads t = .running c p) (hcode : R.code p = .broadcast k next)
      (hwoken : Woken sleepers (.broadcast k) s.threads f) :
      Step t s [] { s with threads := Function.update f t (.running c next) }
  | wait {s : State T C K M P A} {c : C} {k : K} {p next : P} (h : s.threads t = .running c p)
      (hcode : R.code p = .wait k next) :
      Step t s [] { s with mutex := none, threads := Function.update s.threads t (.asleep c k next) }
  | unlock {s : State T C K M P A} {c : C} {p : P} {a : A} (h : s.threads t = .running c p)
      (hcode : R.code p = .unlock a) :
      Step t s [.commit t c a] { s with mutex := none, threads := Function.update s.threads t (.returning c a) }
  | wakeSpuriously {s : State T C K M P A} {c : C} {k : K} {p : P} (h : s.threads t = .asleep c k p) :
      Step t s [] { s with threads := Function.update s.threads t (.awake c k p false) }
  | respond {s : State T C K M P A} {c : C} {a : A} (h : s.threads t = .returning c a) :
      Step t s [.respond t c a] { s with threads := Function.update s.threads t .idle }

def AnyStep (s : State T C K M P A) (events : List (Event T C A)) (s' : State T C K M P A) : Prop :=
  ∃ t, Step R t s events s'

/-- The statements of a section from one point to another, its thread being alone, with
the wakes it sends. -/
inductive Section (p : P) (m : M) : List (Wake K) → P → M → Prop
  | start : Section p m [] p m
  | access {q : P} {m' : M} {ws : List (Wake K)} {f : M → P × M} (h : Section p m ws q m')
      (hcode : R.code q = .access f) : Section p m ws (f m').1 (f m').2
  | signal {q next : P} {m' : M} {ws : List (Wake K)} {k : K} (h : Section p m ws q m')
      (hcode : R.code q = .signal k next) : Section p m (ws ++ [.signal k]) next m'
  | broadcast {q next : P} {m' : M} {ws : List (Wake K)} {k : K} (h : Section p m ws q m')
      (hcode : R.code q = .broadcast k next) : Section p m (ws ++ [.broadcast k]) next m'

omit [DecidableEq K] in
/-- What holds at the start of a section and is kept by each of its statements. -/
theorem Section.invariant {R : Routines C K M P A} {J : List (Wake K) → P → M → Prop} {p q : P} {m m' : M}
    {ws : List (Wake K)} (h : Section R p m ws q m') (hstart : J [] p m)
    (haccess : ∀ ws q m f, J ws q m → R.code q = .access f → J ws (f m).1 (f m).2)
    (hsignal : ∀ ws q m k next, J ws q m → R.code q = .signal k next → J (ws ++ [.signal k]) next m)
    (hbroadcast : ∀ ws q m k next, J ws q m → R.code q = .broadcast k next → J (ws ++ [.broadcast k]) next m) :
    J ws q m' := by
  induction h with
  | start => exact hstart
  | access _ hcode ih => exact haccess _ _ _ _ ih hcode
  | signal _ hcode ih => exact hsignal _ _ _ _ _ ih hcode
  | broadcast _ hcode ih => exact hbroadcast _ _ _ _ _ ih hcode

def Place.Starts : Place C K P A → C → P → Prop
  | .calling c, c', p => c = c' ∧ R.early c = none ∧ R.entry c = p
  | .awake c _ p' _, c', p => c = c' ∧ p' = p
  | _, _, _ => False

/-- A machine between its critical sections: what the threads share, and where they are. -/
structure Between (T C K M P A : Type*) where
  memory : M
  threads : T → Place C K P A

/-- One critical section, or a step that needs no mutex. -/
inductive AtomicStep : Between T C K M P A → List (Event T C A) → Between T C K M P A → Prop
  | invoke {s : Between T C K M P A} {t : T} {c : C} (h : s.threads t = .idle) :
      AtomicStep s [.invoke t c] { s with threads := Function.update s.threads t (.calling c) }
  | returnEarly {s : Between T C K M P A} {t : T} {c : C} {a : A} (h : s.threads t = .calling c)
      (hearly : R.early c = some a) :
      AtomicStep s [.commit t c a] { s with threads := Function.update s.threads t (.returning c a) }
  | finish {s : Between T C K M P A} {t : T} {c : C} {p q : P} {ws : List (Wake K)} {f : T → Place C K P A} {m : M}
      {a : A} (h : (s.threads t).Starts R c p) (hsection : Section R p s.memory ws q m)
      (hcode : R.code q = .unlock a) (hwoken : WokenAll sleepers ws s.threads f) :
      AtomicStep s [.commit t c a] ⟨m,Function.update f t (.returning c a)⟩
  | park {s : Between T C K M P A} {t : T} {c : C} {k : K} {p q next : P} {ws : List (Wake K)}
      {f : T → Place C K P A} {m : M} (h : (s.threads t).Starts R c p) (hsection : Section R p s.memory ws q m)
      (hcode : R.code q = .wait k next) (hwoken : WokenAll sleepers ws s.threads f) :
      AtomicStep s [] ⟨m,Function.update f t (.asleep c k next)⟩
  | wakeSpuriously {s : Between T C K M P A} {t : T} {c : C} {k : K} {p : P} (h : s.threads t = .asleep c k p) :
      AtomicStep s [] { s with threads := Function.update s.threads t (.awake c k p false) }
  | respond {s : Between T C K M P A} {t : T} {c : C} {a : A} (h : s.threads t = .returning c a) :
      AtomicStep s [.respond t c a] { s with threads := Function.update s.threads t .idle }

def State.start (m : M) : State T C K M P A := ⟨none,m,fun _ => .idle⟩

def Between.start (m : M) : Between T C K M P A := ⟨m,fun _ => .idle⟩

/-- The section that a thread is in has not happened yet for the other machine: it shows
the memory and the sleepers as they were when the mutex was taken. -/
inductive Lags : State T C K M P A → Between T C K M P A → Prop
  | free (m : M) (f : T → Place C K P A) (hnot : ∀ t c p, f t ≠ .running c p) : Lags ⟨none,m,f⟩ ⟨m,f⟩
  | held {m m₀ : M} {f f₀ : T → Place C K P A} {t : T} {c : C} {p q : P} {ws : List (Wake K)}
      (h : (f₀ t).Starts R c p) (hsection : Section R p m₀ ws q m) (hwoken : WokenAll sleepers ws f₀ f)
      (hnot : ∀ t c p, f₀ t ≠ .running c p) :
      Lags ⟨some t,m,Function.update f t (.running c q)⟩ ⟨m₀,f₀⟩

variable {R} {s s' : State T C K M P A} {a : Between T C K M P A} {t : T}

omit [DecidableEq K] in
theorem Place.Starts.awake {x : Place C K P A} {c : C} {p : P} (h : x.Starts R c p) : sleepers.asleepOn x = none := by
  cases x with
  | calling | awake => rfl
  | _ => exact h.elim

/-- What a thread does without the mutex does not concern the section under way. -/
theorem Lags.outside (h : Lags R s a) {x y : Place C K P A} (ht : s.threads t = x) (hx : ∀ c p, x ≠ .running c p)
    (hx' : ∀ c k p, x ≠ .awake c k p true) (hy : sleepers.asleepOn y = none) (hy' : ∀ c p, y ≠ .running c p) :
    a.threads t = x ∧
      Lags R { s with threads := Function.update s.threads t y } { a with threads := Function.update a.threads t y } := by
  have hrest : ∀ f : T → Place C K P A, (∀ u c p, f u ≠ .running c p) →
      ∀ u c p, Function.update f t y u ≠ .running c p := by
    intro f hnot u c p
    by_cases hu : u = t
    · rw [hu, Function.update_self]
      exact hy' c p
    · rw [Function.update_of_ne hu]
      exact hnot u c p
  cases h with
  | free m f hnot => exact ⟨ht,.free m _ (hrest f hnot)⟩
  | @held m m₀ f f₀ u c p q ws hstarts hsection hwoken hnot =>
    have hne : t ≠ u := by
      rintro rfl
      exact hx c q (ht.symm.trans (Function.update_self ..))
    have hf : f t = x := (Function.update_of_ne hne ..).symm.trans ht
    have hsame : f t = f₀ t := by
      rcases wokenAll_place hwoken t with hsame | ⟨c',k,p',_,hawake⟩
      · exact hsame
      · exact absurd (hf.symm.trans hawake) (hx' c' k p')
    refine ⟨hsame.symm.trans hf,?_⟩
    simp only [Function.update_comm hne.symm]
    refine .held ?_ hsection (hwoken.update hsame hy) (hrest f₀ hnot)
    rwa [Function.update_of_ne hne.symm]

/-- Only the thread that has the mutex is inside a section. -/
theorem Lags.running (h : Lags R s a) {c : C} {q : P} (ht : s.threads t = .running c q) :
    s.mutex = some t ∧ ∃ p ws f, (a.threads t).Starts R c p ∧ Section R p a.memory ws q s.memory ∧
      WokenAll sleepers ws a.threads f ∧ (∀ t c p, a.threads t ≠ .running c p) ∧
      s.threads = Function.update f t (.running c q) := by
  cases h with
  | free m f hnot => exact absurd ht (hnot t c q)
  | @held m m₀ f f₀ u c' p q' ws hstarts hsection hwoken hnot =>
    by_cases hu : t = u
    · subst hu
      have heq := (Function.update_self t (Place.running c' q') f).symm.trans ht
      cases heq
      exact ⟨rfl,p,ws,f,hstarts,hsection,hwoken,hnot,rfl⟩
    · have hf : f t = .running c q := (Function.update_of_ne hu ..).symm.trans ht
      rcases wokenAll_place hwoken t with hsame | ⟨_,_,_,_,hawake⟩
      · exact absurd (hsame.symm.trans hf) (hnot t c q)
      · rw [hawake] at hf
        cases hf

theorem not_running {ws : List (Wake K)} {f₀ f : T → Place C K P A} {x : Place C K P A} (hwoken : WokenAll sleepers ws f₀ f)
    (hnot : ∀ t c p, f₀ t ≠ .running c p) (hx : ∀ c p, x ≠ .running c p) (u : T) (c : C) (p : P) :
    Function.update f t x u ≠ .running c p := by
  by_cases hu : u = t
  · rw [hu, Function.update_self]
    exact hx c p
  · rw [Function.update_of_ne hu]
    rcases wokenAll_place hwoken u with hsame | ⟨_,_,_,_,hawake⟩
    · rw [hsame]
      exact hnot u c p
    · rw [hawake]
      nofun

/-- The machine of the critical sections follows every statement, and shows what it shows. -/
theorem step_lags {events : List (Event T C A)} (h : Lags R s a) (hstep : AnyStep R s events s') :
    (events = [] ∧ Lags R s' a) ∨ ∃ a', AtomicStep R a events a' ∧ Lags R s' a' := by
  obtain ⟨t,hstep⟩ := hstep
  cases hstep with
  | invoke ht =>
    obtain ⟨ha,hlags⟩ := h.outside ht nofun nofun (y := .calling _) rfl nofun
    exact Or.inr ⟨_,.invoke ha,hlags⟩
  | respond ht =>
    obtain ⟨ha,hlags⟩ := h.outside ht nofun nofun (y := .idle) rfl nofun
    exact Or.inr ⟨_,.respond ha,hlags⟩
  | wakeSpuriously ht =>
    obtain ⟨ha,hlags⟩ := h.outside ht nofun nofun (y := .awake _ _ _ false) rfl nofun
    exact Or.inr ⟨_,.wakeSpuriously ha,hlags⟩
  | returnEarly ht hearly =>
    obtain ⟨ha,hlags⟩ := h.outside ht nofun nofun (y := .returning _ _) rfl nofun
    exact Or.inr ⟨_,.returnEarly ha hearly,hlags⟩
  | lock ht hlocks hfree =>
    -- the section has begun here, and not yet for the other machine
    cases h with
    | free m f hnot =>
      refine Or.inl ⟨rfl,.held ?_ Section.start .nil hnot⟩
      dsimp only at ht
      rw [ht]
      exact ⟨rfl,hlocks,rfl⟩
    | held => cases hfree
  | relock ht hfree =>
    cases h with
    | free m f hnot =>
      refine Or.inl ⟨rfl,.held ?_ Section.start .nil hnot⟩
      dsimp only at ht
      rw [ht]
      exact ⟨rfl,rfl⟩
    | held => cases hfree
  | access ht hcode =>
    obtain ⟨hmutex,p,ws,f,hstarts,hsection,hwoken,hnot,hthreads⟩ := h.running ht
    refine Or.inl ⟨rfl,?_⟩
    rw [hthreads, Function.update_idem, hmutex]
    exact .held hstarts (hsection.access hcode) hwoken hnot
  | signal ht hcode hwake =>
    obtain ⟨hmutex,p,ws,f,hstarts,hsection,hwoken,hnot,hthreads⟩ := h.running ht
    rw [hthreads] at hwake
    obtain ⟨g,hall,heq⟩ := hwoken.wake hstarts.awake rfl hwake
    refine Or.inl ⟨rfl,?_⟩
    rw [heq, hmutex]
    exact .held hstarts (hsection.signal hcode) hall hnot
  | broadcast ht hcode hwake =>
    obtain ⟨hmutex,p,ws,f,hstarts,hsection,hwoken,hnot,hthreads⟩ := h.running ht
    rw [hthreads] at hwake
    obtain ⟨g,hall,heq⟩ := hwoken.wake hstarts.awake rfl hwake
    refine Or.inl ⟨rfl,?_⟩
    rw [heq, hmutex]
    exact .held hstarts (hsection.broadcast hcode) hall hnot
  | wait ht hcode =>
    -- the wait ends the section, so all of it happens now
    obtain ⟨_,p,ws,f,hstarts,hsection,hwoken,hnot,hthreads⟩ := h.running ht
    refine Or.inr ⟨_,.park hstarts hsection hcode hwoken,?_⟩
    rw [hthreads, Function.update_idem]
    exact .free _ _ (not_running hwoken hnot nofun)
  | unlock ht hcode =>
    obtain ⟨_,p,ws,f,hstarts,hsection,hwoken,hnot,hthreads⟩ := h.running ht
    refine Or.inr ⟨_,.finish hstarts hsection hcode hwoken,?_⟩
    rw [hthreads, Function.update_idem]
    exact .free _ _ (not_running hwoken hnot nofun)

/-- The thread is in a call, does not sleep, and can execute its next statement. -/
def Advances (R : Routines C K M P A) (s : State T C K M P A) (t : T) : Prop :=
  s.threads t ≠ .idle ∧ ¬ (s.threads t).Asleep ∧ ∃ events s', Step R t s events s'

/-- Who has the mutex is never held up. -/
theorem advances_of_running {c : C} {p : P} (ht : s.threads t = .running c p) : Advances R s t := by
  refine ⟨by simp [ht],by simp [ht, Place.Asleep],?_⟩
  cases hcode : R.code p with
  | access f => exact ⟨_,_,.access ht hcode⟩
  | signal k next =>
    obtain ⟨f,hf⟩ := exists_woken sleepers (.signal k) s.threads
    exact ⟨_,_,.signal ht hcode hf⟩
  | broadcast k next =>
    obtain ⟨f,hf⟩ := exists_woken sleepers (.broadcast k) s.threads
    exact ⟨_,_,.broadcast ht hcode hf⟩
  | wait k next => exact ⟨_,_,.wait ht hcode⟩
  | unlock a => exact ⟨_,_,.unlock ht hcode⟩

/-- `n` statements of one thread with no other thread in between. -/
inductive Alone (R : Routines C K M P A) (t : T) : ℕ → State T C K M P A → State T C K M P A → Prop
  | zero (s : State T C K M P A) : Alone R t 0 s s
  | succ {n : ℕ} {s m s' : State T C K M P A} {events : List (Event T C A)} (h : Step R t s events m)
      (hrest : Alone R t n m s') : Alone R t (n + 1) s s'

/-- Sections without loops: the rank bounds the statements up to the unlock or the wait. -/
def Descends (R : Routines C K M P A) (rank : P → ℕ) : Prop :=
  ∀ p, match R.code p with
    | .access f => ∀ m, rank (f m).1 < rank p
    | .signal _ next | .broadcast _ next => rank next < rank p
    | _ => True

theorem releases {rank : P → ℕ} (hrank : Descends R rank) {c : C} {p : P} (ht : s.threads t = .running c p) :
    ∃ n ≤ rank p + 1, ∃ s', Alone R t n s s' ∧ s'.mutex = none := by
  induction hn : rank p using Nat.strongRecOn generalizing s p with
  | _ n ih =>
    subst hn
    have hdescends := hrank p
    cases hcode : R.code p with
    | wait k next => exact ⟨1,by omega,_,.succ (.wait ht hcode) (.zero _),rfl⟩
    | unlock a => exact ⟨1,by omega,_,.succ (.unlock ht hcode) (.zero _),rfl⟩
    | access f =>
      rw [hcode] at hdescends
      have hlt := hdescends s.memory
      obtain ⟨n,hle,s',hrun,hfree⟩ := ih _ hlt
        (s := ⟨s.mutex,(f s.memory).2,Function.update s.threads t (.running c (f s.memory).1)⟩)
        (Function.update_self ..) rfl
      exact ⟨n + 1,by omega,s',.succ (.access ht hcode) hrun,hfree⟩
    | signal k next =>
      rw [hcode] at hdescends
      obtain ⟨f,hf⟩ := exists_woken sleepers (.signal k) s.threads
      obtain ⟨n,hle,s',hrun,hfree⟩ := ih _ hdescends
        (s := ⟨s.mutex,s.memory,Function.update f t (.running c next)⟩) (Function.update_self ..) rfl
      exact ⟨n + 1,by omega,s',.succ (.signal ht hcode hf) hrun,hfree⟩
    | broadcast k next =>
      rw [hcode] at hdescends
      obtain ⟨f,hf⟩ := exists_woken sleepers (.broadcast k) s.threads
      obtain ⟨n,hle,s',hrun,hfree⟩ := ih _ hdescends
        (s := ⟨s.mutex,s.memory,Function.update f t (.running c next)⟩) (Function.update_self ..) rfl
      exact ⟨n + 1,by omega,s',.succ (.broadcast ht hcode hf) hrun,hfree⟩

/-- If nobody advances, the mutex is free and everybody in a call sleeps. -/
theorem Lags.stuck (h : Lags R s a) (hstuck : ∀ t, ¬ Advances R s t) :
    s.mutex = none ∧ ∀ t, s.threads t = .idle ∨ (s.threads t).Asleep := by
  cases h with
  | @held m m₀ f f₀ t c p q ws => exact absurd (advances_of_running (Function.update_self ..)) (hstuck t)
  | free m f hnot =>
    refine ⟨rfl,fun t => ?_⟩
    dsimp only
    by_contra hawake
    rw [not_or] at hawake
    refine hstuck t ⟨hawake.1,hawake.2,?_⟩
    cases hf : f t with
    | idle => exact absurd hf hawake.1
    | asleep c k p =>
      rw [hf] at hawake
      exact absurd trivial hawake.2
    | calling c =>
      cases hearly : R.early c with
      | none => exact ⟨_,_,.lock hf hearly rfl⟩
      | some b => exact ⟨_,_,.returnEarly hf hearly⟩
    | awake c k p notified => exact ⟨_,_,.relock hf rfl⟩
    | running c p => exact absurd hf (hnot t c p)
    | returning c b => exact ⟨_,_,.respond hf⟩

theorem run_lags {m : M} {trace : List (Event T C A)} (h : Run (AnyStep R) (.start m) trace s) :
    ∃ a, Run (AtomicStep R) (.start m) trace a ∧ Lags R s a := by
  induction h with
  | refl => exact ⟨_,.refl,.free m _ nofun⟩
  | tail _ hstep ih =>
    obtain ⟨a,hrun,hlags⟩ := ih
    rcases step_lags hlags hstep with ⟨rfl,hlags'⟩ | ⟨a',hstep',hlags'⟩
    · rw [List.append_nil]
      exact ⟨a,hrun,hlags'⟩
    · exact ⟨a',hrun.tail hstep',hlags'⟩

end Machines

section Histories
variable {F : Type*} {spec : F → C → Option (A × F)}

inductive Phase (C A : Type*)
  | outside
  | called (c : C)
  | answered (c : C) (a : A)

def Event.thread : Event T C A → T
  | .invoke t _ | .commit t _ _ | .respond t _ _ => t

/-- The events of one thread: it calls, the call is answered, it returns with that answer. -/
inductive Alternates (t : T) : List (Event T C A) → Phase C A → Prop
  | nil : Alternates t [] .outside
  | other {trace : List (Event T C A)} {phase : Phase C A} {e : Event T C A} (h : Alternates t trace phase)
      (he : e.thread ≠ t) : Alternates t (trace ++ [e]) phase
  | invoke {trace : List (Event T C A)} (h : Alternates t trace .outside) (c : C) :
      Alternates t (trace ++ [.invoke t c]) (.called c)
  | commit {trace : List (Event T C A)} {c : C} (h : Alternates t trace (.called c)) (a : A) :
      Alternates t (trace ++ [.commit t c a]) (.answered c a)
  | respond {trace : List (Event T C A)} {c : C} {a : A} (h : Alternates t trace (.answered c a)) :
      Alternates t (trace ++ [.respond t c a]) .outside

/-- The answers are those of one object that serves the calls one after the other, in the
order in which they are committed. -/
inductive Serves (spec : F → C → Option (A × F)) (f : F) : List (Event T C A) → F → Prop
  | nil : Serves spec f [] f
  | invoke {g : F} {trace : List (Event T C A)} (h : Serves spec f trace g) (t : T) (c : C) :
      Serves spec f (trace ++ [.invoke t c]) g
  | commit {g g' : F} {trace : List (Event T C A)} {c : C} {a : A} (h : Serves spec f trace g) (t : T)
      (hspec : spec g c = some (a,g')) : Serves spec f (trace ++ [.commit t c a]) g'
  | respond {g : F} {trace : List (Event T C A)} (h : Serves spec f trace g) (t : T) (c : C) (a : A) :
      Serves spec f (trace ++ [.respond t c a]) g

def Event.visible : Event T C A → Bool
  | .commit _ _ _ => false
  | _ => true

/-- The calls and returns of a history can be explained by one point in time for each call,
between its invocation and its return, at which the object serves it. -/
def Linearizable (spec : F → C → Option (A × F)) (f : F) (history : List (Event T C A)) : Prop :=
  ∃ points : List (Event T C A), points.filter Event.visible = history ∧
    (∀ t, ∃ phase, Alternates t points phase) ∧ ∃ g, Serves spec f points g

/-- The routines implement an object: a call that returns early is served without a change,
a section that answers serves the call, and one that waits has changed nothing and starts
again. -/
structure Implements (R : Routines C K M P A) (spec : F → C → Option (A × F)) (I : M → Prop) (abs : M → F)
    (start : C → P → Prop) : Prop where
  early : ∀ c m a, R.early c = some a → I m → spec (abs m) c = some (a,abs m)
  entry : ∀ c, R.early c = none → start c (R.entry c)
  answers : ∀ c p m ws q m' a, start c p → I m → Section R p m ws q m' → R.code q = .unlock a →
    I m' ∧ spec (abs m) c = some (a,abs m')
  waits : ∀ c p m ws q m' k next, start c p → I m → Section R p m ws q m' → R.code q = .wait k next →
    start c next ∧ I m' ∧ abs m' = abs m

def Place.phase : Place C K P A → Phase C A
  | .idle => .outside
  | .calling c | .running c _ | .asleep c _ _ | .awake c _ _ _ => .called c
  | .returning c a => .answered c a

def Place.Fits (start : C → P → Prop) : Place C K P A → Prop
  | .asleep c _ p | .awake c _ p _ => start c p
  | _ => True

variable [DecidableEq T] [DecidableEq K] {R : Routines C K M P A} {I : M → Prop} {abs : M → F} {start : C → P → Prop}
  {m : M}

theorem wokenAll_phase {ws : List (Wake K)} {f g : T → Place C K P A} (h : WokenAll sleepers ws f g) (t : T) :
    (g t).phase = (f t).phase := by
  rcases wokenAll_place h t with hsame | ⟨c,k,p,hf,hg⟩
  · rw [hsame]
  · rw [hf, hg]
    rfl

theorem wokenAll_fits {ws : List (Wake K)} {f g : T → Place C K P A} (h : WokenAll sleepers ws f g) {t : T}
    (hfits : (f t).Fits start) : (g t).Fits start := by
  rcases wokenAll_place h t with hsame | ⟨c,k,p,hf,hg⟩
  · rwa [hsame]
  · rw [hf] at hfits
    rwa [hg]

omit [DecidableEq K] in
/-- What holds of every place, and of a new place of one thread, holds of every place then. -/
theorem forall_update {f : T → Place C K P A} {Q : T → Place C K P A → Prop} {t : T} {x : Place C K P A}
    (hother : ∀ u, u ≠ t → Q u (f u)) (hx : Q t x) (u : T) : Q u (Function.update f t x u) := by
  by_cases hu : u = t
  · rw [hu, Function.update_self]
    exact hx
  · rw [Function.update_of_ne hu]
    exact hother u hu

/-- The invariant of the machine of critical sections, with what it has shown so far. -/
structure Served (spec : F → C → Option (A × F)) (I : M → Prop) (abs : M → F) (start : C → P → Prop) (m : M)
    (trace : List (Event T C A)) (a : Between T C K M P A) : Prop where
  memory : I a.memory
  fits : ∀ t, (a.threads t).Fits start
  serves : Serves spec (abs m) trace (abs a.memory)
  alternates : ∀ t, Alternates t trace (a.threads t).phase

omit [DecidableEq K] in
theorem starts_fits (himp : Implements R spec I abs start) {x : Place C K P A} {c : C} {p : P} (h : x.Starts R c p)
    (hfits : x.Fits start) : start c p ∧ x.phase = .called c := by
  cases x with
  | calling c' =>
    obtain ⟨rfl,hlocks,rfl⟩ := h
    exact ⟨himp.entry _ hlocks,rfl⟩
  | awake c' k p' notified =>
    obtain ⟨rfl,rfl⟩ := h
    exact ⟨hfits,rfl⟩
  | _ => exact h.elim

omit [DecidableEq K] in
/-- A thread shows an event without touching the memory. -/
theorem Served.shown {trace : List (Event T C A)} {a : Between T C K M P A} {e : Event T C A} {x : Place C K P A}
    (h : Served spec I abs start m trace a) (hserves : Serves spec (abs m) (trace ++ [e]) (abs a.memory))
    (hfits : x.Fits start) (halternates : Alternates e.thread (trace ++ [e]) x.phase) :
    Served spec I abs start m (trace ++ [e]) ⟨a.memory,Function.update a.threads e.thread x⟩ := by
  refine ⟨h.memory,forall_update (fun u _ => h.fits u) hfits,hserves,?_⟩
  refine forall_update (Q := fun u x => Alternates u _ x.phase) (fun u hu => ?_) halternates
  exact (h.alternates u).other (Ne.symm hu)

theorem step_served (himp : Implements R spec I abs start) {trace events : List (Event T C A)}
    {a a' : Between T C K M P A} (h : Served spec I abs start m trace a) (hstep : AtomicStep R a events a') :
    Served spec I abs start m (trace ++ events) a' := by
  cases hstep with
  | @invoke t c ht =>
    have hphase := h.alternates t
    rw [ht] at hphase
    exact h.shown (e := .invoke t c) (h.serves.invoke t c) trivial (hphase.invoke c)
  | @returnEarly t c b ht hearly =>
    have hphase := h.alternates t
    rw [ht] at hphase
    exact h.shown (e := .commit t c b) (h.serves.commit t (himp.early c _ b hearly h.memory)) trivial (hphase.commit b)
  | @respond t c b ht =>
    have hphase := h.alternates t
    rw [ht] at hphase
    exact h.shown (e := .respond t c b) (h.serves.respond t c b) trivial hphase.respond
  | @wakeSpuriously t c k p ht =>
    have hfits := h.fits t
    have hphase := h.alternates t
    rw [ht] at hfits hphase
    rw [List.append_nil]
    refine ⟨h.memory,forall_update (fun u _ => h.fits u) hfits,h.serves,?_⟩
    exact forall_update (Q := fun u x => Alternates u _ x.phase) (fun u _ => h.alternates u) hphase
  | @finish t c p q ws f m' b hstarts hsection hcode hwoken =>
    -- a call is served at the end of its section
    obtain ⟨hstart,hphase⟩ := starts_fits himp hstarts (h.fits t)
    obtain ⟨hmemory,hspec⟩ := himp.answers c p _ ws q m' b hstart h.memory hsection hcode
    have halternates := h.alternates t
    rw [hphase] at halternates
    refine ⟨hmemory,?_,h.serves.commit t hspec,?_⟩
    · exact forall_update (fun u _ => wokenAll_fits hwoken (h.fits u)) trivial
    · refine forall_update (Q := fun u x => Alternates u _ x.phase) (fun u hu => ?_) (halternates.commit b)
      rw [wokenAll_phase hwoken]
      exact (h.alternates u).other (Ne.symm hu)
  | @park t c k p q next ws f m' hstarts hsection hcode hwoken =>
    -- a section that waits has changed nothing that the object shows
    obtain ⟨hstart,hphase⟩ := starts_fits himp hstarts (h.fits t)
    obtain ⟨hnext,hmemory,hsame⟩ := himp.waits c p _ ws q m' k next hstart h.memory hsection hcode
    have halternates := h.alternates t
    rw [hphase] at halternates
    rw [List.append_nil]
    refine ⟨hmemory,?_,?_,?_⟩
    · exact forall_update (fun u _ => wokenAll_fits hwoken (h.fits u)) hnext
    · dsimp only
      rw [hsame]
      exact h.serves
    · refine forall_update (Q := fun u x => Alternates u _ x.phase) (fun u _ => ?_) halternates
      rw [wokenAll_phase hwoken]
      exact h.alternates u

theorem run_served (himp : Implements R spec I abs start) (hm : I m) {trace : List (Event T C A)}
    {a : Between T C K M P A} (h : Run (AtomicStep R) (.start m) trace a) :
    Served spec I abs start m trace a := by
  induction h with
  | refl => exact ⟨hm,fun _ => trivial,.nil,fun _ => .nil⟩
  | tail _ hstep ih => exact step_served himp ih hstep

/-- Routines whose sections implement an object are linearizable, statement by statement. -/
theorem run_linearizable (himp : Implements R spec I abs start) (hm : I m) {trace : List (Event T C A)}
    {s : State T C K M P A} (h : Run (AnyStep R) (.start m) trace s) :
    Linearizable spec (abs m) (trace.filter Event.visible) := by
  obtain ⟨a,hrun,_⟩ := run_lags h
  have hserved := run_served himp hm hrun
  exact ⟨trace,rfl,fun t => ⟨_,hserved.alternates t⟩,_,hserved.serves⟩

end Histories

section RealTime
variable {t u : T} {trace pre post : List (Event T C A)} {phase : Phase C A} {c d : C} {a b : A}

def commits : List (Event T C A) → List (T × C × A) :=
  List.filterMap fun
    | .commit t c a => some (t,c,a)
    | _ => none

@[simp] theorem commits_append (pre post : List (Event T C A)) : commits (pre ++ post) = commits pre ++ commits post :=
  List.filterMap_append

/-- What holds of the object at the start and is kept by every call it serves. -/
theorem Serves.invariant {F : Type*} {spec : F → C → Option (A × F)} {J : List (T × C × A) → F → Prop} {f g : F}
    (h : Serves spec f trace g) (hstart : J [] f)
    (hcommit : ∀ l g g' t c a, J l g → spec g c = some (a,g') → J (l ++ [(t,c,a)]) g') : J (commits trace) g := by
  induction h with
  | nil => exact hstart
  | invoke _ _ _ ih | respond _ _ _ _ ih =>
    rw [commits_append]
    simpa [commits] using ih
  | commit _ t hspec ih =>
    rw [commits_append]
    exact hcommit _ _ _ t _ _ (ih) hspec

/-- What a thread has done so far is a beginning of what it does. -/
theorem Alternates.before (h : Alternates t (pre ++ post) phase) : ∃ phase', Alternates t pre phase' := by
  induction post using List.reverseRecOn generalizing phase with
  | nil => exact ⟨phase,by simpa using h⟩
  | append_singleton post e ih =>
    rw [← List.append_assoc] at h
    generalize htrace : pre ++ post ++ [e] = trace at h
    cases h with
    | nil => simp at htrace
    | other h _ | invoke h _ | commit h _ | respond h =>
      obtain ⟨rfl,_⟩ := List.append_inj' htrace rfl
      exact ih h

/-- A thread that has its answer got it at a commit, and has done nothing since. -/
theorem Alternates.answered (h : Alternates t trace (.answered c a)) :
    ∃ pre post, trace = pre ++ .commit t c a :: post ∧ ∀ e ∈ post, Event.thread e ≠ t := by
  generalize hphase : Phase.answered c a = phase at h
  induction h with
  | nil | invoke | respond => cases hphase
  | commit =>
    cases hphase
    exact ⟨_,[],rfl,nofun⟩
  | @other _ _ e _ he ih =>
    obtain ⟨pre,post,rfl,hpost⟩ := ih hphase
    refine ⟨pre,post ++ [e],by simp,fun e' he' => ?_⟩
    rcases List.mem_append.mp he' with hmem | hmem
    · exact hpost e' hmem
    · rw [List.mem_singleton.mp hmem]
      exact he

theorem Alternates.responded (h : Alternates t (pre ++ .respond t c a :: post) phase) :
    Alternates t pre (.answered c a) := by
  rw [List.append_cons] at h
  obtain ⟨phase',h'⟩ := h.before
  generalize htrace : pre ++ [.respond t c a] = trace at h'
  cases h' with
  | nil => simp at htrace
  | other h he =>
    obtain ⟨rfl,heq⟩ := List.append_inj' htrace rfl
    cases heq
    exact absurd rfl he
  | invoke h c' =>
    obtain ⟨_,heq⟩ := List.append_inj' htrace rfl
    cases heq
  | commit h a' =>
    obtain ⟨_,heq⟩ := List.append_inj' htrace rfl
    cases heq
  | respond h =>
    obtain ⟨rfl,heq⟩ := List.append_inj' htrace rfl
    cases heq
    exact h

theorem later_of_notMem {α : Type*} {l₁ l₂ k₁ k₂ : List α} {x y : α} (h : l₁ ++ x :: l₂ = k₁ ++ y :: k₂) (hne : x ≠ y)
    (hx : x ∉ k₂) : ∃ m, l₂ = m ++ y :: k₂ := by
  rcases List.append_eq_append_iff.mp h with ⟨m,_,hm⟩ | ⟨m,_,hm⟩
  · cases m with
    | nil => exact absurd (List.cons.inj hm).1 hne
    | cons z m => exact ⟨m,(List.cons.inj hm).2⟩
  · cases m with
    | nil => exact absurd (List.cons.inj hm).1.symm hne
    | cons z m =>
      rw [(List.cons.inj hm).2] at hx
      simp at hx

/-- Calls are answered in the order of real time: a call that has returned before another
one begins was answered before it. -/
theorem commits_real_time {p q r w : List (Event T C A)}
    (htrace : trace = p ++ .respond t c a :: (q ++ .invoke u d :: (r ++ .respond u d b :: w)))
    (h : ∀ v, ∃ phase, Alternates v trace phase) :
    ∃ l₁ l₂ l₃, commits trace = l₁ ++ (t,c,a) :: (l₂ ++ (u,d,b) :: l₃) := by
  obtain ⟨phase,hfirst⟩ := h t
  rw [htrace] at hfirst
  obtain ⟨p₁,p₂,rfl,_⟩ := hfirst.responded.answered
  obtain ⟨phase',hsecond⟩ := h u
  have hsplit : trace = ((p₁ ++ .commit t c a :: p₂) ++ .respond t c a :: (q ++ .invoke u d :: r)) ++
      .respond u d b :: w := by simp [htrace]
  rw [hsplit] at hsecond
  obtain ⟨q₁,q₂,heq,hq₂⟩ := hsecond.responded.answered
  -- the invocation is an event of the thread, so the commit comes after it
  have hpoints : ((p₁ ++ .commit t c a :: p₂) ++ .respond t c a :: q) ++ .invoke u d :: r =
      q₁ ++ .commit u d b :: q₂ := by simpa using heq
  obtain ⟨r₁,rfl⟩ := later_of_notMem hpoints nofun (fun hmem => hq₂ _ hmem rfl)
  refine ⟨commits p₁,commits p₂ ++ commits q ++ commits r₁,commits q₂ ++ commits w,?_⟩
  simp [htrace, commits]

end RealTime

end RadioSim.Locking
