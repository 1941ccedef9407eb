import Mathlib.Logic.Function.Basic

/-! # Condition variables

Threads that sleep on condition variables, and the signals and broadcasts that
reach them. A signal reaches one sleeper of its condition, any one.
-/
namespace RadioSim.Waking
variable {T K X Y : Type*}

inductive Wake (K : Type*)
  | signal (k : K)
  | broadcast (k : K)

/-- The condition that a thread in some state sleeps on, and the state in which it wakes up. -/
structure Sleepers (K X : Type*) where
  asleepOn : X → Option K
  rouse : X → X
  rouse_awake : ∀ x, asleepOn (rouse x) = none

variable [DecidableEq T] [DecidableEq K] {S : Sleepers K X} {w : Wake K} {ws : List (Wake K)} {f g h : T → X}
  {t : T} {x : X} {k : K}

def Sleepers.notify (S : Sleepers K X) (k : K) (x : X) : X := if S.asleepOn x = some k then S.rouse x else x

inductive Woken (S : Sleepers K X) : Wake K → (T → X) → (T → X) → Prop
  | signal {f : T → X} {t : T} {k : K} (h : S.asleepOn (f t) = some k) :
      Woken S (.signal k) f (Function.update f t (S.rouse (f t)))
  | nobody {f : T → X} {k : K} (h : ∀ t, S.asleepOn (f t) ≠ some k) : Woken S (.signal k) f f
  | broadcast {f : T → X} {k : K} : Woken S (.broadcast k) f fun t => S.notify k (f t)

inductive WokenAll (S : Sleepers K X) : List (Wake K) → (T → X) → (T → X) → Prop
  | nil {f : T → X} : WokenAll S [] f f
  | cons {w : Wake K} {ws : List (Wake K)} {f g h : T → X} :
      Woken S w f g → WokenAll S ws g h → WokenAll S (w :: ws) f h

theorem exists_woken (S : Sleepers K X) (w : Wake K) (f : T → X) : ∃ g, Woken S w f g := by
  cases w with
  | broadcast k => exact ⟨_,.broadcast⟩
  | signal k =>
    by_cases hsleeps : ∃ t, S.asleepOn (f t) = some k
    · obtain ⟨t,ht⟩ := hsleeps
      exact ⟨_,.signal ht⟩
    · exact ⟨f,.nobody (not_exists.mp hsleeps)⟩

/-- A wake leaves a thread as it is, or wakes it. -/
theorem Woken.place (hw : Woken S w f g) (t : T) :
    g t = f t ∨ ∃ k, S.asleepOn (f t) = some k ∧ g t = S.rouse (f t) := by
  cases hw with
  | @signal _ u k hu =>
    by_cases ht : t = u
    · subst ht
      exact Or.inr ⟨k,hu,Function.update_self ..⟩
    · exact Or.inl (Function.update_of_ne ht ..)
  | nobody _ => exact Or.inl rfl
  | @broadcast _ k =>
    by_cases hk : S.asleepOn (f t) = some k
    · exact Or.inr ⟨k,hk,if_pos hk⟩
    · exact Or.inl (if_neg hk)

theorem WokenAll.place (hall : WokenAll S ws f g) (t : T) :
    g t = f t ∨ ∃ k, S.asleepOn (f t) = some k ∧ g t = S.rouse (f t) := by
  induction hall with
  | nil => exact Or.inl rfl
  | cons hw _ ih =>
    rcases hw.place t with hsame | ⟨k,hk,hroused⟩
    · rwa [hsame] at ih
    · -- who has been woken does not sleep any more
      rcases ih with hsame | ⟨_,hasleep,_⟩
      · exact Or.inr ⟨k,hk,hsame.trans hroused⟩
      · rw [hroused, S.rouse_awake] at hasleep
        cases hasleep

theorem WokenAll.of_awake (hall : WokenAll S ws f g) (ht : S.asleepOn (f t) = none) : g t = f t := by
  rcases hall.place t with hsame | ⟨k,hk,_⟩
  · exact hsame
  · rw [ht] at hk
    cases hk

theorem WokenAll.concat (hall : WokenAll S ws f g) (hw : Woken S w g h) : WokenAll S (ws ++ [w]) f h := by
  induction hall with
  | nil => exact .cons hw .nil
  | cons hfirst _ ih => exact .cons hfirst (ih hw)

/-- A thread that a wake leaves alone may be in another state, as long as it does not sleep. -/
theorem Woken.update (hw : Woken S w f g) (hsame : g t = f t) (hx : S.asleepOn x = none) :
    Woken S w (Function.update f t x) (Function.update g t x) := by
  cases hw with
  | @signal _ u k hu =>
    have hne : u ≠ t := by
      rintro rfl
      rw [Function.update_self] at hsame
      rw [← hsame, S.rouse_awake] at hu
      cases hu
    have hother : Function.update f t x u = f u := Function.update_of_ne hne ..
    rw [Function.update_comm hne, ← hother]
    exact .signal (by rw [hother, hu])
  | @nobody _ k hn =>
    refine .nobody fun u hu => ?_
    by_cases hut : u = t
    · rw [hut, Function.update_self, hx] at hu
      cases hu
    · rw [Function.update_of_ne hut] at hu
      exact hn u hu
  | @broadcast _ k =>
    have heq : Function.update (fun u => S.notify k (f u)) t x = fun u => S.notify k (Function.update f t x u) := by
      funext u
      by_cases hut : u = t
      · subst hut
        simp [Sleepers.notify, hx]
      · simp only [Function.update_of_ne hut]
    rw [heq]
    exact .broadcast

theorem WokenAll.update (hall : WokenAll S ws f g) (hsame : g t = f t) (hx : S.asleepOn x = none) :
    WokenAll S ws (Function.update f t x) (Function.update g t x) := by
  induction hall with
  | nil => exact .nil
  | @cons w ws f m g hw hrest ih =>
    have hmid : m t = f t := by
      rcases hw.place t with hm | ⟨k,hk,hm⟩
      · exact hm
      · have hawake : S.asleepOn (m t) = none := by rw [hm, S.rouse_awake]
        rw [← hsame, hrest.of_awake hawake, hawake] at hk
        cases hk
    exact .cons (hw.update hmid hx) (ih (hsame.trans hmid.symm))

/-- A wake sent by a thread that has moved, seen from where the thread was before. -/
theorem WokenAll.wake {y : X} (hall : WokenAll S ws f g) (ht : S.asleepOn (f t) = none) (hx : S.asleepOn x = none)
    (hw : Woken S w (Function.update g t x) h) :
    ∃ h', WokenAll S (ws ++ [w]) f h' ∧ Function.update h t y = Function.update h' t y := by
  have hplace := hall.of_awake ht
  have hsame : h t = Function.update g t x t := by
    rcases hw.place t with hsame | ⟨k,hk,_⟩
    · exact hsame
    · rw [Function.update_self, hx] at hk
      cases hk
  have hback := hw.update (x := g t) hsame (by rw [hplace, ht])
  rw [Function.update_idem, Function.update_eq_self] at hback
  exact ⟨_,hall.concat hback,by rw [Function.update_idem]⟩

section Map
variable {S' : Sleepers K Y} {φ : X → Y} {Q : X → Prop} (hrouse : ∀ x, Q x → Q (S.rouse x))
  (hasleep : ∀ x, Q x → S'.asleepOn (φ x) = S.asleepOn x)
  (hφ : ∀ x k, Q x → S.asleepOn x = some k → φ (S.rouse x) = S'.rouse (φ x))
include hasleep hφ

/-- Threads seen through a map that shows who sleeps, and that commutes with waking up. -/
theorem Woken.map (hf : ∀ t, Q (f t)) (hw : Woken S w f g) : Woken S' w (fun t => φ (f t)) fun t => φ (g t) := by
  cases hw with
  | @signal _ t k ht =>
    have heq : (fun u => φ (Function.update f t (S.rouse (f t)) u)) =
        Function.update (fun u => φ (f u)) t (S'.rouse (φ (f t))) := by
      funext u
      by_cases hu : u = t
      · subst hu
        simp only [Function.update_self, hφ _ _ (hf u) ht]
      · simp only [Function.update_of_ne hu]
    rw [heq]
    exact .signal ((hasleep _ (hf t)).trans ht)
  | @nobody _ k hn =>
    refine .nobody fun t ht => hn t ?_
    rwa [hasleep _ (hf t)] at ht
  | @broadcast _ k =>
    have heq : (fun t => φ (S.notify k (f t))) = fun t => S'.notify k (φ (f t)) := by
      funext t
      simp only [Sleepers.notify, hasleep _ (hf t)]
      split
      · rename_i ht
        exact hφ _ _ (hf t) ht
      · rfl
    rw [heq]
    exact .broadcast

include hrouse in
theorem WokenAll.map (hf : ∀ t, Q (f t)) (hall : WokenAll S ws f g) :
    WokenAll S' ws (fun t => φ (f t)) fun t => φ (g t) := by
  induction hall with
  | nil => exact .nil
  | cons hw _ ih =>
    refine .cons (hw.map hasleep hφ hf) (ih fun t => ?_)
    rcases hw.place t with hsame | ⟨_,_,hroused⟩
    · rw [hsame]
      exact hf t
    · rw [hroused]
      exact hrouse _ (hf t)

end Map
end RadioSim.Waking
