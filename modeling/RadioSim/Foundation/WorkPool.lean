import Mathlib.Data.Finset.Card
import Mathlib.Data.Finset.Range
import Mathlib.Data.List.Nodup
import Mathlib.Logic.Function.Basic
import Mathlib.Order.Nat

/-! # A pool of workers on one queue

Items are known by the order in which the queue accepted them, so a ticket is a
position in that order. A worker fetches the next ticket, draws a number, and
publishes the pair. Both tickets and numbers are issued by a counter, kept in
hand, and then recorded: `Issued` is the invariant of one such counter.
-/
namespace RadioSim.WorkPool

/-- The numbers below `bound` were issued once each, and each of them is either
in the hand of one worker or recorded once. -/
structure Issued (bound : ℕ) (hand : ℕ → Option ℕ) (log : List ℕ) : Prop where
  hand_lt : ∀ i v, hand i = some v → v < bound
  hand_inj : ∀ i j v, hand i = some v → hand j = some v → i = j
  hand_fresh : ∀ i v, hand i = some v → v ∉ log
  log_lt : ∀ v ∈ log, v < bound
  log_nodup : log.Nodup
  complete : ∀ v < bound, v ∈ log ∨ ∃ i, hand i = some v

namespace Issued
variable {bound : ℕ} {hand : ℕ → Option ℕ} {log : List ℕ}

theorem start : Issued 0 (fun _ => none) [] where
  hand_lt := by simp
  hand_inj := by simp
  hand_fresh := by simp
  log_lt := by simp
  log_nodup := List.nodup_nil
  complete := by simp

theorem issue (h : Issued bound hand log) {i : ℕ} (hi : hand i = none) :
    Issued (bound + 1) (Function.update hand i (some bound)) log where
  hand_lt j v hj := by
    rcases eq_or_ne j i with rfl | hne
    · simp only [Function.update_self, Option.some.injEq] at hj
      omega
    · rw [Function.update_of_ne hne] at hj
      exact (h.hand_lt j v hj).trans (Nat.lt_succ_self _)
  hand_inj j k v hj hk := by
    rcases eq_or_ne j i with rfl | hj' <;> rcases eq_or_ne k j with rfl | hk'
    · rfl
    · rw [Function.update_of_ne hk'] at hk
      rw [Function.update_self, Option.some.injEq] at hj
      exact absurd (h.hand_lt k v hk) (by omega)
    · rfl
    · rw [Function.update_of_ne hj'] at hj
      rcases eq_or_ne k i with rfl | hki
      · rw [Function.update_self, Option.some.injEq] at hk
        exact absurd (h.hand_lt j v hj) (by omega)
      · rw [Function.update_of_ne hki] at hk
        exact h.hand_inj j k v hj hk
  hand_fresh j v hj hv := by
    rcases eq_or_ne j i with rfl | hne
    · rw [Function.update_self, Option.some.injEq] at hj
      exact absurd (h.log_lt v hv) (by omega)
    · rw [Function.update_of_ne hne] at hj
      exact h.hand_fresh j v hj hv
  log_lt v hv := (h.log_lt v hv).trans (Nat.lt_succ_self _)
  log_nodup := h.log_nodup
  complete v hv := by
    rcases Nat.lt_succ_iff_lt_or_eq.mp hv with hlt | rfl
    · rcases h.complete v hlt with hlog | ⟨j,hj⟩
      · exact .inl hlog
      · have hne : j ≠ i := by
          rintro rfl
          rw [hi] at hj
          cases hj
        exact .inr ⟨j,by rw [Function.update_of_ne hne, hj]⟩
    · exact .inr ⟨i,Function.update_self ..⟩

theorem record (h : Issued bound hand log) {i v : ℕ} (hi : hand i = some v) :
    Issued bound (Function.update hand i none) (log ++ [v]) where
  hand_lt j w hj := by
    rcases eq_or_ne j i with rfl | hne
    · simp only [Function.update_self, reduceCtorEq] at hj
    · rw [Function.update_of_ne hne] at hj
      exact h.hand_lt j w hj
  hand_inj j k w hj hk := by
    rcases eq_or_ne j i with rfl | hne
    · simp only [Function.update_self, reduceCtorEq] at hj
    rcases eq_or_ne k i with rfl | hne'
    · simp only [Function.update_self, reduceCtorEq] at hk
    rw [Function.update_of_ne hne] at hj
    rw [Function.update_of_ne hne'] at hk
    exact h.hand_inj j k w hj hk
  hand_fresh j w hj hw := by
    rcases eq_or_ne j i with rfl | hne
    · simp only [Function.update_self, reduceCtorEq] at hj
    rw [Function.update_of_ne hne] at hj
    rcases List.mem_append.mp hw with hlog | hv
    · exact h.hand_fresh j w hj hlog
    · obtain rfl := List.mem_singleton.mp hv
      exact hne (h.hand_inj j i w hj hi)
  log_lt w hw := by
    rcases List.mem_append.mp hw with hlog | hv
    · exact h.log_lt w hlog
    · obtain rfl := List.mem_singleton.mp hv
      exact h.hand_lt i w hi
  log_nodup := by
    refine List.nodup_append.mpr ⟨h.log_nodup,List.nodup_singleton v,?_⟩
    rintro w hw u hu rfl
    obtain rfl := List.mem_singleton.mp hu
    exact h.hand_fresh i w hi hw
  complete w hw := by
    rcases h.complete w hw with hlog | ⟨j,hj⟩
    · exact .inl (List.mem_append_left _ hlog)
    rcases eq_or_ne j i with rfl | hne
    · have hv : w = v := Option.some.inj (hj.symm.trans hi)
      exact .inl (List.mem_append_right _ (List.mem_singleton.mpr hv))
    · exact .inr ⟨j,by rw [Function.update_of_ne hne, hj]⟩

end Issued

section Order
variable {W : ℕ} {hand : ℕ → Option ℕ} {log : List ℕ} {i v d : ℕ}

def behind (W : ℕ) (hand : ℕ → Option ℕ) (d : ℕ) : Finset ℕ :=
  (Finset.range W).filter fun i => (hand i).any (· ≤ d)

/-- Whatever is recorded after `d`, at most `W - 1` numbers up to `d` come later: those
already recorded, and those still in hand. -/
def Ordered (W : ℕ) (hand : ℕ → Option ℕ) (log : List ℕ) : Prop :=
  ∀ before d after, log = before ++ d :: after → after.countP (· ≤ d) + (behind W hand d).card ≤ W - 1

theorem mem_behind : i ∈ behind W hand d ↔ i < W ∧ ∃ v, hand i = some v ∧ v ≤ d := by
  simp only [behind, Finset.mem_filter, Finset.mem_range, Option.any_eq_true, decide_eq_true_eq]

theorem Ordered.start : Ordered W hand [] := by
  intro before d after h
  simp at h

/-- A number beyond all that is recorded may be handed out. -/
theorem Ordered.issue (h : Ordered W hand log) (hv : ∀ d ∈ log, d < v) :
    Ordered W (Function.update hand i (some v)) log := by
  intro before d after hlog
  have hd : d < v := hv d (by simp [hlog])
  have hsubset : behind W (Function.update hand i (some v)) d ⊆ behind W hand d := by
    intro k hk
    rw [mem_behind] at hk ⊢
    obtain ⟨hlt,u,hu,hle⟩ := hk
    rcases eq_or_ne k i with rfl | hne
    · rw [Function.update_self, Option.some.injEq] at hu
      omega
    · rw [Function.update_of_ne hne] at hu
      exact ⟨hlt,u,hu,hle⟩
  exact (Nat.add_le_add_left (Finset.card_le_card hsubset) _).trans (h before d after hlog)

theorem behind_drop (hand : ℕ → Option ℕ) (i d : ℕ) :
    behind W (Function.update hand i none) d = (behind W hand d).erase i := by
  ext k
  rw [Finset.mem_erase, mem_behind, mem_behind]
  rcases eq_or_ne k i with rfl | hne
  · simp
  · simp [hne]

/-- Recording a number that is in hand moves it from one side of the count to the other. -/
theorem Ordered.record (h : Ordered W hand log) (hi : i < W) (hv : hand i = some v) :
    Ordered W (Function.update hand i none) (log ++ [v]) := by
  intro before d after hlog
  rw [behind_drop]
  rcases List.eq_nil_or_concat after with rfl | ⟨rest,u,rfl⟩
  · have hsubset : (behind W hand d).erase i ⊆ (Finset.range W).erase i :=
      Finset.erase_subset_erase i (Finset.filter_subset _ _)
    have hcard := Finset.card_le_card hsubset
    rw [Finset.card_erase_of_mem (Finset.mem_range.mpr hi), Finset.card_range] at hcard
    simpa using hcard
  · rw [List.concat_eq_append, ← List.cons_append, ← List.append_assoc] at hlog
    obtain ⟨hold,hlast⟩ := List.append_inj' hlog rfl
    obtain rfl := (List.cons.inj hlast).1
    have hbound := h before d rest hold
    rw [List.concat_eq_append, List.countP_append, List.countP_singleton]
    by_cases hle : v ≤ d
    · have hmem : i ∈ behind W hand d := mem_behind.mpr ⟨hi,v,hv,hle⟩
      have hpos := Finset.card_pos.mpr ⟨i,hmem⟩
      rw [Finset.card_erase_of_mem hmem]
      simp only [hle, decide_true, ↓reduceIte]
      omega
    · have hcard := Finset.card_erase_le (s := behind W hand d) (a := i)
      simp only [hle, decide_false, Bool.false_eq_true, ↓reduceIte]
      omega

theorem Ordered.later_le (h : Ordered W hand log) {before after : List ℕ} (hlog : log = before ++ d :: after) :
    after.countP (· ≤ d) ≤ W - 1 := (Nat.le_add_right _ _).trans (h before d after hlog)

/-- With one worker the record is strictly increasing. -/
theorem Ordered.increasing (h : Ordered 1 hand log) : log.Pairwise (· < ·) := by
  have hlater : ∀ before d after, log = before ++ d :: after → ∀ u ∈ after, d < u := by
    intro before d after hlog u hu
    have hzero := Nat.le_zero.mp (h.later_le hlog)
    rw [List.countP_eq_zero] at hzero
    simpa using hzero u hu
  clear h
  induction log with
  | nil => exact .nil
  | cons d after ih =>
    refine .cons (hlater [] d after rfl) (ih fun before e rest hrest => ?_)
    exact hlater (d :: before) e rest (by rw [hrest, List.cons_append])

end Order

inductive Phase
  | waiting
  | fetched (ticket : ℕ)
  | numbered (ticket draw : ℕ)
  | published (ticket : ℕ)
  | stopped

namespace Phase

def ticket : Phase → Option ℕ
  | .fetched j => some j
  | .numbered j _ => some j
  | _ => none

def draw : Phase → Option ℕ
  | .numbered _ d => some d
  | _ => none

end Phase

/-- `closedAt` is how many items had been accepted when the queue was closed. -/
structure State where
  accepted : ℕ
  fetched : ℕ
  draws : ℕ
  closedAt : Option ℕ
  phase : ℕ → Phase
  published : List (ℕ × ℕ)

namespace State

def initial : State := ⟨0,0,0,none,fun _ => .waiting,[]⟩

def goTo (s : State) (i : ℕ) (p : Phase) : State := { s with phase := Function.update s.phase i p }

def tickets (s : State) : List ℕ := s.published.map Prod.fst

def numbers (s : State) : List ℕ := s.published.map Prod.snd

end State

inductive Step (s : State) : State → Prop
  | accept : Step s { s with accepted := s.accepted + 1 }
  | close : Step s { s with closedAt := s.closedAt <|> some s.accepted }
  | fetch (i : ℕ) (hphase : s.phase i = .waiting) (hlt : s.fetched < s.accepted) :
      Step s { s.goTo i (.fetched s.fetched) with fetched := s.fetched + 1 }
  | number (i j : ℕ) (hphase : s.phase i = .fetched j) :
      Step s { s.goTo i (.numbered j s.draws) with draws := s.draws + 1 }
  | publish (i j d : ℕ) (hphase : s.phase i = .numbered j d) :
      Step s { s.goTo i (.published j) with published := s.published ++ [(j,d)] }
  | finish (i j : ℕ) (hphase : s.phase i = .published j) : Step s (s.goTo i .waiting)
  | stop (i : ℕ) (hphase : s.phase i = .waiting) (hclosed : s.closedAt.isSome = true)
      (hempty : s.fetched = s.accepted) : Step s (s.goTo i .stopped)

structure Sound (s : State) : Prop where
  fetched_le : s.fetched ≤ s.accepted
  tickets : Issued s.fetched (fun i => (s.phase i).ticket) s.tickets
  numbers : Issued s.draws (fun i => (s.phase i).draw) s.numbers
  closed_le : ∀ m, s.closedAt = some m → m ≤ s.accepted
  stopped : ∀ i, s.phase i = .stopped → ∃ m, s.closedAt = some m ∧ m ≤ s.fetched

theorem initial_sound : Sound .initial where
  fetched_le := le_rfl
  tickets := Issued.start
  numbers := Issued.start
  closed_le := by simp [State.initial]
  stopped := by simp [State.initial]

/-- A map over an updated phase table is the updated map. -/
theorem map_update {β : Type*} (f : Phase → β) (phase : ℕ → Phase) (i : ℕ) (p : Phase) :
    (fun j => f (Function.update phase i p j)) = Function.update (fun j => f (phase j)) i (f p) := by
  funext j
  exact Function.apply_update (fun _ => f) phase i p j

theorem update_same (f : Phase → Option ℕ) (phase : ℕ → Phase) (i : ℕ) {p : Phase}
    (h : f p = f (phase i)) :
    (fun j => f (Function.update phase i p j)) = fun j => f (phase j) := by
  rw [map_update, h]
  exact Function.update_eq_self i _

theorem stopped_goTo {s : State} {i k : ℕ} (p : Phase) (hp : p ≠ .stopped)
    (hk : (s.goTo i p).phase k = .stopped) : s.phase k = .stopped := by
  rcases eq_or_ne k i with rfl | hne
  · exact absurd ((Function.update_self ..).symm.trans hk) hp
  · exact (Function.update_of_ne hne ..).symm.trans hk

theorem step_sound {s s' : State} (h : Sound s) (hstep : Step s s') : Sound s' := by
  cases hstep with
  | accept =>
    exact ⟨h.fetched_le.trans (Nat.le_succ _),h.tickets,h.numbers,
      fun m hm => (h.closed_le m hm).trans (Nat.le_succ _),h.stopped⟩
  | close =>
    cases hclosed : s.closedAt with
    | none =>
      refine ⟨h.fetched_le,h.tickets,h.numbers,?_,fun i hi => ?_⟩
      · intro m hm
        exact (Option.some.inj hm).ge
      · obtain ⟨m,hm,_⟩ := h.stopped i hi
        rw [hclosed] at hm
        cases hm
    | some m =>
      refine ⟨h.fetched_le,h.tickets,h.numbers,fun k hk => h.closed_le k (hclosed.trans hk),fun i hi => ?_⟩
      obtain ⟨k,hk,hle⟩ := h.stopped i hi
      exact ⟨k,hclosed.symm.trans hk,hle⟩
  | fetch i hphase hlt =>
    refine ⟨hlt,?_,?_,h.closed_le,fun k hk => ?_⟩
    · have hissue := h.tickets.issue (i := i) (by simp only [hphase, Phase.ticket])
      rwa [show some s.fetched = Phase.ticket (.fetched s.fetched) from rfl, ← map_update] at hissue
    · have hsame := update_same Phase.draw s.phase i (p := .fetched s.fetched) (by rw [hphase]; rfl)
      simpa only [State.goTo, State.numbers, hsame] using h.numbers
    · obtain ⟨m,hm,hle⟩ := h.stopped k (stopped_goTo (.fetched s.fetched) nofun hk)
      exact ⟨m,hm,hle.trans (Nat.le_succ _)⟩
  | number i j hphase =>
    refine ⟨h.fetched_le,?_,?_,h.closed_le,
      fun k hk => h.stopped k (stopped_goTo (.numbered j s.draws) nofun hk)⟩
    · have hsame := update_same Phase.ticket s.phase i (p := .numbered j s.draws) (by rw [hphase]; rfl)
      simpa only [State.goTo, State.tickets, hsame] using h.tickets
    · have hissue := h.numbers.issue (i := i) (by simp only [hphase, Phase.draw])
      rwa [show some s.draws = Phase.draw (.numbered j s.draws) from rfl, ← map_update] at hissue
  | publish i j d hphase =>
    refine ⟨h.fetched_le,?_,?_,h.closed_le,fun k hk => h.stopped k (stopped_goTo (.published j) nofun hk)⟩
    · have hrecord := h.tickets.record (i := i) (v := j) (by simp only [hphase, Phase.ticket])
      rw [show none = Phase.ticket (.published j) from rfl, ← map_update] at hrecord
      simpa only [State.tickets, State.goTo, List.map_append, List.map_cons, List.map_nil] using hrecord
    · have hrecord := h.numbers.record (i := i) (v := d) (by simp only [hphase, Phase.draw])
      rw [show none = Phase.draw (.published j) from rfl, ← map_update] at hrecord
      simpa only [State.numbers, State.goTo, List.map_append, List.map_cons, List.map_nil] using hrecord
  | finish i j hphase =>
    refine ⟨h.fetched_le,?_,?_,h.closed_le,fun k hk => h.stopped k (stopped_goTo .waiting nofun hk)⟩
    · have hsame := update_same Phase.ticket s.phase i (p := .waiting) (by rw [hphase]; rfl)
      simpa only [State.goTo, State.tickets, hsame] using h.tickets
    · have hsame := update_same Phase.draw s.phase i (p := .waiting) (by rw [hphase]; rfl)
      simpa only [State.goTo, State.numbers, hsame] using h.numbers
  | stop i hphase hclosed hempty =>
    -- who stops has seen the closed queue empty: all that was accepted is fetched
    obtain ⟨m,hm⟩ := Option.isSome_iff_exists.mp hclosed
    have hle : m ≤ s.fetched := (h.closed_le m hm).trans hempty.ge
    refine ⟨h.fetched_le,?_,?_,h.closed_le,fun _ _ => ⟨m,hm,hle⟩⟩
    · have hsame := update_same Phase.ticket s.phase i (p := .stopped) (by rw [hphase]; rfl)
      simpa only [State.goTo, State.tickets, hsame] using h.tickets
    · have hsame := update_same Phase.draw s.phase i (p := .stopped) (by rw [hphase]; rfl)
      simpa only [State.goTo, State.numbers, hsame] using h.numbers

/-- When a worker has stopped and no worker has a ticket in hand, every item
accepted before the queue was closed is published. -/
theorem Sound.mem_tickets {s : State} (h : Sound s) (hidle : ∀ i, (s.phase i).ticket = none) {i m j : ℕ}
    (hi : s.phase i = .stopped) (hm : s.closedAt = some m) (hj : j < m) : j ∈ s.tickets := by
  obtain ⟨m',hm',hle⟩ := h.stopped i hi
  obtain rfl := Option.some.inj (hm'.symm.trans hm)
  rcases h.tickets.complete j (hj.trans_le hle) with hmem | ⟨k,hk⟩
  · exact hmem
  · rw [hidle k] at hk
    cases hk

end RadioSim.WorkPool
