import RadioSim.Pubsub.Names
import RadioSim.Pubsub.TopicMap

/-! # Publishing and registration

A sequence of calls beside the same sequence without its publishes. The registry of
the second has the topics of the first that a subscribe named, and the two agree on
all subscribers, until the topics that only publishing named take the last slot.
-/
namespace RadioSim.Pubsub
open Queue
variable {Q β : Type*}

def Call.registers : Call Q β → Bool
  | .publish _ _ _ => false
  | _ => true

def registrations (calls : List (Call Q β)) : List (Call Q β) := calls.filter Call.registers

def Named (calls : List (Call Q β)) (topic : CString) : Prop := ∃ q, .subscribe topic q ∈ calls

/-- A new topic finds the registry full, and one of its names was only published to. -/
def Crowded (calls : List (Call Q β)) (m : TopicMap Q) (topic : CString) : Prop :=
  topic ∉ m.topics ∧ m.topics.card = maxTopics ∧ ∃ n ∈ m.topics, ¬Named calls n

section Agreement
variable {calls : List (Call Q β)} {full slim : TopicMap Q} (topic : CString) (q : Q)

structure Agrees (calls : List (Call Q β)) (full slim : TopicMap Q) : Prop where
  topics : ∀ t, t ∈ slim.topics ↔ t ∈ full.topics ∧ Named calls t
  subscribers : slim.subscribers = full.subscribers
  seen : ∀ t, Named calls t → t ∈ full.topics ∨ full.topics.card = maxTopics

/-- A map within its bounds: at most eight topics, and no subscribers outside them. -/
structure TopicMap.Bounded (m : TopicMap Q) : Prop where
  topics_le : m.topics.card ≤ maxTopics
  registered : ∀ t p, p ∈ m.subscribers t → t ∈ m.topics

theorem named_concat (c : Call Q β) (t : CString) :
    Named (calls ++ [c]) t ↔ Named calls t ∨ ∃ p, c = .subscribe t p := by
  simp only [Named, List.mem_append, List.mem_singleton, exists_or, eq_comm]

theorem Agrees.subset (h : Agrees calls full slim) : slim.topics ⊆ full.topics :=
  fun t ht => ((h.topics t).mp ht).1

theorem Agrees.topics_eq (h : Agrees calls full slim) (hall : ∀ n ∈ full.topics, Named calls n) :
    slim.topics = full.topics :=
  h.subset.antisymm fun t ht => (h.topics t).mpr ⟨ht,hall t ht⟩

/-- Outside the crowded case both maps refuse, or neither does. -/
theorem Agrees.refuses_iff (h : Agrees calls full slim) (hfull : full.Bounded)
    (hclear : ¬Crowded calls full topic) : full.Refuses topic q ↔ slim.Refuses topic q := by
  have hslots : (topic ∉ full.topics ∧ full.topics.card = maxTopics) ↔
      (topic ∉ slim.topics ∧ slim.topics.card = maxTopics) := by
    constructor
    · rintro ⟨hnot,hcard⟩
      have heq : slim.topics = full.topics := by
        refine h.topics_eq fun n hn => ?_
        by_contra hnamed
        exact hclear ⟨hnot,hcard,n,hn,hnamed⟩
      rw [heq]
      exact ⟨hnot,hcard⟩
    · rintro ⟨hnot,hcard⟩
      have heq := Finset.eq_of_subset_of_card_le h.subset (hcard ▸ hfull.topics_le)
      rw [← heq]
      exact ⟨hnot,hcard⟩
  unfold TopicMap.Refuses
  rw [hslots, h.subscribers]

/-- In the crowded case only the map with the published topics refuses. -/
theorem Agrees.crowded (h : Agrees calls full slim) (hslim : slim.Bounded) (hshort : topic.strlen < topicNameMax)
    (hcrowded : Crowded calls full topic) : full.Refuses topic q ∧ ¬slim.Refuses topic q := by
  obtain ⟨hnot,hcard,n,hn,hnamed⟩ := hcrowded
  have hnot' : topic ∉ slim.topics := fun ht => hnot (h.subset ht)
  refine ⟨Or.inr (Or.inl ⟨hnot,hcard⟩),?_⟩
  rintro (hlong | ⟨_,hcard'⟩ | ⟨_,hcard'⟩)
  · exact absurd hshort (not_lt.mpr hlong)
  · have heq := Finset.eq_of_subset_of_card_le h.subset (by rw [hcard, hcard'])
    exact hnamed ((h.topics n).mp (heq ▸ hn)).2
  · have hempty : slim.subscribers topic = ∅ :=
      Finset.eq_empty_of_forall_notMem fun p hp => hnot' (hslim.registered topic p hp)
    rw [hempty, Finset.card_empty] at hcard'
    exact absurd hcard' (by decide)

/-- A publish is a step of the first run only. A topic that some subscribe named is
registered already, or the registry has no slot left for it. -/
theorem Agrees.register (h : Agrees calls full slim) (item : MsgItem β) (malloc : ℕ → Bool) :
    Agrees (calls ++ [.publish topic item malloc]) (full.register topic) slim := by
  have hnamed : ∀ t, Named (calls ++ [.publish topic item malloc]) t ↔ Named calls t := by
    intro t
    simp [named_concat]
  unfold TopicMap.register
  split
  · refine ⟨fun t => ?_,h.subscribers,fun t ht => h.seen t ((hnamed t).mp ht)⟩
    rw [hnamed]
    exact h.topics t
  · rename_i hroom
    refine ⟨fun t => ?_,h.subscribers,fun t ht => ?_⟩
    · rw [hnamed, h.topics, Finset.mem_insert]
      constructor
      · exact fun ⟨ht,hn⟩ => ⟨Or.inr ht,hn⟩
      · rintro ⟨rfl | ht,hn⟩
        · rcases h.seen _ hn with ht | hcard
          · exact ⟨ht,hn⟩
          · exact ⟨by_contra fun hnot => hroom ⟨hnot,hcard⟩,hn⟩
        · exact ⟨ht,hn⟩
    · rcases h.seen t ((hnamed t).mp ht) with hmem | hcard
      · exact Or.inl (Finset.mem_insert_of_mem hmem)
      · have htopic : topic ∈ full.topics := by_contra fun hnot => hroom ⟨hnot,hcard⟩
        exact Or.inr (by rw [Finset.insert_eq_of_mem htopic]; exact hcard)

variable [DecidableEq Q]

/-- A subscribe outside the crowded case keeps the agreement. -/
theorem Agrees.subscribe (h : Agrees calls full slim) (hfull : full.Bounded) (hslim : slim.Bounded)
    (hshort : topic.strlen < topicNameMax) (hclear : ¬Crowded calls full topic) :
    Agrees (calls ++ [.subscribe topic q]) (full.subscribe topic q).2 (slim.subscribe topic q).2 ∧
      (full.subscribe topic q).1 = (slim.subscribe topic q).1 := by
  have hiff : full.Refuses topic q ↔ slim.Refuses topic q := h.refuses_iff topic q hfull hclear
  have hnamed : ∀ t, Named (calls ++ [.subscribe topic q]) t ↔ Named calls t ∨ t = topic := by
    intro t
    rw [named_concat]
    simp [eq_comm]
  unfold TopicMap.subscribe
  by_cases href : full.Refuses topic q
  · rw [if_pos href, if_pos (hiff.mp href)]
    -- a refused topic is registered in both maps or in neither
    have hboth : topic ∈ slim.topics ∨ (topic ∉ full.topics ∧ full.topics.card = maxTopics) := by
      rcases href with hlong | hslots | ⟨_,hcard⟩
      · exact absurd hshort (not_lt.mpr hlong)
      · exact Or.inr hslots
      · have hpos : 0 < (full.subscribers topic).card := hcard ▸ by decide
        obtain ⟨p,hp⟩ := Finset.card_pos.mp hpos
        exact Or.inl (hslim.registered topic p (h.subscribers ▸ hp))
    refine ⟨⟨fun t => ?_,h.subscribers,fun t ht => ?_⟩,rfl⟩
    · rw [hnamed, h.topics]
      constructor
      · exact fun ⟨ht,hn⟩ => ⟨ht,Or.inl hn⟩
      · rintro ⟨ht,hn | rfl⟩
        · exact ⟨ht,hn⟩
        · rcases hboth with hmem | ⟨hnot,_⟩
          · exact (h.topics _).mp hmem
          · exact absurd ht hnot
    · rcases (hnamed t).mp ht with hn | rfl
      · exact h.seen t hn
      · exact hboth.imp (fun hmem => h.subset hmem) And.right
  · rw [if_neg href, if_neg (mt hiff.mpr href)]
    refine ⟨⟨fun t => ?_,?_,fun t ht => ?_⟩,rfl⟩
    · simp only [TopicMap.add, Finset.mem_insert, hnamed, h.topics]
      tauto
    · simp only [TopicMap.add, h.subscribers]
    · rcases (hnamed t).mp ht with hn | rfl
      · rcases h.seen t hn with hmem | hcard
        · exact Or.inl (Finset.mem_insert_of_mem hmem)
        · have htopic : topic ∈ full.topics := by
            by_contra hnot
            exact href (Or.inr (Or.inl ⟨hnot,hcard⟩))
          exact Or.inr (by rw [TopicMap.add, Finset.insert_eq_of_mem htopic]; exact hcard)
      · exact Or.inl (Finset.mem_insert_self ..)

theorem Agrees.unsubscribe (h : Agrees calls full slim) :
    Agrees (calls ++ [.unsubscribe topic q]) (full.unsubscribe topic q).2 (slim.unsubscribe topic q).2 ∧
      (full.unsubscribe topic q).1 = (slim.unsubscribe topic q).1 := by
  have hnamed : ∀ t, Named (calls ++ [.unsubscribe topic q]) t ↔ Named calls t := by
    intro t
    simp [named_concat]
  unfold TopicMap.unsubscribe
  rw [h.subscribers]
  split
  · refine ⟨⟨fun t => ?_,?_,fun t ht => h.seen t ((hnamed t).mp ht)⟩,rfl⟩
    · rw [hnamed]
      exact h.topics t
    · simp only [TopicMap.erase, h.subscribers]
  · refine ⟨⟨fun t => ?_,h.subscribers,fun t ht => h.seen t ((hnamed t).mp ht)⟩,rfl⟩
    rw [hnamed]
    exact h.topics t

end Agreement

section Runs
variable [DecidableEq Q]

/-- What the subscribes and unsubscribes of a run returned. -/
def answers (b : Broker Q β) (calls : List (Call Q β)) : List ℤ :=
  ((calls.zip (run b calls).1).filter fun c => c.1.registers).map Prod.snd

theorem toMap_bounded {r : Registry Q} (h : r.Valid) : r.toMap.Bounded where
  topics_le := by
    rw [toMap_topics_card h, Registry.names, List.length_map]
    exact h.topics_le
  registered t p hp := by
    obtain ⟨e,he,htopic,_⟩ := subscribersOf_mem (mem_toMap_subscribers.mp hp)
    exact mem_toMap_topics.mpr (mem_names_iff.mpr ⟨e,he,htopic⟩)

theorem run_returns_concat (b : Broker Q β) (calls : List (Call Q β)) (c : Call Q β) :
    (run b (calls ++ [c])).1 = (run b calls).1 ++ [(exec (run b calls).2 c).1] := by
  induction calls generalizing b with
  | nil => rfl
  | cons d rest ih => exact congrArg ((exec b d).1 :: ·) (ih (exec b d).2)

theorem run_length (b : Broker Q β) (calls : List (Call Q β)) : (run b calls).1.length = calls.length := by
  induction calls generalizing b with
  | nil => rfl
  | cons c rest ih => simp [run, ih]

theorem answers_concat (b : Broker Q β) (calls : List (Call Q β)) (c : Call Q β) :
    answers b (calls ++ [c]) =
      answers b calls ++ if c.registers then [(exec (run b calls).2 c).1] else [] := by
  unfold answers
  rw [run_returns_concat, List.zip_append (run_length b calls).symm, List.filter_append, List.map_append]
  cases hc : c.registers <;> simp [hc]

omit [DecidableEq Q] in
theorem registrations_concat (calls : List (Call Q β)) (c : Call Q β) :
    registrations (calls ++ [c]) = registrations calls ++ if c.registers then [c] else [] := by
  unfold registrations
  rw [List.filter_append]
  cases hc : c.registers <;> simp [hc]

def Uncrowded (b : Broker Q β) (calls : List (Call Q β)) : Prop :=
  ∀ pre topic q, pre ++ [.subscribe topic q] <+: calls → ¬Crowded pre (run b pre).2.registry.toMap topic

theorem uncrowded_concat {b : Broker Q β} {calls : List (Call Q β)} {c : Call Q β} :
    Uncrowded b (calls ++ [c]) ↔ Uncrowded b calls ∧
      ∀ topic q, c = .subscribe topic q → ¬Crowded calls (run b calls).2.registry.toMap topic := by
  constructor
  · intro h
    refine ⟨fun pre topic q hpre => h pre topic q (hpre.trans (List.prefix_append ..)),?_⟩
    rintro topic q rfl
    exact h calls topic q (List.prefix_refl _)
  · rintro ⟨h,hlast⟩ pre topic q hpre
    rcases List.prefix_concat_iff.mp hpre with heq | hpre
    · obtain ⟨rfl,hc⟩ := List.append_inj' heq rfl
      exact hlast topic q (List.singleton_inj.mp hc).symm
    · exact h pre topic q hpre

end Runs

section TwoRuns
variable [DecidableEq Q] {b : Broker Q β} {calls : List (Call Q β)}

structure Alike (b : Broker Q β) (calls : List (Call Q β)) : Prop where
  valid : (run b calls).2.registry.Valid
  valid' : (run b (registrations calls)).2.registry.Valid
  agrees : Agrees calls (run b calls).2.registry.toMap (run b (registrations calls)).2.registry.toMap
  answers_eq : answers b calls = (run b (registrations calls)).1

theorem alike_nil (h : b.registry = .empty) : Alike b [] where
  valid := by
    simp only [run, h]
    exact Registry.empty_valid
  valid' := by
    simp only [registrations, List.filter_nil, run, h]
    exact Registry.empty_valid
  agrees := by
    simp only [registrations, List.filter_nil, run, h]
    refine ⟨fun t => ?_,rfl,fun t ht => ?_⟩
    · simp [Registry.toMap, Registry.names, Registry.empty]
    · simp [Named] at ht
  answers_eq := rfl

/-- After runs that are alike, a registration gets the same answer in both or the
answers differ from here on. -/
theorem answers_registers {c : Call Q β} (h : answers b calls = (run b (registrations calls)).1)
    (hc : c.registers = true) :
    answers b (calls ++ [c]) = (run b (registrations (calls ++ [c]))).1 ↔
      (exec (run b calls).2 c).1 = (exec (run b (registrations calls)).2 c).1 := by
  rw [answers_concat, registrations_concat, if_pos hc, if_pos hc, run_returns_concat, h]
  simp

theorem answers_of_concat {c : Call Q β}
    (h : answers b (calls ++ [c]) = (run b (registrations (calls ++ [c]))).1) :
    answers b calls = (run b (registrations calls)).1 := by
  rw [answers_concat, registrations_concat] at h
  cases hc : c.registers with
  | true =>
    rw [if_pos hc, if_pos hc, run_returns_concat] at h
    exact (List.append_inj' h rfl).1
  | false => simpa [hc] using h

theorem alike_registers (h : Alike b calls) {c : Call Q β} (hc : c.registers = true) (hshort : c.PublishesShort)
    (hstep : Agrees (calls ++ [c]) ((run b calls).2.registry.toMap.exec c)
      ((run b (registrations calls)).2.registry.toMap.exec c))
    (hsame : (exec (run b calls).2 c).1 = (exec (run b (registrations calls)).2 c).1) :
    Alike b (calls ++ [c]) := by
  have hreg : registrations (calls ++ [c]) = registrations calls ++ [c] := by
    rw [registrations_concat, if_pos hc]
  obtain ⟨hvalid,hmap⟩ := exec_refines h.valid c hshort
  obtain ⟨hvalid',hmap'⟩ := exec_refines h.valid' c hshort
  refine ⟨?_,?_,?_,(answers_registers h.answers_eq hc).mpr hsame⟩
  · rw [run_concat]
    exact hvalid
  · rw [hreg, run_concat]
    exact hvalid'
  · rw [hreg, run_concat, run_concat, hmap, hmap']
    exact hstep

theorem alike_publish (h : Alike b calls) {topic : CString} (hshort : topic.strlen < topicNameMax)
    (item : MsgItem β) (malloc : ℕ → Bool) : Alike b (calls ++ [.publish topic item malloc]) := by
  have hreg : registrations (calls ++ [.publish topic item malloc]) = registrations calls := by
    rw [registrations_concat]
    exact List.append_nil _
  obtain ⟨hvalid,hmap⟩ := exec_refines h.valid (.publish topic item malloc) hshort
  refine ⟨?_,?_,?_,?_⟩
  · rw [run_concat]
    exact hvalid
  · rw [hreg]
    exact h.valid'
  · rw [hreg, run_concat, hmap]
    exact h.agrees.register topic item malloc
  · rw [answers_concat, hreg, ← h.answers_eq]
    exact List.append_nil _

theorem alike_concat (h : Alike b calls) {c : Call Q β} (hshort : c.topic.strlen < topicNameMax)
    (hclear : ∀ topic q, c = .subscribe topic q → ¬Crowded calls (run b calls).2.registry.toMap topic) :
    Alike b (calls ++ [c]) := by
  cases c with
  | subscribe topic q =>
    obtain ⟨hstep,hsame⟩ := h.agrees.subscribe topic q (toMap_bounded h.valid) (toMap_bounded h.valid') hshort
      (hclear topic q rfl)
    rw [← (subscribe_refines h.valid topic q).2, ← (subscribe_refines h.valid' topic q).2] at hsame
    exact alike_registers h rfl trivial hstep hsame
  | unsubscribe topic q =>
    obtain ⟨hstep,hsame⟩ := h.agrees.unsubscribe topic q
    rw [← (unsubscribe_refines h.valid topic q).2, ← (unsubscribe_refines h.valid' topic q).2] at hsame
    exact alike_registers h rfl trivial hstep hsame
  | publish topic item malloc => exact alike_publish h hshort item malloc

/-- At a crowded registry the subscribe fails, and would not without the publishes. -/
theorem crowded_answers (h : Alike b calls) {topic : CString} (q : Q) (hshort : topic.strlen < topicNameMax)
    (hcrowded : Crowded calls (run b calls).2.registry.toMap topic) :
    answers b (calls ++ [.subscribe topic q]) ≠ (run b (registrations (calls ++ [.subscribe topic q]))).1 := by
  obtain ⟨hrefuses,haccepts⟩ := h.agrees.crowded topic q (toMap_bounded h.valid') hshort hcrowded
  have hfull := (subscribe_refines h.valid topic q).2
  have hslim := (subscribe_refines h.valid' topic q).2
  rw [TopicMap.subscribe, if_pos hrefuses] at hfull
  rw [TopicMap.subscribe, if_neg haccepts] at hslim
  intro heq
  have hsame := (answers_registers h.answers_eq rfl).mp heq
  have hret : (-1 : ℤ) = 0 := (congrArg Prod.fst hfull).symm.trans (hsame.trans (congrArg Prod.fst hslim))
  omega

theorem alike_of_uncrowded (hempty : b.registry = .empty)
    (hshort : ∀ c ∈ calls, c.topic.strlen < topicNameMax)
    (h : Uncrowded b calls) : Alike b calls := by
  induction calls using List.reverseRecOn with
  | nil => exact alike_nil hempty
  | append_singleton calls c ih =>
    obtain ⟨hbefore,hlast⟩ := uncrowded_concat.mp h
    exact alike_concat (ih (fun d hd => hshort d (List.mem_append_left _ hd)) hbefore) (hshort c (by simp)) hlast

theorem uncrowded_of_answers (hempty : b.registry = .empty)
    (hshort : ∀ c ∈ calls, c.topic.strlen < topicNameMax)
    (h : answers b calls = (run b (registrations calls)).1) : Uncrowded b calls := by
  induction calls using List.reverseRecOn with
  | nil =>
    intro pre topic q hpre
    simp at hpre
  | append_singleton calls c ih =>
    have hshort' : ∀ d ∈ calls, d.topic.strlen < topicNameMax :=
      fun d hd => hshort d (List.mem_append_left _ hd)
    have hbefore := ih hshort' (answers_of_concat h)
    refine uncrowded_concat.mpr ⟨hbefore,?_⟩
    rintro topic q rfl hcrowded
    have htopic : topic.strlen < topicNameMax := hshort (.subscribe topic q) (by simp)
    exact crowded_answers (alike_of_uncrowded hempty hshort' hbefore) q htopic hcrowded h

end TwoRuns

variable [DecidableEq Q]

/-- Deleting the publishes of a sequence leaves every answer of the others and the
subscribers of every topic as they are, exactly when no subscribe names a new topic
while the registry is full and has a topic that no subscribe has named. -/
theorem publishes_deletable_iff (queues : Q → RingQueue (MsgItem β)) (heap : Heap) (calls : List (Call Q β))
    (hshort : ∀ c ∈ calls, c.topic.strlen < topicNameMax) :
    let b := create queues heap
    (answers b calls = (run b (registrations calls)).1 ∧
      ∀ topic, (run b calls).2.registry.toMap.subscribers topic =
        (run b (registrations calls)).2.registry.toMap.subscribers topic) ↔
    Uncrowded b calls := by
  intro b
  constructor
  · exact fun h => uncrowded_of_answers rfl hshort h.1
  · intro h
    have halike := alike_of_uncrowded rfl hshort h
    exact ⟨halike.answers_eq,fun topic => (congrFun halike.agrees.subscribers topic).symm⟩

/-- A publish to one topic before a subscribe to another. -/
theorem publishes_deletable_iff_two :
    let queues : ℕ → RingQueue (MsgItem Bytes) :=
      fun _ => .fresh (fun _ => ⟨0,.alert,none,0⟩) 2 (by decide) (by decide)
    let b := create queues ⟨0,fun _ => 0⟩
    let telemetry : CString := ⟨ascii "telemetry",by decide⟩
    let alerts : CString := ⟨ascii "alerts",by decide⟩
    let calls : List (Call ℕ Bytes) :=
      [.publish alerts ⟨1,.alert,none,0⟩ (fun _ => true),.subscribe telemetry 1]
    answers b calls = [0] ∧ (run b (registrations calls)).1 = [0] ∧
      ∀ topic, (run b calls).2.registry.toMap.subscribers topic =
        (run b (registrations calls)).2.registry.toMap.subscribers topic := by
  intro queues b telemetry alerts calls
  have hshort : ∀ c ∈ calls, c.topic.strlen < topicNameMax := by
    intro c hc
    simp only [calls, List.mem_cons, List.not_mem_nil, or_false] at hc
    rcases hc with rfl | rfl
    · exact (by decide : alerts.strlen < topicNameMax)
    · exact (by decide : telemetry.strlen < topicNameMax)
  have huncrowded : Uncrowded b calls := by
    rintro pre topic q hpre ⟨_,hcard,_⟩
    obtain ⟨rest,hrest⟩ := hpre
    match pre with
    | [] => exact absurd hcard (by decide)
    | c :: pre =>
      simp only [calls, List.cons_append, List.cons.injEq] at hrest
      obtain ⟨rfl,hrest⟩ := hrest
      have hnil : pre = [] := by
        have hlength := congrArg List.length hrest
        simp only [List.length_append, List.length_cons, List.length_nil] at hlength
        exact List.eq_nil_of_length_eq_zero (by omega)
      subst hnil
      exact absurd hcard (by decide)
  have hiff := publishes_deletable_iff queues ⟨0,fun _ => 0⟩ calls hshort
  exact ⟨by decide,by decide,(hiff.mpr huncrowded).2⟩

/-- Eight publishes fill the registry, and the first subscribe is refused. -/
theorem publishes_not_deletable :
    let queues : ℕ → RingQueue (MsgItem Bytes) :=
      fun _ => .fresh (fun _ => ⟨0,.alert,none,0⟩) 2 (by decide) (by decide)
    let b := create queues ⟨0,fun _ => 0⟩
    let publish : UInt8 → Call ℕ Bytes := fun c => .publish (.ofBuffer [c]) ⟨1,.alert,none,0⟩ fun _ => true
    let calls : List (Call ℕ Bytes) :=
      [publish 97,publish 98,publish 99,publish 100,publish 101,publish 102,publish 103,publish 104,
        .subscribe (.ofBuffer [105]) 1]
    (∀ c ∈ calls, c.topic.strlen < topicNameMax) ∧ answers b calls = [-1] ∧
      (run b (registrations calls)).1 = [0] := by
  intro queues b publish calls
  refine ⟨?_,by decide,by decide⟩
  decide

end RadioSim.Pubsub
