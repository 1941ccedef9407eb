import RadioSim.Pubsub.Registry

/-! # Refinement of the registry by a map of sets

The abstract context is a set of registered names with a set of queues for each
name. The calls of `pubsub.c` act on it as insertions and erasures as long as
published names fit their buffer.
-/
namespace RadioSim.Pubsub
variable {Q β : Type*} [DecidableEq Q]

@[ext] structure TopicMap (Q : Type*) where
  topics : Finset CString
  subscribers : CString → Finset Q

namespace TopicMap

def empty : TopicMap Q := ⟨∅,fun _ => ∅⟩

/-- A name that does not fit, a ninth topic, or a seventeenth subscriber. -/
def Refuses (m : TopicMap Q) (topic : CString) (q : Q) : Prop :=
  topicNameMax ≤ topic.strlen ∨ (topic ∉ m.topics ∧ m.topics.card = maxTopics) ∨
    (q ∉ m.subscribers topic ∧ (m.subscribers topic).card = maxSubscribersPerTopic)

instance (m : TopicMap Q) (topic : CString) (q : Q) : Decidable (m.Refuses topic q) :=
  inferInstanceAs (Decidable (_ ∨ _ ∨ _))

def add (m : TopicMap Q) (topic : CString) (q : Q) : TopicMap Q :=
  ⟨insert topic m.topics,Function.update m.subscribers topic (insert q (m.subscribers topic))⟩

def erase (m : TopicMap Q) (topic : CString) (q : Q) : TopicMap Q :=
  { m with subscribers := Function.update m.subscribers topic ((m.subscribers topic).erase q) }

def subscribe (m : TopicMap Q) (topic : CString) (q : Q) : ℤ × TopicMap Q :=
  if m.Refuses topic q then (-1,m) else (0,m.add topic q)

def unsubscribe (m : TopicMap Q) (topic : CString) (q : Q) : ℤ × TopicMap Q :=
  if q ∈ m.subscribers topic then (0,m.erase topic q) else (-1,m)

/-- Publishing registers the name while there is room. -/
def register (m : TopicMap Q) (topic : CString) : TopicMap Q :=
  if topic ∉ m.topics ∧ m.topics.card = maxTopics then m else { m with topics := insert topic m.topics }

def exec (m : TopicMap Q) : Call Q β → TopicMap Q
  | .subscribe topic q => (m.subscribe topic q).2
  | .unsubscribe topic q => (m.unsubscribe topic q).2
  | .publish topic _ _ => m.register topic

end TopicMap

def Registry.toMap (r : Registry Q) : TopicMap Q :=
  ⟨r.names.toFinset,fun topic => (subscribersOf topic r.topics).toFinset⟩

section Calls
variable {r : Registry Q} {topic : CString} {q : Q}

theorem toMap_topics_card (h : r.Valid) : r.toMap.topics.card = r.names.length :=
  List.toFinset_card_of_nodup h.names_nodup

theorem toMap_subscribers_card (h : r.Valid) (topic : CString) :
    (r.toMap.subscribers topic).card = (subscribersOf topic r.topics).length :=
  List.toFinset_card_of_nodup (h.subscribersOf_nodup topic)

theorem mem_toMap_topics : topic ∈ r.toMap.topics ↔ topic ∈ r.names := List.mem_toFinset

theorem mem_toMap_subscribers : q ∈ r.toMap.subscribers topic ↔ q ∈ subscribersOf topic r.topics :=
  List.mem_toFinset

theorem Pointer.toMap_topics {l : Located Q} (h : Pointer r topic l) :
    l.registry.toMap.topics = insert topic r.toMap.topics := by
  simp only [Registry.toMap, h.names_eq]
  split
  · rename_i hmem
    exact (Finset.insert_eq_of_mem (List.mem_toFinset.mpr hmem)).symm
  · ext t
    simp

/-- The map after `find_or_create_topic` has at most one more name. -/
theorem Pointer.toMap_eq {l : Located Q} (h : Pointer r topic l) :
    l.registry.toMap = ⟨insert topic r.toMap.topics,r.toMap.subscribers⟩ := by
  apply TopicMap.ext
  · exact h.toMap_topics
  · funext t
    simp only [Registry.toMap, h.lookup_eq]

theorem Pointer.setSubscribers_toMap {l : Located Q} (h : Pointer r topic l) (s : List Q) :
    (l.setSubscribers s).registry.toMap = ⟨insert topic r.toMap.topics,
      Function.update r.toMap.subscribers topic s.toFinset⟩ := by
  apply TopicMap.ext
  · rw [← h.toMap_topics]
    simp only [Registry.toMap, setSubscribers_names]
  · funext t
    by_cases ht : t = topic
    · subst ht
      simp only [Function.update_self, Registry.toMap, Located.registry]
      rw [subscribersOf_located (by exact h.before_ne) (by exact h.topic_eq)]
      rfl
    · have hne : l.entry.topic ≠ t := fun he => ht (he.symm.trans h.topic_eq)
      have hlookup := h.lookup_eq t
      rw [Located.registry, subscribersOf_other hne] at hlookup
      simp only [Function.update_of_ne ht, Registry.toMap, Located.registry]
      rw [subscribersOf_other (show (l.setSubscribers s).entry.topic ≠ t from hne), ← hlookup]
      rfl

/-- `pubsub_subscribe` answers and acts as insertion into the map. The entry it
may have created is never left behind by a refusal: a new entry has room. -/
theorem subscribe_refines (h : r.Valid) (topic : CString) (q : Q) :
    (pubsubSubscribe r topic q).2.Valid ∧
    ((pubsubSubscribe r topic q).1,(pubsubSubscribe r topic q).2.toMap) = r.toMap.subscribe topic q := by
  unfold pubsubSubscribe TopicMap.subscribe
  by_cases hlong : topic.strlen ≥ topicNameMax
  · have href : r.toMap.Refuses topic q := Or.inl hlong
    simp only [hlong, ↓reduceIte, href]
    exact ⟨h,trivial⟩
  · have hspec := findOrCreateTopic_spec h (Nat.not_le.mp hlong)
    simp only [hlong, ↓reduceIte]
    cases hl : findOrCreateTopic r topic with
    | none =>
      simp only [hl] at hspec ⊢
      have href : r.toMap.Refuses topic q := Or.inr (Or.inl ⟨fun hm => hspec.1 (mem_toMap_topics.mp hm),by
        rw [toMap_topics_card h, hspec.2]⟩)
      simp only [href, ↓reduceIte]
      exact ⟨h,trivial⟩
    | some l =>
      simp only [hl] at hspec ⊢
      obtain ⟨hroom,hptr⟩ := hspec
      have hsubs := hptr.subscribers_eq
      have hregistered : ¬ (topic ∉ r.toMap.topics ∧ r.toMap.topics.card = maxTopics) := by
        rintro ⟨hnot,hcard⟩
        rw [toMap_topics_card h] at hcard
        rcases hroom with hmem | hlt
        · exact hnot (mem_toMap_topics.mpr hmem)
        · omega
      have hentry : l.entry ∈ l.registry.topics := by simp [Located.registry]
      by_cases hmem : q ∈ l.entry.subscribers
      · have hin : q ∈ r.toMap.subscribers topic := mem_toMap_subscribers.mpr (hsubs ▸ hmem)
        have href : ¬ r.toMap.Refuses topic q := by
          rintro (hl | hf | hf)
          · exact hlong hl
          · exact hregistered hf
          · exact hf.1 hin
        simp only [hmem, href, ↓reduceIte]
        refine ⟨hptr.valid,?_⟩
        rw [hptr.toMap_eq, TopicMap.add, Finset.insert_eq_of_mem hin, Function.update_eq_self]
      · have hnot : q ∉ r.toMap.subscribers topic := fun hin => hmem (hsubs ▸ mem_toMap_subscribers.mp hin)
        have hcard := toMap_subscribers_card h topic
        rw [← hsubs] at hcard
        have hle := hptr.valid.subscribers_le _ hentry
        -- a full entry is not a new one, so the topic was registered before
        by_cases hfull : l.entry.subscribers.length ≥ maxSubscribersPerTopic
        · have href : r.toMap.Refuses topic q := Or.inr (Or.inr ⟨hnot,by omega⟩)
          have hname : topic ∈ r.toMap.topics := by
            by_contra hnew
            have hnil : subscribersOf topic r.topics = [] := subscribersOf_eq_nil (fun e he ht =>
              hnew (mem_toMap_topics.mpr (mem_names_iff.mpr ⟨e,he,ht⟩)))
            rw [hsubs, hnil] at hfull
            simp [maxSubscribersPerTopic] at hfull
          simp only [hmem, hfull, href, ↓reduceIte]
          refine ⟨hptr.valid,?_⟩
          rw [hptr.toMap_eq, Finset.insert_eq_of_mem hname]
        · have href : ¬ r.toMap.Refuses topic q := by
            rintro (hl | hf | hf)
            · exact hlong hl
            · exact hregistered hf
            · omega
          simp only [hmem, hfull, href, ↓reduceIte]
          have hnodup := hptr.valid.subscribers_nodup _ hentry
          refine ⟨setSubscribers_valid hptr.valid (List.nodup_append.mpr ⟨hnodup,by simp,?_⟩) ?_,?_⟩
          · intro a ha b hb
            rw [List.mem_singleton.mp hb]
            exact fun he => hmem (he ▸ ha)
          · simp only [List.length_append, List.length_cons, List.length_nil]
            omega
          · rw [hptr.setSubscribers_toMap, TopicMap.add, hsubs, List.toFinset_append]
            congr 2
            congr 1
            ext x
            simp [Registry.toMap]

/-- `pubsub_unsubscribe` answers and acts as erasure from the map. -/
theorem unsubscribe_refines (h : r.Valid) (topic : CString) (q : Q) :
    (pubsubUnsubscribe r topic q).2.Valid ∧
    ((pubsubUnsubscribe r topic q).1,(pubsubUnsubscribe r topic q).2.toMap) =
      r.toMap.unsubscribe topic q := by
  unfold pubsubUnsubscribe TopicMap.unsubscribe
  cases hl : findTopic topic r.topics with
  | none =>
    have hnil := subscribersOf_eq_nil (findTopic_eq_none_iff.mp hl)
    have hnot : q ∉ r.toMap.subscribers topic := by simp [Registry.toMap, hnil]
    simp only [hnot, ↓reduceIte]
    exact ⟨h,trivial⟩
  | some l =>
    obtain ⟨hname,hptr⟩ := findTopic_pointer h hl
    have hsubs := hptr.subscribers_eq
    have hentry : l.entry ∈ l.registry.topics := by simp [Located.registry]
    cases hrem : SwapRemove.remove l.entry.subscribers q with
    | none =>
      have hnot : q ∉ r.toMap.subscribers topic := fun hin =>
        SwapRemove.remove_eq_none_iff.mp hrem (hsubs ▸ mem_toMap_subscribers.mp hin)
      simp only [hnot, hrem, ↓reduceIte]
      exact ⟨h,trivial⟩
    | some rest =>
      have hmem : q ∈ l.entry.subscribers := by
        by_contra hno
        rw [SwapRemove.remove_eq_none_iff.mpr hno] at hrem
        cases hrem
      have hin : q ∈ r.toMap.subscribers topic := mem_toMap_subscribers.mpr (hsubs ▸ hmem)
      have hnodup := hptr.valid.subscribers_nodup _ hentry
      have hlen := SwapRemove.remove_length hrem
      have hle := hptr.valid.subscribers_le _ hentry
      simp only [hin, hrem, ↓reduceIte]
      refine ⟨setSubscribers_valid hptr.valid (SwapRemove.remove_nodup hnodup hrem) (by omega),?_⟩
      rw [hptr.setSubscribers_toMap, TopicMap.erase,
        Finset.insert_eq_of_mem (mem_toMap_topics.mpr hname)]
      congr 2
      congr 1
      ext x
      rw [List.mem_toFinset, SwapRemove.mem_remove hnodup hrem, Finset.mem_erase, mem_toMap_subscribers,
        hsubs, and_comm]

theorem TopicMap.mem_add (m : TopicMap Q) (topic t : CString) (p q : Q) :
    q ∈ (m.add topic p).subscribers t ↔ (t = topic ∧ q = p) ∨ q ∈ m.subscribers t := by
  by_cases ht : t = topic
  · subst ht
    simp [TopicMap.add]
  · simp [TopicMap.add, ht]

theorem TopicMap.mem_erase (m : TopicMap Q) (topic t : CString) (p q : Q) :
    q ∈ (m.erase topic p).subscribers t ↔ ¬ (t = topic ∧ q = p) ∧ q ∈ m.subscribers t := by
  by_cases ht : t = topic
  · subst ht
    simp [TopicMap.erase]
  · simp [TopicMap.erase, ht]

/-- The pointers in the entries are those of the map. -/
theorem holds_iff (h : r.Valid) : r.Holds q ↔ ∃ topic, q ∈ r.toMap.subscribers topic := by
  constructor
  · rintro ⟨e,he,hq⟩
    exact ⟨e.topic,mem_toMap_subscribers.mpr (by rwa [subscribersOf_entry h he])⟩
  · rintro ⟨topic,hq⟩
    obtain ⟨e,he,_,hmem⟩ := subscribersOf_mem (mem_toMap_subscribers.mp hq)
    exact ⟨e,he,hmem⟩

theorem subscribe_mem (h : r.Valid) {t : CString} {p : Q}
    (hq : q ∈ (pubsubSubscribe r topic p).2.toMap.subscribers t) :
    q ∈ r.toMap.subscribers t ∨ (t = topic ∧ q = p ∧ (pubsubSubscribe r topic p).1 = 0) := by
  have hs := (subscribe_refines h topic p).2
  have hret := congrArg Prod.fst hs
  have hmap := congrArg Prod.snd hs
  simp only at hret hmap
  rw [hmap] at hq
  rw [hret]
  unfold TopicMap.subscribe at hq ⊢
  split at hq
  · exact Or.inl hq
  · rename_i hok
    rcases (TopicMap.mem_add _ _ _ _ _).mp hq with ⟨ht,hp⟩ | hold
    · exact Or.inr ⟨ht,hp,by simp [hok]⟩
    · exact Or.inl hold

theorem unsubscribe_mem (h : r.Valid) {t : CString} {p : Q}
    (hq : q ∈ (pubsubUnsubscribe r topic p).2.toMap.subscribers t) :
    q ∈ r.toMap.subscribers t ∧ ¬ (t = topic ∧ q = p) := by
  have hmap := congrArg Prod.snd (unsubscribe_refines h topic p).2
  simp only at hmap
  rw [hmap] at hq
  unfold TopicMap.unsubscribe at hq
  split at hq
  · exact ((TopicMap.mem_erase _ _ _ _ _).mp hq).symm
  · rename_i hnot
    refine ⟨hq,?_⟩
    rintro ⟨rfl,rfl⟩
    exact hnot hq

end Calls

section Publish
variable {b : Broker Q β}

@[simp] theorem fanOut_registry (item : MsgItem β) (malloc : ℕ → Bool) (i : ℕ) (qs : List Q)
    (b : Broker Q β) : (fanOut item malloc i qs b).2.registry = b.registry := by
  induction qs generalizing i b with
  | nil => rfl
  | cons q rest ih => exact ih (i + 1) (b.deliverTo item (malloc i) q).2

theorem fanOut_nonneg (item : MsgItem β) (malloc : ℕ → Bool) (i : ℕ) (qs : List Q) (b : Broker Q β) :
    0 ≤ (fanOut item malloc i qs b).1 := by
  induction qs generalizing i b with
  | nil => exact le_rfl
  | cons q rest ih =>
    have h := ih (i + 1) (b.deliverTo item (malloc i) q).2
    simp only [fanOut]
    split <;> omega

theorem publish_nonneg (b : Broker Q β) (topic : CString) (item : MsgItem β) (malloc : ℕ → Bool) :
    0 ≤ (pubsubPublish b topic item malloc).1 := by
  unfold pubsubPublish
  split
  · exact le_rfl
  · exact fanOut_nonneg ..

/-- What `pubsub_publish` does to the registry: it finds or creates the topic. -/
theorem publish_registry (b : Broker Q β) (topic : CString) (item : MsgItem β) (malloc : ℕ → Bool) :
    (pubsubPublish b topic item malloc).2.registry =
      ((findOrCreateTopic b.registry topic).map Located.registry).getD b.registry := by
  unfold pubsubPublish
  cases findOrCreateTopic b.registry topic <;> simp

theorem publish_refines (h : b.registry.Valid) {topic : CString} (hshort : topic.strlen < topicNameMax)
    (item : MsgItem β) (malloc : ℕ → Bool) :
    (pubsubPublish b topic item malloc).2.registry.Valid ∧
    (pubsubPublish b topic item malloc).2.registry.toMap = b.registry.toMap.register topic := by
  rw [publish_registry]
  have hspec := findOrCreateTopic_spec h hshort
  simp only [TopicMap.register, toMap_topics_card h, mem_toMap_topics]
  cases hl : findOrCreateTopic b.registry topic with
  | none =>
    simp only [hl] at hspec
    simp only [Option.map_none, Option.getD_none]
    rw [if_pos hspec]
    exact ⟨h,rfl⟩
  | some l =>
    simp only [hl] at hspec
    obtain ⟨hroom,hptr⟩ := hspec
    simp only [Option.map_some, Option.getD_some]
    rw [if_neg]
    · exact ⟨hptr.valid,hptr.toMap_eq⟩
    · rintro ⟨hnot,hfull⟩
      rcases hroom with hmem | hlt
      · exact hnot hmem
      · omega

end Publish

def Call.PublishesShort : Call Q β → Prop
  | .publish topic _ _ => topic.strlen < topicNameMax
  | _ => True

def Call.topic : Call Q β → CString
  | .subscribe topic _ => topic
  | .unsubscribe topic _ => topic
  | .publish topic _ _ => topic

theorem exec_refines {b : Broker Q β} (h : b.registry.Valid) (c : Call Q β) (hc : c.PublishesShort) :
    (exec b c).2.registry.Valid ∧ (exec b c).2.registry.toMap = b.registry.toMap.exec c := by
  cases c with
  | subscribe topic q =>
    have hs := subscribe_refines h topic q
    exact ⟨hs.1,congrArg Prod.snd hs.2⟩
  | unsubscribe topic q =>
    have hs := unsubscribe_refines h topic q
    exact ⟨hs.1,congrArg Prod.snd hs.2⟩
  | publish topic item malloc => exact publish_refines h hc item malloc

theorem run_refines {b : Broker Q β} (h : b.registry.Valid) (calls : List (Call Q β))
    (hcalls : ∀ c ∈ calls, c.PublishesShort) :
    (run b calls).2.registry.Valid ∧
      (run b calls).2.registry.toMap = calls.foldl TopicMap.exec b.registry.toMap := by
  induction calls generalizing b with
  | nil => exact ⟨h,rfl⟩
  | cons c rest ih =>
    obtain ⟨hv,hm⟩ := exec_refines h c (hcalls c (by simp))
    have hrest := ih hv (fun d hd => hcalls d (by simp [hd]))
    simp only [run, List.foldl_cons, ← hm]
    exact hrest

/-- No call touches the subscribers of another topic. -/
theorem TopicMap.exec_other (m : TopicMap Q) (c : Call Q β) {t : CString} (ht : t ≠ c.topic) :
    (m.exec c).subscribers t = m.subscribers t := by
  cases c with
  | subscribe topic q =>
    simp only [TopicMap.exec, TopicMap.subscribe]
    split
    · rfl
    · exact Function.update_of_ne ht ..
  | unsubscribe topic q =>
    simp only [TopicMap.exec, TopicMap.unsubscribe]
    split
    · exact Function.update_of_ne ht ..
    · rfl
  | publish topic item malloc =>
    simp only [TopicMap.exec, TopicMap.register]
    split <;> rfl

/-- Only a call that returns 0 or more changes the map. -/
theorem exec_failure {b : Broker Q β} (h : b.registry.Valid) (c : Call Q β) (hret : (exec b c).1 = -1) :
    (exec b c).2.registry.toMap = b.registry.toMap := by
  cases c with
  | subscribe topic q =>
    have hs := (subscribe_refines h topic q).2
    unfold TopicMap.subscribe at hs
    split at hs
    · exact congrArg Prod.snd hs
    · have h0 : (0 : ℤ) = -1 := (congrArg Prod.fst hs).symm.trans hret
      omega
  | unsubscribe topic q =>
    have hs := (unsubscribe_refines h topic q).2
    unfold TopicMap.unsubscribe at hs
    split at hs
    · have h0 : (0 : ℤ) = -1 := (congrArg Prod.fst hs).symm.trans hret
      omega
    · exact congrArg Prod.snd hs
  | publish topic item malloc =>
    have hpos : 0 ≤ (exec b (.publish topic item malloc)).1 := publish_nonneg b topic item malloc
    omega

/-- The array registry refines a finite map from names to sets of queues: over
every sequence of calls it represents the map the calls build, within its bounds,
and in the state it has reached each call returns what the map prescribes, fails
without a trace, and leaves the other topics alone. -/
theorem registry_refines_topicMap (queues : Q → Queue.RingQueue (MsgItem β)) (heap : Heap)
    (calls : List (Call Q β)) (hcalls : ∀ c ∈ calls, c.PublishesShort) :
    let b := (run (create queues heap) calls).2
    (b.registry.topics.length ≤ maxTopics ∧ b.registry.names.Nodup ∧
      ∀ e ∈ b.registry.topics, e.subscribers.Nodup ∧ e.subscribers.length ≤ maxSubscribersPerTopic) ∧
    b.registry.toMap = calls.foldl TopicMap.exec TopicMap.empty ∧
    (∀ topic q,
      ((pubsubSubscribe b.registry topic q).1 = -1 ↔ b.registry.toMap.Refuses topic q) ∧
      (¬ b.registry.toMap.Refuses topic q →
        (pubsubSubscribe b.registry topic q).1 = 0 ∧
        (pubsubSubscribe b.registry topic q).2.toMap = b.registry.toMap.add topic q)) ∧
    (∀ topic q,
      ((pubsubUnsubscribe b.registry topic q).1 = 0 ↔ q ∈ b.registry.toMap.subscribers topic) ∧
      (q ∈ b.registry.toMap.subscribers topic →
        (pubsubUnsubscribe b.registry topic q).2.toMap = b.registry.toMap.erase topic q) ∧
      (q ∉ b.registry.toMap.subscribers topic → (pubsubUnsubscribe b.registry topic q).1 = -1)) ∧
    ∀ c : Call Q β, c.PublishesShort →
      ((exec b c).1 = -1 → (exec b c).2.registry.toMap = b.registry.toMap) ∧
      ∀ t, t ≠ c.topic → (exec b c).2.registry.toMap.subscribers t = b.registry.toMap.subscribers t := by
  intro b
  obtain ⟨hv,hmap⟩ := run_refines (b := create queues heap) Registry.empty_valid calls hcalls
  refine ⟨⟨hv.topics_le,hv.names_nodup,fun e he => ⟨hv.subscribers_nodup e he,hv.subscribers_le e he⟩⟩,
    hmap,?_,?_,?_⟩
  · intro topic q
    have hs := (subscribe_refines hv topic q).2
    unfold TopicMap.subscribe at hs
    by_cases href : b.registry.toMap.Refuses topic q
    · rw [if_pos href] at hs
      exact ⟨⟨fun _ => href,fun _ => congrArg Prod.fst hs⟩,fun hn => absurd href hn⟩
    · rw [if_neg href] at hs
      have hret := congrArg Prod.fst hs
      refine ⟨⟨fun hfail => ?_,fun h => absurd h href⟩,fun _ => ⟨hret,congrArg Prod.snd hs⟩⟩
      have h0 : (0 : ℤ) = -1 := hret.symm.trans hfail
      omega
  · intro topic q
    have hs := (unsubscribe_refines hv topic q).2
    unfold TopicMap.unsubscribe at hs
    by_cases hmem : q ∈ b.registry.toMap.subscribers topic
    · rw [if_pos hmem] at hs
      exact ⟨⟨fun _ => hmem,fun _ => congrArg Prod.fst hs⟩,fun _ => congrArg Prod.snd hs,
        fun hn => absurd hmem hn⟩
    · rw [if_neg hmem] at hs
      have hret := congrArg Prod.fst hs
      refine ⟨⟨fun hok => ?_,fun h => absurd h hmem⟩,fun h => absurd h hmem,fun _ => hret⟩
      have h0 : (-1 : ℤ) = 0 := hret.symm.trans hok
      omega
  · intro c hc
    refine ⟨exec_failure hv c,?_⟩
    intro t ht
    rw [(exec_refines hv c hc).2]
    exact TopicMap.exec_other _ c ht

/-- Two subscribers, one of which leaves, and a topic that only publishing names. -/
theorem registry_refines_topicMap_two_topics :
    let queues : ℕ → Queue.RingQueue (MsgItem Bytes) :=
      fun _ => .fresh (fun _ => ⟨0,.alert,none,0⟩) 2 (by decide) (by decide)
    let telemetry : CString := ⟨ascii "telemetry",by decide⟩
    let alerts : CString := ⟨ascii "alerts",by decide⟩
    let calls : List (Call ℕ Bytes) := [.subscribe telemetry 1,.subscribe telemetry 2,
      .publish alerts ⟨1,.alert,none,0⟩ (fun _ => true),.unsubscribe telemetry 1]
    (run (create queues ⟨0,fun _ => 0⟩) calls).1 = [0,0,0,0] ∧
    ((pubsubUnsubscribe (run (create queues ⟨0,fun _ => 0⟩) calls).2.registry telemetry 1).1 = 0 ↔
      1 ∈ (run (create queues ⟨0,fun _ => 0⟩) calls).2.registry.toMap.subscribers telemetry) := by
  intro queues telemetry alerts calls
  refine ⟨by decide,?_⟩
  have hshort : ∀ c ∈ calls, c.PublishesShort := by
    intro c hc
    simp only [calls, List.mem_cons, List.not_mem_nil, or_false] at hc
    rcases hc with rfl | rfl | rfl | rfl
    · trivial
    · trivial
    · exact (by decide : alerts.strlen < topicNameMax)
    · trivial
  exact ((registry_refines_topicMap queues ⟨0,fun _ => 0⟩ calls hshort).2.2.2.1 telemetry 1).1

end RadioSim.Pubsub
