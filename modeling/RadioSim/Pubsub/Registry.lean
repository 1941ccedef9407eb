import RadioSim.Pubsub.Broker
import Mathlib.Data.Finset.Card
import Mathlib.Data.Finset.Insert
import Mathlib.Data.Finset.Dedup

/-! # The registry as a finite map from topic names to sets of queues

A registry that the calls below can reach has distinct names and distinct
subscribers, so the linear searches and the swap with the last subscriber act as
lookup, insertion and removal.
-/
namespace RadioSim.Pubsub
variable {Q β : Type*}

def subscribersOf (topic : CString) : List (TopicEntry Q) → List Q
  | [] => []
  | e :: rest => if e.topic = topic then e.subscribers else subscribersOf topic rest

attribute [local simp] subscribersOf findTopic

def Registry.names (r : Registry Q) : List CString := r.topics.map TopicEntry.topic

theorem findTopic_some {topic : CString} {ts : List (TopicEntry Q)} {l : Located Q}
    (h : findTopic topic ts = some l) :
    l.before ++ l.entry :: l.after = ts ∧ l.entry.topic = topic ∧ ∀ e ∈ l.before, e.topic ≠ topic := by
  induction ts generalizing l with
  | nil => simp [findTopic] at h
  | cons e rest ih =>
    simp only [findTopic] at h
    by_cases he : e.topic = topic
    · simp only [he, ↓reduceIte, Option.some.injEq] at h
      subst h
      exact ⟨rfl,he,by simp⟩
    · simp only [he, ↓reduceIte, Option.map_eq_some_iff] at h
      obtain ⟨l',hl',rfl⟩ := h
      obtain ⟨hsplit,htopic,hbefore⟩ := ih hl'
      refine ⟨by simp [← hsplit],htopic,?_⟩
      intro d hd
      rcases List.mem_cons.mp hd with rfl | hd
      · exact he
      · exact hbefore d hd

theorem findTopic_eq_none_iff {topic : CString} {ts : List (TopicEntry Q)} :
    findTopic topic ts = none ↔ ∀ e ∈ ts, e.topic ≠ topic := by
  induction ts with
  | nil => simp [findTopic]
  | cons e rest ih =>
    simp only [findTopic]
    by_cases he : e.topic = topic
    · simp [he]
    · simp [he, ih]

theorem subscribersOf_eq_nil {topic : CString} {ts : List (TopicEntry Q)}
    (h : ∀ e ∈ ts, e.topic ≠ topic) : subscribersOf topic ts = [] := by
  induction ts with
  | nil => rfl
  | cons e rest ih =>
    simp only [subscribersOf, h e (by simp), ↓reduceIte]
    exact ih (fun d hd => h d (by simp [hd]))

theorem subscribersOf_located {topic : CString} {before after : List (TopicEntry Q)} {e : TopicEntry Q}
    (hb : ∀ d ∈ before, d.topic ≠ topic) (he : e.topic = topic) :
    subscribersOf topic (before ++ e :: after) = e.subscribers := by
  induction before with
  | nil => simp [subscribersOf, he]
  | cons d rest ih =>
    simp only [List.cons_append, subscribersOf, hb d (by simp), ↓reduceIte]
    exact ih (fun c hc => hb c (by simp [hc]))

theorem findOrCreateTopic_subscribers (r : Registry Q) (topic : CString) :
    ((findOrCreateTopic r topic).elim [] fun l => l.entry.subscribers) = subscribersOf topic r.topics := by
  unfold findOrCreateTopic
  cases hfind : findTopic topic r.topics with
  | some l =>
    obtain ⟨hsplit,htopic,hbefore⟩ := findTopic_some hfind
    rw [← hsplit, subscribersOf_located hbefore htopic]
    rfl
  | none =>
    rw [subscribersOf_eq_nil (findTopic_eq_none_iff.mp hfind)]
    dsimp only
    split <;> rfl

theorem subscribersOf_other {topic : CString} {before after : List (TopicEntry Q)} {e : TopicEntry Q}
    (he : e.topic ≠ topic) :
    subscribersOf topic (before ++ e :: after) = subscribersOf topic (before ++ after) := by
  induction before with
  | nil => simp [subscribersOf, he]
  | cons d rest ih => simp only [List.cons_append, subscribersOf, ih]

theorem subscribersOf_mem {topic : CString} {ts : List (TopicEntry Q)} {q : Q}
    (h : q ∈ subscribersOf topic ts) : ∃ e ∈ ts, e.topic = topic ∧ q ∈ e.subscribers := by
  induction ts with
  | nil => simp [subscribersOf] at h
  | cons e rest ih =>
    by_cases he : e.topic = topic
    · simp only [subscribersOf, he, ↓reduceIte] at h
      exact ⟨e,by simp,he,h⟩
    · simp only [subscribersOf, he, ↓reduceIte] at h
      obtain ⟨d,hd,hrest⟩ := ih h
      exact ⟨d,by simp [hd],hrest⟩

theorem setSubscribers_names (l : Located Q) (s : List Q) :
    (l.setSubscribers s).registry.names = l.registry.names := by
  simp [Registry.names, Located.registry, Located.setSubscribers, TopicEntry.topic]

/-- Creation stores the truncated name and no subscriber. -/
@[simp] theorem newEntry_topic (topic : CString) :
    (newEntry topic : TopicEntry Q).topic = topic.truncate (topicNameMax - 1) :=
  CString.ofBuffer_strncpy ..

theorem newEntry_topic_of_short {topic : CString} (h : topic.strlen < topicNameMax) :
    (newEntry topic : TopicEntry Q).topic = topic := by
  rw [newEntry_topic]
  exact CString.truncate_of_le (by omega)

/-- The bounds of the arrays and the distinctness that makes them a map of sets. -/
structure Registry.Valid (r : Registry Q) : Prop where
  topics_le : r.topics.length ≤ maxTopics
  names_nodup : r.names.Nodup
  subscribers_nodup : ∀ e ∈ r.topics, e.subscribers.Nodup
  subscribers_le : ∀ e ∈ r.topics, e.subscribers.length ≤ maxSubscribersPerTopic

theorem Registry.empty_valid : (Registry.empty : Registry Q).Valid := by
  constructor <;> simp [Registry.empty, Registry.names]

theorem Registry.Valid.subscribersOf_nodup {r : Registry Q} (h : r.Valid) (topic : CString) :
    (subscribersOf topic r.topics).Nodup := by
  cases hf : findTopic topic r.topics with
  | none => simp [subscribersOf_eq_nil (findTopic_eq_none_iff.mp hf)]
  | some l =>
    obtain ⟨hsplit,htopic,hbefore⟩ := findTopic_some hf
    rw [← hsplit, subscribersOf_located hbefore htopic]
    exact h.subscribers_nodup _ (by simp [← hsplit])

/-- Replacing the subscribers of one entry by another valid list. -/
theorem setSubscribers_valid {l : Located Q} (h : l.registry.Valid) {s : List Q} (hn : s.Nodup)
    (hlen : s.length ≤ maxSubscribersPerTopic) : (l.setSubscribers s).registry.Valid := by
  have hmem : ∀ e ∈ (l.setSubscribers s).registry.topics, e ∈ l.registry.topics ∨ e.subscribers = s := by
    intro e he
    simp only [Located.registry, Located.setSubscribers, List.mem_append, List.mem_cons] at he ⊢
    rcases he with he | rfl | he
    · exact Or.inl (Or.inl he)
    · exact Or.inr rfl
    · exact Or.inl (Or.inr (Or.inr he))
  refine ⟨?_,?_,?_,?_⟩
  · simpa [Located.registry, Located.setSubscribers] using h.topics_le
  · rw [setSubscribers_names]
    exact h.names_nodup
  · intro e he
    rcases hmem e he with he | he
    · exact h.subscribers_nodup e he
    · exact he ▸ hn
  · intro e he
    rcases hmem e he with he | he
    · exact h.subscribers_le e he
    · exact he ▸ hlen

/-- A pointer that `find_or_create_topic` returns: it points at the topic, at
most appended an empty entry for it, and left every lookup as it was. -/
structure Pointer (r : Registry Q) (topic : CString) (l : Located Q) : Prop where
  topic_eq : l.entry.topic = topic
  before_ne : ∀ e ∈ l.before, e.topic ≠ topic
  valid : l.registry.Valid
  names_eq : l.registry.names = if topic ∈ r.names then r.names else r.names ++ [topic]
  lookup_eq : ∀ t, subscribersOf t l.registry.topics = subscribersOf t r.topics

theorem Pointer.subscribers_eq {r : Registry Q} {topic : CString} {l : Located Q} (h : Pointer r topic l) :
    l.entry.subscribers = subscribersOf topic r.topics := by
  rw [← h.lookup_eq, Located.registry, subscribersOf_located h.before_ne h.topic_eq]

theorem mem_names_iff {r : Registry Q} {topic : CString} :
    topic ∈ r.names ↔ ∃ e ∈ r.topics, e.topic = topic := List.mem_map

theorem findTopic_pointer {r : Registry Q} (hr : r.Valid) {topic : CString} {l : Located Q}
    (h : findTopic topic r.topics = some l) : topic ∈ r.names ∧ Pointer r topic l := by
  obtain ⟨hsplit,htopic,hbefore⟩ := findTopic_some h
  have hreg : l.registry = r := by simp [Located.registry, hsplit]
  have hmem : topic ∈ r.names := mem_names_iff.mpr ⟨l.entry,by simp [← hsplit],htopic⟩
  refine ⟨hmem,htopic,hbefore,hreg ▸ hr,?_,fun t => by rw [hreg]⟩
  rw [hreg, if_pos hmem]

/-- `find_or_create_topic` fails only for a new topic in a full registry. -/
theorem findOrCreateTopic_spec {r : Registry Q} (hr : r.Valid) {topic : CString}
    (hshort : topic.strlen < topicNameMax) :
    match findOrCreateTopic r topic with
    | none => topic ∉ r.names ∧ r.names.length = maxTopics
    | some l => (topic ∈ r.names ∨ r.names.length < maxTopics) ∧ Pointer r topic l := by
  unfold findOrCreateTopic
  cases hf : findTopic topic r.topics with
  | some l =>
    obtain ⟨hmem,hptr⟩ := findTopic_pointer hr hf
    exact ⟨Or.inl hmem,hptr⟩
  | none =>
    have hnot := findTopic_eq_none_iff.mp hf
    have hmem : topic ∉ r.names := fun h => by
      obtain ⟨e,he,ht⟩ := mem_names_iff.mp h
      exact hnot e he ht
    have hlen : r.names.length = r.topics.length := by simp [Registry.names]
    have hle := hr.topics_le
    by_cases hfull : r.topics.length ≥ maxTopics
    · simp only [hfull, ↓reduceIte]
      exact ⟨hmem,by omega⟩
    · have htopic := newEntry_topic_of_short (Q := Q) hshort
      have hnames : (⟨r.topics ++ [newEntry topic]⟩ : Registry Q).names = r.names ++ [topic] := by
        simp [Registry.names, htopic]
      simp only [hfull, ↓reduceIte]
      refine ⟨Or.inr (by omega),htopic,hnot,⟨?_,?_,?_,?_⟩,?_,?_⟩
      · simp only [Located.registry, List.length_append, List.length_cons, List.length_nil]
        omega
      · rw [Located.registry, hnames]
        exact List.nodup_append.mpr ⟨hr.names_nodup,by simp,by
          intro a ha b hb
          rw [List.mem_singleton.mp hb]
          exact fun h => hmem (h ▸ ha)⟩
      · intro e he
        rcases List.mem_append.mp he with he | he
        · exact hr.subscribers_nodup e he
        · simp [List.mem_singleton.mp he, newEntry]
      · intro e he
        rcases List.mem_append.mp he with he | he
        · exact hr.subscribers_le e he
        · simp [List.mem_singleton.mp he, newEntry]
      · rw [Located.registry, hnames, if_neg hmem]
      · intro t
        by_cases ht : topic = t
        · subst ht
          rw [Located.registry, subscribersOf_located hnot htopic, subscribersOf_eq_nil hnot]
          rfl
        · rw [Located.registry, subscribersOf_other (by rw [htopic]; exact ht), List.append_nil]

theorem subscribersOf_entry {r : Registry Q} (h : r.Valid) {e : TopicEntry Q} (he : e ∈ r.topics) :
    subscribersOf e.topic r.topics = e.subscribers := by
  obtain ⟨before,after,hsplit⟩ := List.append_of_mem he
  have hnodup := h.names_nodup
  rw [Registry.names, hsplit, List.map_append, List.map_cons] at hnodup
  have hbefore : ∀ d ∈ before, d.topic ≠ e.topic := fun d hd =>
    (List.nodup_append.mp hnodup).2.2 _ (List.mem_map_of_mem hd) _ List.mem_cons_self
  rw [hsplit, subscribersOf_located hbefore rfl]

def Registry.Holds (r : Registry Q) (q : Q) : Prop := ∃ e ∈ r.topics, q ∈ e.subscribers

/-- Looking a topic up, or creating it, adds no pointer. -/
theorem findOrCreateTopic_holds {r : Registry Q} {topic : CString} {l : Located Q}
    (h : findOrCreateTopic r topic = some l) {q : Q} : l.registry.Holds q ↔ r.Holds q := by
  unfold findOrCreateTopic at h
  cases hf : findTopic topic r.topics with
  | some l' =>
    simp only [hf, Option.some.injEq] at h
    subst h
    simp only [Registry.Holds, Located.registry, (findTopic_some hf).1]
  | none =>
    simp only [hf] at h
    split at h
    · cases h
    · cases h
      simp [Registry.Holds, Located.registry, newEntry, or_and_right, exists_or]

theorem Located.holds_of_mem {l : Located Q} {q : Q} (h : q ∈ l.entry.subscribers) : l.registry.Holds q :=
  ⟨l.entry,by simp [Located.registry],h⟩

end RadioSim.Pubsub
