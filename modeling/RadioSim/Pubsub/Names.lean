import RadioSim.Pubsub.TopicMap

/-! # Names of registered topics

`find_topic` compares whole strings while `find_or_create_topic` stores at most
31 characters, and only `pubsub_subscribe` looks at the length. The names are
followed through calls with strings of any length.
-/
namespace RadioSim.Pubsub
variable {Q β : Type*} [DecidableEq Q]

def storedName (topic : CString) : CString := topic.truncate (topicNameMax - 1)

omit [DecidableEq Q] in
theorem findOrCreateTopic_names (r : Registry Q) (topic : CString) :
    (((findOrCreateTopic r topic).map Located.registry).getD r).names =
      if topic ∈ r.names ∨ maxTopics ≤ r.topics.length then r.names
      else r.names ++ [storedName topic] := by
  unfold findOrCreateTopic
  cases hf : findTopic topic r.topics with
  | some l =>
    obtain ⟨hsplit,htopic,_⟩ := findTopic_some hf
    have hmem : topic ∈ r.names := mem_names_iff.mpr ⟨l.entry,by simp [← hsplit],htopic⟩
    have hreg : l.registry = r := by simp [Located.registry, hsplit]
    rw [if_pos (Or.inl hmem)]
    simp only [Option.map_some, Option.getD_some, hreg]
  | none =>
    have hmem : topic ∉ r.names := fun h => by
      obtain ⟨e,he,ht⟩ := mem_names_iff.mp h
      exact findTopic_eq_none_iff.mp hf e he ht
    by_cases hfull : maxTopics ≤ r.topics.length
    · simp [hfull]
    · rw [if_neg (not_or.mpr ⟨hmem,hfull⟩)]
      simp [hfull, Registry.names, Located.registry, storedName]

theorem subscribe_names (r : Registry Q) (topic : CString) (q : Q) :
    (pubsubSubscribe r topic q).2.names =
      if topicNameMax ≤ topic.strlen ∨ topic ∈ r.names ∨ maxTopics ≤ r.topics.length then r.names
      else r.names ++ [topic] := by
  have hnames := findOrCreateTopic_names r topic
  unfold pubsubSubscribe
  by_cases hlong : topic.strlen ≥ topicNameMax
  · simp [hlong]
  · have hstored : storedName topic = topic := CString.truncate_of_le (by omega)
    rw [hstored] at hnames
    simp only [hlong, ↓reduceIte, false_or]
    cases hl : findOrCreateTopic r topic with
    | none => simpa [hl] using hnames
    | some l =>
      simp only [hl, Option.map_some, Option.getD_some] at hnames ⊢
      split
      · exact hnames
      · split
        · exact hnames
        · rw [setSubscribers_names]
          exact hnames

theorem unsubscribe_names (r : Registry Q) (topic : CString) (q : Q) :
    (pubsubUnsubscribe r topic q).2.names = r.names := by
  unfold pubsubUnsubscribe
  cases hl : findTopic topic r.topics with
  | none => rfl
  | some l =>
    have hreg : l.registry = r := by simp [Located.registry, (findTopic_some hl).1]
    dsimp only
    split
    · rfl
    · rw [setSubscribers_names, hreg]

theorem publish_names (b : Broker Q β) (topic : CString) (item : MsgItem β) (malloc : ℕ → Bool) :
    (pubsubPublish b topic item malloc).2.registry.names =
      if topic ∈ b.registry.names ∨ maxTopics ≤ b.registry.topics.length then b.registry.names
      else b.registry.names ++ [storedName topic] := by
  rw [publish_registry, findOrCreateTopic_names]

/-- The publish that stores a name a second time: a string that does not fit the
buffer, whose truncation is already registered, while there is room. -/
def Duplicates (r : Registry Q) : Call Q β → Prop
  | .publish topic _ _ =>
    topicNameMax ≤ topic.strlen ∧ r.topics.length < maxTopics ∧ storedName topic ∈ r.names
  | _ => False

def DistinctNames (r : Registry Q) : Prop :=
  r.names.Nodup ∧ ∀ topic, r.names.count (storedName topic) ≤ 1

omit [DecidableEq Q] in
theorem distinctNames_iff {r : Registry Q} : DistinctNames r ↔ r.names.Nodup :=
  ⟨fun h => h.1,fun h => ⟨h,fun _ => List.nodup_iff_count_le_one.mp h _⟩⟩

/-- Stored names fit their buffer, so a longer string is never found. -/
def ShortNames (r : Registry Q) : Prop := ∀ n ∈ r.names, n.strlen < topicNameMax

theorem storedName_short (topic : CString) : (storedName topic).strlen < topicNameMax := by
  rw [storedName, CString.strlen_truncate]
  exact (Nat.min_le_left ..).trans_lt (by decide)

theorem append_short {ns : List CString} (h : ∀ n ∈ ns, n.strlen < topicNameMax) {new : CString}
    (hnew : new.strlen < topicNameMax) : ∀ n ∈ ns ++ [new], n.strlen < topicNameMax := by
  intro n hn
  rcases List.mem_append.mp hn with hn | hn
  · exact h n hn
  · exact List.mem_singleton.mp hn ▸ hnew

theorem nodup_append_singleton {ns : List CString} {new : CString} (h : ns.Nodup) :
    (ns ++ [new]).Nodup ↔ new ∉ ns := by
  rw [List.nodup_append]
  simp only [h, List.nodup_singleton, true_and, List.mem_singleton]
  exact ⟨fun hd hmem => hd new hmem new rfl rfl,fun hn a ha b hb he => hn (hb ▸ he ▸ ha)⟩

theorem exec_shortNames {b : Broker Q β} (h : ShortNames b.registry) (c : Call Q β) :
    ShortNames (exec b c).2.registry := by
  unfold ShortNames
  cases c with
  | subscribe topic q =>
    simp only [exec, subscribe_names]
    split
    · exact h
    · rename_i hnew
      exact append_short h (Nat.not_le.mp fun hl => hnew (Or.inl hl))
  | unsubscribe topic q =>
    simp only [exec, unsubscribe_names]
    exact h
  | publish topic item malloc =>
    simp only [exec, publish_names]
    split
    · exact h
    · exact append_short h (storedName_short topic)

/-- One call keeps the names distinct exactly when it is not such a publish. -/
theorem exec_nodup_iff {b : Broker Q β} (hs : ShortNames b.registry) (hn : b.registry.names.Nodup)
    (c : Call Q β) : (exec b c).2.registry.names.Nodup ↔ ¬ Duplicates b.registry c := by
  cases c with
  | subscribe topic q =>
    simp only [exec, subscribe_names, Duplicates, not_false_eq_true, iff_true]
    split
    · exact hn
    · rename_i hnew
      exact (nodup_append_singleton hn).mpr fun hm => hnew (Or.inr (Or.inl hm))
  | unsubscribe topic q => simpa [exec, unsubscribe_names, Duplicates] using hn
  | publish topic item malloc =>
    simp only [exec, publish_names, Duplicates]
    by_cases hlong : topicNameMax ≤ topic.strlen
    · have hnot : topic ∉ b.registry.names := fun hm => absurd (hs topic hm) (Nat.not_lt.mpr hlong)
      by_cases hfull : maxTopics ≤ b.registry.topics.length
      · simp [hfull, hn, Nat.not_lt.mpr hfull]
      · simp [hnot, hfull, hlong, nodup_append_singleton hn, Nat.not_le.mp hfull]
    · have hstored : storedName topic = topic := CString.truncate_of_le (by omega)
      simp only [hlong, false_and, not_false_eq_true, iff_true, hstored]
      split
      · exact hn
      · rename_i hnew
        exact (nodup_append_singleton hn).mpr fun hm => hnew (Or.inl hm)

theorem run_concat (b : Broker Q β) (calls : List (Call Q β)) (c : Call Q β) :
    (run b (calls ++ [c])).2 = (exec (run b calls).2 c).2 := by
  induction calls generalizing b with
  | nil => rfl
  | cons d rest ih => exact ih (exec b d).2

theorem run_shortNames {b : Broker Q β} (h : ShortNames b.registry) (calls : List (Call Q β)) :
    ShortNames (run b calls).2.registry := by
  induction calls generalizing b with
  | nil => exact h
  | cons c rest ih => exact ih (exec_shortNames h c)

/-- Along a run the topic names stay pairwise distinct exactly as long as no
publish passes a string of 32 or more characters whose first 31 are already a
registered name while the registry has room. -/
theorem names_distinct_iff (queues : Q → Queue.RingQueue (MsgItem β)) (heap : Heap)
    (calls : List (Call Q β)) :
    (∀ pre, pre <+: calls → DistinctNames (run (create queues heap) pre).2.registry) ↔
      ∀ pre c, pre ++ [c] <+: calls → ¬ Duplicates (run (create queues heap) pre).2.registry c := by
  have hshort : ∀ pre, ShortNames (run (create queues heap) pre).2.registry := fun pre =>
    run_shortNames (b := create queues heap)
      (fun n hn => by simp [create, Registry.empty, Registry.names] at hn) pre
  constructor
  · intro h pre c hpre
    have hbefore := h pre ((List.prefix_append pre [c]).trans hpre)
    have hafter := h (pre ++ [c]) hpre
    rw [run_concat] at hafter
    exact (exec_nodup_iff (hshort pre) hbefore.1 c).mp hafter.1
  · intro h pre
    induction pre using List.reverseRecOn with
    | nil =>
      intro _
      exact distinctNames_iff.mpr (by simp [run, create, Registry.empty, Registry.names])
    | append_singleton pre c ih =>
      intro hpre
      have hbefore := ih ((List.prefix_append pre [c]).trans hpre)
      rw [run_concat]
      exact distinctNames_iff.mpr ((exec_nodup_iff (hshort pre) hbefore.1 c).mpr (h pre c hpre))

/-- Two publishes of one string of 32 characters register two topics of one name. -/
theorem names_not_distinct :
    let queues : ℕ → Queue.RingQueue (MsgItem Bytes) :=
      fun _ => .fresh (fun _ => ⟨0,.alert,none,0⟩) 1 (by decide) (by decide)
    let long : CString := ⟨List.replicate 32 97,by decide⟩
    let publish : Call ℕ Bytes := .publish long ⟨1,.alert,none,0⟩ (fun _ => true)
    let r := (run (create queues ⟨0,fun _ => 0⟩) [publish,publish]).2.registry
    r.topics.length = 2 ∧ ¬ DistinctNames r := by
  intro queues long publish r
  refine ⟨by decide,?_⟩
  rw [distinctNames_iff]
  decide

end RadioSim.Pubsub
