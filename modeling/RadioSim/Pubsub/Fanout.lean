import RadioSim.Pubsub.TopicMap

/-! # What a subscriber receives

Runs of subscribe, unsubscribe, publish and subscriber dequeues, every payload
allocation succeeding. The history of one queue is compared with what was
published to its topics, and is rebuilt from the queue's own events alone.
-/
namespace RadioSim.Pubsub
open Queue
variable {Q β : Type*}

/-- All that a receiver can tell about an item: everything but the address of
its payload. -/
@[ext] structure View (β : Type*) where
  id : UInt32
  type : MsgType
  length : ℕ
  content : Option β
  deriving DecidableEq

def MsgItem.view (item : MsgItem β) : View β :=
  ⟨item.id,item.type,item.length,item.payload.map Payload.content⟩

def Broker.held (b : Broker Q β) (q : Q) : List (View β) := (b.queues q).contents.map MsgItem.view

theorem full_eq (b : Broker Q β) (q : Q) :
    (b.queues q).full = decide ((b.queues q).capacity ≤ (b.held q).length) := by
  simp [RingQueue.full, Broker.held]

section Deliver

/-- With its allocation granted a clone differs from the item in its address only. -/
theorem cloneItem_view (item : MsgItem β) (h : Heap) :
    ∃ clone h', cloneItem item true h = some (clone,h') ∧ clone.view = item.view := by
  unfold cloneItem
  cases hp : item.payload with
  | none => exact ⟨item,h,rfl,rfl⟩
  | some p =>
    by_cases hlen : item.length > 0
    · simp only [hlen, ↓reduceIte]
      exact ⟨_,_,rfl,by simp [MsgItem.view, hp]⟩
    · simp only [hlen, ↓reduceIte]
      exact ⟨item,h,rfl,rfl⟩

theorem deliver_spec (item : MsgItem β) (r : RingQueue (MsgItem β)) (h : Heap) :
    (deliver item true r h).1 = !r.full ∧
    (deliver item true r h).2.1.contents.map MsgItem.view =
      r.contents.map MsgItem.view ++ (if r.full then [] else [item.view]) ∧
    (deliver item true r h).2.1.capacity = r.capacity := by
  obtain ⟨clone,h',hclone,hview⟩ := cloneItem_view item h
  have hfst := r.tryEnqueue_fst clone
  have hcontents := r.tryEnqueue_contents clone
  have hcapacity := r.tryEnqueue_capacity clone
  unfold deliver
  rw [hclone]
  dsimp only
  generalize r.tryEnqueue clone = e at hfst hcontents hcapacity
  obtain ⟨ok,r'⟩ := e
  simp only at hfst hcontents hcapacity
  have hmap : r'.contents.map MsgItem.view =
      r.contents.map MsgItem.view ++ (if r.full then [] else [item.view]) := by
    rw [hcontents]
    cases r.full <;> simp [hview]
  cases ok with
  | true => exact ⟨hfst,hmap,hcapacity⟩
  | false =>
    dsimp only
    split
    · exact ⟨hfst,hmap,hcapacity⟩
    · split <;> exact ⟨hfst,hmap,hcapacity⟩

end Deliver

variable [DecidableEq Q]

section FanOut
variable (item : MsgItem β)

theorem deliverTo_held (b : Broker Q β) (p q : Q) :
    (b.deliverTo item true p).2.held q =
      b.held q ++ (if q = p ∧ (b.queues q).full = false then [item.view] else []) ∧
    ((b.deliverTo item true p).2.queues q).capacity = (b.queues q).capacity := by
  obtain ⟨_,hheld,hcap⟩ := deliver_spec item (b.queues p) b.heap
  by_cases hq : q = p
  · subst hq
    simp only [Broker.held, Broker.deliverTo, Function.update_self, hheld, hcap, true_and, and_true]
    cases (b.queues q).full <;> rfl
  · simp [Broker.held, Broker.deliverTo, hq]

theorem deliverTo_other (b : Broker Q β) {p q : Q} (hq : q ≠ p) :
    (b.deliverTo item true p).2.queues q = b.queues q := Function.update_of_ne hq ..

/-- The loop serves every subscriber once: each queue that has room grows by one
copy, and the others are left as they are. -/
theorem fanOut_held {qs : List Q} (hqs : qs.Nodup) (i : ℕ) (b : Broker Q β) (q : Q) :
    (fanOut item (fun _ => true) i qs b).2.held q =
      b.held q ++ (if q ∈ qs ∧ (b.queues q).full = false then [item.view] else []) ∧
    ((fanOut item (fun _ => true) i qs b).2.queues q).capacity = (b.queues q).capacity := by
  induction qs generalizing i b with
  | nil => simp [fanOut]
  | cons p rest ih =>
    obtain ⟨hp,hrest⟩ := List.nodup_cons.mp hqs
    obtain ⟨hheld,hcap⟩ := ih hrest (i + 1) (b.deliverTo item true p).2
    obtain ⟨hheld',hcap'⟩ := deliverTo_held item b p q
    simp only [fanOut]
    refine ⟨?_,hcap.trans hcap'⟩
    rw [hheld, hheld', List.append_assoc]
    congr 1
    by_cases hq : q = p
    · subst hq
      simp [hp]
    · simp [hq, deliverTo_other item b hq]

theorem fanOut_delivered {qs : List Q} (hqs : qs.Nodup) (i : ℕ) (b : Broker Q β) :
    (fanOut item (fun _ => true) i qs b).1 = ((qs.filter fun q => !(b.queues q).full).length : ℤ) := by
  induction qs generalizing i b with
  | nil => rfl
  | cons p rest ih =>
    obtain ⟨hp,hrest⟩ := List.nodup_cons.mp hqs
    have hsame : rest.filter (fun q => !((b.deliverTo item true p).2.queues q).full) =
        rest.filter fun q => !(b.queues q).full := by
      apply List.filter_congr
      intro q hq
      have hne : q ≠ p := by
        intro heq
        subst heq
        exact hp hq
      rw [deliverTo_other item b hne]
    have hflag : (b.deliverTo item true p).1 = !(b.queues p).full := (deliver_spec item _ _).1
    simp only [fanOut, ih hrest, hsame, hflag, List.filter_cons]
    split <;> simp

end FanOut

/-- A publish with every allocation granted, on a registry with distinct
subscribers. -/
theorem publish_spec {b : Broker Q β} (h : b.registry.Valid) {topic : CString}
    (hshort : topic.strlen < topicNameMax) (item : MsgItem β) (q : Q) :
    (pubsubPublish b topic item (fun _ => true)).2.held q = b.held q ++
      (if q ∈ b.registry.toMap.subscribers topic ∧ (b.queues q).full = false then [item.view] else []) ∧
    ((pubsubPublish b topic item (fun _ => true)).2.queues q).capacity = (b.queues q).capacity ∧
    (pubsubPublish b topic item (fun _ => true)).1 =
      (((b.registry.toMap.subscribers topic).filter fun q => (b.queues q).full = false).card : ℤ) := by
  have hspec := findOrCreateTopic_spec h hshort
  have hnodup := h.subscribersOf_nodup topic
  unfold pubsubPublish
  cases hl : findOrCreateTopic b.registry topic with
  | none =>
    simp only [hl] at hspec
    have hnil : subscribersOf topic b.registry.topics = [] := subscribersOf_eq_nil (fun e he ht =>
      hspec.1 (mem_names_iff.mpr ⟨e,he,ht⟩))
    simp [Registry.toMap, hnil]
  | some l =>
    simp only [hl] at hspec
    have hsubs := hspec.2.subscribers_eq
    obtain ⟨hheld,hcap⟩ := fanOut_held item (hsubs ▸ hnodup) 0 { b with registry := l.registry } q
    have hret := fanOut_delivered item (hsubs ▸ hnodup) 0 { b with registry := l.registry }
    simp only [mem_toMap_subscribers, ← hsubs]
    refine ⟨hheld,hcap,?_⟩
    have hcard : (b.registry.toMap.subscribers topic).filter (fun q => (b.queues q).full = false) =
        (l.entry.subscribers.filter fun q => !(b.queues q).full).toFinset := by
      ext p
      simp [Registry.toMap, hsubs]
    rw [hret, hcard, List.toFinset_card_of_nodup ((hsubs ▸ hnodup).filter _)]

section Actions

inductive Action (Q β : Type*)
  | subscribe (topic : CString) (q : Q)
  | unsubscribe (topic : CString) (q : Q)
  | publish (topic : CString) (item : MsgItem β)
  | dequeue (q : Q)
  | tryDequeue (q : Q)

inductive Outcome (β : Type*)
  | ret (value : ℤ)
  | item (x : Option (MsgItem β))

def Action.ShortName : Action Q β → Prop
  | .subscribe topic _ => topic.strlen < topicNameMax
  | .unsubscribe topic _ => topic.strlen < topicNameMax
  | .publish topic _ => topic.strlen < topicNameMax
  | .dequeue _ => True
  | .tryDequeue _ => True

def Broker.store (b : Broker Q β) (q : Q) (d : Option (MsgItem β) × RingQueue (MsgItem β)) :
    Outcome β × Broker Q β :=
  (.item d.1,{ b with queues := Function.update b.queues q d.2 })

def Broker.call (b : Broker Q β) (c : Call Q β) : Outcome β × Broker Q β := (.ret (exec b c).1,(exec b c).2)

/-- A step with its outcome; `none` while a blocking dequeue waits. -/
def act (b : Broker Q β) : Action Q β → Option (Outcome β × Broker Q β)
  | .subscribe topic q => some (b.call (.subscribe topic q))
  | .unsubscribe topic q => some (b.call (.unsubscribe topic q))
  | .publish topic item => some (b.call (.publish topic item fun _ => true))
  | .dequeue q => (b.queues q).dequeue.map (b.store q)
  | .tryDequeue q => some (b.store q (b.queues q).tryDequeue)

def actRun : Broker Q β → List (Action Q β) → Option (List (Action Q β × Outcome β) × Broker Q β)
  | b, [] => some ([],b)
  | b, a :: rest =>
    match act b a with
    | none => none
    | some (o,b') => (actRun b' rest).map fun r => ((a,o) :: r.1,r.2)

def taken (q : Q) : Action Q β × Outcome β → List (View β)
  | (.dequeue p,.item x) => if p = q then x.toList.map MsgItem.view else []
  | (.tryDequeue p,.item x) => if p = q then x.toList.map MsgItem.view else []
  | _ => []

/-- What one step publishes to a topic `q` is subscribed to while `q` has room. -/
def offered (q : Q) (b : Broker Q β) : Action Q β → List (View β)
  | .publish topic item =>
    if q ∈ b.registry.toMap.subscribers topic ∧ (b.queues q).full = false then [item.view] else []
  | _ => []

def offeredRun (q : Q) : Broker Q β → List (Action Q β) → List (View β)
  | _, [] => []
  | b, a :: rest =>
    match act b a with
    | none => []
    | some s => offered q b a ++ offeredRun q s.2 rest

theorem actRun_cons {b b' : Broker Q β} {a : Action Q β} {rest : List (Action Q β)}
    {trace : List (Action Q β × Outcome β)} (h : actRun b (a :: rest) = some (trace,b')) :
    ∃ o m tail, act b a = some (o,m) ∧ actRun m rest = some (tail,b') ∧ trace = (a,o) :: tail := by
  unfold actRun at h
  cases ha : act b a with
  | none => simp [ha] at h
  | some s =>
    simp only [ha, Option.map_eq_some_iff, Prod.mk.injEq] at h
    obtain ⟨⟨tail,c⟩,hr,htrace,hb⟩ := h
    subst hb
    exact ⟨s.1,s.2,tail,rfl,hr,htrace.symm⟩

/-- A blocking dequeue that does not wait is a non-blocking one. -/
theorem act_dequeue {b : Broker Q β} {q : Q} {s : Outcome β × Broker Q β}
    (h : act b (.dequeue q) = some s) : s = b.store q (b.queues q).tryDequeue := by
  simp only [act, RingQueue.dequeue_eq] at h
  split at h
  · cases h
  · exact (Option.some.inj h).symm

theorem store_held (b : Broker Q β) (p q : Q) :
    (b.store p (b.queues p).tryDequeue).2.held q = (if p = q then (b.held q).tail else b.held q) ∧
    ((b.store p (b.queues p).tryDequeue).2.queues q).capacity = (b.queues q).capacity := by
  by_cases hq : q = p
  · subst hq
    simp [Broker.held, Broker.store]
  · simp [Broker.held, Broker.store, hq, Ne.symm hq]

omit [DecidableEq Q] in
theorem head_view (b : Broker Q β) (q : Q) :
    (b.queues q).tryDequeue.1.toList.map MsgItem.view = (b.held q).head?.toList := by
  rw [RingQueue.tryDequeue_fst, Broker.held]
  cases (b.queues q).contents <;> rfl

theorem act_valid {b b' : Broker Q β} {a : Action Q β} {o : Outcome β} (h : b.registry.Valid)
    (hshort : a.ShortName) (hact : act b a = some (o,b')) : b'.registry.Valid := by
  cases a with
  | subscribe topic q => cases hact; exact (subscribe_refines h topic q).1
  | unsubscribe topic q => cases hact; exact (unsubscribe_refines h topic q).1
  | publish topic item => cases hact; exact (publish_refines h hshort item _).1
  | dequeue q => cases act_dequeue hact; exact h
  | tryDequeue q => cases hact; exact h

theorem head_append_tail {α : Type*} (l : List α) : l.head?.toList ++ l.tail = l := by
  cases l <;> rfl

/-- One step balances what is offered to `q` against what leaves it. -/
theorem act_balance {b b' : Broker Q β} {a : Action Q β} {o : Outcome β} (h : b.registry.Valid)
    (hshort : a.ShortName) (hact : act b a = some (o,b')) (q : Q) :
    b.held q ++ offered q b a = taken q (a,o) ++ b'.held q ∧
    (b'.queues q).capacity = (b.queues q).capacity := by
  have hstore : ∀ p, (if p = q then (b.queues p).tryDequeue.1.toList.map MsgItem.view else []) ++
      (b.store p (b.queues p).tryDequeue).2.held q = b.held q := by
    intro p
    rw [(store_held b p q).1]
    by_cases hp : p = q
    · subst hp
      simp only [↓reduceIte, head_view]
      exact head_append_tail _
    · simp [hp]
  cases a with
  | subscribe topic p => cases hact; exact ⟨List.append_nil _,rfl⟩
  | unsubscribe topic p => cases hact; exact ⟨List.append_nil _,rfl⟩
  | publish topic item =>
    cases hact
    obtain ⟨hheld,hcap,_⟩ := publish_spec h hshort item q
    exact ⟨hheld.symm,hcap⟩
  | dequeue p =>
    cases act_dequeue hact
    exact ⟨(List.append_nil _).trans (hstore p).symm,(store_held b p q).2⟩
  | tryDequeue p =>
    cases hact
    exact ⟨(List.append_nil _).trans (hstore p).symm,(store_held b p q).2⟩

/-- A whole run delivers to `q` what was offered to it, in order. -/
theorem actRun_balance {b b' : Broker Q β} {actions : List (Action Q β)}
    {trace : List (Action Q β × Outcome β)} (h : b.registry.Valid)
    (hshort : ∀ a ∈ actions, a.ShortName) (hrun : actRun b actions = some (trace,b')) (q : Q) :
    b'.registry.Valid ∧ b.held q ++ offeredRun q b actions = trace.flatMap (taken q) ++ b'.held q := by
  induction actions generalizing b trace with
  | nil =>
    cases hrun
    exact ⟨h,List.append_nil _⟩
  | cons a rest ih =>
    obtain ⟨o,m,tail,hact,hrest,htrace⟩ := actRun_cons hrun
    subst htrace
    have ha := hshort a List.mem_cons_self
    have hstep := (act_balance h ha hact q).1
    obtain ⟨hvalid,htail⟩ := ih (act_valid h ha hact) (fun c hc => hshort c (List.mem_cons_of_mem a hc)) hrest
    refine ⟨hvalid,?_⟩
    simp only [offeredRun, hact, List.flatMap_cons]
    rw [← List.append_assoc, hstep, List.append_assoc, htail, List.append_assoc]

end Actions

section Own

/-- What concerns one queue: its own subscriptions as far as they took effect,
its own dequeues, and every publish. -/
inductive OwnEvent (β : Type*)
  | subscribed (topic : CString)
  | unsubscribed (topic : CString)
  | published (topic : CString) (v : View β)
  | dequeued

structure Own (β : Type*) where
  topics : Finset CString
  held : List (View β)
  taken : List (View β)

def Own.start : Own β := ⟨∅,[],[]⟩

def Own.apply (capacity : ℕ) (s : Own β) : OwnEvent β → Own β
  | .subscribed topic => { s with topics := insert topic s.topics }
  | .unsubscribed topic => { s with topics := s.topics.erase topic }
  | .published topic v =>
    if topic ∈ s.topics ∧ s.held.length < capacity then { s with held := s.held ++ [v] } else s
  | .dequeued => { s with held := s.held.tail, taken := s.taken ++ s.held.head?.toList }

def Own.replay (capacity : ℕ) (events : List (OwnEvent β)) : Own β :=
  events.foldl (Own.apply capacity) Own.start

def ownEvents (q : Q) : Action Q β × Outcome β → List (OwnEvent β)
  | (.subscribe topic p,.ret value) => if p = q ∧ value = 0 then [.subscribed topic] else []
  | (.unsubscribe topic p,.ret value) => if p = q ∧ value = 0 then [.unsubscribed topic] else []
  | (.publish topic item,_) => [.published topic item.view]
  | (.dequeue p,_) => if p = q then [.dequeued] else []
  | (.tryDequeue p,_) => if p = q then [.dequeued] else []
  | _ => []

/-- The steps left when the other queues' dequeues are deleted. -/
def Action.concerns (q : Q) : Action Q β → Bool
  | .dequeue p => decide (p = q)
  | .tryDequeue p => decide (p = q)
  | _ => true

structure Tracks (q : Q) (b : Broker Q β) (s : Own β) : Prop where
  topics_iff : ∀ t, q ∈ b.registry.toMap.subscribers t ↔ t ∈ s.topics
  held_eq : b.held q = s.held

theorem tracks_subscribe {b : Broker Q β} {s : Own β} (h : b.registry.Valid) {q : Q} (ht : Tracks q b s)
    (topic : CString) (p : Q) (capacity : ℕ) :
    Tracks q (exec b (.subscribe topic p)).2
      ((ownEvents q (Action.subscribe topic p,Outcome.ret (exec b (.subscribe topic p)).1)).foldl
        (Own.apply capacity) s) := by
  have hs := (subscribe_refines h topic p).2
  have hret := congrArg Prod.fst hs
  have hmap := congrArg Prod.snd hs
  simp only [exec] at hret hmap ⊢
  unfold TopicMap.subscribe at hret hmap
  by_cases href : b.registry.toMap.Refuses topic p
  · simp only [href, ↓reduceIte] at hret hmap
    simp only [hret, ownEvents, Int.reduceNeg, neg_eq_zero, one_ne_zero, and_false, ↓reduceIte, List.foldl_nil]
    exact ⟨by simpa only [hmap] using ht.topics_iff,ht.held_eq⟩
  · simp only [href, ↓reduceIte] at hret hmap
    simp only [hret, ownEvents, and_true]
    by_cases hp : p = q
    · subst hp
      simp only [↓reduceIte, List.foldl_cons, List.foldl_nil, Own.apply]
      refine ⟨?_,ht.held_eq⟩
      intro t
      simp [hmap, TopicMap.mem_add, ht.topics_iff]
    · simp only [hp, ↓reduceIte, List.foldl_nil]
      refine ⟨?_,ht.held_eq⟩
      intro t
      simp [hmap, TopicMap.mem_add, ht.topics_iff, Ne.symm hp]

theorem tracks_unsubscribe {b : Broker Q β} {s : Own β} (h : b.registry.Valid) {q : Q} (ht : Tracks q b s)
    (topic : CString) (p : Q) (capacity : ℕ) :
    Tracks q (exec b (.unsubscribe topic p)).2
      ((ownEvents q (Action.unsubscribe topic p,Outcome.ret (exec b (.unsubscribe topic p)).1)).foldl
        (Own.apply capacity) s) := by
  have hs := (unsubscribe_refines h topic p).2
  have hret := congrArg Prod.fst hs
  have hmap := congrArg Prod.snd hs
  simp only [exec] at hret hmap ⊢
  unfold TopicMap.unsubscribe at hret hmap
  by_cases hmem : p ∈ b.registry.toMap.subscribers topic
  · simp only [hmem, ↓reduceIte] at hret hmap
    simp only [hret, ownEvents, and_true]
    by_cases hp : p = q
    · subst hp
      simp only [↓reduceIte, List.foldl_cons, List.foldl_nil, Own.apply]
      refine ⟨?_,ht.held_eq⟩
      intro t
      simp [hmap, TopicMap.mem_erase, ht.topics_iff]
    · simp only [hp, ↓reduceIte, List.foldl_nil]
      refine ⟨?_,ht.held_eq⟩
      intro t
      simp [hmap, TopicMap.mem_erase, ht.topics_iff, Ne.symm hp]
  · simp only [hmem, ↓reduceIte] at hret hmap
    simp only [hret, ownEvents, Int.reduceNeg, neg_eq_zero, one_ne_zero, and_false, ↓reduceIte, List.foldl_nil]
    exact ⟨by simpa only [hmap] using ht.topics_iff,ht.held_eq⟩

theorem tracks_publish {b : Broker Q β} {s : Own β} (h : b.registry.Valid) {q : Q} (ht : Tracks q b s)
    {topic : CString} (hshort : topic.strlen < topicNameMax) (item : MsgItem β) :
    Tracks q (pubsubPublish b topic item (fun _ => true)).2
      (s.apply (b.queues q).capacity (.published topic item.view)) := by
  obtain ⟨hheld,_⟩ := publish_spec h hshort item q
  have hmap := (publish_refines h hshort item (fun _ => true)).2
  have hsubs : (b.registry.toMap.register topic).subscribers = b.registry.toMap.subscribers := by
    unfold TopicMap.register
    split <;> rfl
  have hroom : (b.queues q).full = false ↔ s.held.length < (b.queues q).capacity := by
    rw [full_eq, ht.held_eq]
    simp
  constructor
  · intro t
    rw [hmap, hsubs, ht.topics_iff]
    simp only [Own.apply]
    split <;> rfl
  · rw [hheld, ht.held_eq]
    simp only [Own.apply, ht.topics_iff, hroom]
    split <;> simp

theorem tracks_store {b : Broker Q β} {s : Own β} {q : Q} (ht : Tracks q b s) (p : Q) (capacity : ℕ) :
    Tracks q (b.store p (b.queues p).tryDequeue).2
      ((if p = q then [OwnEvent.dequeued] else []).foldl (Own.apply capacity) s) := by
  have hheld := (store_held b p q).1
  by_cases hp : p = q
  · simp only [hp, ↓reduceIte] at hheld
    simp only [hp, ↓reduceIte, List.foldl_cons, List.foldl_nil, Own.apply]
    exact ⟨ht.topics_iff,hheld.trans (congrArg List.tail ht.held_eq)⟩
  · simp only [hp, ↓reduceIte] at hheld
    simp only [hp, ↓reduceIte, List.foldl_nil]
    exact ⟨ht.topics_iff,hheld.trans ht.held_eq⟩

/-- One step changes the queue as its own events prescribe, if there are any. -/
theorem act_tracks {b b' : Broker Q β} {a : Action Q β} {o : Outcome β} {s : Own β} (h : b.registry.Valid)
    (hshort : a.ShortName) (hact : act b a = some (o,b')) {q : Q} (ht : Tracks q b s) :
    Tracks q b' ((ownEvents q (a,o)).foldl (Own.apply (b.queues q).capacity) s) := by
  cases a with
  | subscribe topic p => cases hact; exact tracks_subscribe h ht topic p _
  | unsubscribe topic p => cases hact; exact tracks_unsubscribe h ht topic p _
  | publish topic item => cases hact; exact tracks_publish h ht hshort item
  | dequeue p => cases act_dequeue hact; exact tracks_store ht p _
  | tryDequeue p => cases hact; exact tracks_store ht p _

theorem apply_taken_of_published (capacity : ℕ) (s : Own β) (topic : CString) (v : View β) :
    (s.apply capacity (.published topic v)).taken = s.taken := by
  simp only [Own.apply]
  split <;> rfl

theorem act_taken {b b' : Broker Q β} {a : Action Q β} {o : Outcome β} {s : Own β}
    (hact : act b a = some (o,b')) {q : Q} (ht : Tracks q b s) (capacity : ℕ) :
    ((ownEvents q (a,o)).foldl (Own.apply capacity) s).taken = s.taken ++ taken q (a,o) := by
  have hstore : ∀ p, ((if p = q then [OwnEvent.dequeued] else []).foldl (Own.apply capacity) s).taken =
      s.taken ++ if p = q then (b.queues p).tryDequeue.1.toList.map MsgItem.view else [] := by
    intro p
    by_cases hp : p = q
    · subst hp
      simp only [↓reduceIte, head_view, ht.held_eq]
      rfl
    · simp [hp]
  cases a with
  | subscribe topic p =>
    cases hact
    simp only [ownEvents, taken, List.append_nil]
    split <;> rfl
  | unsubscribe topic p =>
    cases hact
    simp only [ownEvents, taken, List.append_nil]
    split <;> rfl
  | publish topic item =>
    cases hact
    exact (apply_taken_of_published capacity s topic item.view).trans (List.append_nil _).symm
  | dequeue p => cases act_dequeue hact; exact hstore p
  | tryDequeue p => cases hact; exact hstore p

/-- Over a run the queue is what replaying its own events makes of it. -/
theorem actRun_tracks {b b' : Broker Q β} {actions : List (Action Q β)}
    {trace : List (Action Q β × Outcome β)} {s : Own β} (h : b.registry.Valid)
    (hshort : ∀ a ∈ actions, a.ShortName) (hrun : actRun b actions = some (trace,b')) {q : Q}
    (ht : Tracks q b s) :
    let own := (trace.flatMap (ownEvents q)).foldl (Own.apply (b.queues q).capacity) s
    Tracks q b' own ∧ own.taken = s.taken ++ trace.flatMap (taken q) := by
  induction actions generalizing b trace s with
  | nil =>
    cases hrun
    exact ⟨ht,(List.append_nil _).symm⟩
  | cons a rest ih =>
    obtain ⟨o,m,tail,hact,hrest,htrace⟩ := actRun_cons hrun
    subst htrace
    have ha := hshort a List.mem_cons_self
    obtain ⟨htracks,htaken⟩ := ih (act_valid h ha hact) (fun c hc => hshort c (List.mem_cons_of_mem a hc)) hrest
      (act_tracks h ha hact ht)
    rw [(act_balance h ha hact q).2] at htracks htaken
    simp only [List.flatMap_cons, List.foldl_append]
    refine ⟨htracks,htaken.trans ?_⟩
    rw [act_taken hact ht, List.append_assoc]

end Own

section Isolation

def registryStep (r : Registry Q) : Action Q β → ℤ × Registry Q
  | .subscribe topic q => pubsubSubscribe r topic q
  | .unsubscribe topic q => pubsubUnsubscribe r topic q
  | .publish topic _ => (0,((findOrCreateTopic r topic).map Located.registry).getD r)
  | .dequeue _ => (0,r)
  | .tryDequeue _ => (0,r)

def ownRun (q : Q) : Registry Q → List (Action Q β) → List (OwnEvent β)
  | _, [] => []
  | r, a :: rest =>
    ownEvents q (a,.ret (registryStep r a).1) ++ ownRun q (registryStep r a).2 rest

theorem act_registryStep {b b' : Broker Q β} {a : Action Q β} {o : Outcome β}
    (hact : act b a = some (o,b')) (q : Q) :
    b'.registry = (registryStep b.registry a).2 ∧
    ownEvents q (a,o) = ownEvents q (a,.ret (registryStep b.registry a).1) := by
  cases a with
  | subscribe topic p => cases hact; exact ⟨rfl,rfl⟩
  | unsubscribe topic p => cases hact; exact ⟨rfl,rfl⟩
  | publish topic item => cases hact; exact ⟨publish_registry b topic item _,rfl⟩
  | dequeue p => cases act_dequeue hact; exact ⟨rfl,rfl⟩
  | tryDequeue p => cases hact; exact ⟨rfl,rfl⟩

theorem actRun_ownRun {b b' : Broker Q β} {actions : List (Action Q β)}
    {trace : List (Action Q β × Outcome β)} (hrun : actRun b actions = some (trace,b')) (q : Q) :
    trace.flatMap (ownEvents q) = ownRun q b.registry actions := by
  induction actions generalizing b trace with
  | nil => cases hrun; rfl
  | cons a rest ih =>
    obtain ⟨o,m,tail,hact,hrest,htrace⟩ := actRun_cons hrun
    subst htrace
    obtain ⟨hreg,hown⟩ := act_registryStep hact q
    rw [List.flatMap_cons, ih hrest, hown, hreg, ownRun]

/-- The dequeues of other queues leave no mark on the events of `q`. -/
theorem ownRun_filter (q : Q) (r : Registry Q) (actions : List (Action Q β)) :
    ownRun q r (actions.filter (Action.concerns q)) = ownRun q r actions := by
  induction actions generalizing r with
  | nil => rfl
  | cons a rest ih =>
    cases a with
    | subscribe topic p | unsubscribe topic p | publish topic item =>
      rw [List.filter_cons_of_pos rfl, ownRun, ownRun, ih]
    | dequeue p | tryDequeue p =>
      by_cases hp : p = q
      · simp [Action.concerns, hp, ownRun, ih]
      · simp [Action.concerns, hp, ownRun, ownEvents, registryStep, ih]

end Isolation

theorem create_tracks {queues : Q → RingQueue (MsgItem β)} {heap : Heap} {q : Q}
    (hempty : (queues q).contents = []) : Tracks q (create queues heap) Own.start :=
  ⟨fun t => by simp [create, Registry.empty, Registry.toMap, subscribersOf, Own.start],
    by simp [Broker.held, create, hempty, Own.start]⟩

/-- Fan-out fidelity and isolation. What was dequeued from a queue followed by
what it still holds is what was published to its topics while it had room; a
publish gives one copy to each subscriber with room and returns how many queues
grew; and the queue is a function of its own events, so that no dequeue from
another queue, and no other queue's size, can be seen in it. -/
theorem fanOut_fidelity (queues : Q → RingQueue (MsgItem β)) (heap : Heap) (actions : List (Action Q β))
    (hshort : ∀ a ∈ actions, a.ShortName) (trace : List (Action Q β × Outcome β)) (b : Broker Q β)
    (hrun : actRun (create queues heap) actions = some (trace,b)) (q : Q)
    (hempty : (queues q).contents = []) :
    trace.flatMap (taken q) ++ b.held q = offeredRun q (create queues heap) actions ∧
    (∀ topic item, topic.strlen < topicNameMax →
      let r := pubsubPublish b topic item (fun _ => true)
      (∀ p, r.2.held p = b.held p ++
        if p ∈ b.registry.toMap.subscribers topic ∧ (b.queues p).full = false then [item.view] else []) ∧
      r.1 = (((b.registry.toMap.subscribers topic).filter
        fun p => (b.held p).length < (r.2.held p).length).card : ℤ)) ∧
    (b.held q = (Own.replay (queues q).capacity (trace.flatMap (ownEvents q))).held ∧
      trace.flatMap (taken q) = (Own.replay (queues q).capacity (trace.flatMap (ownEvents q))).taken) ∧
    ∀ (queues' : Q → RingQueue (MsgItem β)) (heap' : Heap) (actions' : List (Action Q β))
      (trace' : List (Action Q β × Outcome β)) (b' : Broker Q β),
      (∀ a ∈ actions', a.ShortName) → actRun (create queues' heap') actions' = some (trace',b') →
      (queues' q).contents = [] → (queues' q).capacity = (queues q).capacity →
      actions'.filter (Action.concerns q) = actions.filter (Action.concerns q) →
      b'.held q = b.held q ∧ trace'.flatMap (taken q) = trace.flatMap (taken q) := by
  have hvalid : (create queues heap).registry.Valid := Registry.empty_valid
  obtain ⟨hreached,hbalance⟩ := actRun_balance hvalid hshort hrun q
  obtain ⟨htracks,htaken⟩ := actRun_tracks hvalid hshort hrun (create_tracks hempty)
  have hstart : (create queues heap).held q = [] := by simp [Broker.held, create, hempty]
  rw [hstart, List.nil_append] at hbalance
  refine ⟨hbalance.symm,?_,⟨htracks.held_eq,htaken.symm⟩,?_⟩
  · intro topic item htopic r
    have hspec := fun p => publish_spec hreached htopic item p
    refine ⟨fun p => (hspec p).1,(hspec q).2.2.trans ?_⟩
    congr 2
    apply Finset.filter_congr
    intro p hp
    rw [show r.2.held p = _ from (hspec p).1]
    cases (b.queues p).full <;> simp [hp]
  · intro queues' heap' actions' trace' b' hshort' hrun' hempty' hcap hfilter
    have hvalid' : (create queues' heap').registry.Valid := Registry.empty_valid
    obtain ⟨htracks',htaken'⟩ := actRun_tracks hvalid' hshort' hrun' (create_tracks hempty')
    -- deleting the steps of other queues leaves the events of this one
    have hown : trace'.flatMap (ownEvents q) = trace.flatMap (ownEvents q) := by
      rw [actRun_ownRun hrun', actRun_ownRun hrun, ← ownRun_filter q _ actions', hfilter, ownRun_filter]
      rfl
    have hsame : (create queues' heap').queues q = queues' q := rfl
    rw [hsame, hcap, hown] at htracks' htaken'
    exact ⟨htracks'.held_eq.trans htracks.held_eq.symm,htaken'.symm.trans htaken⟩

/-- Of three items published to a queue of two slots the third is lost, and the
first is dequeued. -/
theorem fanOut_fidelity_two_slots :
    let queues : ℕ → RingQueue (MsgItem Bytes) :=
      fun _ => .fresh (fun _ => ⟨0,.alert,none,0⟩) 2 (by decide) (by decide)
    let alerts : CString := ⟨ascii "alerts",by decide⟩
    let item : UInt32 → MsgItem Bytes := fun i => ⟨i,.alert,some ⟨.stack 0,[7]⟩,1⟩
    let actions : List (Action ℕ Bytes) := [.subscribe alerts 0,.subscribe alerts 1,.publish alerts (item 1),
      .publish alerts (item 2),.publish alerts (item 3),.tryDequeue 0]
    ∃ trace b, actRun (create queues ⟨0,fun _ => 0⟩) actions = some (trace,b) ∧
      b.held 0 = [(item 2).view] ∧ trace.flatMap (taken 0) = [(item 1).view] ∧
      trace.flatMap (taken 0) ++ b.held 0 = offeredRun 0 (create queues ⟨0,fun _ => 0⟩) actions := by
  intro queues alerts item actions
  have hshort : ∀ a ∈ actions, a.ShortName := by
    intro a ha
    simp only [actions, List.mem_cons, List.not_mem_nil, or_false] at ha
    have halerts : alerts.strlen < topicNameMax := by decide
    rcases ha with rfl | rfl | rfl | rfl | rfl | rfl
    · exact halerts
    · exact halerts
    · exact halerts
    · exact halerts
    · exact halerts
    · trivial
  refine ⟨_,_,rfl,by decide,by decide,?_⟩
  exact (fanOut_fidelity queues ⟨0,fun _ => 0⟩ actions hshort _ _ rfl 0 rfl).1

end RadioSim.Pubsub
