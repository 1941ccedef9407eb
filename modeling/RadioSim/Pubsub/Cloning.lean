import RadioSim.Pubsub.Registry

/-! # Whose payload is it

The payload addresses that a publish puts into queues, for any registry, any
queues, any item and any answers of `malloc`.
-/
namespace RadioSim.Pubsub
open Queue
variable {Q β : Type*}

section Sharing

def gained (b b' : Broker Q β) (q : Q) : List (MsgItem β) :=
  (b'.queues q).contents.drop (b.queues q).contents.length

/-- No payload is shared: a new payload is NULL or neither the caller's nor in any
other place; every block allocated during the call is in a queue, or freed once;
no other block is freed. -/
structure Unshared (item : MsgItem β) (b b' : Broker Q β) : Prop where
  apart : ∀ q, ∀ x ∈ gained b b' q, x.addr = none ∨ x.addr ≠ item.addr
  single : ∀ q, ((gained b b' q).filterMap MsgItem.addr).Nodup
  separate : ∀ q q', q ≠ q' →
    List.Disjoint ((gained b b' q).filterMap MsgItem.addr) ((gained b b' q').filterMap MsgItem.addr)
  settled : ∀ p, b.heap.next ≤ p → p < b'.heap.next →
    ((∃ q, ∃ x ∈ gained b b' q, x.addr = some (.heap p)) ∧ b'.heap.frees p = b.heap.frees p) ∨
    ((∀ q, ∀ x ∈ gained b b' q, x.addr ≠ some (.heap p)) ∧ b'.heap.frees p = b.heap.frees p + 1)
  kept : ∀ p < b.heap.next, b'.heap.frees p = b.heap.frees p

def MsgItem.Before (item : MsgItem β) (h : Heap) : Prop := ∀ p, item.addr = some (.heap p) → p < h.next

/-- The payload that `pubsub_publish` does not copy: it is there, and its length is 0. -/
def MsgItem.Uncopied (item : MsgItem β) : Prop := item.payload ≠ none ∧ item.length = 0

end Sharing

section Accounting
variable {h h' : Heap} {live : List Addr}

/-- From `h` to `h'` the new blocks are those in `live`, each once, and others that
were freed once; older blocks were left alone. -/
structure Ledger (h h' : Heap) (live : List Addr) : Prop where
  fresh : ∀ a ∈ live, ∃ p, a = .heap p ∧ h.next ≤ p ∧ p < h'.next
  nodup : live.Nodup
  next_le : h.next ≤ h'.next
  settled : ∀ p, h.next ≤ p → p < h'.next → h'.frees p = h.frees p + if .heap p ∈ live then 0 else 1
  kept : ∀ p, p < h.next ∨ h'.next ≤ p → h'.frees p = h.frees p

theorem ledger_start (h : Heap) : Ledger h h [] where
  fresh a ha := by cases ha
  nodup := List.nodup_nil
  next_le := le_rfl
  settled p hle hlt := absurd hlt (not_lt.mpr hle)
  kept _ _ := rfl

theorem Ledger.next_notMem (ha : Ledger h h' live) : .heap h'.next ∉ live := by
  intro hmem
  obtain ⟨p,hp,_,hlt⟩ := ha.fresh _ hmem
  cases hp
  exact lt_irrefl _ hlt

theorem Ledger.malloc (ha : Ledger h h' live) :
    Ledger h h'.malloc.2 (live ++ [.heap h'.next]) where
  fresh a hmem := by
    rcases List.mem_append.mp hmem with hmem | hmem
    · obtain ⟨p,hp,hle,hlt⟩ := ha.fresh a hmem
      exact ⟨p,hp,hle,hlt.trans (Nat.lt_succ_self _)⟩
    · exact ⟨h'.next,List.mem_singleton.mp hmem,ha.next_le,Nat.lt_succ_self _⟩
  nodup := by
    refine List.nodup_append.mpr ⟨ha.nodup,List.nodup_singleton _,?_⟩
    intro a hmem b hb heq
    rw [heq, List.mem_singleton.mp hb] at hmem
    exact ha.next_notMem hmem
  next_le := ha.next_le.trans (Nat.le_succ _)
  settled p hle hlt := by
    rcases Nat.lt_succ_iff_lt_or_eq.mp hlt with hlt | rfl
    · have hne : p ≠ h'.next := hlt.ne
      simp only [List.mem_append, List.mem_singleton, Addr.heap.injEq, hne, or_false]
      exact ha.settled p hle hlt
    · simp only [List.mem_append, List.mem_singleton, or_true, ↓reduceIte]
      exact ha.kept _ (Or.inr le_rfl)
  kept p hp := ha.kept p (hp.imp id (Nat.le_of_succ_le))

/-- A block freed in the turn that allocated it. -/
theorem Ledger.malloc_free (ha : Ledger h h' live) :
    Ledger h (h'.malloc.2.free (.heap h'.next)) live where
  fresh a hmem := by
    obtain ⟨p,hp,hle,hlt⟩ := ha.fresh a hmem
    exact ⟨p,hp,hle,hlt.trans (Nat.lt_succ_self _)⟩
  nodup := ha.nodup
  next_le := ha.next_le.trans (Nat.le_succ _)
  settled p hle hlt := by
    rcases Nat.lt_succ_iff_lt_or_eq.mp hlt with hlt | rfl
    · exact (Function.update_of_ne hlt.ne ..).trans (ha.settled p hle hlt)
    · rw [if_neg ha.next_notMem]
      exact (Function.update_self ..).trans (congrArg (· + 1) (ha.kept _ (Or.inr le_rfl)))
  kept p hp := by
    have hne : p ≠ h'.next := by
      rintro rfl
      rcases hp with hp | hp
      · exact absurd ha.next_le (not_le.mpr hp)
      · exact absurd hp (Nat.not_succ_le_self _)
    exact (Function.update_of_ne hne ..).trans (ha.kept p (hp.imp id Nat.le_of_succ_le))

end Accounting

section Delivery
variable {item clone : MsgItem β} {h h' : Heap} (ok : Bool) (r : RingQueue (MsgItem β))

/-- A turn with its clone: a queue with room takes it, and a full one leaves it to
be freed unless it is the caller's payload. -/
theorem deliver_clone {ok : Bool} (hclone : cloneItem item ok h = some (clone,h')) :
    (deliver item ok r h).2.1.contents = (if r.full then r.contents else r.contents ++ [clone]) ∧
    (r.full = false ∨ clone.addr = none ∨ clone.addr = item.addr → (deliver item ok r h).2.2 = h') ∧
    ∀ a, r.full = true → clone.addr = some a → clone.addr ≠ item.addr →
      (deliver item ok r h).2.2 = h'.free a := by
  have hfst := r.tryEnqueue_fst clone
  have hcontents := r.tryEnqueue_contents clone
  unfold deliver
  rw [hclone]
  dsimp only
  generalize r.tryEnqueue clone = e at hfst hcontents ⊢
  obtain ⟨taken,r'⟩ := e
  simp only at hfst hcontents
  cases hfull : r.full with
  | false =>
    simp only [hfull, Bool.not_false] at hfst
    subst hfst
    exact ⟨hfull ▸ hcontents,fun _ => rfl,fun _ habs => by cases habs⟩
  | true =>
    simp only [hfull, Bool.not_true] at hfst
    simp only [hfull, ↓reduceIte] at hcontents
    subst hfst
    cases haddr : clone.addr with
    | none => exact ⟨hcontents,fun _ => rfl,fun _ _ habs => by cases habs⟩
    | some a =>
      by_cases hsame : some a = item.addr
      · simp only [hsame, ne_eq, not_true_eq_false, ↓reduceIte, implies_true]
        exact ⟨hcontents,trivial,fun _ _ _ habs => habs.elim⟩
      · simp only [hsame, ne_eq, not_false_eq_true, ↓reduceIte]
        refine ⟨hcontents,?_,?_⟩
        · rintro (habs | habs | habs)
          · cases habs
          · cases habs
          · exact absurd habs id
        · intro _ _ heq _
          cases heq
          rfl

/-- One turn with a payload that is NULL or has bytes to copy: nothing happens, or
an item without a payload or with a new block is placed, or the new block is freed. -/
theorem deliver_cases (hcopy : item.payload = none ∨ 0 < item.length) (hitem : item.Before h) :
    (∃ more, (deliver item ok r h).2.1.contents = r.contents ++ more ∧ (∀ x ∈ more, x.addr = none) ∧
      (deliver item ok r h).2.2 = h) ∨
    (∃ x, (deliver item ok r h).2.1.contents = r.contents ++ [x] ∧ x.addr = some (.heap h.next) ∧
      (deliver item ok r h).2.2 = h.malloc.2) ∨
    ((deliver item ok r h).2.1.contents = r.contents ∧
      (deliver item ok r h).2.2 = h.malloc.2.free (.heap h.next)) := by
  cases hpayload : item.payload with
  | none =>
    have haddr : item.addr = none := by simp [MsgItem.addr, hpayload]
    have hclone : cloneItem item ok h = some (item,h) := by simp [cloneItem, hpayload]
    obtain ⟨hcontents,hheap,_⟩ := deliver_clone r hclone
    refine Or.inl ⟨if r.full then [] else [item],?_,?_,hheap (Or.inr (Or.inl haddr))⟩
    · rw [hcontents]
      split <;> simp
    · intro x hx
      split at hx
      · cases hx
      · rw [List.mem_singleton.mp hx, haddr]
  | some payload =>
    have hlen : item.length > 0 := hcopy.resolve_left (by simp [hpayload])
    cases ok with
    | false => refine Or.inl ⟨[],?_,by simp,?_⟩ <;> simp [deliver, cloneItem, hpayload, hlen]
    | true =>
      have hclone : cloneItem item true h =
          some ({ item with payload := some ⟨h.malloc.1,payload.content⟩ },h.malloc.2) := by
        simp only [cloneItem, hpayload, hlen, ↓reduceIte]
      obtain ⟨hcontents,hheap,hfree⟩ := deliver_clone r hclone
      cases hfull : r.full with
      | false =>
        rw [hfull] at hcontents
        exact Or.inr (Or.inl ⟨_,hcontents,rfl,hheap (Or.inl hfull)⟩)
      | true =>
        rw [hfull] at hcontents
        refine Or.inr (Or.inr ⟨hcontents,hfree _ hfull rfl fun heq => ?_⟩)
        exact absurd (hitem h.next heq.symm) (lt_irrefl _)

/-- A payload with nothing to copy goes out itself. -/
theorem deliver_same (hcopy : item.Uncopied) :
    (deliver item ok r h).2.1.contents = if r.full then r.contents else r.contents ++ [item] := by
  obtain ⟨payload,hpayload⟩ := Option.ne_none_iff_exists'.mp hcopy.1
  have hclone : cloneItem item ok h = some (item,h) := by simp [cloneItem, hpayload, hcopy.2]
  exact (deliver_clone r hclone).1

end Delivery

variable [DecidableEq Q]

section FanOut
variable {item : MsgItem β} {b m : Broker Q β} {placed : List (Q × MsgItem β)}

def placedIn (q : Q) (placed : List (Q × MsgItem β)) : List (MsgItem β) :=
  (placed.filter fun d => decide (d.1 = q)).map Prod.snd

def blocks (placed : List (Q × MsgItem β)) : List Addr := placed.filterMap fun d => d.2.addr

/-- The fan-out between its start and some turn, with what it has placed where. -/
structure Cloned (b m : Broker Q β) (placed : List (Q × MsgItem β)) : Prop where
  contents : ∀ q, (m.queues q).contents = (b.queues q).contents ++ placedIn q placed
  ledger : Ledger b.heap m.heap (blocks placed)

theorem placedIn_append (q : Q) (placed more : List (Q × MsgItem β)) :
    placedIn q (placed ++ more) = placedIn q placed ++ placedIn q more := by
  simp [placedIn]

theorem placedIn_pairs (p q : Q) (more : List (MsgItem β)) :
    placedIn q (more.map fun x => (p,x)) = if p = q then more else [] := by
  unfold placedIn
  split
  · rename_i hp
    rw [List.filter_eq_self.mpr (by simp [hp]), List.map_map]
    exact List.map_id _
  · rename_i hp
    rw [List.filter_eq_nil_iff.mpr (by simp [hp])]
    rfl

omit [DecidableEq Q] in
theorem blocks_append (placed more : List (Q × MsgItem β)) :
    blocks (placed ++ more) = blocks placed ++ blocks more := List.filterMap_append

theorem mem_placedIn {q : Q} {x : MsgItem β} : x ∈ placedIn q placed ↔ (q,x) ∈ placed := by
  simp [placedIn]

omit [DecidableEq Q] in
theorem mem_blocks {a : Addr} : a ∈ blocks placed ↔ ∃ q x, (q,x) ∈ placed ∧ x.addr = some a := by
  simp [blocks]

omit [DecidableEq Q] in
theorem blocks_inj (hnodup : (blocks placed).Nodup) {d d' : Q × MsgItem β} (hd : d ∈ placed)
    (hd' : d' ∈ placed) (hne : d ≠ d') {a : Addr} (ha : d.2.addr = some a) (ha' : d'.2.addr = some a) :
    False := by
  have : Std.Symm fun c c' : Q × MsgItem β =>
      ∀ a, c.2.addr = some a → ∀ a', c'.2.addr = some a' → a ≠ a' :=
    ⟨fun _ _ hR a ha a' ha' heq => hR a' ha' a ha heq.symm⟩
  exact (List.pairwise_filterMap.mp hnodup).forall hd hd' hne a ha a ha' rfl

theorem deliverTo_contents {ok : Bool} {p : Q} {more : List (MsgItem β)}
    (h : (deliver item ok (m.queues p) m.heap).2.1.contents = (m.queues p).contents ++ more) (q : Q) :
    ((m.deliverTo item ok p).2.queues q).contents =
      (m.queues q).contents ++ placedIn q (more.map fun x => (p,x)) := by
  rw [placedIn_pairs]
  by_cases hq : q = p
  · subst hq
    simpa [Broker.deliverTo] using h
  · simp [Broker.deliverTo, hq, Ne.symm hq]

theorem cloned_start (b : Broker Q β) (r : Registry Q) : Cloned b { b with registry := r } [] :=
  ⟨fun q => by simp [placedIn],ledger_start b.heap⟩

/-- One more turn, by what it did to the heap. -/
theorem deliverTo_cloned (hcopy : item.payload = none ∨ 0 < item.length) (hitem : item.Before b.heap)
    (h : Cloned b m placed) (ok : Bool) (p : Q) :
    ∃ more, Cloned b (m.deliverTo item ok p).2 (placed ++ more) := by
  have hbefore : item.Before m.heap := fun a ha => (hitem a ha).trans_le h.ledger.next_le
  have hcontents : ∀ more : List (MsgItem β),
      (deliver item ok (m.queues p) m.heap).2.1.contents = (m.queues p).contents ++ more →
      ∀ q, ((m.deliverTo item ok p).2.queues q).contents =
        (b.queues q).contents ++ placedIn q (placed ++ more.map fun x => (p,x)) := by
    intro more hmore q
    rw [deliverTo_contents hmore, h.contents, placedIn_append, List.append_assoc]
  rcases deliver_cases ok (m.queues p) hcopy hbefore with
    ⟨more,hmore,hnone,hheap⟩ | ⟨x,hmore,hx,hheap⟩ | ⟨hmore,hheap⟩
  · have hblocks : blocks (more.map fun x => (p,x)) = [] := by
      simpa [blocks, List.filterMap_eq_nil_iff] using hnone
    refine ⟨more.map fun x => (p,x),hcontents more hmore,?_⟩
    rw [blocks_append, hblocks, List.append_nil]
    exact (show (m.deliverTo item ok p).2.heap = m.heap from hheap) ▸ h.ledger
  · have hblocks : blocks [(p,x)] = [.heap m.heap.next] := by simp [blocks, hx]
    refine ⟨[(p,x)],hcontents [x] hmore,?_⟩
    rw [blocks_append, hblocks]
    exact (show (m.deliverTo item ok p).2.heap = m.heap.malloc.2 from hheap) ▸ h.ledger.malloc
  · refine ⟨[],hcontents [] (by rw [hmore, List.append_nil]),?_⟩
    rw [List.append_nil]
    exact (show (m.deliverTo item ok p).2.heap = _ from hheap) ▸ h.ledger.malloc_free

theorem fanOut_cloned (hcopy : item.payload = none ∨ 0 < item.length) (hitem : item.Before b.heap)
    (malloc : ℕ → Bool) (i : ℕ) (qs : List Q) (h : Cloned b m placed) :
    ∃ more, Cloned b (fanOut item malloc i qs m).2 (placed ++ more) := by
  induction qs generalizing i m placed with
  | nil => exact ⟨[],by rwa [List.append_nil]⟩
  | cons p rest ih =>
    obtain ⟨first,hfirst⟩ := deliverTo_cloned hcopy hitem h (malloc i) p
    obtain ⟨later,hlater⟩ := ih (i + 1) hfirst
    exact ⟨first ++ later,by rwa [← List.append_assoc]⟩

theorem Cloned.gained_eq (h : Cloned b m placed) (q : Q) : gained b m q = placedIn q placed := by
  rw [gained, h.contents, List.drop_left]

theorem Cloned.mem_gained (h : Cloned b m placed) {q : Q} {x : MsgItem β} :
    x ∈ gained b m q ↔ (q,x) ∈ placed := by
  rw [h.gained_eq, mem_placedIn]

theorem Cloned.unshared (hitem : item.Before b.heap) (h : Cloned b m placed) : Unshared item b m where
  apart q x hx := by
    cases haddr : x.addr with
    | none => exact Or.inl rfl
    | some a =>
      obtain ⟨p,rfl,hle,_⟩ := h.ledger.fresh a (mem_blocks.mpr ⟨q,x,h.mem_gained.mp hx,haddr⟩)
      exact Or.inr fun heq => absurd (hitem p heq.symm) (not_lt.mpr hle)
  single q := by
    rw [h.gained_eq, placedIn, List.filterMap_map]
    exact h.ledger.nodup.sublist (List.filter_sublist.filterMap _)
  separate q q' hne a ha ha' := by
    obtain ⟨x,hx,hxa⟩ := List.mem_filterMap.mp ha
    obtain ⟨x',hx',hxa'⟩ := List.mem_filterMap.mp ha'
    have hpairs : (q,x) ≠ (q',x') := fun heq => hne (congrArg Prod.fst heq)
    exact blocks_inj h.ledger.nodup (h.mem_gained.mp hx) (h.mem_gained.mp hx') hpairs hxa hxa'
  settled p hle hlt := by
    have hfrees := h.ledger.settled p hle hlt
    by_cases hmem : .heap p ∈ blocks placed
    · obtain ⟨q,x,hx,haddr⟩ := mem_blocks.mp hmem
      rw [if_pos hmem] at hfrees
      exact Or.inl ⟨⟨q,x,h.mem_gained.mpr hx,haddr⟩,hfrees⟩
    · rw [if_neg hmem] at hfrees
      refine Or.inr ⟨fun q x hx haddr => ?_,hfrees⟩
      exact hmem (mem_blocks.mpr ⟨q,x,h.mem_gained.mp hx,haddr⟩)
  kept p hlt := h.ledger.kept p (Or.inl hlt)

end FanOut

section Same
variable {item : MsgItem β} {b m : Broker Q β}

theorem deliverTo_full (hcopy : item.Uncopied) {p : Q} (hfull : (m.queues p).full = true)
    (ok : Bool) : (m.deliverTo item ok p).2 = m := by
  obtain ⟨payload,hpayload⟩ := Option.ne_none_iff_exists'.mp hcopy.1
  have hqueue : (deliver item ok (m.queues p) m.heap).2 = (m.queues p,m.heap) := by
    simp [deliver, cloneItem, MsgItem.addr, hpayload, hcopy.2, (m.queues p).tryEnqueue_of_full item hfull]
  simp [Broker.deliverTo, hqueue]

theorem fanOut_full (hcopy : item.Uncopied) (malloc : ℕ → Bool) (i : ℕ) {qs : List Q}
    (hfull : ∀ q ∈ qs, (m.queues q).full = true) : (fanOut item malloc i qs m).2 = m := by
  induction qs generalizing i with
  | nil => rfl
  | cons p rest ih =>
    have hrest := ih (i + 1) fun q hq => hfull q (List.mem_cons_of_mem p hq)
    simpa only [fanOut, deliverTo_full hcopy (hfull p List.mem_cons_self)] using hrest

/-- The contents of a queue after the turn of some subscriber. -/
theorem deliverTo_same (hcopy : item.Uncopied) (ok : Bool) (p q : Q) :
    ((m.deliverTo item ok p).2.queues q).contents =
      (m.queues q).contents ++ if p = q ∧ (m.queues q).full = false then [item] else [] := by
  have hcontents : (deliver item ok (m.queues p) m.heap).2.1.contents =
      (m.queues p).contents ++ if (m.queues p).full = false then [item] else [] := by
    rw [deliver_same ok (m.queues p) hcopy]
    cases (m.queues p).full <;> simp
  rw [deliverTo_contents hcontents, placedIn_pairs]
  by_cases hq : p = q
  · subst hq
    simp
  · simp [hq]

theorem fanOut_grows (hcopy : item.Uncopied) (malloc : ℕ → Bool) (i : ℕ) (qs : List Q)
    (q : Q) : ∃ more, ((fanOut item malloc i qs m).2.queues q).contents = (m.queues q).contents ++ more := by
  induction qs generalizing i m with
  | nil => exact ⟨[],(List.append_nil _).symm⟩
  | cons p rest ih =>
    obtain ⟨more,hmore⟩ := ih (m := (m.deliverTo item (malloc i) p).2) (i + 1)
    rw [deliverTo_same hcopy, List.append_assoc] at hmore
    exact ⟨_,hmore⟩

/-- The first turn on a queue with room puts the caller's own payload there. -/
theorem fanOut_places (hcopy : item.Uncopied) (malloc : ℕ → Bool) (i : ℕ) {qs : List Q}
    {q : Q} (hq : q ∈ qs) (hroom : (m.queues q).full = false) :
    ∃ more, ((fanOut item malloc i qs m).2.queues q).contents = (m.queues q).contents ++ item :: more := by
  induction qs generalizing i m with
  | nil => cases hq
  | cons p rest ih =>
    by_cases hp : p = q
    · subst hp
      obtain ⟨more,hmore⟩ := fanOut_grows (m := (m.deliverTo item (malloc i) p).2) hcopy malloc (i + 1) rest p
      rw [deliverTo_same hcopy, if_pos ⟨rfl,hroom⟩, List.append_assoc] at hmore
      exact ⟨more,hmore⟩
    · have hother : (m.deliverTo item (malloc i) p).2.queues q = m.queues q :=
        Function.update_of_ne (Ne.symm hp) ..
      obtain ⟨more,hmore⟩ := ih (m := (m.deliverTo item (malloc i) p).2) (i + 1)
        ((List.mem_cons.mp hq).resolve_left (Ne.symm hp)) (by rw [hother]; exact hroom)
      exact ⟨more,by rw [← hother]; exact hmore⟩

end Same

/-- The queues and the heap after a publish are those of the fan-out over the
topic's subscribers. -/
theorem publish_fanOut (b : Broker Q β) (topic : CString) (item : MsgItem β) (malloc : ℕ → Bool) :
    ∃ r, (pubsubPublish b topic item malloc).2 =
      (fanOut item malloc 0 (subscribersOf topic b.registry.topics) { b with registry := r }).2 := by
  have hsubscribers := findOrCreateTopic_subscribers b.registry topic
  unfold pubsubPublish
  cases hfind : findOrCreateTopic b.registry topic with
  | none =>
    rw [hfind] at hsubscribers
    exact ⟨b.registry,by rw [← hsubscribers]; rfl⟩
  | some l =>
    rw [hfind] at hsubscribers
    exact ⟨l.registry,by rw [← hsubscribers]; rfl⟩

/-- A publish shares no payload exactly when every payload it hands out has bytes
to copy: one of length 0 goes to the subscribers as the caller's own pointer. -/
theorem publish_unshared_iff (b : Broker Q β) (topic : CString) (item : MsgItem β) (malloc : ℕ → Bool)
    (hitem : item.Before b.heap) :
    Unshared item b (pubsubPublish b topic item malloc).2 ↔
      ¬(item.Uncopied ∧ ∃ q ∈ subscribersOf topic b.registry.topics, (b.queues q).full = false) := by
  obtain ⟨r,hpublish⟩ := publish_fanOut b topic item malloc
  rw [hpublish]
  by_cases hcopy : item.Uncopied
  · constructor
    · rintro hshared ⟨_,q,hq,hroom⟩
      obtain ⟨more,hmore⟩ := fanOut_places (m := { b with registry := r }) hcopy malloc 0 hq hroom
      have hmem : item ∈ gained b (fanOut item malloc 0 (subscribersOf topic b.registry.topics)
          { b with registry := r }).2 q := by
        rw [gained, hmore]
        simp
      rcases hshared.apart q item hmem with hnone | hne
      · exact hcopy.1 (Option.map_eq_none_iff.mp hnone)
      · exact hne rfl
    · intro hnot
      have hfull : ∀ q ∈ subscribersOf topic b.registry.topics, (b.queues q).full = true := fun q hq => by
        simpa using fun hroom => hnot ⟨hcopy,q,hq,hroom⟩
      rw [fanOut_full (m := { b with registry := r }) hcopy malloc 0 hfull]
      exact (cloned_start b r).unshared hitem
  · have hcopied : item.payload = none ∨ 0 < item.length := by
      by_cases hnone : item.payload = none
      · exact Or.inl hnone
      · exact Or.inr (Nat.pos_of_ne_zero fun hzero => hcopy ⟨hnone,hzero⟩)
    refine iff_of_true ?_ fun habs => hcopy habs.1
    obtain ⟨placed,hplaced⟩ := fanOut_cloned hcopied hitem malloc 0 (subscribersOf topic b.registry.topics)
      (cloned_start b r)
    exact hplaced.unshared hitem

/-- A payload of one byte reaches two subscribers as two blocks of their own. -/
theorem publish_unshared_iff_two :
    let queues : ℕ → RingQueue (MsgItem Bytes) :=
      fun _ => .fresh (fun _ => ⟨0,.alert,none,0⟩) 2 (by decide) (by decide)
    let alerts : CString := ⟨ascii "alerts",by decide⟩
    let b := (run (create queues ⟨1,fun _ => 0⟩) [.subscribe alerts 0,.subscribe alerts 1]).2
    let item : MsgItem Bytes := ⟨1,.alert,some ⟨.heap 0,[7]⟩,1⟩
    let b' := (pubsubPublish b alerts item fun _ => true).2
    Unshared item b b' ∧ (gained b b' 0).map MsgItem.addr = [some (.heap 1)] ∧
      (gained b b' 1).map MsgItem.addr = [some (.heap 2)] := by
  intro queues alerts b item b'
  have hitem : item.Before b.heap := fun p hp => by
    cases hp
    exact Nat.zero_lt_one
  have hcopied : ¬item.Uncopied := fun h => absurd h.2 Nat.one_ne_zero
  exact ⟨(publish_unshared_iff b alerts item _ hitem).mpr fun h => hcopied h.1,by decide,by decide⟩

/-- A payload of length 0 is in the queue after the call, and still the caller's. -/
theorem publish_shares :
    let queues : ℕ → RingQueue (MsgItem Bytes) :=
      fun _ => .fresh (fun _ => ⟨0,.alert,none,0⟩) 2 (by decide) (by decide)
    let alerts : CString := ⟨ascii "alerts",by decide⟩
    let b := (run (create queues ⟨1,fun _ => 0⟩) [.subscribe alerts 0,.subscribe alerts 1]).2
    let item : MsgItem Bytes := ⟨1,.alert,some ⟨.heap 0,[]⟩,0⟩
    let b' := (pubsubPublish b alerts item fun _ => true).2
    gained b b' 0 = [item] ∧ gained b b' 1 = [item] ∧ ¬Unshared item b b' := by
  intro queues alerts b item b'
  have hgained : gained b b' 0 = [item] := by decide
  refine ⟨hgained,by decide,fun h => ?_⟩
  rcases h.apart 0 item (hgained ▸ List.mem_singleton_self item) with hnone | hne
  · cases hnone
  · exact hne rfl

end RadioSim.Pubsub
