import Mathlib.Logic.Relation
import Mathlib.Tactic.IntervalCases
import RadioSim.Foundation.WorkPool
import RadioSim.Process.Effect
import RadioSim.Process.Worker
import RadioSim.Pubsub.Registry

/-! # The worker pool

`W` workers on one ingest queue, with any enqueuers, a shutdown at any time, and
any activity of the other threads on the rest of the shared state. The histories
of a `Pool` are what an observer of the calls sees.
-/
namespace RadioSim.Process
open Pubsub Queue

/-- A call of `pubsub_publish`, with the subscribers its topic has at that moment. -/
structure Publication where
  worker : ℕ
  topic : CString
  item : Item
  subscribers : List QueueId

structure Delivery where
  worker : ℕ
  queue : QueueId
  item : Item

/-- `closedAt` is how many items had been accepted at the first shutdown. -/
structure Pool where
  pcs : ℕ → Worker.Pc
  shared : Shared
  accepted : List Item
  dequeued : List (ℕ × Item)
  drawn : List (ℕ × UInt32)
  published : List Publication
  delivered : List Delivery
  closedAt : Option ℕ

namespace Pool

def note {P : Type} (s : Pool) (i : ℕ) : Op P → Pool
  | .dequeue q _ =>
    { s with dequeued := s.dequeued ++ (s.shared.contents q).head?.toList.map fun item => (i,item) }
  | .nextSequence _ => { s with drawn := s.drawn ++ [(i,s.shared.nextSeq)] }
  | .publishBegin topic item _ =>
    { s with published := s.published ++ [⟨i,topic,item,subscribersOf topic s.shared.registry.topics⟩] }
  | .deliver q item _ => { s with delivered := s.delivered ++ [⟨i,q,item⟩] }
  | _ => s

def advance (s : Pool) (i : ℕ) (pc : Worker.Pc) (sh : Shared) : Pool :=
  { s.note i (Worker.code (s.pcs i)) with pcs := Function.update s.pcs i pc, shared := sh }

def offer (s : Pool) (item : Item) (ok : Bool) (sh : Shared) : Pool :=
  { s with shared := sh, accepted := if ok then s.accepted ++ [item] else s.accepted }

def close (s : Pool) (sh : Shared) : Pool :=
  { s with shared := sh, closedAt := s.closedAt <|> some s.accepted.length }

end Pool

attribute [local simp] Pool.advance Pool.note

inductive PoolEvent
  | worker (i : ℕ) (c : Choice)
  | enqueue (item : Item)
  | tryEnqueue (item : Item)
  | shutdown

def RawItem (item : Item) : Prop :=
  match item.type with
  | .telemetry => ∃ raw, Item.content item = some (.telemetryRaw raw)
  | .alert => ∃ raw, Item.content item = some (.alertRaw raw)

def PoolEvent.Allowed (W : ℕ) : PoolEvent → Prop
  | .worker i _ => i < W
  | .enqueue item => RawItem item
  | .tryEnqueue item => RawItem item
  | .shutdown => True

def Pool.exec (s : Pool) : PoolEvent → Option Pool
  | .worker i c =>
    (Process.exec (.worker i) c s.shared (Worker.code (s.pcs i))).map fun r => s.advance i r.1 r.2
  | .enqueue item =>
    (Process.exec .producer .ok s.shared (.enqueue .ingest item id)).map fun r => s.offer item r.1 r.2
  | .tryEnqueue item =>
    (Process.exec .producer .ok s.shared (.tryEnqueue .ingest item id)).map fun r => s.offer item r.1 r.2
  | .shutdown =>
    (Process.exec .main .ok s.shared (.queueShutdown .ingest ())).map fun r => s.close r.2

/-- An event of the pool, or anything else that leaves the ingest queue and the
sequence counter alone and does not subscribe the ingest queue. -/
inductive PoolStep (W : ℕ) (s : Pool) : Pool → Prop
  | event (e : PoolEvent) (s' : Pool) (hallowed : e.Allowed W) (hexec : s.exec e = some s') : PoolStep W s s'
  | other (sh : Shared) (hqueue : sh.ring .ingest = s.shared.ring .ingest)
      (hseq : sh.nextSeq = s.shared.nextSeq) (hregistry : ¬ sh.registry.Holds .ingest) :
      PoolStep W s { s with shared := sh }

structure Pool.Fresh (s : Pool) : Prop where
  pcs : s.pcs = fun _ => .dequeue
  queue : ∃ r, s.shared.ring .ingest = some r ∧ r.contents = [] ∧ r.closed = false
  nextSeq : s.shared.nextSeq = 1
  registry : ¬ s.shared.registry.Holds .ingest
  histories : s.accepted = [] ∧ s.dequeued = [] ∧ s.drawn = [] ∧ s.published = [] ∧ s.delivered = [] ∧
    s.closedAt = none

def Publication.deliveries (pub : Publication) : List Delivery :=
  pub.subscribers.map fun q => ⟨pub.worker,q,pub.item⟩

def Worker.outstanding (i : ℕ) : Worker.Pc → List Delivery
  | .fanOut raw seq ts subscribers => subscribers.map fun q => ⟨i,q,pubItem raw seq ts⟩
  | _ => []

def PoolReachable (W : ℕ) (s : Pool) : Prop := ∃ s₀ : Pool, s₀.Fresh ∧ Relation.ReflTransGen (PoolStep W) s₀ s

section Ledger
open WorkPool

def Tracks (dequeued : List (ℕ × Item)) (drawn : List (ℕ × UInt32)) (i : ℕ) : Worker.Pc → Phase → Prop
  | .dequeue, .waiting => True
  | .sequence raw, .fetched j => dequeued[j]? = some (i,raw)
  | .time raw seq, .numbered j d | .read raw seq _, .numbered j d | .publish raw seq _, .numbered j d =>
    dequeued[j]? = some (i,raw) ∧ drawn[d]? = some (i,seq)
  | .fanOut _ _ _ subscribers, .published _ => .ingest ∉ subscribers
  | .release _, .published _ => True
  | .done, .stopped => True
  | _, _ => False

/-- A call of `pubsub_publish` for the `j`-th dequeue with the `d`-th draw. -/
def Stems (dequeued : List (ℕ × Item)) (drawn : List (ℕ × UInt32)) (jd : ℕ × ℕ) (pub : Publication) : Prop :=
  ∃ raw seq ts, dequeued[jd.1]? = some (pub.worker,raw) ∧ drawn[jd.2]? = some (pub.worker,seq) ∧
    pub.topic = Worker.topicOf raw.type ∧ pub.item = Worker.pubItem raw seq ts

/-- The deliveries of a worker are those of its calls, up to what is left of the last one. -/
def Balanced (published : List Publication) (delivered : List Delivery) (i : ℕ) (pc : Worker.Pc) : Prop :=
  (published.filter (·.worker = i)).flatMap Publication.deliveries =
    delivered.filter (·.worker = i) ++ Worker.outstanding i pc

theorem getElem?_grow {α : Type*} {l : List α} {j : ℕ} {x : α} (h : l[j]? = some x) (m : List α) :
    (l ++ m)[j]? = some x := by
  obtain ⟨hlt,_⟩ := List.getElem?_eq_some_iff.mp h
  rw [List.getElem?_append_left hlt, h]

theorem Tracks.grow {dequeued : List (ℕ × Item)} {drawn : List (ℕ × UInt32)} {i : ℕ} {pc : Worker.Pc} {ph : Phase}
    (h : Tracks dequeued drawn i pc ph) (more : List (ℕ × Item)) (draws : List (ℕ × UInt32)) :
    Tracks (dequeued ++ more) (drawn ++ draws) i pc ph := by
  cases pc <;> cases ph <;> first
    | exact h
    | exact getElem?_grow h more
    | exact ⟨getElem?_grow h.1 more,getElem?_grow h.2 draws⟩

theorem Stems.grow {dequeued : List (ℕ × Item)} {drawn : List (ℕ × UInt32)} {jd : ℕ × ℕ} {pub : Publication}
    (h : Stems dequeued drawn jd pub) (more : List (ℕ × Item)) (draws : List (ℕ × UInt32)) :
    Stems (dequeued ++ more) (drawn ++ draws) jd pub := by
  obtain ⟨raw,seq,ts,hj,hd,htopic,hitem⟩ := h
  exact ⟨raw,seq,ts,getElem?_grow hj more,getElem?_grow hd draws,htopic,hitem⟩

structure Follows (W : ℕ) (s : Pool) (a : WorkPool.State) : Prop where
  accepted : a.accepted = s.accepted.length
  fetched : a.fetched = s.dequeued.length
  draws : a.draws = s.drawn.length
  closedAt : a.closedAt = s.closedAt
  tracks : ∀ i, Tracks s.dequeued s.drawn i (s.pcs i) (a.phase i)
  published : List.Forall₂ (Stems s.dequeued s.drawn) a.published s.published
  balanced : ∀ i, Balanced s.published s.delivered i (s.pcs i)
  queue : ∃ r, s.shared.ring .ingest = some r ∧ r.closed = s.closedAt.isSome ∧
    s.accepted = s.dequeued.map Prod.snd ++ r.contents
  raws : ∀ item ∈ s.accepted, RawItem item
  nextSeq : s.shared.nextSeq = UInt32.ofNat (s.drawn.length + 1)
  drawn : ∀ (d : ℕ) v, s.drawn[d]? = some v → v.2 = UInt32.ofNat (d + 1)
  registry : ¬ s.shared.registry.Holds .ingest
  idle : ∀ i, W ≤ i → s.pcs i = .dequeue

variable {W : ℕ} {s s' : Pool} {a : WorkPool.State} {i : ℕ} {c : Choice} {pc : Worker.Pc} {sh : Shared}

theorem fresh_follows (h : s.Fresh) : Follows W s .initial := by
  obtain ⟨haccepted,hdequeued,hdrawn,hpublished,hdelivered,hclosed⟩ := h.histories
  obtain ⟨r,hr,hcontents,hopen⟩ := h.queue
  refine ⟨?_,?_,?_,?_,?_,?_,?_,⟨r,hr,?_,?_⟩,?_,?_,?_,h.registry,?_⟩
  · simp [haccepted, State.initial]
  · simp [hdequeued, State.initial]
  · simp [hdrawn, State.initial]
  · simp [hclosed, State.initial]
  · intro i
    rw [h.pcs]
    exact trivial
  · rw [hpublished]
    exact .nil
  · intro i
    rw [h.pcs, hpublished, hdelivered]
    exact rfl
  · simp [hopen, hclosed]
  · simp [haccepted, hdequeued, hcontents]
  · simp [haccepted]
  · simp [hdrawn, h.nextSeq]
  · simp [hdrawn]
  · intro i _
    rw [h.pcs]

theorem tracks_update {dequeued more : List (ℕ × Item)} {drawn draws : List (ℕ × UInt32)} {ph : Phase}
    {pcs : ℕ → Worker.Pc} {phase : ℕ → Phase} (h : ∀ k, Tracks dequeued drawn k (pcs k) (phase k))
    (hi : Tracks (dequeued ++ more) (drawn ++ draws) i pc ph) (k : ℕ) :
    Tracks (dequeued ++ more) (drawn ++ draws) k (Function.update pcs i pc k) (Function.update phase i ph k) := by
  rcases eq_or_ne k i with rfl | hne
  · rwa [Function.update_self, Function.update_self]
  · rw [Function.update_of_ne hne, Function.update_of_ne hne]
    exact (h k).grow more draws

theorem balanced_update {published : List Publication} {delivered : List Delivery} {pcs : ℕ → Worker.Pc}
    (more : List Publication) (made : List Delivery)
    (h : ∀ k, Balanced published delivered k (pcs k)) (hmore : ∀ pub ∈ more, pub.worker = i)
    (hmade : ∀ d ∈ made, d.worker = i)
    (hi : Worker.outstanding i (pcs i) ++ more.flatMap Publication.deliveries = made ++ Worker.outstanding i pc) (k : ℕ) :
    Balanced (published ++ more) (delivered ++ made) k (Function.update pcs i pc k) := by
  have hold := h k
  unfold Balanced at hold ⊢
  rw [List.filter_append, List.filter_append, List.flatMap_append, hold]
  rcases eq_or_ne k i with rfl | hne
  · have hall : more.filter (·.worker = k) = more := List.filter_eq_self.mpr (by simpa using hmore)
    have hall' : made.filter (·.worker = k) = made := List.filter_eq_self.mpr (by simpa using hmade)
    rw [hall, hall', Function.update_self, List.append_assoc, hi, List.append_assoc]
  · have hno : more.filter (·.worker = k) = [] := by
      refine List.filter_eq_nil_iff.mpr fun pub hpub => ?_
      simpa [hmore pub hpub] using hne.symm
    have hno' : made.filter (·.worker = k) = [] := by
      refine List.filter_eq_nil_iff.mpr fun d hd => ?_
      simpa [hmade d hd] using hne.symm
    rw [hno, hno', Function.update_of_ne hne, List.flatMap_nil, List.append_nil, List.append_nil]

theorem Follows.tracks_same (h : Follows W s a) {ph : Phase} (htrack : Tracks s.dequeued s.drawn i pc ph) (k : ℕ) :
    Tracks s.dequeued s.drawn k (Function.update s.pcs i pc k) (Function.update a.phase i ph k) := by
  have hnil : Tracks (s.dequeued ++ []) (s.drawn ++ []) i pc ph := by simpa only [List.append_nil] using htrack
  simpa only [List.append_nil] using tracks_update h.tracks hnil k

theorem Follows.balanced_same (h : Follows W s a) (hi : Worker.outstanding i pc = Worker.outstanding i (s.pcs i)) (k : ℕ) :
    Balanced s.published s.delivered k (Function.update s.pcs i pc k) := by
  simpa only [List.append_nil] using
    balanced_update [] [] h.balanced (by simp) (by simp) (by simp [hi]) k

theorem Follows.idle_update (h : Follows W s a) (hi : i < W) (pc : Worker.Pc) (k : ℕ) (hk : W ≤ k) :
    Function.update s.pcs i pc k = .dequeue := by
  rw [Function.update_of_ne (by omega)]
  exact h.idle k hk

/-- A step that is no call of interest. -/
theorem Follows.move (h : Follows W s a) (hi : i < W) (ph : Phase) (htrack : Tracks s.dequeued s.drawn i pc ph)
    (hbalance : Worker.outstanding i pc = Worker.outstanding i (s.pcs i))
    (hring : sh.ring .ingest = s.shared.ring .ingest) (hseq : sh.nextSeq = s.shared.nextSeq)
    (hregistry : ¬ sh.registry.Holds .ingest) :
    Follows W { s with pcs := Function.update s.pcs i pc, shared := sh } (a.goTo i ph) where
  accepted := h.accepted
  fetched := h.fetched
  draws := h.draws
  closedAt := h.closedAt
  tracks := h.tracks_same htrack
  published := h.published
  balanced := h.balanced_same hbalance
  queue := by
    rw [hring]
    exact h.queue
  raws := h.raws
  nextSeq := hseq.trans h.nextSeq
  drawn := h.drawn
  registry := hregistry
  idle := h.idle_update hi pc

theorem Follows.stay (h : Follows W s a) (hi : i < W) (htrack : Tracks s.dequeued s.drawn i pc (a.phase i))
    (hbalance : Worker.outstanding i pc = Worker.outstanding i (s.pcs i))
    (hring : sh.ring .ingest = s.shared.ring .ingest) (hseq : sh.nextSeq = s.shared.nextSeq)
    (hregistry : ¬ sh.registry.Holds .ingest) :
    Follows W { s with pcs := Function.update s.pcs i pc, shared := sh } a := by
  have hsame : a.goTo i (a.phase i) = a := by
    unfold State.goTo
    rw [Function.update_eq_self]
  exact hsame ▸ h.move hi (a.phase i) htrack hbalance hring hseq hregistry

def Simulates (W : ℕ) (a : WorkPool.State) (s' : Pool) : Prop :=
  ∃ a', (a' = a ∨ WorkPool.Step a a') ∧ Follows W s' a'

theorem dequeue_simulates (h : Follows W s a) (hi : i < W) (hpc : s.pcs i = .dequeue)
    (heff : Effect (.worker i) s.shared (Worker.code .dequeue) pc sh) : Simulates W a (s.advance i pc sh) := by
  have hphase : a.phase i = .waiting := by
    have htrack := h.tracks i
    rw [hpc] at htrack
    cases hph : a.phase i <;> rw [hph] at htrack <;> first | rfl | exact htrack.elim
  obtain ⟨r,hr,hclosed,hfifo⟩ := h.queue
  cases heff with
  | dequeue _ _ r' hr' hopen =>
    obtain rfl := Option.some.inj (hr.symm.trans hr')
    have hring : (s.shared.takeFrom .ingest r.tryDequeue).ring .ingest = some r.tryDequeue.2 :=
      ring_setQueue_self s.shared .ingest _
    cases hcontents : r.contents with
    | nil =>
      have hempty : r.tryDequeue.2 = r := by rw [r.tryDequeue_of_empty hcontents]
      rw [hempty] at hring
      have hquiet : s.advance i .done (s.shared.takeFrom .ingest r.tryDequeue) =
          { s with pcs := Function.update s.pcs i .done, shared := s.shared.takeFrom .ingest r.tryDequeue } := by
        simp [hpc, Worker.code, contents_of_ring hr, hcontents]
      rw [List.head?_nil, hquiet]
      refine ⟨_,Or.inr (.stop i hphase ?_ ?_),h.move hi _ trivial (by rw [hpc]; rfl) (hring.trans hr.symm) rfl h.registry⟩
      · rw [h.closedAt, ← hclosed]
        simpa [hcontents] using hopen
      · rw [h.fetched, h.accepted, hfifo, hcontents]
        simp
    | cons item rest =>
      simp only [List.head?_cons, Pool.advance, Pool.note, hpc, Worker.code, contents_of_ring hr, hcontents,
        Option.toList_some, List.map_cons, List.map_nil]
      refine ⟨_,Or.inr (.fetch i hphase ?_),?_⟩
      · rw [h.fetched, h.accepted, hfifo, hcontents]
        simp
      have htrack : Tracks (s.dequeued ++ [(i,item)]) (s.drawn ++ []) i (.sequence item) (.fetched a.fetched) := by
        simp [Tracks, h.fetched]
      refine ⟨h.accepted,by simp [h.fetched],h.draws,h.closedAt,fun k => ?_,?_,
        h.balanced_same (by rw [hpc]; rfl),⟨_,hring,?_,?_⟩,h.raws,h.nextSeq,h.drawn,h.registry,h.idle_update hi _⟩
      · simpa only [State.goTo, List.append_nil] using tracks_update h.tracks htrack k
      · refine h.published.imp fun jd pub hpub => ?_
        simpa only [List.append_nil] using hpub.grow [(i,item)] []
      · simpa using hclosed
      · simp [hfifo, hcontents]

theorem sequence_simulates (h : Follows W s a) (hi : i < W) {raw : Item} (hpc : s.pcs i = .sequence raw)
    (heff : Effect (.worker i) s.shared (Worker.code (.sequence raw)) pc sh) :
    Simulates W a (s.advance i pc sh) := by
  have htrack := h.tracks i
  rw [hpc] at htrack
  cases hph : a.phase i with
  | fetched j =>
    rw [hph] at htrack
    cases heff with
    | nextSequence =>
      simp only [Pool.advance, Pool.note, hpc, Worker.code]
      have hnew : Tracks (s.dequeued ++ []) (s.drawn ++ [(i,s.shared.nextSeq)]) i (.time raw s.shared.nextSeq)
          (.numbered j a.draws) := by
        refine ⟨getElem?_grow htrack [],?_⟩
        simp [h.draws]
      refine ⟨_,Or.inr (.number i j hph),⟨h.accepted,h.fetched,by simp [h.draws],h.closedAt,fun k => ?_,?_,
        h.balanced_same (by rw [hpc]; rfl),h.queue,h.raws,?_,?_,h.registry,h.idle_update hi _⟩⟩
      · simpa only [State.goTo, List.append_nil] using tracks_update h.tracks hnew k
      · refine h.published.imp fun jd pub hpub => ?_
        simpa only [List.append_nil] using hpub.grow [] [(i,s.shared.nextSeq)]
      · simp only [h.nextSeq, List.length_append, List.length_singleton]
        rw [UInt32.ofNat_add (s.drawn.length + 1) 1]
        rfl
      · intro d v hd
        rw [List.getElem?_append] at hd
        split at hd
        · exact h.drawn d v hd
        · rename_i hge
          obtain ⟨hlt,hv⟩ := List.getElem?_eq_some_iff.mp hd
          have hd' : d = s.drawn.length := by simp at hlt; omega
          subst hd'
          simp only [Nat.sub_self, List.getElem_cons_zero] at hv
          rw [← hv, h.nextSeq]
  | _ =>
    rw [hph] at htrack
    exact htrack.elim

theorem publish_simulates (h : Follows W s a) (hi : i < W) {raw : Item} {seq : UInt32} {ts : Int64}
    (hpc : s.pcs i = .publish raw seq ts)
    (heff : Effect (.worker i) s.shared (Worker.code (.publish raw seq ts)) pc sh) :
    Simulates W a (s.advance i pc sh) := by
  have htrack := h.tracks i
  rw [hpc] at htrack
  cases hph : a.phase i with
  | numbered j d =>
    rw [hph] at htrack
    have hsubscribers := findOrCreateTopic_subscribers s.shared.registry (Worker.topicOf raw.type)
    have hnext : Tracks s.dequeued s.drawn i pc (.published j) ∧
        Worker.outstanding i pc = (subscribersOf (Worker.topicOf raw.type) s.shared.registry.topics).map
          (fun q => ⟨i,q,Worker.pubItem raw seq ts⟩) ∧
        sh.ring .ingest = s.shared.ring .ingest ∧ sh.nextSeq = s.shared.nextSeq ∧ ¬ sh.registry.Holds .ingest := by
      cases heff with
      | publishNone _ _ _ _ hl =>
        rw [hl] at hsubscribers
        refine ⟨trivial,?_,rfl,rfl,h.registry⟩
        rw [← hsubscribers]
        rfl
      | publishBegin _ _ _ _ l hl =>
        rw [hl] at hsubscribers
        have hnot : ¬ l.registry.Holds .ingest := fun hl' => h.registry ((findOrCreateTopic_holds hl).mp hl')
        refine ⟨fun hmem => hnot (Located.holds_of_mem hmem),?_,rfl,rfl,hnot⟩
        rw [← hsubscribers]
        rfl
    obtain ⟨hnew,hdue,hring,hseq,hregistry⟩ := hnext
    let pub : Publication := ⟨i,Worker.topicOf raw.type,Worker.pubItem raw seq ts,
      subscribersOf (Worker.topicOf raw.type) s.shared.registry.topics⟩
    simp only [Pool.advance, Pool.note, hpc, Worker.code]
    refine ⟨_,Or.inr (.publish i j d hph),⟨h.accepted,h.fetched,h.draws,h.closedAt,h.tracks_same hnew,?_,fun k => ?_,?_,
      h.raws,hseq.trans h.nextSeq,h.drawn,hregistry,h.idle_update hi pc⟩⟩
    · exact List.rel_append h.published (.cons ⟨raw,seq,ts,htrack.1,htrack.2,rfl,rfl⟩ .nil)
    · have hdue' : Worker.outstanding i (s.pcs i) ++ [pub].flatMap Publication.deliveries =
          [] ++ Worker.outstanding i pc := by
        rw [hpc, hdue]
        simp [pub, Worker.outstanding, Publication.deliveries]
      simpa only [List.append_nil] using balanced_update [pub] [] h.balanced (by simp [pub]) (by simp) hdue' k
    · rw [hring]
      exact h.queue
  | _ =>
    rw [hph] at htrack
    exact htrack.elim

theorem fanOut_simulates (h : Follows W s a) (hi : i < W) {raw : Item} {seq : UInt32} {ts : Int64}
    {subscribers : List QueueId} (hpc : s.pcs i = .fanOut raw seq ts subscribers)
    (heff : Effect (.worker i) s.shared (Worker.code (.fanOut raw seq ts subscribers)) pc sh) :
    Simulates W a (s.advance i pc sh) := by
  have htrack := h.tracks i
  rw [hpc] at htrack
  cases subscribers with
  | nil =>
    cases heff with
    | publishEnd =>
      simp only [Pool.advance, Pool.note, hpc, Worker.code]
      refine ⟨a,Or.inl rfl,h.stay hi ?_ (by rw [hpc]; rfl) rfl rfl h.registry⟩
      cases hph : a.phase i <;> rw [hph] at htrack <;> first | exact trivial | exact htrack
  | cons q rest =>
    cases heff with
    | deliver _ _ _ r hr ok =>
      have hrest : Tracks s.dequeued s.drawn i (.fanOut raw seq ts rest) (a.phase i) ∧ .ingest ≠ q := by
        cases hph : a.phase i <;> rw [hph] at htrack <;> first
          | exact htrack.elim
          | exact ⟨fun hmem => htrack (List.mem_cons_of_mem q hmem),fun hq => htrack (hq ▸ List.mem_cons_self)⟩
      simp only [Pool.advance, Pool.note, hpc, Worker.code]
      have hmade : Worker.outstanding i (s.pcs i) ++ [].flatMap Publication.deliveries =
          [⟨i,q,Worker.pubItem raw seq ts⟩] ++ Worker.outstanding i (.fanOut raw seq ts rest) := by
        rw [hpc]
        simp [Worker.outstanding]
      have hphase : Function.update a.phase i (a.phase i) = a.phase := Function.update_eq_self ..
      refine ⟨a,Or.inl rfl,{ h with
        tracks := fun k => ?_, balanced := fun k => ?_, queue := ?_, idle := h.idle_update hi _ }⟩
      · simpa only [hphase] using h.tracks_same hrest.1 k
      · simpa only [List.append_nil] using balanced_update [] [_] h.balanced (by simp) (by simp) hmade k
      · obtain ⟨r',hr',hqueue⟩ := h.queue
        exact ⟨r',(ring_setQueue_of_ne s.shared hrest.2 _).trans hr',hqueue⟩

theorem worker_simulates (h : Follows W s a) (hi : i < W)
    (heff : Effect (.worker i) s.shared (Worker.code (s.pcs i)) pc sh) : Simulates W a (s.advance i pc sh) := by
  have htrack := h.tracks i
  cases hpc : s.pcs i with
  | dequeue => exact dequeue_simulates h hi hpc (hpc ▸ heff)
  | sequence raw => exact sequence_simulates h hi hpc (hpc ▸ heff)
  | time raw seq =>
    -- the clock and the read of the raw struct are no steps of the abstract pool
    rw [hpc] at htrack heff
    cases heff with
    | time _ ts =>
      simp only [Pool.advance, Pool.note, hpc, Worker.code]
      exact ⟨a,Or.inl rfl,h.stay hi (by cases hph : a.phase i <;> rwa [hph] at htrack) (by rw [hpc]; rfl) rfl rfl
        h.registry⟩
  | read raw seq ts =>
    rw [hpc] at htrack heff
    simp only [Worker.code] at heff
    generalize raw.addr = addr at heff
    cases heff with
    | touched =>
      simp only [Pool.advance, Pool.note, hpc, Worker.code]
      exact ⟨a,Or.inl rfl,h.stay hi (by cases hph : a.phase i <;> rwa [hph] at htrack) (by rw [hpc]; rfl) rfl rfl
        h.registry⟩
  | publish raw seq ts => exact publish_simulates h hi hpc (hpc ▸ heff)
  | fanOut raw seq ts subscribers => exact fanOut_simulates h hi hpc (hpc ▸ heff)
  | release raw =>
    rw [hpc] at htrack heff
    cases hph : a.phase i with
    | published j =>
      simp only [Worker.code] at heff
      generalize raw.addr = addr at heff
      cases heff with
      | freedNull | freed =>
        simp only [Pool.advance, Pool.note, hpc, Worker.code]
        exact ⟨_,Or.inr (.finish i j hph),h.move hi .waiting trivial (by rw [hpc]; rfl) rfl rfl h.registry⟩
    | _ =>
      rw [hph] at htrack
      exact htrack.elim
  | done =>
    rw [hpc] at htrack heff
    cases heff with
    | ret =>
      simp only [Pool.advance, Pool.note, hpc, Worker.code]
      exact ⟨a,Or.inl rfl,h.stay hi htrack (by rw [hpc]) rfl rfl h.registry⟩

theorem offer_simulates (h : Follows W s a) {item : Item} (hraw : RawItem item) {r : RingQueue Item}
    (hr : s.shared.ring .ingest = some r) :
    Simulates W a (s.offer item (!r.full) (s.shared.setQueue .ingest (.live (r.tryEnqueue item).2))) := by
  have hring := ring_setQueue_self s.shared .ingest (r.tryEnqueue item).2
  obtain ⟨r',hr',hclosed,hfifo⟩ := h.queue
  obtain rfl := Option.some.inj (hr.symm.trans hr')
  cases hfull : r.full with
  | true =>
    exact ⟨a,Or.inl rfl,{ h with
      queue := ⟨_,hring,by simpa [Pool.offer] using hclosed,by simpa [Pool.offer, hfull] using hfifo⟩ }⟩
  | false =>
    refine ⟨_,Or.inr .accept,{ h with
      accepted := by simp [Pool.offer, h.accepted]
      queue := ⟨_,hring,by simpa [Pool.offer] using hclosed,by simp [Pool.offer, hfull, hfifo]⟩
      raws := fun x hx => ?_ }⟩
    rcases List.mem_append.mp hx with hold | hnew
    · exact h.raws x hold
    · exact List.mem_singleton.mp hnew ▸ hraw

theorem step_simulates (h : Follows W s a) (hstep : PoolStep W s s') : Simulates W a s' := by
  cases hstep with
  | other sh hqueue hseq hregistry =>
    exact ⟨a,Or.inl rfl,{ h with
      queue := by
        rw [hqueue]
        exact h.queue
      nextSeq := hseq.trans h.nextSeq
      registry := hregistry }⟩
  | event e s' hallowed hexec =>
    cases e with
    | worker i c =>
      obtain ⟨r,hr,rfl⟩ := Option.map_eq_some_iff.mp hexec
      exact worker_simulates h hallowed (exec_effect hr)
    | enqueue item =>
      obtain ⟨⟨_,_⟩,hr,rfl⟩ := Option.map_eq_some_iff.mp hexec
      cases exec_effect hr with
      | enqueue _ _ _ r hring _ => exact offer_simulates h hallowed hring
    | tryEnqueue item =>
      obtain ⟨⟨_,_⟩,hr,rfl⟩ := Option.map_eq_some_iff.mp hexec
      cases exec_effect hr with
      | tryEnqueue _ _ _ r hring => exact offer_simulates h hallowed hring
    | shutdown =>
      obtain ⟨⟨_,_⟩,hr,rfl⟩ := Option.map_eq_some_iff.mp hexec
      cases exec_effect hr with
      | queueShutdown _ _ r hring =>
        obtain ⟨r',hr',hclosed,hfifo⟩ := h.queue
        obtain rfl := Option.some.inj (hring.symm.trans hr')
        refine ⟨_,Or.inr .close,{ h with
          closedAt := by simp [Pool.close, h.closedAt, h.accepted]
          queue := ⟨_,ring_setQueue_self s.shared .ingest _,?_,hfifo⟩ }⟩
        cases hc : s.closedAt <;> simp [Pool.close, hc]

/-- Every reachable pool follows a sound abstract work pool. -/
theorem run_follows (h : PoolReachable W s) : ∃ a, Sound a ∧ Follows W s a := by
  obtain ⟨s₀,hfresh,hrun⟩ := h
  induction hrun with
  | refl => exact ⟨_,WorkPool.initial_sound,fresh_follows hfresh⟩
  | tail _ hstep ih =>
    obtain ⟨a,hsound,hfollows⟩ := ih
    obtain ⟨a',ha,hfollows'⟩ := step_simulates hfollows hstep
    rcases ha with rfl | ha
    · exact ⟨_,hsound,hfollows'⟩
    · exact ⟨a',WorkPool.step_sound hsound ha,hfollows'⟩

theorem forall₂_getElem? {α β : Type*} {R : α → β → Prop} {l : List α} {m : List β} (h : List.Forall₂ R l m)
    {k : ℕ} {b : β} (hk : m[k]? = some b) : ∃ a, l[k]? = some a ∧ R a b := by
  obtain ⟨hm,rfl⟩ := List.getElem?_eq_some_iff.mp hk
  have hl : k < l.length := h.length_eq ▸ hm
  exact ⟨l[k],List.getElem?_eq_getElem hl,h.get hl hm⟩

end Ledger

section ExactlyOnce
open WorkPool
variable {W : ℕ} {s : Pool} {a : WorkPool.State}

def Enriches (raw : Item) (pub : Publication) : Prop :=
  match raw.type with
  | .telemetry => pub.topic = topicTelemetry ∧ pub.item.type = .telemetry ∧ ∃ r ts,
      Item.content raw = some (.telemetryRaw r) ∧
      Item.content pub.item = some (.telemetryMsg ⟨pub.item.id,ts,r.batteryPct,r.rssiDbm⟩)
  | .alert => pub.topic = topicAlerts ∧ pub.item.type = .alert ∧ ∃ r ts,
      Item.content raw = some (.alertRaw r) ∧
      Item.content pub.item = some (.alertMsg ⟨pub.item.id,ts,r.code,r.antenna⟩)

theorem pubItem_id (raw : Item) (seq : UInt32) (ts : Int64) : (Worker.pubItem raw seq ts).id = seq := by
  unfold Worker.pubItem
  split <;> rfl

theorem pubItem_enriches {raw : Item} (hraw : RawItem raw) {pub : Publication} {seq : UInt32} {ts : Int64}
    (htopic : pub.topic = Worker.topicOf raw.type) (hitem : pub.item = Worker.pubItem raw seq ts) :
    Enriches raw pub := by
  unfold RawItem at hraw
  unfold Enriches
  rw [hitem, htopic]
  cases htype : raw.type with
  | telemetry =>
    simp only [htype] at hraw
    obtain ⟨r,hr⟩ := hraw
    have hread : asTelemetryRaw raw = r := by simp only [asTelemetryRaw, hr]
    refine ⟨rfl,?_,r,ts,hr,?_⟩ <;> simp [Worker.pubItem, htype, hread, Item.content]
  | alert =>
    simp only [htype] at hraw
    obtain ⟨r,hr⟩ := hraw
    have hread : asAlertRaw raw = r := by simp only [asAlertRaw, hr]
    refine ⟨rfl,?_,r,ts,hr,?_⟩ <;> simp [Worker.pubItem, htype, hread, Item.content]

/-- The `k`-th publish is for the `tickets[k]`-th accepted item, with the
`draws[k]`-th sequence number. -/
structure Correspondence (s : Pool) (tickets draws : List ℕ) : Prop where
  tickets_length : tickets.length = s.published.length
  draws_length : draws.length = s.published.length
  tickets_nodup : tickets.Nodup
  draws_nodup : draws.Nodup
  stems : ∀ (k : ℕ) (pub : Publication), s.published[k]? = some pub → ∃ (j d : ℕ) (raw : Item),
    tickets[k]? = some j ∧ draws[k]? = some d ∧ s.accepted[j]? = some raw ∧
    s.dequeued[j]? = some (pub.worker,raw) ∧ s.drawn[d]? = some (pub.worker,pub.item.id) ∧ Enriches raw pub

theorem Follows.accepted_of_dequeued (h : Follows W s a) {j w : ℕ} {raw : Item}
    (hj : s.dequeued[j]? = some (w,raw)) : s.accepted[j]? = some raw := by
  obtain ⟨r,_,_,hfifo⟩ := h.queue
  rw [hfifo]
  exact getElem?_grow (by simp [hj]) _

theorem Follows.correspondence (h : Follows W s a) (hsound : Sound a) :
    Correspondence s a.tickets a.numbers := by
  have hlength := h.published.length_eq
  refine ⟨by simp [State.tickets, hlength],by simp [State.numbers, hlength],hsound.tickets.log_nodup,
    hsound.numbers.log_nodup,fun k pub hk => ?_⟩
  obtain ⟨jd,hjd,raw,seq,ts,hj,hd,htopic,hitem⟩ := forall₂_getElem? h.published hk
  have hacc := h.accepted_of_dequeued hj
  refine ⟨jd.1,jd.2,raw,by simp [State.tickets, hjd],by simp [State.numbers, hjd],hacc,hj,?_,?_⟩
  · rw [hd, hitem, pubItem_id]
  · exact pubItem_enriches (h.raws raw (List.mem_of_getElem? hacc)) htopic hitem

theorem ofNat_ne {d d' : ℕ} (hne : d ≠ d') (h : d < d' + 2 ^ 32) (h' : d' < d + 2 ^ 32) :
    UInt32.ofNat (d + 1) ≠ UInt32.ofNat (d' + 1) := by
  intro heq
  have hmod := congrArg UInt32.toNat heq
  simp only [UInt32.toNat_ofNat'] at hmod
  omega

/-- With every worker at its return, no ticket is in hand. -/
theorem Follows.no_ticket (h : Follows W s a) (hdone : ∀ i < W, s.pcs i = .done) (i : ℕ) :
    (a.phase i).ticket = none := by
  have htrack := h.tracks i
  by_cases hi : i < W
  · rw [hdone i hi] at htrack
    cases hph : a.phase i <;> rw [hph] at htrack <;> first | rfl | exact htrack.elim
  · rw [h.idle i (by omega)] at htrack
    cases hph : a.phase i <;> rw [hph] at htrack <;> first | rfl | exact htrack.elim

/-- The pool processes exactly once. Dequeues hand out the accepted items in
order and once each, publishes are in one-to-one correspondence with dequeued
items and sequence draws, a worker delivers the item of each of its calls once to
each subscriber of the topic and nothing else, and when all workers have returned
after a shutdown no item accepted before it is left. -/
theorem workers_exactly_once (hW : 0 < W) (h : PoolReachable W s) :
    s.dequeued.map Prod.snd <+: s.accepted ∧
    (∀ (d : ℕ) v, s.drawn[d]? = some v → v.2 = UInt32.ofNat (d + 1)) ∧
    (∀ i, (s.published.filter (·.worker = i)).flatMap Publication.deliveries =
      s.delivered.filter (·.worker = i) ++ Worker.outstanding i (s.pcs i)) ∧
    ∃ tickets draws : List ℕ, Correspondence s tickets draws ∧
      (∀ (k k' : ℕ) (pub pub' : Publication) (d d' : ℕ), k ≠ k' →
        s.published[k]? = some pub → s.published[k']? = some pub' → draws[k]? = some d → draws[k']? = some d' →
        d < d' + 2 ^ 32 → d' < d + 2 ^ 32 → pub.item.id ≠ pub'.item.id) ∧
      (∀ m, s.closedAt = some m → (∀ i < W, s.pcs i = .done) → ∀ j < m, tickets.count j = 1) := by
  obtain ⟨a,hsound,hfollows⟩ := run_follows h
  have hcorr := hfollows.correspondence hsound
  obtain ⟨r,_,_,hfifo⟩ := hfollows.queue
  refine ⟨⟨r.contents,hfifo.symm⟩,hfollows.drawn,hfollows.balanced,a.tickets,a.numbers,hcorr,?_,?_⟩
  · intro k k' pub pub' d d' hne hk hk' hd hd' hlt hlt'
    obtain ⟨_,e,_,_,he,_,_,hdraw,_⟩ := hcorr.stems k pub hk
    obtain ⟨_,e',_,_,he',_,_,hdraw',_⟩ := hcorr.stems k' pub' hk'
    obtain rfl := Option.some.inj (he.symm.trans hd)
    obtain rfl := Option.some.inj (he'.symm.trans hd')
    have hdistinct : e ≠ e' := by
      rintro rfl
      obtain ⟨hlen,_⟩ := List.getElem?_eq_some_iff.mp hd
      exact hne ((List.getElem?_inj hlen hcorr.draws_nodup).mp (hd.trans hd'.symm))
    have hid := hfollows.drawn _ _ hdraw
    have hid' := hfollows.drawn _ _ hdraw'
    simp only at hid hid'
    rw [hid, hid']
    exact ofNat_ne hdistinct hlt hlt'
  · intro m hm hdone j hj
    have htrack := hfollows.tracks 0
    rw [hdone 0 hW] at htrack
    have hstopped : a.phase 0 = .stopped := by
      cases hph : a.phase 0 <;> rw [hph] at htrack <;> first | rfl | exact htrack.elim
    refine List.count_eq_one_of_mem hcorr.tickets_nodup ?_
    exact hsound.mem_tickets (hfollows.no_ticket hdone) hstopped (hfollows.closedAt.trans hm) hj

def Pool.run (s : Pool) : List PoolEvent → Option Pool
  | [] => some s
  | e :: rest => (s.exec e).bind fun s' => s'.run rest

theorem run_poolReachable {s' : Pool} {events : List PoolEvent} (h : PoolReachable W s)
    (hallowed : ∀ e ∈ events, e.Allowed W) (hrun : s.run events = some s') : PoolReachable W s' := by
  induction events generalizing s with
  | nil =>
    cases hrun
    exact h
  | cons e rest ih =>
    obtain ⟨m,hm,hrest⟩ := Option.bind_eq_some_iff.mp hrun
    obtain ⟨s₀,hfresh,hsteps⟩ := h
    have hstep := PoolStep.event e m (hallowed e List.mem_cons_self) hm
    exact ih ⟨s₀,hfresh,hsteps.tail hstep⟩ (fun x hx => hallowed x (List.mem_cons_of_mem e hx)) hrest

/-- The three queues of `main`, its two subscriptions, and no worker started. -/
def Pool.start : Pool :=
  let telemetry := (pubsubSubscribe .empty topicTelemetry .consumerTelemetry).2
  let registry := (pubsubSubscribe telemetry topicAlerts .consumerAlerts).2
  let shared := ((Shared.initial.setQueue .ingest (.live newQueue)).setQueue .consumerTelemetry (.live newQueue)).setQueue
    .consumerAlerts (.live newQueue)
  ⟨fun _ => .dequeue,{ shared with registry := registry },[],[],[],[],[],none⟩

theorem start_fresh : Pool.start.Fresh where
  pcs := rfl
  queue := ⟨newQueue,rfl,rfl,rfl⟩
  nextSeq := rfl
  registry := by
    rintro ⟨e,he,hmem⟩
    have hnone : Pool.start.shared.registry.topics.all (fun e => .ingest ∉ e.subscribers) = true := by decide +kernel
    exact absurd hmem (by simpa using List.all_eq_true.mp hnone e he)
  histories := ⟨rfl,rfl,rfl,rfl,rfl,rfl⟩

/-- Two workers overtake each other on a telemetry reading and an alert, and the
queue is shut down while both items are in their hands. -/
def overtaking : List PoolEvent :=
  let telemetry : Item := ⟨0,.telemetry,some ⟨.heap 0,.telemetryRaw ⟨100,-50⟩⟩,sizeofTelemetryRaw⟩
  let alert : Item := ⟨0,.alert,some ⟨.heap 1,.alertRaw ⟨.blank,3⟩⟩,sizeofAlertRaw⟩
  [.enqueue telemetry,.tryEnqueue alert,.worker 0 .ok,.worker 1 .ok,.worker 1 .ok,.worker 0 .ok,
    .worker 0 (.clock 7),.worker 1 (.clock 8),.worker 0 .ok,.worker 1 .ok,.shutdown] ++
  List.replicate 5 (.worker 1 .ok) ++ List.replicate 5 (.worker 0 .ok)

theorem overtaking_allowed : ∀ e ∈ overtaking, e.Allowed 2 := by
  simp [overtaking, PoolEvent.Allowed, RawItem, Item.content]

theorem workers_exactly_once_two : ∃ s, PoolReachable 2 s ∧ s.closedAt = some 2 ∧ (∀ i < 2, s.pcs i = .done) ∧
    s.published.map (fun pub => (pub.worker,pub.item.id)) = [(1,1),(0,2)] ∧
    s.delivered.map (fun d => (d.worker,d.queue,d.item.id)) = [(1,.consumerAlerts,1),(0,.consumerTelemetry,2)] ∧
    (∀ i < 2, (s.published.filter (·.worker = i)).flatMap Publication.deliveries = s.delivered.filter (·.worker = i)) ∧
    ∃ tickets draws, Correspondence s tickets draws ∧ ∀ j < 2, tickets.count j = 1 := by
  obtain ⟨s,hrun,hclosed,h0,h1,hpub,hdelivered⟩ : ∃ s, Pool.start.run overtaking = some s ∧ s.closedAt = some 2 ∧
      s.pcs 0 = .done ∧ s.pcs 1 = .done ∧
      s.published.map (fun pub => (pub.worker,pub.item.id)) = [(1,1),(0,2)] ∧
      s.delivered.map (fun d => (d.worker,d.queue,d.item.id)) = [(1,.consumerAlerts,1),(0,.consumerTelemetry,2)] :=
    ⟨_,rfl,rfl,rfl,rfl,rfl,rfl⟩
  have hreach : PoolReachable 2 s := run_poolReachable ⟨_,start_fresh,.refl⟩ overtaking_allowed hrun
  have hdone : ∀ i < 2, s.pcs i = .done := by
    intro i hi
    interval_cases i
    · exact h0
    · exact h1
  obtain ⟨_,_,hbalanced,tickets,draws,hcorr,_,hall⟩ := workers_exactly_once (by decide) hreach
  refine ⟨s,hreach,hclosed,hdone,hpub,hdelivered,fun i hi => ?_,tickets,draws,hcorr,hall 2 hclosed hdone⟩
  rw [hbalanced i, hdone i hi]
  exact List.append_nil _

end ExactlyOnce

end RadioSim.Process
