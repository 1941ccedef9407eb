import RadioSim.Process.Sites
import RadioSim.Pubsub.TopicMap

/-! # Lifetimes

A queue stays alive while the registry has a pointer to it, and a connection's
descriptor and `peer_alive` stay alive while its command listener runs.
-/
namespace RadioSim.Process
open Pubsub Queue

def Live (sh : Shared) (q : QueueId) : Prop := (sh.ring q).isSome = true

/-- The registry has the two topics of the program only, each queue under its own topic. -/
structure Housed (r : Registry QueueId) : Prop where
  valid : r.Valid
  names : ∀ name ∈ r.names, name = topicTelemetry ∨ name = topicAlerts
  home : ∀ topic q, q ∈ r.toMap.subscribers topic → q.topic = some topic

theorem topic_cases {q : QueueId} {topic : CString} (h : q.topic = some topic) :
    topic = topicTelemetry ∨ topic = topicAlerts := by
  cases q <;> cases h
  all_goals first | exact Or.inl rfl | exact Or.inr rfl

theorem topic_short {topic : CString} (h : topic = topicTelemetry ∨ topic = topicAlerts) :
    topic.strlen < topicNameMax := by
  rcases h with rfl | rfl <;> decide

section Effects
variable {t : Tid} {pc p : Pc t} {sh sh' : Shared} {op : Op (Pc t)} {q : QueueId} {n : ℕ}

theorem live_setQueue (h : Live sh q) (q' : QueueId) (r : RingQueue Item) :
    Live (sh.setQueue q' (.live r)) q := by
  unfold Live
  rw [ring_setQueue]
  split
  · rfl
  · exact h

/-- A queue dies by its destruction only. -/
theorem Effect.live (h : Effect t sh op p sh') (hlive : Live sh q) :
    Live sh' q ∨ ∃ next, op = .queueDestroy q next := by
  cases h with
  | queueDestroyed q' next r hr =>
    by_cases hq : q = q'
    · exact Or.inr ⟨_,by rw [hq]⟩
    · left
      unfold Live
      rwa [ring_setQueue_of_ne sh hq]
  | queueCreated | queueShutdown | enqueue | tryEnqueue | dequeue | tryDequeue | deliver =>
    exact Or.inl (live_setQueue hlive _ _)
  | _ => exact Or.inl hlive

theorem Effect.housed (h : Effect t sh op p sh') (hhoused : Housed sh.registry) (hop : op.Disciplined t pc) :
    Housed sh'.registry := by
  cases h with
  | subscribe topic q k hlock =>
    obtain ⟨_,htopic,_⟩ := hop
    refine ⟨(subscribe_refines hhoused.valid topic q).1,fun name hname => ?_,fun topic' q' hq => ?_⟩
    · have hmap := congrArg Prod.snd (subscribe_refines hhoused.valid topic q).2
      simp only at hmap
      rw [← mem_toMap_topics, hmap] at hname
      unfold TopicMap.subscribe at hname
      split at hname
      · exact hhoused.names name (mem_toMap_topics.mp hname)
      · rcases Finset.mem_insert.mp hname with rfl | hold
        · exact topic_cases htopic
        · exact hhoused.names name (mem_toMap_topics.mp hold)
    · rcases subscribe_mem hhoused.valid hq with hold | ⟨rfl,rfl,_⟩
      · exact hhoused.home topic' q' hold
      · exact htopic
  | unsubscribe topic q next hlock =>
    refine ⟨(unsubscribe_refines hhoused.valid topic q).1,fun name hname => ?_,fun topic' q' hq => ?_⟩
    · have hmap := congrArg Prod.snd (unsubscribe_refines hhoused.valid topic q).2
      simp only at hmap
      rw [← mem_toMap_topics, hmap] at hname
      unfold TopicMap.unsubscribe at hname
      split at hname <;> exact hhoused.names name (mem_toMap_topics.mp hname)
    · exact hhoused.home topic' q' (unsubscribe_mem hhoused.valid hq).1
  | publishBegin topic item k hlock l hl =>
    have hspec := findOrCreateTopic_spec hhoused.valid (topic_short hop.1)
    simp only [hl] at hspec
    obtain ⟨_,hptr⟩ := hspec
    have hmap := hptr.toMap_eq
    refine ⟨hptr.valid,fun name hname => ?_,fun topic' q' hq => ?_⟩
    · rw [← mem_toMap_topics, hmap] at hname
      rcases Finset.mem_insert.mp hname with rfl | hold
      · exact hop.1
      · exact hhoused.names name (mem_toMap_topics.mp hold)
    · simp only [hmap] at hq
      exact hhoused.home topic' q' hq
  | _ => exact hhoused

/-- A pointer enters the registry by a successful subscribe, and leaves it by the
unsubscribe of the queue. -/
theorem Effect.holds (h : Effect t sh op p sh') (hhoused : Housed sh.registry) (hop : op.Disciplined t pc)
    (hq : sh'.registry.Holds q) :
    (sh.registry.Holds q ∧ ∀ topic next, op ≠ .unsubscribe topic q next) ∨
      ∃ topic k, op = .subscribe topic q k ∧ p = k true := by
  have hhoused' := h.housed hhoused hop
  cases h with
  | subscribe topic q' k hlock =>
    obtain ⟨topic',hmem⟩ := (holds_iff hhoused'.valid).mp hq
    rcases subscribe_mem hhoused.valid hmem with hold | ⟨rfl,rfl,hret⟩
    · exact Or.inl ⟨(holds_iff hhoused.valid).mpr ⟨topic',hold⟩,fun _ _ h => by cases h⟩
    · exact Or.inr ⟨_,k,rfl,by simp [hret]⟩
  | unsubscribe topic q' next hlock =>
    obtain ⟨topic',hmem⟩ := (holds_iff hhoused'.valid).mp hq
    obtain ⟨hold,hnot⟩ := unsubscribe_mem hhoused.valid hmem
    refine Or.inl ⟨(holds_iff hhoused.valid).mpr ⟨topic',hold⟩,?_⟩
    rintro _ _ heq
    cases heq
    have hhome := hhoused.home topic' q hold
    rw [hop.2.1] at hhome
    exact hnot ⟨(Option.some.inj hhome).symm,rfl⟩
  | publishBegin topic item k hlock l hl =>
    exact Or.inl ⟨(findOrCreateTopic_holds hl).mp hq,fun _ _ h => by cases h⟩
  | _ => exact Or.inl ⟨hq,fun _ _ h => by cases h⟩

theorem Steady.changes (h : Steady t pc p) : ∃ created unsubscribed joined opened declared,
    Shift t pc p created unsubscribed joined opened declared ∧ (∀ q, created = some q → Live sh' q) ∧
    (∀ q, unsubscribed = some q → ∃ topic next, op = .unsubscribe topic q next) ∧
    (∀ n, joined = some n → sh'.status (.listener n) = .returned) ∧
    (∀ n, opened = some n → (sh'.conns n).fdOpen = true) ∧
    (∀ n, declared = some n → (sh'.conns n).peerInScope = true) :=
  ⟨none,none,none,none,none,h,nofun,nofun,nofun,nofun,nofun⟩

/-- What the step of a disciplined operation changes in the knowledge of its thread
is true afterwards. -/
theorem Effect.changes (h : Effect t sh op p sh') (hop : op.Disciplined t pc) :
    ∃ created unsubscribed joined opened declared,
    Shift t pc p created unsubscribed joined opened declared ∧ (∀ q, created = some q → Live sh' q) ∧
    (∀ q, unsubscribed = some q → ∃ topic next, op = .unsubscribe topic q next) ∧
    (∀ n, joined = some n → sh'.status (.listener n) = .returned) ∧
    (∀ n, opened = some n → (sh'.conns n).fdOpen = true) ∧
    (∀ n, declared = some n → (sh'.conns n).peerInScope = true) := by
  cases h with
  | queueCreated q k =>
    refine ⟨_,_,_,_,_,hop.2.1,fun q' hq => ?_,nofun,nofun,nofun,nofun⟩
    cases hq
    unfold Live
    rw [ring_setQueue_self]
    rfl
  | queueNotCreated q k => exact Steady.changes hop.2.2
  | queueDestroyed q next r hr => exact Steady.changes hop.2.2.2
  | subscribe topic q k hlock | subscribeFailed topic q k hlock => exact Steady.changes (hop.2.2.2.2 _)
  | unsubscribe topic q next hlock =>
    refine ⟨_,_,_,_,_,hop.2.2,nofun,fun q' hq => ?_,nofun,nofun,nofun⟩
    cases hq
    exact ⟨_,_,rfl⟩
  | publishNone topic item k hlock hl | publishBegin topic item k hlock l hl => exact Steady.changes (hop.2 _)
  | spawned child k | notSpawned child k => exact Steady.changes (hop.2 _)
  | joined child next hret =>
    refine ⟨_,_,_,_,_,hop,nofun,nofun,fun n hn => ?_,nofun,nofun⟩
    cases child <;> cases hn
    exact hret
  | accepted k =>
    refine ⟨_,_,_,_,_,hop.2.2.1 _,nofun,nofun,nofun,fun n hn => ?_,nofun⟩
    cases hn
    simp [Shared.setConn]
  | notAccepted k => exact Steady.changes hop.2.2.2
  | close n next => exact Steady.changes hop.2.2.2
  | peerDeclare n next =>
    refine ⟨_,_,_,_,_,hop.2,nofun,nofun,nofun,nofun,fun n' hn => ?_⟩
    cases hn
    simp [Shared.setConn]
  | peerEnd n next => exact Steady.changes hop.2.2.2
  | _ => first | exact Steady.changes hop | exact Steady.changes (hop _)

theorem Effect.fdOpen (h : Effect t sh op p sh') (hopen : (sh.conns n).fdOpen = true) :
    (sh'.conns n).fdOpen = true ∨ ∃ next, op = .close n next := by
  cases h with
  | close n' next =>
    by_cases hn : n = n'
    · exact Or.inr ⟨_,by rw [hn]⟩
    · exact Or.inl (by simpa [Shared.setConn, hn] using hopen)
  | accepted k =>
    left
    by_cases hn : n = sh.accepted
    · simp [Shared.setConn, hn]
    · simpa [Shared.setConn, hn] using hopen
  | readByte n' | wrote n' | peerDeclare n' | peerClear n' | peerEnd n' | noteApplied n' =>
    exact Or.inl ((field_setConn Conn.fdOpen n (by rfl)).trans hopen)
  | _ => exact Or.inl hopen

theorem Effect.peerInScope (h : Effect t sh op p sh') (hscope : (sh.conns n).peerInScope = true) :
    (sh'.conns n).peerInScope = true ∨ (∃ next, op = .peerEnd n next) ∨ ∃ k, op = .accept k := by
  cases h with
  | peerEnd n' next =>
    by_cases hn : n = n'
    · exact Or.inr (Or.inl ⟨_,by rw [hn]⟩)
    · exact Or.inl (by simpa [Shared.setConn, hn] using hscope)
  | accepted k => exact Or.inr (Or.inr ⟨_,rfl⟩)
  | peerDeclare n' =>
    left
    by_cases hn : n = n'
    · simp [Shared.setConn, hn]
    · simpa [Shared.setConn, hn] using hscope
  | readByte n' | wrote n' | peerClear n' | close n' | noteApplied n' =>
    exact Or.inl ((field_setConn Conn.peerInScope n (by rfl)).trans hscope)
  | _ => exact Or.inl hscope

/-- While a thread holds the registry mutex the registry does not change. -/
theorem Effect.locked (h : Effect t sh op p sh') {u : Tid} (hlock : sh.registryLock = some u) :
    (sh'.registryLock = some u ∧ sh'.registry = sh.registry) ∨ ∃ next, op = .publishEnd next := by
  cases h with
  | publishEnd next => exact Or.inr ⟨_,rfl⟩
  | subscribe _ _ _ hfree | subscribeFailed _ _ _ hfree | unsubscribe _ _ _ hfree | publishNone _ _ _ hfree
  | publishBegin _ _ _ hfree =>
    rw [hlock] at hfree
    cases hfree
  | _ => exact Or.inl ⟨hlock,rfl⟩

end Effects

section Knowledge
variable {t : Tid} {pc : Pc t} {q : QueueId} {n : ℕ} {tpc : Transport.Pc}

theorem owns_owner (h : Owns t pc q) : q.owner = t := by
  cases t <;> cases q <;> first | rfl | exact h.elim

theorem listening_opened (h : Listening .transport tpc n) : Opened .transport tpc n := by
  obtain ⟨c,hc,rfl,_⟩ := h
  exact Transport.connection_client hc

theorem scoped_opened (h : Scoped .transport tpc n) : Opened .transport tpc n := by
  obtain ⟨c,hc,rfl,_⟩ := h
  exact Transport.connection_client hc

theorem listening_scoped (h : Listening .transport tpc n) : Scoped .transport tpc n := by
  obtain ⟨c,hc,rfl,_,hs⟩ := h
  exact ⟨c,hc,rfl,by omega,by omega⟩

def remaining : (t : Tid) → Pc t → Option (List QueueId)
  | .worker _, .fanOut _ _ _ subscribers => some subscribers
  | _, _ => none

/-- Only a worker that has served all subscribers unlocks the registry. -/
theorem code_publishEnd {W : ℕ} {next : Pc t} (h : code W t pc = .publishEnd next) : remaining t pc = some [] := by
  have hsite := site_of_code h
  cases t with
  | worker i =>
    obtain ⟨raw,seq,ts,rfl⟩ := hsite
    rfl
  | _ => exact hsite.elim

theorem worker_remaining {sh sh' : Shared} {i : ℕ} {wpc wpc' : Worker.Pc} {subscribers : List QueueId}
    (h : Effect (.worker i) sh (Worker.code wpc) wpc' sh')
    (hbefore : ∀ subscribers, remaining (.worker i) wpc = some subscribers →
      sh.registryLock = some (.worker i) ∧ ∀ q ∈ subscribers, sh.registry.Holds q)
    (hafter : remaining (.worker i) wpc' = some subscribers) :
    sh'.registryLock = some (.worker i) ∧ ∀ q ∈ subscribers, sh'.registry.Holds q := by
  cases wpc with
  | publish raw seq ts =>
    cases h with
    | publishNone => cases hafter
    | publishBegin _ _ _ _ l hl =>
      cases hafter
      exact ⟨rfl,fun q hq => Located.holds_of_mem hq⟩
  | fanOut raw seq ts all =>
    cases all with
    | nil =>
      cases h with
      | publishEnd => cases hafter
    | cons q rest =>
      cases h with
      | deliver =>
        obtain ⟨hlock,hall⟩ := hbefore (q :: rest) rfl
        obtain rfl := Option.some.inj hafter
        exact ⟨hlock,fun q' hq => hall q' (List.mem_cons_of_mem q hq)⟩
  | _ =>
    have hnone : remaining (.worker i) wpc' = none := by
      apply h.all (I := fun p => remaining (.worker i) p = none)
      first | rfl | exact fun _ => rfl | (intro item; cases item <;> rfl)
    rw [hnone] at hafter
    cases hafter

end Knowledge

/-- The invariant: what the owners of queues and connections know is true, and
what is registered is alive. -/
structure Tidy (s : System) : Prop where
  housed : Housed s.shared.registry
  held : ∀ q, s.shared.registry.Holds q → Live s.shared q ∧ MayHold q.owner (s.pcs q.owner) q
  owned : ∀ t q, Owns t (s.pcs t) q → Live s.shared q
  listening : ∀ n, s.shared.status (.listener n) = .running → Listening .transport (s.pcs .transport) n
  opened : ∀ n, Opened .transport (s.pcs .transport) n → (s.shared.conns n).fdOpen = true
  peer : ∀ n, Scoped .transport (s.pcs .transport) n → (s.shared.conns n).peerInScope = true
  fanOut : ∀ t subscribers, remaining t (s.pcs t) = some subscribers →
    s.shared.registryLock = some t ∧ ∀ q ∈ subscribers, s.shared.registry.Holds q

section Steps
variable {W : ℕ} {s : System} {t : Tid} {p : Pc t} {sh : Shared}

theorem step_held (h : Tidy s) (heff : Effect t s.shared (s.op W t) p sh) (q : QueueId) (hq : sh.registry.Holds q) :
    Live sh q ∧ MayHold q.owner (Function.update s.pcs t p q.owner) q := by
  have hop := code_disciplined W t (s.pcs t)
  rcases heff.holds h.housed hop hq with ⟨hold,hnot⟩ | ⟨topic,k,hsub,rfl⟩
  · obtain ⟨hlive,hmay⟩ := h.held q hold
    have hlive' : Live sh q := by
      rcases heff.live hlive with hl | ⟨next,hdestroy⟩
      · exact hl
      · rw [show code W t (s.pcs t) = _ from hdestroy] at hop
        obtain ⟨howner,hnone,_⟩ := hop
        subst howner
        exact absurd hmay hnone
    refine ⟨hlive',?_⟩
    by_cases ht : q.owner = t
    · subst ht
      rw [Function.update_self]
      obtain ⟨_,_,_,_,_,hshift,_,hun,_⟩ := heff.changes hop
      rcases hshift.holds q hmay with hm | hu
      · exact hm
      · obtain ⟨topic,next,hop'⟩ := hun q hu
        exact absurd hop' (hnot topic next)
    · rwa [Function.update_of_ne ht]
  · rw [show code W t (s.pcs t) = _ from hsub] at hop
    obtain ⟨howner,_,howns,hmay,_⟩ := hop
    subst howner
    refine ⟨?_,by rwa [Function.update_self]⟩
    rcases heff.live (h.owned _ q howns) with hl | ⟨next,hdestroy⟩
    · exact hl
    · rw [hsub] at hdestroy
      cases hdestroy

theorem step_owned (h : Tidy s) (heff : Effect t s.shared (s.op W t) p sh) (u : Tid) (q : QueueId)
    (hq : Owns u (Function.update s.pcs t p u) q) : Live sh q := by
  have hop := code_disciplined W t (s.pcs t)
  by_cases hu : u = t
  · subst hu
    rw [Function.update_self] at hq
    obtain ⟨_,_,_,_,_,hshift,hcreated,_⟩ := heff.changes hop
    rcases hshift.owns q hq with hold | hnew
    · rcases heff.live (h.owned u q hold) with hl | ⟨next,hdestroy⟩
      · exact hl
      · rw [show code W u (s.pcs u) = _ from hdestroy] at hop
        rw [hdestroy] at heff
        cases heff with
        | queueDestroyed => exact absurd hq hop.2.2.1
    · exact hcreated q hnew
  · rw [Function.update_of_ne hu] at hq
    rcases heff.live (h.owned u q hq) with hl | ⟨next,hdestroy⟩
    · exact hl
    · rw [show code W t (s.pcs t) = _ from hdestroy] at hop
      exact absurd ((owns_owner hq).symm.trans hop.1) hu

theorem step_listening (h : Tidy s) (heff : Effect t s.shared (s.op W t) p sh) (n : ℕ)
    (hrunning : sh.status (.listener n) = .running) :
    Listening .transport (Function.update s.pcs t p .transport) n := by
  have hop := code_disciplined W t (s.pcs t)
  rcases heff.started hrunning with hold | ⟨k,hspawn,rfl⟩
  · have hlistening := h.listening n hold
    by_cases ht : .transport = t
    · subst ht
      rw [Function.update_self]
      obtain ⟨_,_,_,_,_,hshift,_,_,hjoined,_⟩ := heff.changes hop
      rcases hshift.listening n hlistening with hl | hj
      · exact hl
      · rw [hjoined n hj] at hrunning
        cases hrunning
    · rwa [Function.update_of_ne ht]
  · rw [show code W t (s.pcs t) = _ from hspawn] at hop
    obtain ⟨rfl,hl⟩ := hop.1 n rfl
    rwa [Function.update_self]

theorem step_opened (h : Tidy s) (heff : Effect t s.shared (s.op W t) p sh) (n : ℕ)
    (hopened : Opened .transport (Function.update s.pcs t p .transport) n) : (sh.conns n).fdOpen = true := by
  have hop := code_disciplined W t (s.pcs t)
  by_cases ht : .transport = t
  · subst ht
    rw [Function.update_self] at hopened
    obtain ⟨_,_,_,_,_,hshift,_,_,_,hnew,_⟩ := heff.changes hop
    rcases hshift.opens n hopened with hold | hfresh
    · rcases heff.fdOpen (h.opened n hold) with hfd | ⟨next,hclose⟩
      · exact hfd
      · rw [show code W .transport (s.pcs .transport) = _ from hclose] at hop
        rw [hclose] at heff
        cases heff with
        | close => exact absurd hopened hop.2.1
    · exact hnew n hfresh
  · rw [Function.update_of_ne ht] at hopened
    rcases heff.fdOpen (h.opened n hopened) with hfd | ⟨next,hclose⟩
    · exact hfd
    · rw [show code W t (s.pcs t) = _ from hclose] at hop
      exact absurd hop.1.symm ht

theorem step_peer (h : Tidy s) (heff : Effect t s.shared (s.op W t) p sh) (n : ℕ)
    (hscoped : Scoped .transport (Function.update s.pcs t p .transport) n) :
    (sh.conns n).peerInScope = true := by
  have hop := code_disciplined W t (s.pcs t)
  by_cases ht : .transport = t
  · subst ht
    rw [Function.update_self] at hscoped
    obtain ⟨_,_,_,_,_,hshift,_,_,_,_,hnew⟩ := heff.changes hop
    rcases hshift.peer n hscoped with hold | hfresh
    · rcases heff.peerInScope (h.peer n hold) with hscope | ⟨next,hend⟩ | ⟨k,haccept⟩
      · exact hscope
      · rw [show code W .transport (s.pcs .transport) = _ from hend] at hop
        rw [hend] at heff
        cases heff with
        | peerEnd => exact absurd hscoped hop.2.1
      · rw [show code W .transport (s.pcs .transport) = _ from haccept] at hop
        exact absurd (scoped_opened hold) (hop.2.1 n)
    · exact hnew n hfresh
  · rw [Function.update_of_ne ht] at hscoped
    rcases heff.peerInScope (h.peer n hscoped) with hscope | ⟨next,hend⟩ | ⟨k,haccept⟩
    · exact hscope
    · rw [show code W t (s.pcs t) = _ from hend] at hop
      exact absurd hop.1.symm ht
    · rw [show code W t (s.pcs t) = _ from haccept] at hop
      exact absurd hop.1.symm ht

theorem step_fanOut (h : Tidy s) (heff : Effect t s.shared (s.op W t) p sh) (u : Tid) (subscribers : List QueueId)
    (hu : remaining u (Function.update s.pcs t p u) = some subscribers) :
    sh.registryLock = some u ∧ ∀ q ∈ subscribers, sh.registry.Holds q := by
  by_cases ht : u = t
  · subst ht
    rw [Function.update_self] at hu
    cases u with
    | worker i => exact worker_remaining heff (h.fanOut (.worker i)) hu
    | _ => cases hu
  · rw [Function.update_of_ne ht] at hu
    obtain ⟨hlock,hall⟩ := h.fanOut u subscribers hu
    rcases heff.locked hlock with ⟨hlock',hsame⟩ | ⟨next,hend⟩
    · exact ⟨hlock',fun q hq => hsame ▸ hall q hq⟩
    · have hother := (h.fanOut t [] (code_publishEnd hend)).1
      rw [hlock] at hother
      exact absurd (Option.some.inj hother) ht

theorem step_tidy {s' : System} {c : Choice} (h : Tidy s) (hstep : step W s t c = some s') : Tidy s' := by
  obtain ⟨_,p,sh,hexec,rfl⟩ := step_inversion hstep
  have heff := exec_effect hexec
  exact ⟨heff.housed h.housed (code_disciplined W t (s.pcs t)),step_held h heff,step_owned h heff,
    step_listening h heff,step_opened h heff,step_peer h heff,step_fanOut h heff⟩

theorem initial_tidy : Tidy .initial := by
  have hempty : ∀ q, ¬ (Registry.empty : Registry QueueId).Holds q := by
    rintro q ⟨_,he,_⟩
    cases he
  refine ⟨⟨Registry.empty_valid,fun _ h => (by cases h),fun topic q h => ?_⟩,fun q hq => absurd hq (hempty q),
    fun t q h => ?_,fun n h => (by cases h),fun n h => (by cases h),fun n h => ?_,fun t _ h => ?_⟩
  · exact absurd ((holds_iff Registry.empty_valid).mpr ⟨topic,h⟩) (hempty q)
  · cases t <;> cases q <;> first | exact h.elim | simp [System.initial, entry, Owns, Main.stage, Main.halfCreated,
      Transport.client] at h
  · simp [System.initial, entry, Scoped, Transport.client] at h
  · cases t <;> cases h

theorem run_tidy (h : Reachable W s) : Tidy s :=
  h.invariant initial_tidy fun _ _ _ _ => step_tidy

end Steps

section Registry
variable {W : ℕ} {s : System} {n : ℕ}

/-- A registered queue of a connection is of the connection that is being served. -/
theorem Tidy.connection (h : Tidy s)
    (hq : s.shared.registry.Holds (.connTelemetry n) ∨ s.shared.registry.Holds (.connAlerts n)) :
    Transport.connection (s.pcs .transport) = some n ∧ 5 ≤ Transport.stage (s.pcs .transport) := by
  rcases hq with hq | hq
  · obtain ⟨c,hc,rfl,_,hs,_⟩ := (h.held _ hq).2
    exact ⟨Transport.connection_client hc,hs⟩
  · obtain ⟨c,hc,rfl,_,hs,_⟩ := (h.held _ hq).2
    exact ⟨Transport.connection_client hc,Nat.le_of_succ_le hs⟩

theorem Tidy.subscribers_card (h : Tidy s) (topic : CString) :
    (s.shared.registry.toMap.subscribers topic).card ≤ 2 := by
  have hvalid := h.housed.valid
  have hne : topicTelemetry ≠ topicAlerts := by decide
  by_cases htopic : topic = topicTelemetry
  · subst htopic
    have hsub : s.shared.registry.toMap.subscribers topicTelemetry ⊆
        {.consumerTelemetry,.connTelemetry ((Transport.connection (s.pcs .transport)).getD 0)} := by
      intro q hq
      have hhome := h.housed.home _ q hq
      have hheld := (holds_iff hvalid).mpr ⟨_,hq⟩
      cases q with
      | consumerTelemetry => simp
      | connTelemetry n => simp [(h.connection (Or.inl hheld)).1]
      | ingest => cases hhome
      | consumerAlerts | connAlerts n => exact absurd (Option.some.inj hhome).symm hne
    exact (Finset.card_le_card hsub).trans Finset.card_le_two
  · have hsub : s.shared.registry.toMap.subscribers topic ⊆
        {.consumerAlerts,.connAlerts ((Transport.connection (s.pcs .transport)).getD 0)} := by
      intro q hq
      have hhome := h.housed.home _ q hq
      have hheld := (holds_iff hvalid).mpr ⟨_,hq⟩
      cases q with
      | consumerAlerts => simp
      | connAlerts n => simp [(h.connection (Or.inr hheld)).1]
      | ingest => cases hhome
      | consumerTelemetry | connTelemetry n => exact absurd (Option.some.inj hhome).symm htopic
    exact (Finset.card_le_card hsub).trans Finset.card_le_two

theorem Tidy.topics_card (h : Tidy s) : s.shared.registry.toMap.topics.card ≤ 2 := by
  have hsub : s.shared.registry.toMap.topics ⊆ {topicTelemetry,topicAlerts} := by
    intro name hname
    simpa using h.housed.names name (mem_toMap_topics.mp hname)
  exact (Finset.card_le_card hsub).trans Finset.card_le_two

/-- There is always room for a subscription. -/
theorem Tidy.subscribe_succeeds (h : Tidy s) {q : QueueId} {topic : CString} (htopic : q.topic = some topic) :
    (pubsubSubscribe s.shared.registry topic q).1 = 0 := by
  have hret := congrArg Prod.fst (subscribe_refines h.housed.valid topic q).2
  simp only at hret
  rw [hret, TopicMap.subscribe, if_neg]
  rintro (hlong | ⟨_,hfull⟩ | ⟨_,hfull⟩)
  · exact absurd hlong (by simpa using topic_short (topic_cases htopic))
  · have hcard := h.topics_card
    rw [hfull] at hcard
    exact absurd hcard (by decide)
  · have hcard := h.subscribers_card topic
    rw [hfull] at hcard
    exact absurd hcard (by decide)

theorem Tidy.subscribers_le_two (h : Tidy s) {e : TopicEntry QueueId} (he : e ∈ s.shared.registry.topics) :
    e.subscribers.length ≤ 2 := by
  have hcard := h.subscribers_card e.topic
  rwa [toMap_subscribers_card h.housed.valid, subscribersOf_entry h.housed.valid he] at hcard

/-- In every reachable state of the process: what the registry points to is alive,
also for a publish that is under way; between connections no queue of a
connection is registered; a topic has two subscribers at most and there is room
for every subscribe; and while a command listener runs, its descriptor is open
and its `peer_alive` is in scope. -/
theorem queues_outlive_registration (h : Reachable W s) :
    (∀ q, s.shared.registry.Holds q → (s.shared.ring q).isSome = true) ∧
    (∀ i raw seq ts subscribers, s.pcs (.worker i) = Worker.Pc.fanOut raw seq ts subscribers →
      ∀ q ∈ subscribers, (s.shared.ring q).isSome = true) ∧
    (Transport.stage (s.pcs .transport) = 0 → ∀ n,
      ¬ s.shared.registry.Holds (.connTelemetry n) ∧ ¬ s.shared.registry.Holds (.connAlerts n)) ∧
    (∀ e ∈ s.shared.registry.topics, e.subscribers.length ≤ 2) ∧
    (∀ t topic q k, s.op W t = .subscribe topic q k → (pubsubSubscribe s.shared.registry topic q).1 = 0) ∧
    (∀ n, s.shared.status (.listener n) = .running →
      (s.shared.conns n).fdOpen = true ∧ (s.shared.conns n).peerInScope = true) ∧
    ∀ t n next, s.op W t = .close n next ∨ s.op W t = .peerEnd n next →
      s.shared.status (.listener n) ≠ .running := by
  have htidy := run_tidy h
  refine ⟨fun q hq => (htidy.held q hq).1,?_,?_,fun e he => htidy.subscribers_le_two he,?_,?_,?_⟩
  · intro i raw seq ts subscribers hpc q hq
    have hremaining : remaining (.worker i) (s.pcs (.worker i)) = some subscribers := by rw [hpc]; rfl
    exact (htidy.held q ((htidy.fanOut _ _ hremaining).2 q hq)).1
  · intro hidle n
    constructor
    · intro hq
      have hs := (htidy.connection (Or.inl hq)).2
      omega
    · intro hq
      have hs := (htidy.connection (Or.inr hq)).2
      omega
  · intro t topic q k hop
    have hdisciplined := code_disciplined W t (s.pcs t)
    rw [show code W t (s.pcs t) = _ from hop] at hdisciplined
    exact htidy.subscribe_succeeds hdisciplined.2.1
  · intro n hrunning
    have hlistening := htidy.listening n hrunning
    exact ⟨htidy.opened n (listening_opened hlistening),htidy.peer n (listening_scoped hlistening)⟩
  · intro t n next hop hrunning
    have hlistening := htidy.listening n hrunning
    have hdisciplined := code_disciplined W t (s.pcs t)
    rcases hop with hop | hop <;> rw [show code W t (s.pcs t) = _ from hop] at hdisciplined
    · obtain ⟨rfl,_,hnot,_⟩ := hdisciplined
      exact hnot hlistening
    · obtain ⟨rfl,_,hnot,_⟩ := hdisciplined
      exact hnot hlistening

/-- A client is served: both topics have two subscribers, and its listener runs. -/
theorem queues_outlive_registration_serving : ∃ s, Reachable Main.workerPoolDefaultSize s ∧
    s.shared.registry.Holds (.connTelemetry 0) ∧ (s.shared.ring (.connTelemetry 0)).isSome = true ∧
    s.shared.status (.listener 0) = .running ∧ (s.shared.conns 0).fdOpen = true := by
  obtain ⟨s,hrun,hregistry,hrunning⟩ : ∃ s,
      run Main.workerPoolDefaultSize .initial (startUp ++ connect) = some s ∧
      s.shared.registry.topics.map TopicEntry.subscribers =
        [[.consumerTelemetry,.connTelemetry 0],[.consumerAlerts,.connAlerts 0]] ∧
      s.shared.status (.listener 0) = .running := ⟨_,rfl,rfl,rfl⟩
  have hreach : Reachable Main.workerPoolDefaultSize s := run_reachable .refl hrun
  have hmem : [.consumerTelemetry,.connTelemetry 0] ∈ s.shared.registry.topics.map TopicEntry.subscribers := by
    rw [hregistry]
    exact List.mem_cons_self
  obtain ⟨e,he,hsubscribers⟩ := List.mem_map.mp hmem
  have hheld : s.shared.registry.Holds (.connTelemetry 0) := ⟨e,he,by simp [hsubscribers]⟩
  obtain ⟨hlive,_,_,_,_,hlistener,_⟩ := queues_outlive_registration hreach
  exact ⟨s,hreach,hheld,hlive _ hheld,hrunning,(hlistener 0 hrunning).1⟩

end Registry

end RadioSim.Process
