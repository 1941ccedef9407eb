import RadioSim.Process.Backpressure
import RadioSim.Process.Drain

/-! # What the threads can rely on

Facts that let a thread go on without waiting: the queues that `main` has shut down
stay closed, payloads that are looked at are not NULL, the registry mutex is held by a
worker in its fan-out only, and the queues of a connection that is served exist.
-/
namespace RadioSim.Process
open Pubsub Queue

section Closed
variable {P : Type} {t : Tid} {sh sh' : Shared} {op : Op P} {p : P} {q : QueueId}

theorem Effect.shut (h : Effect t sh op p sh') (hshuts : op.shuts = some q) : ClosedIn sh' q := by
  cases h with
  | queueShutdown q' next r hr =>
    cases hshuts
    exact ⟨_,ring_setQueue_self ..,rfl⟩
  | _ => cases hshuts

theorem closedIn_update {q' : QueueId} {r r' : RingQueue Item} (hr : sh.ring q' = some r)
    (hsame : r'.closed = r.closed) (hclosed : ClosedIn sh q) : ClosedIn (sh.setQueue q' (.live r')) q := by
  by_cases hq : q = q'
  · subst hq
    obtain ⟨_,hold,hc⟩ := hclosed
    cases hr.symm.trans hold
    exact ⟨r',ring_setQueue_self ..,hsame.trans hc⟩
  · obtain ⟨r₀,hold,hc⟩ := hclosed
    exact ⟨r₀,(ring_setQueue_of_ne sh hq _).trans hold,hc⟩

/-- A closed queue stays closed until it is destroyed or made again. -/
theorem Effect.stays_closed (h : Effect t sh op p sh') (hop : op.remakes ≠ some q) (hclosed : ClosedIn sh q) :
    ClosedIn sh' q := by
  cases h with
  | queueCreated q' k | queueDestroyed q' next r hr =>
    have hq : q ≠ q' := fun hq => hop (congrArg some hq.symm)
    obtain ⟨r₀,hold,hc⟩ := hclosed
    exact ⟨r₀,(ring_setQueue_of_ne sh hq _).trans hold,hc⟩
  | queueShutdown q' next r hr =>
    by_cases hq : q = q'
    · subst hq
      exact ⟨_,ring_setQueue_self ..,rfl⟩
    · obtain ⟨r₀,hold,hc⟩ := hclosed
      exact ⟨r₀,(ring_setQueue_of_ne sh hq _).trans hold,hc⟩
  | enqueue q' item k r hr _ | tryEnqueue q' item k r hr =>
    exact closedIn_update hr (r.tryEnqueue_closed item) hclosed
  | dequeue q' k r hr _ | tryDequeue q' k r hr => exact closedIn_update hr r.tryDequeue_closed hclosed
  | deliver q' item next r hr ok => exact closedIn_update hr (deliver_closed item ok r sh.heap) hclosed
  | _ => exact hclosed

/-- The queues that `main` has shut down and not destroyed; the consumer's is listed as
long as the consumer may run. -/
def Main.HasShut : Main.Pc → QueueId → Prop
  | .shutdownTelemetry _, .ingest | .shutdownAlerts _, .ingest | .joinProducer _, .ingest
  | .joinWorkers _ _, .ingest | .joinConsumer, .ingest | .unsubscribeTelemetry, .ingest
  | .unsubscribeAlerts, .ingest | .destroyTelemetry, .ingest | .destroyAlerts, .ingest | .joinTransport, .ingest
  | .destroyIngest, .ingest | .shutdownAlerts _, .consumerTelemetry | .joinProducer _, .consumerTelemetry
  | .joinWorkers _ _, .consumerTelemetry | .joinConsumer, .consumerTelemetry => True
  | _, _ => False

theorem Main.HasShut.owner {pc : Main.Pc} (h : Main.HasShut pc q) : q.owner = .main := by
  cases q with
  | connTelemetry n | connAlerts n => cases pc <;> exact h.elim
  | _ => rfl

theorem Main.Follows.hasShut {W : ℕ} {pc p : Main.Pc} (h : Main.Follows W pc p) (hp : Main.HasShut p q) :
    (Main.code W pc).shuts = some q ∨ (Main.HasShut pc q ∧ (Main.code W pc).remakes ≠ some q) := by
  cases h with
  | shutdownIngest | shutdownTelemetry | shutdownAlerts | joinProducer | joinConsumer | unsubscribeTelemetry
  | unsubscribeAlerts | destroyTelemetry | destroyAlerts | joinTransport =>
    cases q <;> first | exact hp.elim | exact Or.inl rfl | exact Or.inr ⟨trivial,by simp [Op.remakes, Main.code]⟩
  | joinWorkers started i | workersJoined started i =>
    have hremakes : (Main.code W (.joinWorkers started i)).remakes = none := by
      simp only [Main.code]
      split <;> rfl
    rw [hremakes]
    cases q <;> first | exact hp.elim | exact Or.inr ⟨trivial,by simp⟩
  | _ => cases q <;> exact hp.elim

end Closed

section Payloads
variable {sh sh' : Shared} {q : QueueId} {item : Item}

theorem Fits.addr (h : Fits q item) : item.addr ≠ none := by
  have hcontent : ∃ content, Item.content item = some content := by
    cases q with
    | ingest => rcases h with ⟨_,_,hc⟩ | ⟨_,_,hc,_⟩ <;> exact ⟨_,hc⟩
    | consumerTelemetry | connTelemetry n =>
      obtain ⟨_,hc⟩ := h
      exact ⟨_,hc⟩
    | consumerAlerts | connAlerts n =>
      obtain ⟨_,hc,_⟩ := h
      exact ⟨_,hc⟩
  obtain ⟨content,hcontent⟩ := hcontent
  unfold MsgItem.addr
  intro hnone
  rw [Option.map_eq_none_iff] at hnone
  simp [Item.content, hnone] at hcontent

/-- The payload that the consumer or a command listener is about to log is there. -/
def Laden : (t : Tid) → Pc t → Prop
  | .consumer, .logTelemetry item | .consumer, .logAlert item | .listener _, .logAlert item => item.addr ≠ none
  | _, _ => True

theorem consumer_laden {pc p : Consumer.Pc} (h : Effect .consumer sh (Consumer.code pc) p sh')
    (hstock : ∀ q, ∀ item ∈ sh.contents q, Fits q item) : Laden .consumer p := by
  have htaken : ∀ {q r item}, sh.ring q = some r → r.contents.head? = some item → item.addr ≠ none :=
    fun hr hhead => (hstock _ _ (contents_of_ring hr ▸ List.mem_of_mem_head? hhead)).addr
  cases pc with
  | dequeueTelemetry =>
    cases h with
    | dequeue _ _ r hr _ =>
      cases hhead : r.contents.head? with
      | none => exact trivial
      | some item => exact htaken hr hhead
  | tryAlert =>
    cases h with
    | tryDequeue _ _ r hr =>
      cases hhead : r.contents.head? with
      | none => exact trivial
      | some item => exact htaken hr hhead
  | _ =>
    apply h.all (I := Laden .consumer)
    exact trivial

theorem listener_laden {n : ℕ} {pc p : Command.Pc} (h : Effect (.listener n) sh (Command.code n pc) p sh')
    (hand : InHand (.listener n) pc) : Laden (.listener n) p := by
  cases h.listener_follows with
  | enqueued item => exact Fits.addr (q := .ingest) hand
  | _ => exact trivial

end Payloads

section Mutex
variable {W : ℕ} {t u : Tid} {sh sh' : Shared}

/-- The registry mutex is taken at the start of a publish. -/
theorem Effect.lock {P : Type} {op : Op P} {p : P} (h : Effect t sh op p sh') (hlock : sh'.registryLock = some u) :
    (sh.registryLock = some u ∧ ∀ next, op ≠ .publishEnd next) ∨
      (u = t ∧ ∃ topic item k subscribers, op = .publishBegin topic item k ∧ p = k (some subscribers)) := by
  cases h with
  | publishEnd next => cases hlock
  | publishBegin topic item k _ l hl =>
    cases hlock
    exact Or.inr ⟨rfl,topic,item,k,_,rfl,rfl⟩
  | _ => exact Or.inl ⟨hlock,nofun⟩

/-- Only workers publish, and they start the fan-out with all subscribers. -/
theorem code_publishBegin {pc : Pc t} {topic : CString} {item : Item} {k : Option (List QueueId) → Pc t}
    (h : code W t pc = .publishBegin topic item k) (subscribers : List QueueId) :
    remaining t (k (some subscribers)) = some subscribers := by
  have hsite := site_of_code h
  cases t with
  | worker i =>
    obtain ⟨raw,seq,ts,hnext⟩ := hsite subscribers
    rw [hnext]
    rfl
  | _ => exact hsite.elim

/-- The operation of a worker in its fan-out. -/
theorem code_remaining {pc : Pc t} {subscribers : List QueueId} (h : remaining t pc = some subscribers) :
    (subscribers = [] ∧ ∃ next, code W t pc = .publishEnd next) ∨
      ∃ q rest item next, subscribers = q :: rest ∧ code W t pc = .deliver q item next ∧
        remaining t next = some rest := by
  cases t with
  | worker i =>
    cases pc with
    | fanOut raw seq ts all =>
      cases h
      cases subscribers with
      | nil => exact Or.inl ⟨rfl,_,rfl⟩
      | cons q rest => exact Or.inr ⟨q,rest,_,_,rfl,rfl,rfl⟩
    | _ => cases h
  | _ => cases h

end Mutex

section Connections
variable {pc p : Transport.Pc} {n : ℕ}

def Transport.Equipped : Transport.Pc → Prop
  | .createAlerts c | .subscribeTelemetry c => c.subscribedTelemetry = false ∧ c.subscribedAlerts = false
  | .subscribeAlerts c => (c.subscribedTelemetry = true → c.telemetrySub = true) ∧ c.subscribedAlerts = false
  | pc => ∀ c, Transport.client pc = some c → Transport.stage pc ≤ 10 → c.telemetrySub = true ∧ c.alertsSub = true

theorem Transport.Follows.equipped (h : Transport.Follows pc p) (hpc : Transport.Equipped pc) :
    Transport.Equipped p := by
  cases h with
  | telemetryCreated m ok => exact ⟨rfl,rfl⟩
  | alertsCreated c ok => exact hpc
  | telemetrySubscribed c ok hsub => exact ⟨fun _ => hsub,hpc.2⟩
  | noTelemetry c => exact ⟨fun hsub => absurd (hpc.1.symm.trans hsub) Bool.false_ne_true,hpc.2⟩
  | subscribed c c' hc hboth =>
    rintro _ ⟨⟩ _
    rcases hc with rfl | ⟨halerts,ok,rfl⟩
    · exact absurd (hpc.2.symm.trans hboth.2) Bool.false_ne_true
    · exact ⟨hpc.1 hboth.1,halerts⟩
  | spawned c ok =>
    rintro _ ⟨⟩ _
    exact hpc c rfl (Nat.le_of_ble_eq_true rfl)
  | stopped | listens | pollFailed | polled | ready | notAccepted | accepted m | shakes m hs hs' | agreed m hs
  | refused m hs | alertsDestroyed c | closed m | done => exact nofun
  | ended c | telemetryUnsubscribed c | alertsUnsubscribed c | telemetryDestroyed c | notSubscribed c c' hc =>
    exact fun _ _ hstage => absurd hstage (by simp [Transport.stage])
  | _ => exact fun c hc _ => hpc c hc (Nat.le_of_ble_eq_true rfl)

def Transport.Started (pc : Transport.Pc) (n : ℕ) : Prop :=
  ∃ c, Transport.client pc = some c ∧ c.n = n ∧ c.started = true

theorem Transport.Follows.started (h : Transport.Follows pc p) (hp : Transport.Started p n) :
    Transport.Started pc n ∨ Starting .transport pc n := by
  obtain ⟨c',hc',rfl,hstarted⟩ := hp
  cases h with
  | telemetryCreated m ok =>
    cases hc'
    cases hstarted
  | alertsCreated c ok | telemetrySubscribed c ok hsub =>
    cases hc'
    exact Or.inl ⟨c,rfl,rfl,hstarted⟩
  | subscribed c c'' hc | notSubscribed c c'' hc =>
    cases hc'
    rcases hc with rfl | ⟨_,ok,rfl⟩ <;> exact Or.inl ⟨_,rfl,rfl,hstarted⟩
  | spawned c ok =>
    cases hc'
    exact Or.inr rfl
  | stopped | listens | pollFailed | polled | ready | notAccepted | accepted m | shakes m hs hs' | agreed m hs
  | refused m hs | alertsDestroyed c | closed m | done => cases hc'
  | _ => exact Or.inl ⟨c',hc',rfl,hstarted⟩

end Connections

structure Poised (s : System) : Prop where
  shut : ∀ q, Main.HasShut (s.pcs .main) q → ClosedIn s.shared q
  laden : ∀ t, Laden t (s.pcs t)
  locked : ∀ t, s.shared.registryLock = some t →
    s.shared.status t = .running ∧ ∃ subscribers, remaining t (s.pcs t) = some subscribers
  equipped : Transport.Equipped (s.pcs .transport)
  started : ∀ n, Transport.Started (s.pcs .transport) n → s.shared.status (.listener n) ≠ .unborn

section Steps
variable {W : ℕ} {s : System} {t : Tid} {p : Pc t} {sh : Shared}

theorem step_shut (h : Poised s) (heff : Effect t s.shared (s.op W t) p sh) (q : QueueId)
    (hq : Main.HasShut (Function.update s.pcs t p .main) q) : ClosedIn sh q := by
  by_cases ht : .main = t
  · subst ht
    rw [Function.update_self] at hq
    rcases (heff.all (Main.code_follows W (s.pcs .main))).hasShut hq with hshuts | ⟨hold,hkept⟩
    · exact heff.shut hshuts
    · exact heff.stays_closed hkept (h.shut q hold)
  · rw [Function.update_of_ne ht] at hq
    refine heff.stays_closed (fun hremakes => ht ?_) (h.shut q hq)
    have hop := code_disciplined W t (s.pcs t)
    rw [← hq.owner]
    change (code W t (s.pcs t)).remakes = some q at hremakes
    generalize code W t (s.pcs t) = op at hop hremakes
    cases op with
    | queueCreate q' k | queueDestroy q' next =>
      cases hremakes
      exact hop.1
    | _ => cases hremakes

theorem step_laden (hstocked : Stocked s) (h : Poised s) (heff : Effect t s.shared (s.op W t) p sh) (u : Tid) :
    Laden u (Function.update s.pcs t p u) := by
  by_cases hu : u = t
  · subst hu
    rw [Function.update_self]
    cases u with
    | consumer => exact consumer_laden heff hstocked.contents
    | listener n => exact listener_laden heff (hstocked.hands (.listener n))
    | _ => exact trivial
  · rw [Function.update_of_ne hu]
    exact h.laden u

theorem step_locked (h : Poised s) (hrunning : s.shared.status t = .running)
    (heff : Effect t s.shared (s.op W t) p sh) (u : Tid) (hlock : sh.registryLock = some u) :
    sh.status u = .running ∧ ∃ subscribers, remaining u (Function.update s.pcs t p u) = some subscribers := by
  have hnot : ∀ {u}, s.shared.status u = .running → (∀ next, u = t → s.op W t ≠ .ret next) →
      sh.status u = .running := by
    intro u hu hret
    cases hstatus : sh.status u with
    | running => rfl
    | unborn => exact absurd hstatus (heff.born (by simp [hu]))
    | returned =>
      rcases heff.returned hstatus with hold | ⟨heq,hop⟩
      · exact hold.symm.trans hu
      · exact absurd hop (hret p heq)
  rcases heff.lock hlock with ⟨hold,hkept⟩ | ⟨rfl,topic,item,k,subscribers,hop,rfl⟩
  · obtain ⟨hu,subscribers,hremaining⟩ := h.locked u hold
    by_cases ht : u = t
    · subst ht
      rw [Function.update_self]
      rcases code_remaining (W := W) hremaining with ⟨_,next,hop⟩ | ⟨q,rest,item,next,_,hop,hrest⟩
      · exact absurd hop (hkept next)
      · rw [show s.op W u = _ from hop] at hnot heff
        cases heff with
        | deliver => exact ⟨hnot hu fun _ _ => nofun,rest,hrest⟩
    · rw [Function.update_of_ne ht]
      exact ⟨hnot hu fun _ heq => absurd heq ht,subscribers,hremaining⟩
  · rw [Function.update_self]
    exact ⟨hnot hrunning fun _ _ => by rw [hop]; exact nofun,subscribers,code_publishBegin hop subscribers⟩

theorem step_started (h : Poised s) (heff : Effect t s.shared (s.op W t) p sh) (n : ℕ)
    (hn : Transport.Started (Function.update s.pcs t p .transport) n) : sh.status (.listener n) ≠ .unborn := by
  by_cases ht : .transport = t
  · subst ht
    rw [Function.update_self] at hn
    change Effect _ _ (Transport.code (s.pcs .transport)) _ _ at heff
    rcases heff.follows.started hn with hold | hstarting
    · exact heff.born (h.started n hold)
    · generalize s.pcs .transport = tpc at heff hstarting
      cases tpc with
      | spawnListener c =>
        cases hstarting
        cases heff with
        | spawned => simp [Shared.setStatus]
        | notSpawned =>
          obtain ⟨_,hc,_,hstarted⟩ := hn
          cases hc
          cases hstarted
      | _ => exact hstarting.elim
  · rw [Function.update_of_ne ht] at hn
    exact heff.born (h.started n hn)

theorem step_poised {s' : System} {c : Choice} (hstocked : Stocked s) (h : Poised s)
    (hstep : step W s t c = some s') : Poised s' := by
  obtain ⟨hrunning,p,sh,hexec,rfl⟩ := step_inversion hstep
  have heff := exec_effect hexec
  refine ⟨step_shut h heff,step_laden hstocked h heff,step_locked h hrunning.2 heff,?_,step_started h heff⟩
  by_cases ht : .transport = t
  · subst ht
    simp only [Function.update_self]
    exact (Effect.follows heff).equipped h.equipped
  · simp only [Function.update_of_ne ht]
    exact h.equipped

theorem initial_poised : Poised .initial := by
  refine ⟨fun q hq => ?_,fun t => ?_,nofun,nofun,fun n hn => ?_⟩
  · cases q <;> exact hq.elim
  · cases t <;> exact trivial
  · obtain ⟨_,hc,_⟩ := hn
    cases hc

theorem run_poised (h : Reachable W s) : Poised s := by
  induction h with
  | refl => exact initial_poised
  | tail hreach hstep ih =>
    obtain ⟨t,c,hstep⟩ := hstep
    exact step_poised (run_stocked hreach).2 ih hstep

end Steps

end RadioSim.Process
