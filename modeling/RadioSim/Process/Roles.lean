import RadioSim.Process.Effect
import RadioSim.Process.System

/-! # Who may do what

The operations that create, share or dispose of something (threads, queues,
subscriptions, descriptors) are the main thread's and the transport thread's.
-/
namespace RadioSim.Process
open Pubsub
variable {P : Type}

def Op.manages : Op P → Bool
  | .exit _ | .spawn _ _ | .join _ _ | .shutdownRequest _ | .queueCreate _ _ | .queueDestroy _ _
  | .queueShutdown _ _ | .subscribe _ _ _ | .unsubscribe _ _ _ | .accept _ | .close _ _
  | .peerDeclare _ _ | .peerEnd _ _ => true
  | _ => false

def Op.publishes : Op P → Option CString
  | .publishBegin topic _ _ => some topic
  | _ => none

theorem Producer.manages (pc : Producer.Pc) : (Producer.code pc).manages = false := by
  cases pc with
  | sleep counter totalMs sleptMs =>
    simp only [Producer.code]
    split <;> rfl
  | _ => rfl

theorem Worker.manages (pc : Worker.Pc) : (Worker.code pc).manages = false := by
  cases pc with
  | fanOut raw seq ts subscribers => cases subscribers <;> rfl
  | _ => rfl

theorem Consumer.manages (pc : Consumer.Pc) : (Consumer.code pc).manages = false := by
  cases pc <;> rfl

theorem Command.manages (n : ℕ) (pc : Command.Pc) : (Command.code n pc).manages = false := by
  cases pc with
  | poll buf =>
    simp only [Command.code]
    split <;> rfl
  | _ => rfl

theorem code_manages {W : ℕ} {t : Tid} {pc : Pc t} (h : (code W t pc).manages = true) :
    t = .main ∨ t = .transport := by
  cases t with
  | main => exact Or.inl rfl
  | transport => exact Or.inr rfl
  | producer => exact absurd h (by simp [code, Producer.manages])
  | worker i => exact absurd h (by simp [code, Worker.manages])
  | consumer => exact absurd h (by simp [code, Consumer.manages])
  | listener n => exact absurd h (by simp [code, Command.manages])

section Successors

/-- The program points of the transport thread, each with those it can continue at. -/
inductive Transport.Follows : Transport.Pc → Transport.Pc → Prop
  | stopped : Follows .loop .done
  | listens : Follows .loop .pollListen
  | pollFailed : Follows .pollListen .done
  | polled : Follows .pollListen .loop
  | ready : Follows .pollListen .accept
  | notAccepted : Follows .accept .loop
  | accepted (n : ℕ) : Follows .accept (.handshake n (Handshake.start Handshake.serverVersions))
  | shakes (n : ℕ) (h h' : Handshake.Pc) : Follows (.handshake n h) (.handshake n h')
  | agreed (n : ℕ) (h : Handshake.Pc) : Follows (.handshake n h) (.createTelemetry n)
  | refused (n : ℕ) (h : Handshake.Pc) : Follows (.handshake n h) (.close n)
  | telemetryCreated (n : ℕ) (ok : Bool) :
      Follows (.createTelemetry n) (.createAlerts ⟨n,ok,false,false,false,false⟩)
  | alertsCreated (c : Transport.Client) (ok : Bool) :
      Follows (.createAlerts c) (.subscribeTelemetry { c with alertsSub := ok })
  | telemetrySubscribed (c : Transport.Client) (ok : Bool) (h : c.telemetrySub = true) :
      Follows (.subscribeTelemetry c) (.subscribeAlerts { c with subscribedTelemetry := ok })
  | noTelemetry (c : Transport.Client) : Follows (.subscribeTelemetry c) (.subscribeAlerts c)
  | subscribed (c c' : Transport.Client)
      (h : c' = c ∨ (c.alertsSub = true ∧ ∃ ok, c' = { c with subscribedAlerts := ok }))
      (hboth : c'.subscribedTelemetry = true ∧ c'.subscribedAlerts = true) :
      Follows (.subscribeAlerts c) (.declarePeer c')
  | notSubscribed (c c' : Transport.Client)
      (h : c' = c ∨ (c.alertsSub = true ∧ ∃ ok, c' = { c with subscribedAlerts := ok })) :
      Follows (.subscribeAlerts c) (.unsubscribeTelemetry c')
  | declared (c : Transport.Client) : Follows (.declarePeer c) (.allocArgs c)
  | allocated (c : Transport.Client) : Follows (.allocArgs c) (.spawnListener c)
  | notAllocated (c : Transport.Client) : Follows (.allocArgs c) (.checkPeer c)
  | spawned (c : Transport.Client) (ok : Bool) : Follows (.spawnListener c) (.checkPeer { c with started := ok })
  | alive (c : Transport.Client) : Follows (.checkPeer c) (.checkStop c)
  | peerGone (c : Transport.Client) : Follows (.checkPeer c) (.clearPeer c)
  | serves (c : Transport.Client) : Follows (.checkStop c) (.tryTelemetry c)
  | stops (c : Transport.Client) : Follows (.checkStop c) (.clearPeer c)
  | telemetryTaken (c : Transport.Client) (item : Item) : Follows (.tryTelemetry c) (.formatTelemetry c item)
  | telemetryEmpty (c : Transport.Client) : Follows (.tryTelemetry c) (.tryAlerts c)
  | alertTaken (c : Transport.Client) (item : Item) : Follows (.tryAlerts c) (.formatAlert c item)
  | alertsEmpty (c : Transport.Client) : Follows (.tryAlerts c) (.sleep c)
  | slept (c : Transport.Client) : Follows (.sleep c) (.checkPeer c)
  | telemetryFits (c : Transport.Client) (item : Item) (line : Bytes) :
      Follows (.formatTelemetry c item) (.write c item line)
  | telemetryTooLong (c : Transport.Client) (item : Item) : Follows (.formatTelemetry c item) (.release c item true)
  | alertFits (c : Transport.Client) (item : Item) (line : Bytes) :
      Follows (.formatAlert c item) (.write c item line)
  | alertTooLong (c : Transport.Client) (item : Item) : Follows (.formatAlert c item) (.release c item true)
  | writes (c : Transport.Client) (item : Item) (rest rest' : Bytes) :
      Follows (.write c item rest) (.write c item rest')
  | written (c : Transport.Client) (item : Item) (rest : Bytes) (ok : Bool) :
      Follows (.write c item rest) (.release c item ok)
  | released (c : Transport.Client) (item : Item) : Follows (.release c item true) (.checkPeer c)
  | givenUp (c : Transport.Client) (item : Item) : Follows (.release c item false) (.clearPeer c)
  | cleared (c : Transport.Client) : Follows (.clearPeer c) (.joinListener c)
  | joined (c : Transport.Client) : Follows (.joinListener c) (.endPeer c)
  | ended (c : Transport.Client) : Follows (.endPeer c) (.unsubscribeTelemetry c)
  | telemetryUnsubscribed (c : Transport.Client) : Follows (.unsubscribeTelemetry c) (.unsubscribeAlerts c)
  | alertsUnsubscribed (c : Transport.Client) : Follows (.unsubscribeAlerts c) (.destroyTelemetry c)
  | telemetryDestroyed (c : Transport.Client) : Follows (.destroyTelemetry c) (.destroyAlerts c)
  | alertsDestroyed (c : Transport.Client) : Follows (.destroyAlerts c) (.close c.n)
  | closed (n : ℕ) : Follows (.close n) .loop
  | done : Follows .done .done

theorem Transport.code_follows (pc : Transport.Pc) : (Transport.code pc).All (Transport.Follows pc) := by
  cases pc with
  | loop | allocArgs c | checkPeer c | checkStop c | tryTelemetry c | tryAlerts c | accept | pollListen =>
    intro x
    cases x <;> constructor
  | handshake n h =>
    rcases Transport.handshake_op n h with ⟨next,hop,hnext⟩ | ⟨bytes,k,hop,hnext⟩ | ⟨k,hop,hnext⟩ <;> rw [hop]
    · rcases hnext with rfl | rfl | ⟨h',rfl⟩ <;> constructor
    · intro r
      obtain ⟨h',hr⟩ := hnext r
      rw [hr]
      constructor
    · intro r
      obtain ⟨h',hr⟩ := hnext r
      rw [hr]
      constructor
  | createTelemetry n | createAlerts c | spawnListener c => exact fun ok => by constructor
  | subscribeTelemetry c =>
    simp only [Transport.code]
    split
    · rename_i hsub
      exact fun ok => .telemetrySubscribed c ok hsub
    · exact .noTelemetry c
  | subscribeAlerts c =>
    have hafter : ∀ c', (c' = c ∨ (c.alertsSub = true ∧ ∃ ok, c' = { c with subscribedAlerts := ok })) →
        Transport.Follows (.subscribeAlerts c) (Transport.afterSubscribe c') := by
      intro c' hc
      unfold Transport.afterSubscribe
      split
      · rename_i hboth
        exact .subscribed c c' hc (by simpa using hboth)
      · exact .notSubscribed c c' hc
    simp only [Transport.code]
    split
    · rename_i hsub
      exact fun ok => hafter _ (Or.inr ⟨hsub,ok,rfl⟩)
    · exact hafter c (Or.inl rfl)
  | formatTelemetry c item | formatAlert c item =>
    change Transport.Follows _ (Transport.afterFormat _ _ _)
    unfold Transport.afterFormat
    split <;> constructor
  | write c item rest =>
    exact writeAll_all (fun _ => by constructor) (by constructor) (by constructor)
  | release c item ok => cases ok <;> constructor
  | joinListener c | unsubscribeTelemetry c | unsubscribeAlerts c | destroyTelemetry c | destroyAlerts c =>
    simp only [Transport.code]
    split <;> constructor
  | declarePeer c | sleep c | clearPeer c | endPeer c | close n | done => constructor

theorem Effect.follows {t : Tid} {sh sh' : Shared} {pc p : Transport.Pc}
    (h : Effect t sh (Transport.code pc) p sh') : Transport.Follows pc p :=
  h.all (Transport.code_follows pc)

inductive Command.Follows : Command.Pc → Command.Pc → Prop
  | leaves (buf : Bytes) : Follows (.poll buf) .clearPeer
  | interrupted (buf : Bytes) : Follows (.poll buf) (.poll buf)
  | timesOut (buf : Bytes) : Follows (.poll buf) (.timedOut buf)
  | ready (buf : Bytes) : Follows (.poll buf) (.read buf)
  | stops (buf : Bytes) : Follows (.timedOut buf) .clearPeer
  | goesOn (buf : Bytes) : Follows (.timedOut buf) (.checkPeer buf)
  | alive (buf : Bytes) : Follows (.checkPeer buf) (.poll buf)
  | peerGone (buf : Bytes) : Follows (.checkPeer buf) .clearPeer
  | byteRead (buf : Bytes) (b : Byte) (h : b ≠ 10) : Follows (.read buf) (.poll (buf ++ [b]))
  | lineRead (buf : Bytes) : Follows (.read buf) (.apply (.ofBuffer buf))
  | notRead (buf : Bytes) : Follows (.read buf) (.poll buf)
  | closed (buf : Bytes) : Follows (.read buf) .clearPeer
  | setsInterval (line : CString) (ms : UInt32) (h : Command.applyCommand line = .setInterval ms) :
      Follows (.apply line) (.setInterval ms)
  | triggers (line code : CString) (antenna : UInt32) (h : Command.applyCommand line = .triggerAlert code antenna) :
      Follows (.apply line) (.allocAlert code antenna)
  | rejects (line : CString) (h : Command.applyCommand line = .rejected) : Follows (.apply line) (.poll [])
  | intervalSet (ms : UInt32) : Follows (.setInterval ms) (.poll [])
  | notAllocated (code : CString) (antenna : UInt32) : Follows (.allocAlert code antenna) (.poll [])
  | allocated (code : CString) (antenna : UInt32) (a : Addr) :
      Follows (.allocAlert code antenna) (.enqueueAlert (Command.rawItem code antenna a))
  | enqueued (item : Item) : Follows (.enqueueAlert item) (.logAlert item)
  | notEnqueued (item : Item) : Follows (.enqueueAlert item) (.dropAlert item)
  | dropped (item : Item) : Follows (.dropAlert item) (.poll [])
  | logged (item : Item) : Follows (.logAlert item) (.poll [])
  | cleared : Follows .clearPeer .done
  | returned : Follows .done .done

theorem Command.code_follows (n : ℕ) (pc : Command.Pc) : (Command.code n pc).All (Command.Follows pc) := by
  cases pc with
  | poll buf =>
    simp only [Command.code]
    split
    · intro r
      cases r with
      | ready hangup => cases hangup <;> constructor
      | _ => constructor
    · exact .leaves buf
  | read buf =>
    intro r
    cases r with
    | byte b =>
      dsimp only
      split
      · exact .lineRead buf
      · rename_i hb
        exact .byteRead buf b hb
    | _ => constructor
  | apply line =>
    change Command.Follows (.apply line) (Command.afterApply line)
    unfold Command.afterApply
    split
    · rename_i ms h
      exact .setsInterval line ms h
    · rename_i code antenna h
      exact .triggers line code antenna h
    · rename_i h
      exact .rejects line h
  | timedOut buf | checkPeer buf | allocAlert code antenna | enqueueAlert item =>
    intro x
    cases x <;> constructor
  | setInterval ms | dropAlert item | logAlert item | clearPeer | done => constructor

theorem Effect.listener_follows {t : Tid} {sh sh' : Shared} {n : ℕ} {pc p : Command.Pc}
    (h : Effect t sh (Command.code n pc) p sh') : Command.Follows pc p :=
  h.all (Command.code_follows n pc)

end Successors

section Queues

def QueueId.topic : QueueId → Option CString
  | .ingest => none
  | .consumerTelemetry | .connTelemetry _ => some topicTelemetry
  | .consumerAlerts | .connAlerts _ => some topicAlerts

/-- The thread that creates, subscribes, unsubscribes and destroys a queue. -/
def QueueId.owner : QueueId → Tid
  | .ingest | .consumerTelemetry | .consumerAlerts => .main
  | .connTelemetry _ | .connAlerts _ => .transport

/-- How far `main` is with the queues of the consumer; 10 is a failed start. -/
def Main.stage : Main.Pc → ℕ
  | .createAlerts _ _ => 1
  | .subscribeTelemetry _ => 2
  | .subscribeAlerts _ => 3
  | .spawnProducer _ | .spawnConsumer _ | .sigwait _ | .requestShutdown _ | .shutdownIngest _
  | .shutdownTelemetry _ | .shutdownAlerts _ | .joinProducer _ | .joinWorkers _ _ | .joinConsumer => 4
  | .unsubscribeTelemetry => 5
  | .unsubscribeAlerts => 6
  | .destroyTelemetry => 7
  | .destroyAlerts => 8
  | .joinTransport | .destroyIngest | .finish => 9
  | .failed | .exited => 10
  | _ => 0

inductive Main.Follows (W : ℕ) : Main.Pc → Main.Pc → Prop
  | sigmask : Follows W .sigmask .pubsubCreate
  | pubsubCreate (context : Bool) : Follows W .pubsubCreate (.createIngest context)
  | createIngest (context ingest : Bool) : Follows W (.createIngest context) (.createControl context ingest)
  | createControl (context ingest : Bool) : Follows W (.createControl context ingest) (.initControl context ingest)
  | noControl (context ingest : Bool) : Follows W (.createControl context ingest) (.poolCreate context ingest false)
  | initControl (context ingest : Bool) : Follows W (.initControl context ingest) (.poolCreate context ingest true)
  | poolCreate (control : Bool) : Follows W (.poolCreate true true control) (.poolThreads control)
  | poolThreads (control : Bool) : Follows W (.poolThreads control) (.workerArgs control 0)
  | workerArgs (control : Bool) (i : ℕ) (h : i < W) : Follows W (.workerArgs control i) (.workerSpawn control i)
  | poolStarted (control : Bool) (i : ℕ) : Follows W (.workerArgs control i) (.poolDone control i)
  | workerSpawn (control : Bool) (i : ℕ) : Follows W (.workerSpawn control i) (.workerArgs control (i + 1))
  | workerNotSpawned (control : Bool) (i : ℕ) : Follows W (.workerSpawn control i) (.poolDone control i)
  | poolDone (started : ℕ) : Follows W (.poolDone true started) (.transportSocket started)
  | transportSocket (started : ℕ) : Follows W (.transportSocket started) (.transportSpawn started)
  | transportSpawn (started : ℕ) : Follows W (.transportSpawn started) (.createTelemetry started)
  | createTelemetry (started : ℕ) (ok : Bool) : Follows W (.createTelemetry started) (.createAlerts started ok)
  | createAlerts (started : ℕ) (telemetry : Bool) :
      Follows W (.createAlerts started telemetry) (.subscribeTelemetry started)
  | subscribeTelemetry (started : ℕ) : Follows W (.subscribeTelemetry started) (.subscribeAlerts started)
  | subscribeAlerts (started : ℕ) : Follows W (.subscribeAlerts started) (.spawnProducer started)
  | spawnProducer (started : ℕ) : Follows W (.spawnProducer started) (.spawnConsumer started)
  | spawnConsumer (started : ℕ) : Follows W (.spawnConsumer started) (.sigwait started)
  | fails (pc : Main.Pc) (h : Main.stage pc ≤ 4) : Follows W pc .failed
  | sigwait (started : ℕ) : Follows W (.sigwait started) (.requestShutdown started)
  | requestShutdown (started : ℕ) : Follows W (.requestShutdown started) (.shutdownIngest started)
  | shutdownIngest (started : ℕ) : Follows W (.shutdownIngest started) (.shutdownTelemetry started)
  | shutdownTelemetry (started : ℕ) : Follows W (.shutdownTelemetry started) (.shutdownAlerts started)
  | shutdownAlerts (started : ℕ) : Follows W (.shutdownAlerts started) (.joinProducer started)
  | joinProducer (started : ℕ) : Follows W (.joinProducer started) (.joinWorkers started 0)
  | joinWorkers (started i : ℕ) : Follows W (.joinWorkers started i) (.joinWorkers started (i + 1))
  | workersJoined (started i : ℕ) : Follows W (.joinWorkers started i) .joinConsumer
  | joinConsumer : Follows W .joinConsumer .unsubscribeTelemetry
  | unsubscribeTelemetry : Follows W .unsubscribeTelemetry .unsubscribeAlerts
  | unsubscribeAlerts : Follows W .unsubscribeAlerts .destroyTelemetry
  | destroyTelemetry : Follows W .destroyTelemetry .destroyAlerts
  | destroyAlerts : Follows W .destroyAlerts .joinTransport
  | joinTransport : Follows W .joinTransport .destroyIngest
  | destroyIngest : Follows W .destroyIngest .finish
  | exits (pc : Main.Pc) : Follows W pc .exited

theorem Main.code_follows (W : ℕ) (pc : Main.Pc) : (Main.code W pc).All (Main.Follows W pc) := by
  have hfails : ∀ {pc}, Main.stage pc ≤ 4 → Main.Follows W pc .failed := fun h => .fails _ h
  cases pc with
  | sigmask | poolThreads control | transportSocket started | transportSpawn started | subscribeTelemetry started
  | subscribeAlerts started | spawnProducer started | spawnConsumer started =>
    intro ok
    cases ok
    · exact hfails (Nat.le_of_ble_eq_true rfl)
    · constructor
  | pubsubCreate | createIngest context | createTelemetry started => exact fun ok => by constructor
  | createControl context ingest | workerSpawn control i =>
    intro ok
    cases ok <;> constructor
  | poolCreate context ingest control =>
    simp only [Main.code]
    split
    · rename_i hboth
      obtain ⟨rfl,rfl⟩ := (Bool.and_eq_true ..).mp hboth
      intro ok
      cases ok
      · exact hfails (Nat.le_of_ble_eq_true rfl)
      · exact .poolCreate control
    · exact hfails (Nat.le_of_ble_eq_true rfl)
  | workerArgs control i =>
    simp only [Main.code]
    split
    · rename_i hi
      intro ok
      cases ok
      · exact .poolStarted control i
      · exact .workerArgs control i hi
    · exact .poolStarted control i
  | poolDone control started =>
    simp only [Main.code, Op.All]
    split
    · exact hfails (Nat.le_of_ble_eq_true rfl)
    · split
      · rename_i hcontrol
        rw [hcontrol]
        exact .poolDone started
      · exact hfails (Nat.le_of_ble_eq_true rfl)
  | createAlerts started telemetry =>
    intro ok
    cases telemetry <;> cases ok <;>
      first | exact .createAlerts started _ | exact hfails (Nat.le_of_ble_eq_true rfl)
  | joinWorkers started i =>
    simp only [Main.code]
    split <;> constructor
  | _ => constructor

def Main.halfCreated : Main.Pc → Bool
  | .createAlerts _ telemetry => telemetry
  | _ => false

/-- How far the transport thread is with a connection; 9 is the time in which the
command listener may run. -/
def Transport.stage : Transport.Pc → ℕ
  | .loop | .pollListen | .accept | .done => 0
  | .handshake _ _ => 1
  | .createTelemetry _ => 2
  | .createAlerts _ => 3
  | .subscribeTelemetry _ => 4
  | .subscribeAlerts _ => 5
  | .declarePeer _ => 6
  | .allocArgs _ => 7
  | .spawnListener _ => 8
  | .checkPeer _ | .checkStop _ | .tryTelemetry _ | .tryAlerts _ | .sleep _ | .formatTelemetry _ _
  | .formatAlert _ _ | .write _ _ _ | .release _ _ _ | .clearPeer _ | .joinListener _ => 9
  | .endPeer _ => 10
  | .unsubscribeTelemetry _ => 11
  | .unsubscribeAlerts _ => 12
  | .destroyTelemetry _ => 13
  | .destroyAlerts _ => 14
  | .close _ => 15

def Transport.client : Transport.Pc → Option Transport.Client
  | .createAlerts c | .subscribeTelemetry c | .subscribeAlerts c | .declarePeer c | .allocArgs c
  | .spawnListener c | .checkPeer c | .checkStop c | .tryTelemetry c | .tryAlerts c | .sleep c
  | .formatTelemetry c _ | .formatAlert c _ | .write c _ _ | .release c _ _ | .clearPeer c | .joinListener c
  | .endPeer c | .unsubscribeTelemetry c | .unsubscribeAlerts c | .destroyTelemetry c | .destroyAlerts c => some c
  | _ => none

def Transport.connection : Transport.Pc → Option ℕ
  | .handshake n _ | .createTelemetry n | .close n => some n
  | pc => (Transport.client pc).map Transport.Client.n

/-- A queue that its owner has created and not destroyed. -/
def Owns : (t : Tid) → Pc t → QueueId → Prop
  | .main, pc, .consumerTelemetry =>
    Main.halfCreated pc = true ∨ (2 ≤ Main.stage pc ∧ Main.stage pc ≤ 7)
  | .main, pc, .consumerAlerts => 2 ≤ Main.stage pc ∧ Main.stage pc ≤ 8
  | .transport, pc, .connTelemetry n =>
    ∃ c, Transport.client pc = some c ∧ c.n = n ∧ c.telemetrySub = true ∧ Transport.stage pc ≤ 13
  | .transport, pc, .connAlerts n =>
    ∃ c, Transport.client pc = some c ∧ c.n = n ∧ c.alertsSub = true ∧ 4 ≤ Transport.stage pc
  | _, _, _ => False

/-- A queue that may be in the registry, as far as its owner knows. -/
def MayHold : (t : Tid) → Pc t → QueueId → Prop
  | .main, pc, .consumerTelemetry => (3 ≤ Main.stage pc ∧ Main.stage pc ≤ 5) ∨ Main.stage pc = 10
  | .main, pc, .consumerAlerts => (4 ≤ Main.stage pc ∧ Main.stage pc ≤ 6) ∨ Main.stage pc = 10
  | .transport, pc, .connTelemetry n => ∃ c, Transport.client pc = some c ∧ c.n = n ∧
      c.subscribedTelemetry = true ∧ 5 ≤ Transport.stage pc ∧ Transport.stage pc ≤ 11
  | .transport, pc, .connAlerts n => ∃ c, Transport.client pc = some c ∧ c.n = n ∧
      c.subscribedAlerts = true ∧ 6 ≤ Transport.stage pc ∧ Transport.stage pc ≤ 12
  | _, _, _ => False

def Listening : (t : Tid) → Pc t → ℕ → Prop
  | .transport, pc, n => ∃ c, Transport.client pc = some c ∧ c.n = n ∧ c.started = true ∧ Transport.stage pc = 9
  | _, _, _ => False

def Opened : (t : Tid) → Pc t → ℕ → Prop
  | .transport, pc, n => Transport.connection pc = some n
  | _, _, _ => False

def Scoped : (t : Tid) → Pc t → ℕ → Prop
  | .transport, pc, n => ∃ c, Transport.client pc = some c ∧ c.n = n ∧
      7 ≤ Transport.stage pc ∧ Transport.stage pc ≤ 10
  | _, _, _ => False

/-- How a thread may get from one program point to the next, up to what the
operation between them creates, unsubscribes, joins, opens or declares. -/
structure Shift (t : Tid) (pc p : Pc t) (created unsubscribed : Option QueueId)
    (joined opened declared : Option ℕ) : Prop where
  owns : ∀ q, Owns t p q → Owns t pc q ∨ created = some q
  holds : ∀ q, MayHold t pc q → MayHold t p q ∨ unsubscribed = some q
  listening : ∀ n, Listening t pc n → Listening t p n ∨ joined = some n
  opens : ∀ n, Opened t p n → Opened t pc n ∨ opened = some n
  peer : ∀ n, Scoped t p n → Scoped t pc n ∨ declared = some n

def Steady (t : Tid) (pc p : Pc t) : Prop := Shift t pc p none none none none none

def Tid.listens : Tid → Option ℕ
  | .listener n => some n
  | _ => none

/-- The rules of the threads: an owner destroys a queue only when it cannot be in
the registry, subscribes what it has created, and closes a descriptor or leaves
the scope of `peer_alive` only when no listener can be running. -/
def Op.Disciplined (t : Tid) (pc : Pc t) : Op (Pc t) → Prop
  | .queueCreate q k => q.owner = t ∧ Shift t pc (k true) (some q) none none none none ∧ Steady t pc (k false)
  | .queueDestroy q next => q.owner = t ∧ ¬ MayHold t pc q ∧ ¬ Owns t next q ∧ Steady t pc next
  | .subscribe topic q k => q.owner = t ∧ q.topic = some topic ∧ Owns t pc q ∧ MayHold t (k true) q ∧
      ∀ b, Steady t pc (k b)
  | .unsubscribe topic q next => q.owner = t ∧ q.topic = some topic ∧ Shift t pc next none (some q) none none none
  | .publishBegin topic _ k => (topic = topicTelemetry ∨ topic = topicAlerts) ∧
      ∀ subscribers, Steady t pc (k subscribers)
  | .spawn child k => (∀ n, child.listens = some n → t = .transport ∧ Listening t (k true) n) ∧
      ∀ b, Steady t pc (k b)
  | .join child next => Shift t pc next none none child.listens none none
  | .accept k => t = .transport ∧ (∀ n, ¬ Opened t pc n) ∧
      (∀ n, Shift t pc (k (some n)) none none none (some n) none) ∧ Steady t pc (k none)
  | .close n next => t = .transport ∧ ¬ Opened t next n ∧ ¬ Listening t pc n ∧ Steady t pc next
  | .peerDeclare n next => t = .transport ∧ Shift t pc next none none none none (some n)
  | .peerEnd n next => t = .transport ∧ ¬ Scoped t next n ∧ ¬ Listening t pc n ∧ Steady t pc next
  | op => op.All (Steady t pc)

/-- A step of `main` from stage `i` to stage `j`. -/
theorem Main.shift {pc p : Main.Pc} {created unsubscribed : Option QueueId} {joined : Option ℕ} (i j : ℕ)
    (hi : Main.stage pc = i) (hj : Main.stage p = j)
    (htelemetry : Main.halfCreated p = true ∨ (2 ≤ j ∧ j ≤ 7) →
      (Main.halfCreated pc = true ∨ (2 ≤ i ∧ i ≤ 7)) ∨ created = some .consumerTelemetry)
    (halerts : 2 ≤ j ∧ j ≤ 8 → (2 ≤ i ∧ i ≤ 8) ∨ created = some .consumerAlerts)
    (hheldTelemetry : (3 ≤ i ∧ i ≤ 5) ∨ i = 10 →
      ((3 ≤ j ∧ j ≤ 5) ∨ j = 10) ∨ unsubscribed = some .consumerTelemetry)
    (hheldAlerts : (4 ≤ i ∧ i ≤ 6) ∨ i = 10 →
      ((4 ≤ j ∧ j ≤ 6) ∨ j = 10) ∨ unsubscribed = some .consumerAlerts) :
    Shift .main pc p created unsubscribed joined none none := by
  subst hi hj
  refine ⟨fun q h => ?_,fun q h => ?_,fun _ h => h.elim,fun _ h => h.elim,fun _ h => h.elim⟩
  · cases q with
    | consumerTelemetry => exact htelemetry h
    | consumerAlerts => exact halerts h
    | _ => exact h.elim
  · cases q with
    | consumerTelemetry => exact hheldTelemetry h
    | consumerAlerts => exact hheldAlerts h
    | _ => exact h.elim

/-- A step that gains no queue and forgets no subscription. -/
theorem Main.steady {pc p : Main.Pc} (i j : ℕ) (hi : Main.stage pc = i) (hj : Main.stage p = j)
    (hcreated : Main.halfCreated p = false) (howns : 2 ≤ j → j ≤ 8 → 2 ≤ i ∧ i ≤ j)
    (hholds : 3 ≤ i → i ≤ 6 → j = i ∨ (i = 4 ∧ j = 5) ∨ j = 10 ∨ (i = 3 ∧ j = 4))
    (hfail : i = 10 → j = 10) (joined : Option ℕ) : Shift .main pc p none none joined none none := by
  refine Main.shift i j hi hj (fun h => Or.inl (Or.inr ?_)) (fun h => Or.inl ?_) (fun h => Or.inl ?_)
    (fun h => Or.inl ?_)
  · rw [hcreated] at h
    have hj : 2 ≤ j ∧ j ≤ 7 := h.resolve_left Bool.false_ne_true
    omega
  · omega
  · omega
  · omega

theorem Main.disciplined (W : ℕ) (pc : Main.Pc) : (Main.code W pc).Disciplined .main pc := by
  have hstep : ∀ {p : Main.Pc}, Main.halfCreated p = false → Main.stage p = Main.stage pc → ∀ joined,
      Shift .main pc p none none joined none none := fun hc hs joined =>
    Main.steady _ _ rfl hs hc (by omega) (by omega) (by omega) joined
  have hfail : Steady .main pc .failed :=
    Main.steady _ 10 rfl rfl (by rfl) (by omega) (by omega) (by omega) none
  cases pc with
  | sigmask | poolThreads control | transportSocket started =>
    intro b
    cases b
    · exact hfail
    · exact hstep (by rfl) (by rfl) none
  | pubsubCreate => exact fun b => hstep (by rfl) (by rfl) none
  | createIngest context =>
    exact ⟨rfl,Main.shift 0 0 (by rfl) (by rfl) Or.inl Or.inl Or.inl Or.inl,hstep (by rfl) (by rfl) none⟩
  | createControl context ingest =>
    intro b
    cases b <;> exact hstep (by rfl) (by rfl) none
  | initControl context ingest => exact hstep (by rfl) (by rfl) none
  | poolCreate context ingest control =>
    simp only [Main.code]
    split
    · intro b
      cases b
      · exact hfail
      · exact hstep (by rfl) (by rfl) none
    · exact hfail
  | workerArgs control i =>
    simp only [Main.code]
    split
    · intro b
      cases b <;> exact hstep (by rfl) (by rfl) none
    · exact hstep (by rfl) (by rfl) none
  | workerSpawn control i =>
    refine ⟨fun n h => (by cases h),fun b => ?_⟩
    cases b <;> exact hstep (by rfl) (by rfl) none
  | poolDone control started =>
    change Steady .main _ _
    split
    · exact hfail
    · split
      · exact hstep (by rfl) (by rfl) none
      · exact hfail
  | transportSpawn started =>
    refine ⟨fun n h => (by cases h),fun b => ?_⟩
    cases b
    · exact hfail
    · exact hstep (by rfl) (by rfl) none
  | createTelemetry started =>
    refine ⟨rfl,?_,?_⟩
    · exact Main.shift 0 1 (by rfl) (by rfl) (fun _ => Or.inr rfl) (by omega) (by omega) (by omega)
    · exact Main.steady 0 1 (by rfl) (by rfl) (by rfl) (by omega) (by omega) (by omega) none
  | createAlerts started telemetry =>
    cases telemetry
    · refine ⟨rfl,?_,hfail⟩
      exact Main.shift 1 10 (by rfl) (by rfl) (fun h => absurd (h.resolve_left Bool.false_ne_true) (by omega))
        (by omega) (by omega) (by omega)
    · refine ⟨rfl,?_,hfail⟩
      exact Main.shift 1 2 (by rfl) (by rfl) (fun _ => Or.inl (Or.inl rfl)) (fun _ => Or.inr rfl) (by omega)
        (by omega)
  | subscribeTelemetry started =>
    refine ⟨rfl,rfl,by simp [Owns, Main.stage],by simp [MayHold, Main.stage],fun b => ?_⟩
    cases b
    · exact hfail
    · exact Main.steady 2 3 (by rfl) (by rfl) (by rfl) (by omega) (by omega) (by omega) none
  | subscribeAlerts started =>
    refine ⟨rfl,rfl,by simp [Owns, Main.stage],by simp [MayHold, Main.stage],fun b => ?_⟩
    cases b
    · exact hfail
    · exact Main.steady 3 4 (by rfl) (by rfl) (by rfl) (by omega) (by omega) (by omega) none
  | spawnProducer started | spawnConsumer started =>
    refine ⟨fun n h => (by cases h),fun b => ?_⟩
    cases b
    · exact hfail
    · exact hstep (by rfl) (by rfl) none
  | sigwait started | requestShutdown started | shutdownIngest started | shutdownTelemetry started
  | shutdownAlerts started | failed | exited => exact hstep (by rfl) (by rfl) none
  | joinProducer started | joinTransport => exact hstep (by rfl) (by rfl) _
  | joinWorkers started i =>
    simp only [Main.code]
    split
    · exact hstep (by rfl) (by rfl) _
    · exact hstep (by rfl) (by rfl) none
  | joinConsumer =>
    exact Main.steady 4 5 (by rfl) (by rfl) (by rfl) (by omega) (by omega) (by omega) _
  | unsubscribeTelemetry =>
    refine ⟨rfl,rfl,?_⟩
    exact Main.shift 5 6 (by rfl) (by rfl) (fun _ => Or.inl (Or.inr (by omega))) (by omega) (fun _ => Or.inr rfl)
      (by omega)
  | unsubscribeAlerts =>
    refine ⟨rfl,rfl,?_⟩
    exact Main.shift 6 7 (by rfl) (by rfl) (fun _ => Or.inl (Or.inr (by omega))) (by omega) (by omega)
      (fun _ => Or.inr rfl)
  | destroyTelemetry =>
    refine ⟨rfl,by simp [MayHold, Main.stage],by simp [Owns, Main.stage, Main.halfCreated],?_⟩
    exact Main.shift 7 8 (by rfl) (by rfl) (fun _ => Or.inl (Or.inr (by omega))) (by omega) (by omega) (by omega)
  | destroyAlerts =>
    refine ⟨rfl,by simp [MayHold, Main.stage],by simp [Owns, Main.stage],?_⟩
    exact Main.steady 8 9 (by rfl) (by rfl) (by rfl) (by omega) (by omega) (by omega) none
  | destroyIngest =>
    exact ⟨rfl,fun h => h,fun h => h,hstep (by rfl) (by rfl) none⟩
  | finish =>
    exact Main.steady 9 10 (by rfl) (by rfl) (by rfl) (by omega) (by omega) (by omega) none

theorem Transport.connection_client {pc : Transport.Pc} {c : Transport.Client} (h : Transport.client pc = some c) :
    Transport.connection pc = some c.n := by
  cases pc <;> first | (cases h; rfl) | cases h

/-- A step within one connection, from stage `i` to stage `j`. -/
theorem Transport.shift {pc p : Transport.Pc} {c c' : Transport.Client} {created unsubscribed : Option QueueId}
    {joined declared : Option ℕ} (i j : ℕ) (hi : Transport.stage pc = i) (hj : Transport.stage p = j)
    (hpc : Transport.client pc = some c) (hp : Transport.client p = some c') (hn : c'.n = c.n)
    (htelemetry : c'.telemetrySub = true → j ≤ 13 →
      (c.telemetrySub = true ∧ i ≤ 13) ∨ created = some (.connTelemetry c.n))
    (halerts : c'.alertsSub = true → 4 ≤ j →
      (c.alertsSub = true ∧ 4 ≤ i) ∨ created = some (.connAlerts c.n))
    (hheldTelemetry : c.subscribedTelemetry = true → 5 ≤ i → i ≤ 11 →
      (c'.subscribedTelemetry = true ∧ 5 ≤ j ∧ j ≤ 11) ∨
        unsubscribed = some (.connTelemetry c.n))
    (hheldAlerts : c.subscribedAlerts = true → 6 ≤ i → i ≤ 12 →
      (c'.subscribedAlerts = true ∧ 6 ≤ j ∧ j ≤ 12) ∨
        unsubscribed = some (.connAlerts c.n))
    (hlistening : c.started = true → i = 9 →
      (c'.started = true ∧ j = 9) ∨ joined = some c.n)
    (hpeer : 7 ≤ j → j ≤ 10 →
      (7 ≤ i ∧ i ≤ 10) ∨ declared = some c.n) :
    Shift .transport pc p created unsubscribed joined none declared := by
  subst hi hj
  refine ⟨fun q h => ?_,fun q h => ?_,fun n h => ?_,fun n h => Or.inl ?_,fun n h => ?_⟩
  · cases q with
    | connTelemetry n =>
      obtain ⟨_,hc,rfl,hsub,hs⟩ := h
      cases hp.symm.trans hc
      rw [hn]
      exact (htelemetry hsub hs).imp_left fun h => ⟨c,hpc,rfl,h.1,h.2⟩
    | connAlerts n =>
      obtain ⟨_,hc,rfl,hsub,hs⟩ := h
      cases hp.symm.trans hc
      rw [hn]
      exact (halerts hsub hs).imp_left fun h => ⟨c,hpc,rfl,h.1,h.2⟩
    | _ => exact h.elim
  · cases q with
    | connTelemetry n =>
      obtain ⟨_,hc,rfl,hsub,hs,hs'⟩ := h
      cases hpc.symm.trans hc
      exact (hheldTelemetry hsub hs hs').imp_left fun h => ⟨c',hp,hn,h.1,h.2⟩
    | connAlerts n =>
      obtain ⟨_,hc,rfl,hsub,hs,hs'⟩ := h
      cases hpc.symm.trans hc
      exact (hheldAlerts hsub hs hs').imp_left fun h => ⟨c',hp,hn,h.1,h.2⟩
    | _ => exact h.elim
  · obtain ⟨_,hc,rfl,hstarted,hs⟩ := h
    cases hpc.symm.trans hc
    exact (hlistening hstarted hs).imp_left fun h => ⟨c',hp,hn,h.1,h.2⟩
  · exact (connection_client hpc).trans (hn ▸ (connection_client hp).symm.trans h)
  · obtain ⟨_,hc,rfl,hs,hs'⟩ := h
    cases hp.symm.trans hc
    rw [hn]
    exact (hpeer hs hs').imp_left fun h => ⟨c,hpc,rfl,h.1,h.2⟩

theorem Transport.not_owns {pc : Transport.Pc} (hpc : Transport.client pc = none) (q : QueueId) :
    ¬ Owns .transport pc q := by
  intro h
  cases q with
  | connTelemetry n | connAlerts n =>
    obtain ⟨_,hc,_⟩ := h
    cases hpc.symm.trans hc
  | _ => exact h

theorem Transport.not_mayHold {pc : Transport.Pc} (hpc : Transport.client pc = none) (q : QueueId) :
    ¬ MayHold .transport pc q := by
  intro h
  cases q with
  | connTelemetry n | connAlerts n =>
    obtain ⟨_,hc,_⟩ := h
    cases hpc.symm.trans hc
  | _ => exact h

theorem Transport.not_listening {pc : Transport.Pc} (hpc : Transport.client pc = none) (n : ℕ) :
    ¬ Listening .transport pc n := by
  rintro ⟨_,hc,_⟩
  cases hpc.symm.trans hc

theorem Transport.not_scoped {pc : Transport.Pc} (hpc : Transport.client pc = none) (n : ℕ) :
    ¬ Scoped .transport pc n := by
  rintro ⟨_,hc,_⟩
  cases hpc.symm.trans hc

/-- Between two connections, and before a client record exists, nothing is known. -/
theorem Transport.shift_none {pc p : Transport.Pc} {opened : Option ℕ} (hpc : Transport.client pc = none)
    (hp : Transport.client p = none) (hopens : ∀ n, Transport.connection p = some n →
      Transport.connection pc = some n ∨ opened = some n) : Shift .transport pc p none none none opened none :=
  ⟨fun q h => absurd h (not_owns hp q),fun q h => absurd h (not_mayHold hpc q),
    fun n h => absurd h (not_listening hpc n),hopens,fun n h => absurd h (not_scoped hp n)⟩

theorem Transport.disciplined (pc : Transport.Pc) : (Transport.code pc).Disciplined .transport pc := by
  -- a step of `serve_client`
  have hserve : ∀ {c : Transport.Client} {p : Transport.Pc}, Transport.client pc = some c →
      Transport.client p = some c → Transport.stage p = Transport.stage pc → Steady .transport pc p := by
    intro c p hpc hp hs
    exact Transport.shift _ _ rfl hs hpc hp rfl (fun h h' => Or.inl ⟨h,by omega⟩) (fun h h' => Or.inl ⟨h,by omega⟩)
      (fun h _ _ => Or.inl ⟨h,by omega,by omega⟩) (fun h _ _ => Or.inl ⟨h,by omega,by omega⟩)
      (fun h _ => Or.inl ⟨h,by omega⟩) (fun _ _ => Or.inl ⟨by omega,by omega⟩)
  cases pc with
  | loop =>
    intro b
    cases b <;> exact Transport.shift_none (by rfl) (by rfl) (fun n h => by cases h)
  | pollListen =>
    intro r
    cases r <;> exact Transport.shift_none (by rfl) (by rfl) (fun n h => by cases h)
  | accept =>
    exact ⟨rfl,fun n h => (by cases h),fun n => Transport.shift_none (by rfl) (by rfl) (fun m h => Or.inr h),
      Transport.shift_none (by rfl) (by rfl) (fun n h => by cases h)⟩
  | handshake n hs =>
    have hnext : ∀ p, (p = .createTelemetry n ∨ p = .close n ∨ ∃ h', p = .handshake n h') →
        Steady .transport (.handshake n hs) p := by
      rintro p (rfl | rfl | ⟨h',rfl⟩) <;> exact Transport.shift_none (by rfl) (by rfl) (fun n h => Or.inl h)
    rcases Transport.handshake_op n hs with ⟨next,hop,hp⟩ | ⟨bytes,k,hop,hp⟩ | ⟨k,hop,hp⟩ <;> rw [hop]
    · exact hnext next hp
    · exact fun r => hnext _ (Or.inr (Or.inr (hp r)))
    · exact fun r => hnext _ (Or.inr (Or.inr (hp r)))
  | createTelemetry n =>
    have hcreated : ∀ ok, Shift .transport (.createTelemetry n) (.createAlerts ⟨n,ok,false,false,false,false⟩)
        (if ok then some (.connTelemetry n) else none) none none none none := by
      intro ok
      refine ⟨fun q h => Or.inr ?_,fun q h => absurd h (not_mayHold (by rfl) q),
        fun m h => absurd h (not_listening (by rfl) m),fun m h => Or.inl h,fun m h => ?_⟩
      · cases q with
        | connTelemetry m =>
          obtain ⟨_,hc,rfl,hsub,_⟩ := h
          cases hc
          exact if_pos hsub
        | connAlerts m =>
          obtain ⟨_,hc,_,hsub,_⟩ := h
          cases hc
          cases hsub
        | _ => exact h.elim
      · obtain ⟨_,_,_,hs,_⟩ := h
        exact absurd hs (by simp [Transport.stage])
    exact ⟨rfl,hcreated true,hcreated false⟩
  | createAlerts c =>
    refine ⟨rfl,?_,?_⟩ <;> apply Transport.shift 3 4 (by rfl) (by rfl) (by rfl) (by rfl) (by rfl) <;> simp
  | subscribeTelemetry c =>
    simp only [Transport.code]
    split
    · rename_i hsub
      refine ⟨rfl,rfl,⟨c,rfl,rfl,hsub,by simp [Transport.stage]⟩,⟨_,rfl,rfl,rfl,by simp [Transport.stage]⟩,
        fun b => ?_⟩
      apply Transport.shift 4 5 (by rfl) (by rfl) (by rfl) (by rfl) (by rfl) <;> simp
    · apply Transport.shift 4 5 (by rfl) (by rfl) (by rfl) (by rfl) (by rfl) <;> simp
  | subscribeAlerts c =>
    have hafter : ∀ c' : Transport.Client, c'.n = c.n → c'.telemetrySub = c.telemetrySub →
        c'.alertsSub = c.alertsSub → c'.subscribedTelemetry = c.subscribedTelemetry →
        Steady .transport (.subscribeAlerts c) (Transport.afterSubscribe c') := by
      intro c' hn ht ha hs
      unfold Transport.afterSubscribe
      split
      · apply Transport.shift 5 6 (by rfl) (by rfl) (by rfl) (by rfl) hn <;> simp [ht, ha, hs]
      · apply Transport.shift 5 11 (by rfl) (by rfl) (by rfl) (by rfl) hn <;> simp [ht, ha, hs]
    simp only [Transport.code]
    split
    · rename_i hsub
      refine ⟨rfl,rfl,⟨c,rfl,rfl,hsub,by simp [Transport.stage]⟩,?_,fun b => hafter _ rfl rfl rfl rfl⟩
      change MayHold .transport (Transport.afterSubscribe _) _
      unfold Transport.afterSubscribe
      split <;> exact ⟨_,rfl,rfl,rfl,by simp [Transport.stage]⟩
    · exact hafter c rfl rfl rfl rfl
  | declarePeer c =>
    refine ⟨rfl,?_⟩
    apply Transport.shift 6 7 (by rfl) (by rfl) (by rfl) (by rfl) (by rfl) <;> simp
  | allocArgs c =>
    intro b
    cases b
    · apply Transport.shift 7 9 (by rfl) (by rfl) (by rfl) (by rfl) (by rfl) <;> simp
    · apply Transport.shift 7 8 (by rfl) (by rfl) (by rfl) (by rfl) (by rfl) <;> simp
  | spawnListener c =>
    refine ⟨fun n hn => ⟨rfl,?_⟩,fun b => ?_⟩
    · cases hn
      exact ⟨_,rfl,rfl,rfl,rfl⟩
    · apply Transport.shift 8 9 (by rfl) (by rfl) (by rfl) (by rfl) (by rfl) <;> simp
  | checkPeer c | checkStop c =>
    intro b
    cases b <;> exact hserve (by rfl) (by rfl) (by rfl)
  | tryTelemetry c | tryAlerts c =>
    intro item
    cases item <;> exact hserve (by rfl) (by rfl) (by rfl)
  | sleep c | clearPeer c => exact hserve (by rfl) (by rfl) (by rfl)
  | formatTelemetry c item | formatAlert c item =>
    change Steady .transport _ (Transport.afterFormat _ _ _)
    unfold Transport.afterFormat
    split <;> exact hserve (by rfl) (by rfl) (by rfl)
  | write c item rest =>
    simp only [Transport.code, writeAll]
    split
    · exact hserve (by rfl) (by rfl) (by rfl)
    · intro r
      cases r with
      | wrote m =>
        change Steady .transport _ (if m = 0 then _ else _)
        split <;> exact hserve (by rfl) (by rfl) (by rfl)
      | _ => exact hserve (by rfl) (by rfl) (by rfl)
  | release c item alive =>
    cases alive <;> exact hserve (by rfl) (by rfl) (by rfl)
  | joinListener c =>
    simp only [Transport.code]
    split
    · apply Transport.shift 9 10 (by rfl) (by rfl) (by rfl) (by rfl) (by rfl) <;> simp [Tid.listens]
    · rename_i hnot
      apply Transport.shift 9 10 (by rfl) (by rfl) (by rfl) (by rfl) (by rfl) <;> simp [hnot]
  | endPeer c =>
    refine ⟨rfl,?_,?_,?_⟩
    · rintro ⟨_,_,_,_,hs⟩
      simp [Transport.stage] at hs
    · rintro ⟨_,_,_,_,hs⟩
      simp [Transport.stage] at hs
    · apply Transport.shift 10 11 (by rfl) (by rfl) (by rfl) (by rfl) (by rfl) <;> simp
  | unsubscribeTelemetry c =>
    simp only [Transport.code]
    split
    · refine ⟨rfl,rfl,?_⟩
      apply Transport.shift 11 12 (by rfl) (by rfl) (by rfl) (by rfl) (by rfl) <;> simp
    · rename_i hnot
      apply Transport.shift 11 12 (by rfl) (by rfl) (by rfl) (by rfl) (by rfl) <;> simp [hnot]
  | unsubscribeAlerts c =>
    simp only [Transport.code]
    split
    · refine ⟨rfl,rfl,?_⟩
      apply Transport.shift 12 13 (by rfl) (by rfl) (by rfl) (by rfl) (by rfl) <;> simp
    · rename_i hnot
      apply Transport.shift 12 13 (by rfl) (by rfl) (by rfl) (by rfl) (by rfl) <;> simp [hnot]
  | destroyTelemetry c =>
    simp only [Transport.code]
    split
    · refine ⟨rfl,?_,?_,?_⟩
      · rintro ⟨_,_,_,_,_,hs⟩
        simp [Transport.stage] at hs
      · rintro ⟨_,_,_,_,hs⟩
        simp [Transport.stage] at hs
      · apply Transport.shift 13 14 (by rfl) (by rfl) (by rfl) (by rfl) (by rfl) <;> simp
    · apply Transport.shift 13 14 (by rfl) (by rfl) (by rfl) (by rfl) (by rfl) <;> simp
  | destroyAlerts c =>
    have hclose : Steady .transport (.destroyAlerts c) (.close c.n) := by
      refine ⟨fun q h => absurd h (not_owns (by rfl) q),fun q h => ?_,fun n h => ?_,fun n h => Or.inl h,
        fun n h => absurd h (not_scoped (by rfl) n)⟩
      · cases q with
        | connTelemetry n | connAlerts n =>
          obtain ⟨_,_,_,_,_,hs⟩ := h
          exact absurd hs (by simp [Transport.stage])
        | _ => exact h.elim
      · obtain ⟨_,_,_,_,hs⟩ := h
        exact absurd hs (by simp [Transport.stage])
    simp only [Transport.code]
    split
    · refine ⟨rfl,?_,?_,hclose⟩
      · rintro ⟨_,_,_,_,_,hs⟩
        simp [Transport.stage] at hs
      · rintro ⟨_,hc,_⟩
        cases hc
    · exact hclose
  | close n =>
    refine ⟨rfl,fun h => (by cases h),?_,Transport.shift_none (by rfl) (by rfl) (fun n h => by cases h)⟩
    rintro ⟨_,hc,_⟩
    cases hc
  | done => exact Transport.shift_none (by rfl) (by rfl) (fun n h => by cases h)

theorem disciplined_of_unmanaged (t : Tid) (ht : t ≠ .main) (ht' : t ≠ .transport) (pc : Pc t) {op : Op (Pc t)}
    (hop : op.manages = false)
    (hpublish : ∀ topic, op.publishes = some topic → topic = topicTelemetry ∨ topic = topicAlerts) :
    op.Disciplined t pc := by
  have hsteady : ∀ p, Steady t pc p := by
    intro p
    refine ⟨fun q h => ?_,fun q h => ?_,fun n h => ?_,fun n h => ?_,fun n h => ?_⟩ <;>
      cases t <;> first | exact absurd rfl ht | exact absurd rfl ht' | exact h.elim
  cases op with
  | publishBegin topic item k => exact ⟨hpublish topic rfl,fun _ => hsteady _⟩
  | _ => first | exact hsteady _ | exact fun _ => hsteady _ | cases hop

theorem Worker.publishes {pc : Worker.Pc} {topic : CString} (h : (Worker.code pc).publishes = some topic) :
    topic = topicTelemetry ∨ topic = topicAlerts := by
  cases pc with
  | publish raw seq ts =>
    cases h
    cases raw.type
    · exact Or.inl rfl
    · exact Or.inr rfl
  | fanOut raw seq ts subscribers => cases subscribers <;> cases h
  | _ => cases h

theorem code_disciplined (W : ℕ) (t : Tid) (pc : Pc t) : (code W t pc).Disciplined t pc := by
  cases t with
  | main => exact Main.disciplined W pc
  | transport => exact Transport.disciplined pc
  | worker i =>
    exact disciplined_of_unmanaged (.worker i) (by simp) (by simp) pc (Worker.manages pc)
      fun _ h => Worker.publishes h
  | producer =>
    refine disciplined_of_unmanaged .producer (by simp) (by simp) pc (Producer.manages pc) fun topic h => ?_
    change (Producer.code pc).publishes = _ at h
    cases pc with
    | sleep counter totalMs sleptMs =>
      simp only [Producer.code] at h
      split at h <;> cases h
    | _ => cases h
  | consumer =>
    refine disciplined_of_unmanaged .consumer (by simp) (by simp) pc (Consumer.manages pc) fun topic h => ?_
    change (Consumer.code pc).publishes = _ at h
    cases pc <;> cases h
  | listener n =>
    refine disciplined_of_unmanaged (.listener n) (by simp) (by simp) pc (Command.manages n pc) fun topic h => ?_
    change (Command.code n pc).publishes = _ at h
    cases pc with
    | poll buf =>
      simp only [Command.code] at h
      split at h <;> cases h
    | _ => cases h

end Queues

end RadioSim.Process
