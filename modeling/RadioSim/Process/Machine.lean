import RadioSim.Process.Message

/-! # Threads and what they share

A thread routine is a table from program points to operations, each with the
program points it continues at. An operation is one critical section, one
system call or one access to a shared variable. What the scheduler, the clock,
the allocator, the sockets and the client decide is a `Choice`.
-/
namespace RadioSim.Process
open Pubsub Queue

inductive Tid
  | main
  | producer
  | worker (i : ℕ)
  | consumer
  | transport
  | listener (n : ℕ)
  deriving DecidableEq

/-- The queues of the process; the last two belong to the `n`-th connection. -/
inductive QueueId
  | ingest
  | consumerTelemetry
  | consumerAlerts
  | connTelemetry (n : ℕ)
  | connAlerts (n : ℕ)
  deriving DecidableEq

inductive Status
  | unborn
  | running
  | returned
  deriving DecidableEq

inductive QueueState
  | absent
  | live (ring : RingQueue Item)
  | destroyed

/-- One client connection: its descriptor, the bytes read from and written to it,
the `peer_alive` variable of its serving block, and the lines that were passed to
`apply_command`. -/
structure Conn where
  fdOpen : Bool
  consumed : Bytes
  output : Bytes
  peerInScope : Bool
  peerAlive : Bool
  applied : List CString

/-- The state that threads share. `taken` is the history of successful dequeues. -/
structure Shared where
  status : Tid → Status
  exited : Bool
  stop : Bool
  intervalMs : UInt32
  queues : QueueId → QueueState
  registry : Registry QueueId
  registryLock : Option Tid
  nextSeq : UInt32
  heap : Heap
  accepted : ℕ
  conns : ℕ → Conn
  taken : List (QueueId × Item)

inductive PollResult
  | error
  | eintr
  | timeout
  | ready (hangup : Bool)
  deriving DecidableEq

inductive ReadResult
  | byte (b : Byte)
  | eof
  | eintr
  | error
  deriving DecidableEq

inductive WriteResult
  | wrote (n : ℕ)
  | eintr
  | error

inductive Choice
  | ok
  | fail
  | clock (ts : Int64)
  | poll (r : PollResult)
  | read (r : ReadResult)
  | write (r : WriteResult)

inductive Op (P : Type)
  | tau (next : P)
  | choose (k : Bool → P)
  | ret (next : P)
  | exit (next : P)
  | spawn (t : Tid) (k : Bool → P)
  | join (t : Tid) (next : P)
  | shutdownRequested (k : Bool → P)
  | shutdownRequest (next : P)
  | malloc (k : Option Addr → P)
  | free (a : Option Addr) (next : P)
  | touch (a : Option Addr) (next : P)
  | queueCreate (q : QueueId) (k : Bool → P)
  | queueDestroy (q : QueueId) (next : P)
  | queueShutdown (q : QueueId) (next : P)
  | enqueue (q : QueueId) (item : Item) (k : Bool → P)
  | tryEnqueue (q : QueueId) (item : Item) (k : Bool → P)
  | dequeue (q : QueueId) (k : Option Item → P)
  | tryDequeue (q : QueueId) (k : Option Item → P)
  | subscribe (topic : CString) (q : QueueId) (k : Bool → P)
  | unsubscribe (topic : CString) (q : QueueId) (next : P)
  | publishBegin (topic : CString) (item : Item) (k : Option (List QueueId) → P)
  | deliver (q : QueueId) (item : Item) (next : P)
  | publishEnd (next : P)
  | nextSequence (k : UInt32 → P)
  | time (k : Int64 → P)
  | getInterval (k : UInt32 → P)
  | setInterval (ms : UInt32) (next : P)
  | poll (k : PollResult → P)
  | accept (k : Option ℕ → P)
  | sockRead (n : ℕ) (k : ReadResult → P)
  | sockWrite (n : ℕ) (bytes : Bytes) (k : WriteResult → P)
  | close (n : ℕ) (next : P)
  | peerDeclare (n : ℕ) (next : P)
  | peerRead (n : ℕ) (k : Bool → P)
  | peerClear (n : ℕ) (next : P)
  | peerEnd (n : ℕ) (next : P)
  | noteApplied (n : ℕ) (line : CString) (next : P)

namespace Shared

def ring (sh : Shared) (q : QueueId) : Option (RingQueue Item) :=
  match sh.queues q with
  | .live r => some r
  | _ => none

def contents (sh : Shared) (q : QueueId) : List Item := ((sh.ring q).map RingQueue.contents).getD []

def setQueue (sh : Shared) (q : QueueId) (state : QueueState) : Shared :=
  { sh with queues := Function.update sh.queues q state }

def setConn (sh : Shared) (n : ℕ) (conn : Conn) : Shared :=
  { sh with conns := Function.update sh.conns n conn }

def setStatus (sh : Shared) (t : Tid) (status : Status) : Shared :=
  { sh with status := Function.update sh.status t status }

def takeFrom (sh : Shared) (q : QueueId) (d : Option Item × RingQueue Item) : Shared :=
  { sh.setQueue q (.live d.2) with taken := sh.taken ++ d.1.toList.map fun x => (q,x) }

end Shared

def blankItem : Item := ⟨0,.telemetry,none,0⟩

/-- `msg_queue_create(0)` when it succeeds. -/
def newQueue : RingQueue Item := .fresh (fun _ => blankItem) defaultCapacity (by decide) (by decide)

/-- One operation of thread `t`. There is no step where the call would block, or
where the operation has no meaning: on a queue that is not live or through NULL. -/
def exec {P : Type} (t : Tid) (c : Choice) (sh : Shared) : Op P → Option (P × Shared)
  | .tau next => some (next,sh)
  | .choose k =>
    match c with
    | .ok => some (k true,sh)
    | .fail => some (k false,sh)
    | _ => none
  | .ret next => some (next,sh.setStatus t .returned)
  | .exit next => some (next,{ sh with exited := true })
  | .spawn child k =>
    match c with
    | .ok => some (k true,sh.setStatus child .running)
    | .fail => some (k false,sh)
    | _ => none
  | .join child next => if sh.status child = .returned then some (next,sh) else none
  | .shutdownRequested k => some (k sh.stop,sh)
  | .shutdownRequest next => some (next,{ sh with stop := true })
  | .malloc k =>
    match c with
    | .ok => some (k (some sh.heap.malloc.1),{ sh with heap := sh.heap.malloc.2 })
    | .fail => some (k none,sh)
    | _ => none
  | .free none next => some (next,sh)
  | .free (some a) next => some (next,{ sh with heap := sh.heap.free a })
  | .touch none _ => none
  | .touch (some _) next => some (next,sh)
  | .queueCreate q k =>
    match c with
    | .ok => some (k true,sh.setQueue q (.live newQueue))
    | .fail => some (k false,sh)
    | _ => none
  | .queueDestroy q next => (sh.ring q).map fun _ => (next,sh.setQueue q .destroyed)
  | .queueShutdown q next => (sh.ring q).map fun r => (next,sh.setQueue q (.live r.shutdown))
  | .enqueue q item k =>
    (sh.ring q).bind fun r => (r.enqueue item).map fun e => (k e.1,sh.setQueue q (.live e.2))
  | .tryEnqueue q item k =>
    (sh.ring q).map fun r => (k (r.tryEnqueue item).1,sh.setQueue q (.live (r.tryEnqueue item).2))
  | .dequeue q k =>
    (sh.ring q).bind fun r => r.dequeue.map fun d => (k d.1,sh.takeFrom q d)
  | .tryDequeue q k => (sh.ring q).map fun r => (k r.tryDequeue.1,sh.takeFrom q r.tryDequeue)
  | .subscribe topic q k =>
    if sh.registryLock = none then
      match c with
      | .ok =>
        let r := pubsubSubscribe sh.registry topic q
        some (k (decide (r.1 = 0)),{ sh with registry := r.2 })
      | .fail => some (k false,sh)
      | _ => none
    else none
  | .unsubscribe topic q next =>
    if sh.registryLock = none then
      some (next,{ sh with registry := (pubsubUnsubscribe sh.registry topic q).2 })
    else none
  | .publishBegin topic _ k =>
    if sh.registryLock = none then
      match findOrCreateTopic sh.registry topic with
      | none => some (k none,sh)
      | some l => some (k (some l.entry.subscribers),{ sh with registry := l.registry, registryLock := some t })
    else none
  | .deliver q item next =>
    (sh.ring q).bind fun r =>
      match c with
      | .ok =>
        let d := deliver item true r sh.heap
        some (next,{ sh.setQueue q (.live d.2.1) with heap := d.2.2 })
      | .fail =>
        let d := deliver item false r sh.heap
        some (next,{ sh.setQueue q (.live d.2.1) with heap := d.2.2 })
      | _ => none
  | .publishEnd next => some (next,{ sh with registryLock := none })
  | .nextSequence k => some (k sh.nextSeq,{ sh with nextSeq := sh.nextSeq + 1 })
  | .time k =>
    match c with
    | .clock ts => some (k ts,sh)
    | _ => none
  | .getInterval k => some (k sh.intervalMs,sh)
  | .setInterval ms next => some (next,if ms = 0 then sh else { sh with intervalMs := ms })
  | .poll k =>
    match c with
    | .poll r => some (k r,sh)
    | _ => none
  | .accept k =>
    match c with
    | .ok => some (k (some sh.accepted),
        { sh.setConn sh.accepted ⟨true,[],[],false,false,[]⟩ with accepted := sh.accepted + 1 })
    | .fail => some (k none,sh)
    | _ => none
  | .sockRead n k =>
    match c with
    | .read (.byte b) =>
      some (k (.byte b),sh.setConn n { sh.conns n with consumed := (sh.conns n).consumed ++ [b] })
    | .read r => some (k r,sh)
    | _ => none
  | .sockWrite n bytes k =>
    match c with
    | .write (.wrote m) =>
      if m ≤ bytes.length then
        some (k (.wrote m),sh.setConn n { sh.conns n with output := (sh.conns n).output ++ bytes.take m })
      else none
    | .write r => some (k r,sh)
    | _ => none
  | .close n next => some (next,sh.setConn n { sh.conns n with fdOpen := false })
  | .peerDeclare n next =>
    some (next,sh.setConn n { sh.conns n with peerInScope := true, peerAlive := true })
  | .peerRead n k => some (k (sh.conns n).peerAlive,sh)
  | .peerClear n next => some (next,sh.setConn n { sh.conns n with peerAlive := false })
  | .peerEnd n next => some (next,sh.setConn n { sh.conns n with peerInScope := false })
  | .noteApplied n line next =>
    some (next,sh.setConn n { sh.conns n with applied := (sh.conns n).applied ++ [line] })

def runThread {P : Type} (t : Tid) (code : P → Op P) : P × Shared → List Choice → Option (P × Shared)
  | s, [] => some s
  | s, c :: rest => (exec t c s.2 (code s.1)).bind fun s' => runThread t code s' rest

theorem runThread_invariant {P : Type} {t : Tid} {code : P → Op P} {I : P × Shared → Prop} {s s' : P × Shared}
    {choices : List Choice} (hs : I s)
    (hstep : ∀ c ∈ choices, ∀ s s', I s → exec t c s.2 (code s.1) = some s' → I s')
    (h : runThread t code s choices = some s') : I s' := by
  induction choices generalizing s with
  | nil =>
    cases h
    exact hs
  | cons c rest ih =>
    obtain ⟨m,hm,hrest⟩ := Option.bind_eq_some_iff.mp h
    exact ih (hstep c List.mem_cons_self s m hs hm) (fun d hd => hstep d (List.mem_cons_of_mem c hd)) hrest

theorem runThread_append {P : Type} {t : Tid} {code : P → Op P} {s m : P × Shared} {first : List Choice}
    (h : runThread t code s first = some m) (second : List Choice) :
    runThread t code s (first ++ second) = runThread t code m second := by
  induction first generalizing s with
  | nil =>
    cases h
    rfl
  | cons c rest ih =>
    obtain ⟨m',hm,hrest⟩ := Option.bind_eq_some_iff.mp h
    simp only [List.cons_append, runThread, hm, Option.bind_some]
    exact ih hrest

def Shared.initial : Shared where
  status t := if t = .main then .running else .unborn
  exited := false
  stop := false
  intervalMs := 0
  queues _ := .absent
  registry := .empty
  registryLock := none
  nextSeq := 1
  heap := ⟨0,fun _ => 0⟩
  accepted := 0
  conns _ := ⟨false,[],[],false,false,[]⟩
  taken := []

end RadioSim.Process
