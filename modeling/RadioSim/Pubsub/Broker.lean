import RadioSim.Foundation.CString
import RadioSim.Foundation.SwapRemove
import RadioSim.Queue.Ring

/-! # The topic registry and the fan-out of `pubsub.c`

Each call is its critical section under the registry mutex. A payload pointer
is an address together with the `length` bytes it designates; addresses that
`malloc` hands out are tokens that are never handed out twice.
-/
namespace RadioSim.Pubsub
open Queue

inductive MsgType
  | telemetry
  | alert
  deriving DecidableEq, Repr

inductive Addr
  | heap (token : ℕ)
  | stack (frame : ℕ)
  deriving DecidableEq, Repr

structure Payload (β : Type*) where
  addr : Addr
  content : β
  deriving DecidableEq

/-- `msg_item_t`; a NULL payload is `none`. -/
structure MsgItem (β : Type*) where
  id : UInt32
  type : MsgType
  payload : Option (Payload β)
  length : ℕ
  deriving DecidableEq

structure Heap where
  next : ℕ
  frees : ℕ → ℕ

def Heap.malloc (h : Heap) : Addr × Heap := (.heap h.next,{ h with next := h.next + 1 })

/-- `free` of a block of the heap; of anything else it is undefined. -/
def Heap.free (h : Heap) : Addr → Heap
  | .heap p => { h with frees := Function.update h.frees p (h.frees p + 1) }
  | .stack _ => h

def maxTopics : ℕ := 8
def maxSubscribersPerTopic : ℕ := 16
def topicNameMax : ℕ := 32

section Registry
variable {Q : Type*}

/-- `topic_entry_t`; the subscribers are the used part of the array. -/
structure TopicEntry (Q : Type*) where
  name : Bytes
  subscribers : List Q
  deriving DecidableEq

def TopicEntry.topic (e : TopicEntry Q) : CString := .ofBuffer e.name

/-- The used part of the `topics` array. -/
structure Registry (Q : Type*) where
  topics : List (TopicEntry Q)
  deriving DecidableEq

def Registry.empty : Registry Q := ⟨[]⟩

/-- A pointer to an entry: the entry with the array around it. -/
structure Located (Q : Type*) where
  before : List (TopicEntry Q)
  entry : TopicEntry Q
  after : List (TopicEntry Q)

def Located.registry (l : Located Q) : Registry Q := ⟨l.before ++ l.entry :: l.after⟩

def Located.setSubscribers (l : Located Q) (subscribers : List Q) : Located Q :=
  { l with entry := { l.entry with subscribers := subscribers } }

def findTopic (topic : CString) : List (TopicEntry Q) → Option (Located Q)
  | [] => none
  | e :: rest =>
    if e.topic = topic then some ⟨[],e,rest⟩
    else (findTopic topic rest).map fun l => { l with before := e :: l.before }

def newEntry (topic : CString) : TopicEntry Q := ⟨topic.strncpy (topicNameMax - 1) ++ [0],[]⟩

def findOrCreateTopic (r : Registry Q) (topic : CString) : Option (Located Q) :=
  match findTopic topic r.topics with
  | some l => some l
  | none => if r.topics.length ≥ maxTopics then none else some ⟨r.topics,newEntry topic,[]⟩

variable [DecidableEq Q]

def pubsubSubscribe (r : Registry Q) (topic : CString) (q : Q) : ℤ × Registry Q :=
  if topic.strlen ≥ topicNameMax then (-1,r)
  else match findOrCreateTopic r topic with
    | none => (-1,r)
    | some l =>
      if q ∈ l.entry.subscribers then (0,l.registry)
      else if l.entry.subscribers.length ≥ maxSubscribersPerTopic then (-1,l.registry)
      else (0,(l.setSubscribers (l.entry.subscribers ++ [q])).registry)

def pubsubUnsubscribe (r : Registry Q) (topic : CString) (q : Q) : ℤ × Registry Q :=
  match findTopic topic r.topics with
  | none => (-1,r)
  | some l =>
    match SwapRemove.remove l.entry.subscribers q with
    | none => (-1,r)
    | some rest => (0,(l.setSubscribers rest).registry)

end Registry

section Publish
variable {Q β : Type*}

structure Broker (Q β : Type*) where
  registry : Registry Q
  queues : Q → RingQueue (MsgItem β)
  heap : Heap

/-- The copy made for one subscriber; `none` when `malloc` fails. -/
def cloneItem (item : MsgItem β) (mallocOk : Bool) (h : Heap) : Option (MsgItem β × Heap) :=
  match item.payload with
  | none => some (item,h)
  | some p =>
    if item.length > 0 then
      if mallocOk then some ({ item with payload := some ⟨h.malloc.1,p.content⟩ },h.malloc.2) else none
    else some (item,h)

def MsgItem.addr (item : MsgItem β) : Option Addr := item.payload.map Payload.addr

/-- One turn of the fan-out loop on the subscriber's queue. -/
def deliver (item : MsgItem β) (mallocOk : Bool) (r : RingQueue (MsgItem β)) (h : Heap) :
    Bool × RingQueue (MsgItem β) × Heap :=
  match cloneItem item mallocOk h with
  | none => (false,r,h)
  | some (clone,h') =>
    match r.tryEnqueue clone with
    | (true,r') => (true,r',h')
    | (false,r') =>
      match clone.addr with
      | none => (false,r',h')
      | some a => if clone.addr ≠ item.addr then (false,r',h'.free a) else (false,r',h')

variable [DecidableEq Q]

def Broker.deliverTo (b : Broker Q β) (item : MsgItem β) (mallocOk : Bool) (q : Q) : Bool × Broker Q β :=
  let d := deliver item mallocOk (b.queues q) b.heap
  (d.1,{ b with queues := Function.update b.queues q d.2.1, heap := d.2.2 })

/-- The fan-out loop; `malloc i` tells whether turn `i` gets its block. -/
def fanOut (item : MsgItem β) (malloc : ℕ → Bool) : ℕ → List Q → Broker Q β → ℤ × Broker Q β
  | _, [], b => (0,b)
  | i, q :: rest, b =>
    let d := b.deliverTo item (malloc i) q
    let r := fanOut item malloc (i + 1) rest d.2
    (if d.1 then r.1 + 1 else r.1,r.2)

def pubsubPublish (b : Broker Q β) (topic : CString) (item : MsgItem β) (malloc : ℕ → Bool) :
    ℤ × Broker Q β :=
  match findOrCreateTopic b.registry topic with
  | none => (0,b)
  | some l => fanOut item malloc 0 l.entry.subscribers { b with registry := l.registry }

inductive Call (Q β : Type*)
  | subscribe (topic : CString) (q : Q)
  | unsubscribe (topic : CString) (q : Q)
  | publish (topic : CString) (item : MsgItem β) (malloc : ℕ → Bool)

def exec (b : Broker Q β) : Call Q β → ℤ × Broker Q β
  | .subscribe topic q =>
    let r := pubsubSubscribe b.registry topic q
    (r.1,{ b with registry := r.2 })
  | .unsubscribe topic q =>
    let r := pubsubUnsubscribe b.registry topic q
    (r.1,{ b with registry := r.2 })
  | .publish topic item malloc => pubsubPublish b topic item malloc

def run : Broker Q β → List (Call Q β) → List ℤ × Broker Q β
  | b, [] => ([],b)
  | b, c :: rest =>
    let s := exec b c
    let r := run s.2 rest
    (s.1 :: r.1,r.2)

/-- `pubsub_create`: no topic yet. -/
def create (queues : Q → RingQueue (MsgItem β)) (heap : Heap) : Broker Q β := ⟨.empty,queues,heap⟩

end Publish
end RadioSim.Pubsub
