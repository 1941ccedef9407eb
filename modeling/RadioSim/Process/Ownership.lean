import RadioSim.Foundation.Custody
import RadioSim.Process.Effect
import RadioSim.Process.System

/-! # Ownership of payloads

Payload blocks are tokens: a thread holds at most one, a queue stores those of
its items. Every routine keeps the hand-over discipline of the token machine,
and so no payload is ever freed twice. Reads stay within it but for one: the log
line of a command listener comes after the payload was handed over.
-/
namespace RadioSim.Process
open Pubsub Queue

def addrToken : Addr → Option ℕ
  | .heap p => some p
  | .stack _ => none

def Op.releases {P : Type} : Op P → Option ℕ
  | .free (some a) _ => addrToken a
  | _ => none

def Op.reads {P : Type} : Op P → Option ℕ
  | .touch (some a) _ => addrToken a
  | _ => none

section Held

def Producer.held : Producer.Pc → Option ℕ
  | .enqueueTelemetry _ a | .enqueueAlert _ a | .discard a => addrToken a
  | _ => none

def Consumer.held : Consumer.Pc → Option ℕ
  | .logTelemetry item | .freeTelemetry item | .logAlert item | .freeAlert item => Item.token item
  | _ => none

def Worker.held : Worker.Pc → Option ℕ
  | .sequence raw | .time raw _ | .read raw _ _ | .publish raw _ _ | .fanOut raw _ _ _
  | .release raw => Item.token raw
  | _ => none

def Command.held : Command.Pc → Option ℕ
  | .enqueueAlert item | .dropAlert item => Item.token item
  | _ => none

def Transport.held : Transport.Pc → Option ℕ
  | .formatTelemetry _ item | .formatAlert _ item | .write _ item _ | .release _ item _ => Item.token item
  | _ => none

def held : (t : Tid) → Pc t → Option ℕ
  | .main => fun _ => none
  | .producer => Producer.held
  | .worker _ => Worker.held
  | .consumer => Consumer.held
  | .transport => Transport.held
  | .listener _ => Command.held

/-- The payload that a command listener has handed over and still has to log. -/
def unlogged : (t : Tid) → Pc t → Option ℕ
  | .listener _ => fun
    | .logAlert item => Item.token item
    | _ => none
  | _ => fun _ => none

end Held

section Discipline
variable {P : Type}

/-- The operation moves payloads in the way the token machine allows, for a
thread that owns `h`. -/
def Op.Moves (held : P → Option ℕ) (h : Option ℕ) : Op P → Prop
  | .malloc k => h = none ∧ held (k none) = none ∧ ∀ a, held (k (some a)) = addrToken a
  | .free a next => h = a.bind addrToken ∧ held next = none
  | .enqueue _ item k | .tryEnqueue _ item k => h = Item.token item ∧ held (k true) = none ∧ held (k false) = h
  | .dequeue _ k | .tryDequeue _ k =>
    h = none ∧ held (k none) = none ∧ ∀ item, held (k (some item)) = Item.token item
  | .deliver _ item next => (∃ frame content, item.payload = some ⟨.stack frame,content⟩) ∧
      0 < item.length ∧ held next = h
  | op => op.All fun p => held p = h

/-- A payload to be logged is one the thread owned before. -/
def Op.LeavesUnlogged (unlogged : P → Option ℕ) (h : Option ℕ) : Op P → Prop
  | .free _ next => unlogged next = none
  | op => op.All fun p => ∀ r, unlogged p = some r → h = some r

theorem reads_touch (a : Option Addr) (next : P) : (Op.touch a next).reads = a.bind addrToken := by
  cases a <;> rfl

theorem releases_or_reads (op : Op P) : op.releases = none ∨ op.reads = none := by
  cases op <;> first | exact Or.inl rfl | exact Or.inr rfl

theorem token_eq (item : Item) : Item.token item = item.addr.bind addrToken := by
  unfold Item.token
  cases item.addr with
  | none => rfl
  | some a => cases a <;> rfl

theorem pubItem_stack (raw : Item) (seq : UInt32) (ts : Int64) :
    (∃ frame content, (Worker.pubItem raw seq ts).payload = some ⟨.stack frame,content⟩) ∧
      0 < (Worker.pubItem raw seq ts).length := by
  unfold Worker.pubItem
  cases raw.type with
  | telemetry => exact ⟨⟨0,_,rfl⟩,show 0 < sizeofTelemetryMsg by decide⟩
  | alert => exact ⟨⟨0,_,rfl⟩,show 0 < sizeofAlertMsg by decide⟩

theorem Producer.moves (pc : Producer.Pc) : (Producer.code pc).Moves Producer.held (Producer.held pc) := by
  cases pc with
  | loop counter => intro stop; cases stop <;> rfl
  | allocTelemetry counter | allocAlert counter => exact ⟨rfl,rfl,fun _ => rfl⟩
  | enqueueTelemetry counter a =>
    refine ⟨by cases a <;> rfl,?_,rfl⟩
    simp only [↓reduceIte]
    split <;> rfl
  | enqueueAlert counter a => exact ⟨by cases a <;> rfl,rfl,rfl⟩
  | discard a => exact ⟨rfl,rfl⟩
  | readInterval counter => intro ms; rfl
  | sleep counter totalMs sleptMs =>
    simp only [Producer.code]
    split
    · intro stop; cases stop <;> rfl
    · rfl
  | slice counter totalMs sleptMs | done => rfl

theorem Consumer.moves (pc : Consumer.Pc) : (Consumer.code pc).Moves Consumer.held (Consumer.held pc) := by
  cases pc with
  | dequeueTelemetry | tryAlert => exact ⟨rfl,rfl,fun _ => rfl⟩
  | logTelemetry item | logAlert item | done => rfl
  | freeTelemetry item | freeAlert item => exact ⟨token_eq item,rfl⟩

theorem Worker.moves (pc : Worker.Pc) : (Worker.code pc).Moves Worker.held (Worker.held pc) := by
  cases pc with
  | dequeue => exact ⟨rfl,rfl,fun _ => rfl⟩
  | sequence raw => intro seq; rfl
  | time raw seq => intro ts; rfl
  | read raw seq ts | done => rfl
  | publish raw seq ts => intro subscribers; cases subscribers <;> rfl
  | fanOut raw seq ts subscribers =>
    cases subscribers with
    | nil => rfl
    | cons q rest => exact ⟨(pubItem_stack raw seq ts).1,(pubItem_stack raw seq ts).2,rfl⟩
  | release raw => exact ⟨token_eq raw,rfl⟩

theorem Command.moves (n : ℕ) (pc : Command.Pc) :
    (Command.code n pc).Moves Command.held (Command.held pc) := by
  cases pc with
  | poll buf =>
    simp only [Command.code]
    split
    · intro r
      cases r with
      | ready hangup => cases hangup <;> rfl
      | _ => rfl
    · rfl
  | timedOut buf | checkPeer buf => intro b; cases b <;> rfl
  | read buf =>
    intro r
    cases r with
    | byte b =>
      dsimp only
      split <;> rfl
    | _ => rfl
  | apply line =>
    show Command.held (Command.afterApply line) = none
    unfold Command.afterApply
    split <;> rfl
  | setInterval ms => rfl
  | allocAlert code antenna => exact ⟨rfl,rfl,fun a => by cases a <;> rfl⟩
  | enqueueAlert item => exact ⟨rfl,rfl,rfl⟩
  | dropAlert item => exact ⟨token_eq item,rfl⟩
  | logAlert item | clearPeer | done => rfl

theorem Transport.held_afterFormat (c : Transport.Client) (item : Item) (line : Bytes) :
    Transport.held (Transport.afterFormat c item line) = Item.token item := by
  unfold Transport.afterFormat
  split <;> rfl

theorem Transport.held_afterSubscribe (c : Transport.Client) :
    Transport.held (Transport.afterSubscribe c) = none := by
  unfold Transport.afterSubscribe
  split <;> rfl

theorem Transport.moves (pc : Transport.Pc) :
    (Transport.code pc).Moves Transport.held (Transport.held pc) := by
  cases pc with
  | handshake n h =>
    rcases Transport.handshake_op n h with ⟨next,hop,hnext⟩ | ⟨bytes,k,hop,hk⟩ | ⟨k,hop,hk⟩
    · rw [hop]
      rcases hnext with rfl | rfl | ⟨h',rfl⟩ <;> rfl
    · rw [hop]
      intro r
      obtain ⟨h',hr⟩ := hk r
      simp only [hr]
      rfl
    · rw [hop]
      intro r
      obtain ⟨h',hr⟩ := hk r
      simp only [hr]
      rfl
  | loop | allocArgs c | checkPeer c | checkStop c => intro b; cases b <;> rfl
  | pollListen => intro r; cases r <;> rfl
  | accept => intro n; cases n <;> rfl
  | createTelemetry n | createAlerts c | spawnListener c => intro b; rfl
  | subscribeTelemetry c =>
    simp only [Transport.code]
    split
    · intro b; rfl
    · rfl
  | subscribeAlerts c =>
    simp only [Transport.code]
    split
    · intro b; exact Transport.held_afterSubscribe _
    · exact Transport.held_afterSubscribe _
  | tryTelemetry c | tryAlerts c => exact ⟨rfl,rfl,fun _ => rfl⟩
  | formatTelemetry c item | formatAlert c item => exact Transport.held_afterFormat ..
  | write c item rest =>
    simp only [Transport.code, writeAll]
    split
    · rfl
    · intro r
      cases r with
      | wrote m =>
        dsimp only
        split <;> rfl
      | _ => rfl
  | release c item clientAlive => exact ⟨token_eq item,by cases clientAlive <;> rfl⟩
  | joinListener c | unsubscribeTelemetry c | unsubscribeAlerts c | destroyTelemetry c | destroyAlerts c =>
    simp only [Transport.code]
    split <;> rfl
  | declarePeer c | sleep c | clearPeer c | endPeer c | close n | done => rfl

theorem Main.moves (W : ℕ) (pc : Main.Pc) : (Main.code W pc).Moves (fun _ => none) none := by
  cases pc with
  | poolCreate context ingest control =>
    simp only [Main.code]
    split
    · intro b; rfl
    · rfl
  | workerArgs control i =>
    simp only [Main.code]
    split
    · intro b; rfl
    · rfl
  | joinWorkers started i =>
    simp only [Main.code]
    split <;> rfl
  | _ => first | rfl | (intro b; rfl)

/-- Every routine moves payloads by the rules. -/
theorem code_moves (W : ℕ) (t : Tid) (pc : Pc t) : (code W t pc).Moves (held t) (held t pc) := by
  cases t with
  | main => exact Main.moves W pc
  | producer => exact Producer.moves pc
  | worker i => exact Worker.moves pc
  | consumer => exact Consumer.moves pc
  | transport => exact Transport.moves pc
  | listener n => exact Command.moves n pc

theorem writeAll_reads (n : ℕ) (rest : Bytes) (again : Bytes → P) (written failed : P) :
    (writeAll n rest again written failed).reads = none := by
  unfold writeAll
  split <;> rfl

theorem Transport.reads (pc : Transport.Pc) :
    (Transport.code pc).reads = none ∨ (Transport.code pc).reads = Transport.held pc := by
  cases pc with
  | handshake n h =>
    rcases Transport.handshake_op n h with ⟨next,hop,_⟩ | ⟨bytes,k,hop,_⟩ | ⟨k,hop,_⟩
    · exact Or.inl (by rw [hop]; rfl)
    · exact Or.inl (by rw [hop]; rfl)
    · exact Or.inl (by rw [hop]; rfl)
  | formatTelemetry c item | formatAlert c item =>
    exact Or.inr ((reads_touch _ _).trans (token_eq item).symm)
  | write c item rest => exact Or.inl (writeAll_reads ..)
  | subscribeTelemetry c | subscribeAlerts c | joinListener c | unsubscribeTelemetry c | unsubscribeAlerts c
  | destroyTelemetry c | destroyAlerts c =>
    left
    simp only [Transport.code]
    split <;> rfl
  | _ => exact Or.inl rfl

/-- A payload is read by its owner, or by the command listener that logs it. -/
theorem code_reads (W : ℕ) (t : Tid) (pc : Pc t) {p : ℕ} (h : (code W t pc).reads = some p) :
    held t pc = some p ∨ unlogged t pc = some p := by
  cases t with
  | main =>
    change (Main.code W pc).reads = some p at h
    have hnone : (Main.code W pc).reads = none := by
      cases pc with
      | poolCreate context ingest control | workerArgs control i | joinWorkers started i =>
        simp only [Main.code]
        split <;> rfl
      | _ => rfl
    rw [hnone] at h
    cases h
  | producer =>
    change (Producer.code pc).reads = some p at h
    have hnone : (Producer.code pc).reads = none := by
      cases pc with
      | sleep counter totalMs sleptMs =>
        simp only [Producer.code]
        split <;> rfl
      | _ => rfl
    rw [hnone] at h
    cases h
  | worker i =>
    change (Worker.code pc).reads = some p at h
    cases pc with
    | read raw seq ts => exact Or.inl ((token_eq raw).trans ((reads_touch _ _).symm.trans h))
    | fanOut raw seq ts subscribers => cases subscribers <;> cases h
    | _ => cases h
  | consumer =>
    change (Consumer.code pc).reads = some p at h
    cases pc with
    | logTelemetry item | logAlert item =>
      exact Or.inl ((token_eq item).trans ((reads_touch _ _).symm.trans h))
    | _ => cases h
  | transport =>
    change (Transport.code pc).reads = some p at h
    rcases Transport.reads pc with hnone | hown
    · rw [hnone] at h
      cases h
    · exact Or.inl (hown.symm.trans h)
  | listener n =>
    change (Command.code n pc).reads = some p at h
    cases pc with
    | logAlert item => exact Or.inr ((token_eq item).trans ((reads_touch _ _).symm.trans h))
    | poll buf =>
      simp only [Command.code] at h
      split at h <;> cases h
    | _ => cases h

/-- A payload to be logged is one that the listener owned until it handed it over. -/
theorem code_leavesUnlogged (W : ℕ) (t : Tid) (pc : Pc t) :
    (code W t pc).LeavesUnlogged (unlogged t) (held t pc) := by
  have hnever : ∀ {P : Type} (op : Op P) (h : Option ℕ), op.LeavesUnlogged (fun _ => none) h := by
    intro P op h
    cases op <;> simp [Op.LeavesUnlogged, Op.All]
  cases t with
  | listener n =>
    change (Command.code n pc).LeavesUnlogged (unlogged (.listener n)) (Command.held pc)
    cases pc with
    | poll buf =>
      simp only [Command.code]
      split
      · intro r r' hr
        cases r with
        | ready hangup => cases hangup <;> cases hr
        | _ => cases hr
      · intro r hr
        cases hr
    | timedOut buf | checkPeer buf => intro b r hr; cases b <;> cases hr
    | read buf =>
      intro r r' hr
      cases r with
      | byte b =>
        dsimp only at hr
        split at hr <;> cases hr
      | _ => cases hr
    | apply line =>
      intro r hr
      change unlogged (.listener n) (Command.afterApply line) = some r at hr
      unfold Command.afterApply at hr
      split at hr <;> cases hr
    | allocAlert code antenna => intro a r hr; cases a <;> cases hr
    | enqueueAlert item =>
      intro ok r hr
      cases ok
      · cases hr
      · exact hr
    | dropAlert item => rfl
    | setInterval ms | logAlert item | clearPeer | done => intro r hr; cases hr
  | _ => exact hnever _ _

end Discipline

section Simulation
open Custody

def tokens (items : List Item) : List ℕ := items.filterMap Item.token

/-- The token machine's view of the shared state, given what each thread owns. -/
def custody (owned : Tid → Option ℕ) (sh : Shared) : Custody Tid QueueId :=
  ⟨owned,fun q => tokens (sh.contents q),sh.heap.next,sh.heap.frees⟩

theorem custody_setQueue (owned : Tid → Option ℕ) (sh : Shared) (q : QueueId) {state : QueueState}
    {items : List Item} (h : (sh.setQueue q state).contents q = items) :
    custody owned (sh.setQueue q state) = ⟨owned,Function.update (custody owned sh).stored q (tokens items),
      sh.heap.next,sh.heap.frees⟩ := by
  apply Custody.ext
  · rfl
  · funext q'
    dsimp only
    by_cases hq : q' = q
    · subst hq
      rw [Function.update_self]
      exact congrArg tokens h
    · rw [Function.update_of_ne hq]
      simp [custody, Shared.contents, Shared.ring, Shared.setQueue, hq]
  · rfl
  · rfl

variable {P : Type} {t : Tid} {sh sh' : Shared} {owned : Tid → Option ℕ}

theorem custody_same (h : sh'.queues = sh.queues) (hheap : sh'.heap = sh.heap) {own : Option ℕ}
    (hown : own = owned t) : custody (Function.update owned t own) sh' = custody owned sh := by
  subst hown
  simp only [custody, Function.update_eq_self, hheap, Shared.contents, Shared.ring, h]

/-- A successful enqueue deposits the payload, a refused one changes nothing. -/
theorem custody_enqueue {q : QueueId} {r : RingQueue Item} (hr : sh.ring q = some r) (item : Item)
    {held : P → Option ℕ} {k : Bool → P} (hitem : owned t = Item.token item) (htrue : held (k true) = none)
    (hfalse : held (k false) = owned t) :
    let c := custody owned sh
    let c' := custody (Function.update owned t (held (k (!r.full))))
      (sh.setQueue q (.live (r.tryEnqueue item).2))
    c' = c ∨ Move c c' := by
  intro c c'
  have hold : tokens r.contents = c.stored q := congrArg tokens (contents_of_ring hr).symm
  have hnew : c' = _ := custody_setQueue _ sh q (contents_setLive sh q _)
  rw [RingQueue.tryEnqueue_contents] at hnew
  cases hfull : r.full with
  | true =>
    left
    simp only [hfull, ↓reduceIte, hold, Bool.not_true, hfalse, Function.update_eq_self] at hnew
    rw [hnew]
    exact congrArg (fun s => Custody.mk owned s sh.heap.next sh.heap.frees) (Function.update_eq_self ..)
  | false =>
    simp only [hfull, Bool.false_eq_true, ↓reduceIte, Bool.not_false, htrue] at hnew
    cases htok : Item.token item with
    | none =>
      left
      have hsame : tokens (r.contents ++ [item]) = c.stored q := by
        rw [← hold]
        simp [tokens, htok]
      have hnone : (none : Option ℕ) = owned t := (hitem.trans htok).symm
      rw [hnew, hsame, hnone, Function.update_eq_self]
      exact congrArg (fun s => Custody.mk owned s sh.heap.next sh.heap.frees) (Function.update_eq_self ..)
    | some p =>
      right
      have hpush : tokens (r.contents ++ [item]) = c.stored q ++ [p] := by
        rw [← hold]
        simp [tokens, htok]
      rw [hnew, hpush]
      exact .deposit c t q p (hitem.trans htok)

/-- A successful dequeue withdraws the payload. -/
theorem custody_dequeue {q : QueueId} {r : RingQueue Item} (hr : sh.ring q = some r)
    {held : P → Option ℕ} {k : Option Item → P} (hnone : owned t = none) (hempty : held (k none) = none)
    (hitem : ∀ item, held (k (some item)) = Item.token item) :
    let c := custody owned sh
    let c' := custody (Function.update owned t (held (k r.contents.head?))) (sh.takeFrom q r.tryDequeue)
    c' = c ∨ Move c c' := by
  intro c c'
  have hold : tokens r.contents = c.stored q := congrArg tokens (contents_of_ring hr).symm
  have hnew : c' = _ := custody_setQueue _ sh q (contents_setLive sh q _)
  rw [RingQueue.tryDequeue_contents] at hnew
  cases hc : r.contents with
  | nil =>
    left
    rw [hc] at hold
    simp only [hc, List.tail_nil, List.head?_nil, hempty, ← hnone, Function.update_eq_self, hold] at hnew
    rw [hnew]
    exact congrArg (fun s => Custody.mk owned s sh.heap.next sh.heap.frees) (Function.update_eq_self ..)
  | cons item rest =>
    rw [hc] at hold
    simp only [hc, List.tail_cons, List.head?_cons, hitem] at hnew
    cases htok : Item.token item with
    | none =>
      left
      have hsame : tokens rest = c.stored q := by
        rw [← hold]
        simp [tokens, htok]
      rw [hnew, htok, hsame, ← hnone, Function.update_eq_self]
      exact congrArg (fun s => Custody.mk owned s sh.heap.next sh.heap.frees) (Function.update_eq_self ..)
    | some p =>
      right
      have hcons : c.stored q = p :: tokens rest := by
        rw [← hold]
        simp [tokens, htok]
      rw [hnew, htok]
      exact .withdraw c t q p _ hnone hcons

/-- Delivery copies a payload that is not itself on the heap: the copy goes into
the queue, is freed when the queue is full, or was never made. -/
theorem custody_deliver {q : QueueId} {r : RingQueue Item} (hr : sh.ring q = some r) {item : Item}
    (hstack : ∃ frame content, item.payload = some ⟨.stack frame,content⟩) (hlength : 0 < item.length)
    (ok : Bool) :
    let c := custody owned sh
    let c' := custody owned
      { sh.setQueue q (.live (deliver item ok r sh.heap).2.1) with heap := (deliver item ok r sh.heap).2.2 }
    c' = c ∨ Move c c' := by
  intro c c'
  obtain ⟨frame,content,hpayload⟩ := hstack
  have hold : tokens r.contents = c.stored q := congrArg tokens (contents_of_ring hr).symm
  have hnew : c' = ⟨owned,Function.update c.stored q (tokens (deliver item ok r sh.heap).2.1.contents),
      (deliver item ok r sh.heap).2.2.next,(deliver item ok r sh.heap).2.2.frees⟩ := by
    have hset := custody_setQueue owned sh q (contents_setLive sh q (deliver item ok r sh.heap).2.1)
    exact congrArg (fun c : Custody Tid QueueId => Custody.mk c.held c.stored
      (deliver item ok r sh.heap).2.2.next (deliver item ok r sh.heap).2.2.frees) hset
  have hsame : Function.update c.stored q (tokens r.contents) = c.stored := by
    rw [hold]
    exact Function.update_eq_self ..
  cases ok with
  | false =>
    left
    have hd : deliver item false r sh.heap = (false,r,sh.heap) := by
      simp [deliver, cloneItem, hpayload, hlength]
    rw [hnew, hd, hsame]
    rfl
  | true =>
    right
    cases hfull : r.full with
    | true =>
      have hd : deliver item true r sh.heap =
          (false,r,(sh.heap.malloc.2).free (.heap sh.heap.next)) := by
        simp [deliver, cloneItem, hpayload, hlength, RingQueue.tryEnqueue_of_full, hfull, MsgItem.addr,
          Heap.malloc]
      rw [hnew, hd, hsame]
      exact .copyDropped c
    | false =>
      have hd : ∃ clone, Item.token clone = some sh.heap.next ∧
          deliver item true r sh.heap = (true,(r.tryEnqueue clone).2,sh.heap.malloc.2) := by
        refine ⟨{ item with payload := some ⟨.heap sh.heap.next,content⟩ },rfl,?_⟩
        have hfst := r.tryEnqueue_fst { item with payload := some ⟨.heap sh.heap.next,content⟩ }
        simp only [deliver, cloneItem, hpayload, hlength, ↓reduceIte, Heap.malloc]
        generalize r.tryEnqueue { item with payload := some ⟨.heap sh.heap.next,content⟩ } = e at hfst
        obtain ⟨ok,r'⟩ := e
        simp only [hfull, Bool.not_false] at hfst
        subst hfst
        rfl
      obtain ⟨clone,htok,hd⟩ := hd
      have hpush : tokens (r.contents ++ [clone]) = c.stored q ++ [c.next] := by
        rw [← hold]
        simp [tokens, htok]
        rfl
      rw [hnew, hd]
      simp only [RingQueue.tryEnqueue_contents, hfull, Bool.false_eq_true, ↓reduceIte, hpush]
      exact .copy c q

/-- One operation of a disciplined thread is a move of the token machine, or none. -/
theorem Effect.custody {op : Op P} {p : P} (h : Effect t sh op p sh') {held : P → Option ℕ}
    (hmoves : op.Moves held (owned t)) :
    Process.custody (Function.update owned t (held p)) sh' = Process.custody owned sh ∨
      Move (Process.custody owned sh) (Process.custody (Function.update owned t (held p)) sh') := by
  cases h with
  | allocated k =>
    obtain ⟨hnone,_,hsome⟩ := hmoves
    rw [hsome]
    exact Or.inr (.allocate (Process.custody owned sh) t hnone)
  | notAllocated k => exact Or.inl (custody_same rfl rfl (hmoves.2.1.trans hmoves.1.symm))
  | freedNull next => exact Or.inl (custody_same rfl rfl (hmoves.2.trans hmoves.1.symm))
  | freed a next =>
    obtain ⟨hown,hnext⟩ := hmoves
    cases a with
    | stack frame => exact Or.inl (custody_same rfl rfl (hnext.trans hown.symm))
    | heap r =>
      rw [hnext]
      exact Or.inr (.release (Process.custody owned sh) t r hown)
  | queueCreated q k =>
    right
    rw [show held (k true) = owned t from hmoves true, Function.update_eq_self,
      custody_setQueue owned sh q (contents_setLive sh q newQueue)]
    exact .discard (Process.custody owned sh) q
  | queueDestroyed q next r hr =>
    right
    rw [show held p = owned t from hmoves, Function.update_eq_self,
      custody_setQueue owned sh q (contents_setDestroyed sh q)]
    exact .discard (Process.custody owned sh) q
  | queueShutdown q next r hr =>
    left
    have hsame : tokens r.contents = (Process.custody owned sh).stored q :=
      congrArg tokens (contents_of_ring hr).symm
    rw [show held p = owned t from hmoves, Function.update_eq_self,
      custody_setQueue owned sh q (contents_setLive sh q _), RingQueue.shutdown_contents, hsame]
    exact congrArg (fun s => Custody.mk owned s sh.heap.next sh.heap.frees) (Function.update_eq_self ..)
  | enqueue q item k r hr hopen => exact custody_enqueue hr item hmoves.1 hmoves.2.1 hmoves.2.2
  | tryEnqueue q item k r hr => exact custody_enqueue hr item hmoves.1 hmoves.2.1 hmoves.2.2
  | dequeue q k r hr hopen => exact custody_dequeue hr hmoves.1 hmoves.2.1 hmoves.2.2
  | tryDequeue q k r hr => exact custody_dequeue hr hmoves.1 hmoves.2.1 hmoves.2.2
  | deliver q item next r hr ok =>
    obtain ⟨hstack,hlength,hnext⟩ := hmoves
    rw [hnext, Function.update_eq_self]
    exact custody_deliver hr hstack hlength ok
  | _ => first
    | exact Or.inl (custody_same rfl rfl hmoves)
    | exact Or.inl (custody_same rfl rfl (hmoves _))

theorem cloneItem_heap {item clone : Item} {ok : Bool} {h h' : Heap}
    (hc : cloneItem item ok h = some (clone,h')) : h'.frees = h.frees ∧ h.next ≤ h'.next ∧
      (clone.addr = item.addr ∨ clone.addr = some (.heap h.next)) := by
  unfold cloneItem at hc
  split at hc
  · cases hc
    exact ⟨rfl,le_rfl,Or.inl rfl⟩
  · split at hc
    · split at hc
      · cases hc
        exact ⟨rfl,Nat.le_succ _,Or.inr rfl⟩
      · cases hc
    · cases hc
      exact ⟨rfl,le_rfl,Or.inl rfl⟩

/-- Delivery frees nothing that was allocated before. -/
theorem deliver_frees (item : Item) (ok : Bool) (r : RingQueue Item) (h : Heap) {p : ℕ} (hp : p < h.next) :
    (deliver item ok r h).2.2.frees p = h.frees p ∧ h.next ≤ (deliver item ok r h).2.2.next := by
  unfold deliver
  split
  · exact ⟨rfl,le_rfl⟩
  · rename_i clone h' hc
    obtain ⟨hfrees,hnext,haddr⟩ := cloneItem_heap hc
    have hkeep : h'.frees p = h.frees p ∧ h.next ≤ h'.next := ⟨congrFun hfrees p,hnext⟩
    split
    · exact hkeep
    · split
      · exact hkeep
      · rename_i a ha
        split
        · rename_i hne
          have hheap : a = .heap h.next := by
            rcases haddr with heq | heq
            · exact absurd heq hne
            · exact Option.some.inj (ha.symm.trans heq)
          subst hheap
          exact ⟨(Function.update_of_ne (Nat.ne_of_lt hp) ..).trans hkeep.1,hnext⟩
        · exact hkeep

/-- Only the operation that frees a block changes its count, once it is allocated. -/
theorem Effect.frees_eq {op : Op P} {p : P} (h : Effect t sh op p sh') {r : ℕ} (hr : r < sh.heap.next)
    (hop : op.releases ≠ some r) : sh'.heap.frees r = sh.heap.frees r ∧ sh.heap.next ≤ sh'.heap.next := by
  cases h with
  | freed a next =>
    cases a with
    | stack frame => exact ⟨rfl,le_rfl⟩
    | heap p => exact ⟨Function.update_of_ne (fun heq => hop (congrArg some heq.symm)) ..,le_rfl⟩
  | allocated k => exact ⟨rfl,Nat.le_succ _⟩
  | deliver q item next ring hring ok => exact deliver_frees item ok ring sh.heap hr
  | _ => exact ⟨rfl,le_rfl⟩

theorem Effect.released {op : Op P} {p : P} (h : Effect t sh op p sh') {r : ℕ}
    (hop : op.releases = some r) : sh'.heap.frees r = sh.heap.frees r + 1 := by
  cases h with
  | freed a next =>
    cases a with
    | stack frame => cases hop
    | heap p =>
      cases hop
      exact Function.update_self ..
  | _ => cases hop

theorem Effect.unlogged {op : Op P} {p : P} (h : Effect t sh op p sh') {unlogged : P → Option ℕ}
    {own : Option ℕ} (hop : op.LeavesUnlogged unlogged own) {r : ℕ} (hr : unlogged p = some r) :
    own = some r ∧ op.releases = none := by
  have hall : op.releases = none ∧ op.All (fun p => ∀ r, unlogged p = some r → own = some r) := by
    cases h with
    | freed a next | freedNull next =>
      rw [show unlogged p = none from hop] at hr
      cases hr
    | _ => exact ⟨rfl,hop⟩
  exact ⟨h.all hall.2 r hr,hall.1⟩

end Simulation

section System
variable {W : ℕ} {s s' : System} {t : Tid} {c : Choice}

def System.owned (s : System) (t : Tid) : Option ℕ := held t (s.pcs t)

def System.custody (s : System) : Custody Tid QueueId := Process.custody s.owned s.shared

theorem owned_update (s : System) (t : Tid) (p : Pc t) (sh' : Shared) :
    System.owned ⟨Function.update s.pcs t p,sh'⟩ = Function.update s.owned t (held t p) := by
  funext t'
  unfold System.owned
  by_cases ht : t' = t
  · subst ht
    simp
  · simp [ht]

theorem step_custody (h : step W s t c = some s') :
    s'.custody = s.custody ∨ Custody.Move s.custody s'.custody := by
  obtain ⟨_,p,sh',hexec,rfl⟩ := step_inversion h
  unfold System.custody
  rw [owned_update]
  exact (exec_effect hexec).custody (code_moves W t (s.pcs t))

theorem step_sound (hs : s.custody.Sound) (h : step W s t c = some s') : s'.custody.Sound := by
  rcases step_custody h with heq | hmove
  · rw [heq]
    exact hs
  · exact hmove.sound hs

theorem initial_sound : System.initial.custody.Sound := by
  have hempty : System.initial.custody = Custody.empty := by
    apply Custody.ext
    · funext t
      cases t <;> rfl
    · rfl
    · rfl
    · rfl
  rw [hempty]
  exact Custody.empty_sound

theorem run_sound {schedule : List (Tid × Choice)} (hs : s.custody.Sound)
    (h : run W s schedule = some s') : s'.custody.Sound := by
  induction schedule generalizing s with
  | nil => cases h; exact hs
  | cons a rest ih =>
    obtain ⟨m,hm,hrest⟩ := Option.bind_eq_some_iff.mp h
    exact ih (step_sound hs hm) hrest

def LogsSafe (s : System) : Prop :=
  ∀ t p, unlogged t (s.pcs t) = some p → p < s.shared.heap.next ∧ s.shared.heap.frees p = 0

/-- The next operation of thread `t` frees a payload that a command listener is
about to read for its log line. -/
def FreesUnlogged (W : ℕ) (s : System) (t : Tid) : Prop :=
  ∃ n p, (s.op W t).releases = some p ∧ (s.op W (.listener n)).reads = some p

def ReadsSafe (W : ℕ) (s : System) : Prop :=
  ∀ t p, (s.op W t).reads = some p → s.shared.heap.frees p = 0

theorem reads_of_unlogged {p : ℕ} (h : unlogged t (s.pcs t) = some p) :
    ∃ n, t = .listener n ∧ (s.op W t).reads = some p := by
  cases t with
  | listener n =>
    refine ⟨n,rfl,?_⟩
    unfold System.op
    generalize s.pcs (.listener n) = pc at h
    cases pc with
    | logAlert item => exact (reads_touch _ _).trans ((token_eq item).symm.trans h)
    | _ => cases h
  | _ => cases h

theorem readsSafe_of_logsSafe (hs : s.custody.Sound) (hlogs : LogsSafe s) : ReadsSafe W s := by
  intro t p hp
  rcases code_reads W t (s.pcs t) hp with hown | hlog
  · exact (hs.held_fresh hown).2
  · exact (hlogs t p hlog).2

theorem step_logsSafe (hs : s.custody.Sound) (hlogs : LogsSafe s) (h : step W s t c = some s')
    (hrace : ¬ FreesUnlogged W s t) : LogsSafe s' := by
  obtain ⟨_,pc,sh',hexec,rfl⟩ := step_inversion h
  have heff := exec_effect hexec
  intro t' p hp
  by_cases ht : t' = t
  · -- the stepping thread has just handed the payload over
    subst ht
    simp only [Function.update_self] at hp
    obtain ⟨hown,hop⟩ := heff.unlogged (code_leavesUnlogged W t' (s.pcs t')) hp
    obtain ⟨hlt,hzero⟩ := hs.held_fresh (t := t') hown
    obtain ⟨hfrees,hnext⟩ := heff.frees_eq hlt (fun h => by
      rw [show (s.op W t').releases = none from hop] at h
      cases h)
    exact ⟨hlt.trans_le hnext,hfrees.trans hzero⟩
  · simp only [Function.update_of_ne ht] at hp
    obtain ⟨hlt,hzero⟩ := hlogs t' p hp
    obtain ⟨n,rfl,hreads⟩ := reads_of_unlogged (W := W) hp
    obtain ⟨hfrees,hnext⟩ := heff.frees_eq hlt (fun h => hrace ⟨n,p,h,hreads⟩)
    exact ⟨hlt.trans_le hnext,hfrees.trans hzero⟩

theorem initial_logsSafe : LogsSafe .initial := by
  intro t p hp
  cases t <;> cases hp

theorem step_of_freesUnlogged (h : step W s t c = some s') (hrace : FreesUnlogged W s t) :
    ¬ ReadsSafe W s' := by
  obtain ⟨n,p,hreleases,hreads⟩ := hrace
  obtain ⟨_,pc,sh',hexec,rfl⟩ := step_inversion h
  have hne : (.listener n : Tid) ≠ t := by
    intro heq
    subst heq
    rcases releases_or_reads (s.op W (.listener n)) with hnone | hnone
    · rw [hnone] at hreleases
      cases hreleases
    · rw [hnone] at hreads
      cases hreads
  have hfreed := (exec_effect hexec).released hreleases
  intro hsafe
  have hop : System.op W ⟨Function.update s.pcs t pc,sh'⟩ (.listener n) = s.op W (.listener n) := by
    simp only [System.op, Function.update_of_ne hne]
  have hzero : sh'.heap.frees p = 0 := hsafe (.listener n) p (hop ▸ hreads)
  omega

/-- Payloads over every schedule of the process. No payload is ever freed twice.
No thread ever reads a freed payload exactly when no step of the schedule frees
the payload of a triggered alert in the window between the listener's
successful enqueue and its log line. -/
theorem payload_reads_safe_iff (W : ℕ) (schedule : List (Tid × Choice)) :
    (∀ pre s, pre <+: schedule → run W .initial pre = some s → ∀ p, s.shared.heap.frees p ≤ 1) ∧
    ((∀ pre s, pre <+: schedule → run W .initial pre = some s → ReadsSafe W s) ↔
      ∀ pre t c s s', pre ++ [(t,c)] <+: schedule → run W .initial pre = some s →
        step W s t c = some s' → ¬ FreesUnlogged W s t) := by
  refine ⟨fun pre s _ hrun p => (run_sound initial_sound hrun).frees_le p,?_,?_⟩
  · intro hsafe pre t c s s' hpre hrun hstep hrace
    have hrun' : run W .initial (pre ++ [(t,c)]) = some s' := by
      simp [run_append, hrun, run, hstep]
    exact step_of_freesUnlogged hstep hrace (hsafe _ s' hpre hrun')
  · intro hrace pre s hpre hrun
    have hlogs := run_induction (I := fun pre s => pre <+: schedule → LogsSafe s) (fun _ => initial_logsSafe)
      (fun pre m t c s hm hstep ih hpre => step_logsSafe (run_sound initial_sound hm)
        (ih ((List.prefix_append pre _).trans hpre)) hstep (hrace pre t c m s hpre hm hstep)) hrun hpre
    exact readsSafe_of_logsSafe (run_sound initial_sound hrun) hlogs

/-- A client triggers an alert and a worker publishes and frees it before the
listener has written its log line, which then reads the freed block. -/
theorem listener_reads_freed_payload :
    ∃ s, run Main.workerPoolDefaultSize .initial (startUp ++ connect ++ command (ascii "TRIGGER_ALERT X 1\n") ++
        proceed (.listener 0) 2 ++ workerTurn 0 2) = some s ∧
      s.Running (.listener 0) ∧ (s.op Main.workerPoolDefaultSize (.listener 0)).reads = some 0 ∧
      s.shared.heap.frees 0 = 1 ∧ ¬ ReadsSafe Main.workerPoolDefaultSize s := by
  have heval : ((run Main.workerPoolDefaultSize .initial
      (startUp ++ connect ++ command (ascii "TRIGGER_ALERT X 1\n") ++ proceed (.listener 0) 2 ++
        workerTurn 0 2)).map fun s => (decide (s.Running (.listener 0)),
          (s.op Main.workerPoolDefaultSize (.listener 0)).reads,s.shared.heap.frees 0)) =
      some (true,some 0,1) := by decide +kernel
  obtain ⟨s,hrun,hs⟩ := Option.map_eq_some_iff.mp heval
  obtain ⟨hrunning,hrest⟩ := Prod.mk.inj hs
  obtain ⟨hreads,hfrees⟩ := Prod.mk.inj hrest
  refine ⟨s,hrun,of_decide_eq_true hrunning,hreads,hfrees,?_⟩
  intro hsafe
  have hzero := hsafe _ _ hreads
  omega

end System

end RadioSim.Process
