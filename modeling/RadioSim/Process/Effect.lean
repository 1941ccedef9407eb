import RadioSim.Process.Machine

/-! # What one operation can do

`Effect` lists every outcome of an operation: the program point it continues at
and the shared state it leaves. The lemmas below it say which operations can
change which part of the shared state.
-/
namespace RadioSim.Process
open Pubsub Queue
variable {P : Type}

inductive Effect (t : Tid) (sh : Shared) : Op P → P → Shared → Prop
  | tau (next : P) : Effect t sh (.tau next) next sh
  | choose (k : Bool → P) (b : Bool) : Effect t sh (.choose k) (k b) sh
  | ret (next : P) : Effect t sh (.ret next) next (sh.setStatus t .returned)
  | exit (next : P) : Effect t sh (.exit next) next { sh with exited := true }
  | spawned (child : Tid) (k : Bool → P) :
      Effect t sh (.spawn child k) (k true) (sh.setStatus child .running)
  | notSpawned (child : Tid) (k : Bool → P) : Effect t sh (.spawn child k) (k false) sh
  | joined (child : Tid) (next : P) (h : sh.status child = .returned) :
      Effect t sh (.join child next) next sh
  | shutdownRequested (k : Bool → P) : Effect t sh (.shutdownRequested k) (k sh.stop) sh
  | shutdownRequest (next : P) : Effect t sh (.shutdownRequest next) next { sh with stop := true }
  | allocated (k : Option Addr → P) :
      Effect t sh (.malloc k) (k (some (.heap sh.heap.next))) { sh with heap := sh.heap.malloc.2 }
  | notAllocated (k : Option Addr → P) : Effect t sh (.malloc k) (k none) sh
  | freedNull (next : P) : Effect t sh (.free none next) next sh
  | freed (a : Addr) (next : P) : Effect t sh (.free (some a) next) next { sh with heap := sh.heap.free a }
  | touched (a : Addr) (next : P) : Effect t sh (.touch (some a) next) next sh
  | queueCreated (q : QueueId) (k : Bool → P) :
      Effect t sh (.queueCreate q k) (k true) (sh.setQueue q (.live newQueue))
  | queueNotCreated (q : QueueId) (k : Bool → P) : Effect t sh (.queueCreate q k) (k false) sh
  | queueDestroyed (q : QueueId) (next : P) (r : RingQueue Item) (h : sh.ring q = some r) :
      Effect t sh (.queueDestroy q next) next (sh.setQueue q .destroyed)
  | queueShutdown (q : QueueId) (next : P) (r : RingQueue Item) (h : sh.ring q = some r) :
      Effect t sh (.queueShutdown q next) next (sh.setQueue q (.live r.shutdown))
  | enqueue (q : QueueId) (item : Item) (k : Bool → P) (r : RingQueue Item) (h : sh.ring q = some r)
      (hopen : (r.full && !r.closed) = false) :
      Effect t sh (.enqueue q item k) (k (!r.full)) (sh.setQueue q (.live (r.tryEnqueue item).2))
  | tryEnqueue (q : QueueId) (item : Item) (k : Bool → P) (r : RingQueue Item) (h : sh.ring q = some r) :
      Effect t sh (.tryEnqueue q item k) (k (!r.full)) (sh.setQueue q (.live (r.tryEnqueue item).2))
  | dequeue (q : QueueId) (k : Option Item → P) (r : RingQueue Item) (h : sh.ring q = some r)
      (hopen : (r.contents.isEmpty && !r.closed) = false) :
      Effect t sh (.dequeue q k) (k r.contents.head?) (sh.takeFrom q r.tryDequeue)
  | tryDequeue (q : QueueId) (k : Option Item → P) (r : RingQueue Item) (h : sh.ring q = some r) :
      Effect t sh (.tryDequeue q k) (k r.contents.head?) (sh.takeFrom q r.tryDequeue)
  | subscribe (topic : CString) (q : QueueId) (k : Bool → P) (h : sh.registryLock = none) :
      Effect t sh (.subscribe topic q k) (k (decide ((pubsubSubscribe sh.registry topic q).1 = 0)))
        { sh with registry := (pubsubSubscribe sh.registry topic q).2 }
  | subscribeFailed (topic : CString) (q : QueueId) (k : Bool → P) (h : sh.registryLock = none) :
      Effect t sh (.subscribe topic q k) (k false) sh
  | unsubscribe (topic : CString) (q : QueueId) (next : P) (h : sh.registryLock = none) :
      Effect t sh (.unsubscribe topic q next) next
        { sh with registry := (pubsubUnsubscribe sh.registry topic q).2 }
  | publishNone (topic : CString) (item : Item) (k : Option (List QueueId) → P) (h : sh.registryLock = none)
      (hl : findOrCreateTopic sh.registry topic = none) : Effect t sh (.publishBegin topic item k) (k none) sh
  | publishBegin (topic : CString) (item : Item) (k : Option (List QueueId) → P) (h : sh.registryLock = none)
      (l : Located QueueId) (hl : findOrCreateTopic sh.registry topic = some l) :
      Effect t sh (.publishBegin topic item k) (k (some l.entry.subscribers))
        { sh with registry := l.registry, registryLock := some t }
  | deliver (q : QueueId) (item : Item) (next : P) (r : RingQueue Item) (h : sh.ring q = some r) (ok : Bool) :
      Effect t sh (.deliver q item next) next
        { sh.setQueue q (.live (deliver item ok r sh.heap).2.1) with heap := (deliver item ok r sh.heap).2.2 }
  | publishEnd (next : P) : Effect t sh (.publishEnd next) next { sh with registryLock := none }
  | nextSequence (k : UInt32 → P) :
      Effect t sh (.nextSequence k) (k sh.nextSeq) { sh with nextSeq := sh.nextSeq + 1 }
  | time (k : Int64 → P) (ts : Int64) : Effect t sh (.time k) (k ts) sh
  | getInterval (k : UInt32 → P) : Effect t sh (.getInterval k) (k sh.intervalMs) sh
  | setInterval (ms : UInt32) (next : P) :
      Effect t sh (.setInterval ms next) next { sh with intervalMs := if ms = 0 then sh.intervalMs else ms }
  | poll (k : PollResult → P) (r : PollResult) : Effect t sh (.poll k) (k r) sh
  | accepted (k : Option ℕ → P) :
      Effect t sh (.accept k) (k (some sh.accepted))
        { sh.setConn sh.accepted ⟨true,[],[],false,false,[]⟩ with accepted := sh.accepted + 1 }
  | notAccepted (k : Option ℕ → P) : Effect t sh (.accept k) (k none) sh
  | readByte (n : ℕ) (k : ReadResult → P) (b : Byte) :
      Effect t sh (.sockRead n k) (k (.byte b))
        (sh.setConn n { sh.conns n with consumed := (sh.conns n).consumed ++ [b] })
  | readNothing (n : ℕ) (k : ReadResult → P) (r : ReadResult) (h : ∀ b, r ≠ .byte b) :
      Effect t sh (.sockRead n k) (k r) sh
  | wrote (n : ℕ) (bytes : Bytes) (k : WriteResult → P) (m : ℕ) (h : m ≤ bytes.length) :
      Effect t sh (.sockWrite n bytes k) (k (.wrote m))
        (sh.setConn n { sh.conns n with output := (sh.conns n).output ++ bytes.take m })
  | wroteNothing (n : ℕ) (bytes : Bytes) (k : WriteResult → P) (r : WriteResult) (h : ∀ m, r ≠ .wrote m) :
      Effect t sh (.sockWrite n bytes k) (k r) sh
  | close (n : ℕ) (next : P) :
      Effect t sh (.close n next) next (sh.setConn n { sh.conns n with fdOpen := false })
  | peerDeclare (n : ℕ) (next : P) :
      Effect t sh (.peerDeclare n next) next
        (sh.setConn n { sh.conns n with peerInScope := true, peerAlive := true })
  | peerRead (n : ℕ) (k : Bool → P) : Effect t sh (.peerRead n k) (k (sh.conns n).peerAlive) sh
  | peerClear (n : ℕ) (next : P) :
      Effect t sh (.peerClear n next) next (sh.setConn n { sh.conns n with peerAlive := false })
  | peerEnd (n : ℕ) (next : P) :
      Effect t sh (.peerEnd n next) next (sh.setConn n { sh.conns n with peerInScope := false })
  | noteApplied (n : ℕ) (line : CString) (next : P) :
      Effect t sh (.noteApplied n line next) next
        (sh.setConn n { sh.conns n with applied := (sh.conns n).applied ++ [line] })

section Inversion
variable {t : Tid} {c : Choice} {sh sh' : Shared} {p : P}

theorem exec_enqueue {q : QueueId} {item : Item} {k : Bool → P}
    (h : exec t c sh (.enqueue q item k) = some (p,sh')) : Effect t sh (.enqueue q item k) p sh' := by
  obtain ⟨r,hr,h⟩ := Option.bind_eq_some_iff.mp h
  obtain ⟨e,he,h⟩ := Option.map_eq_some_iff.mp h
  rw [RingQueue.enqueue_eq] at he
  cases hopen : (r.full && !r.closed) <;> simp only [hopen, Bool.false_eq_true, ↓reduceIte] at he
  · cases he
    obtain ⟨hp,hs⟩ := Prod.mk.inj h
    rw [← hp, ← hs, RingQueue.tryEnqueue_fst]
    exact .enqueue q item k r hr hopen
  · cases he

theorem exec_dequeue {q : QueueId} {k : Option Item → P}
    (h : exec t c sh (.dequeue q k) = some (p,sh')) : Effect t sh (.dequeue q k) p sh' := by
  obtain ⟨r,hr,h⟩ := Option.bind_eq_some_iff.mp h
  obtain ⟨d,hd,h⟩ := Option.map_eq_some_iff.mp h
  rw [RingQueue.dequeue_eq] at hd
  cases hopen : (r.contents.isEmpty && !r.closed) <;> simp only [hopen, Bool.false_eq_true, ↓reduceIte] at hd
  · cases hd
    obtain ⟨hp,hs⟩ := Prod.mk.inj h
    rw [← hp, ← hs, RingQueue.tryDequeue_fst]
    exact .dequeue q k r hr hopen
  · cases hd

/-- A step of the machine is one of the listed effects. -/
theorem exec_effect {op : Op P} (h : exec t c sh op = some (p,sh')) : Effect t sh op p sh' := by
  cases op with
  | tau next => cases h; exact .tau _
  | choose k =>
    cases c with
    | ok => cases h; exact .choose k true
    | fail => cases h; exact .choose k false
    | _ => cases h
  | ret next => cases h; exact .ret _
  | exit next => cases h; exact .exit _
  | spawn child k =>
    cases c with
    | ok => cases h; exact .spawned child k
    | fail => cases h; exact .notSpawned child k
    | _ => cases h
  | join child next =>
    simp only [exec] at h
    split at h
    · rename_i hret
      cases h
      exact .joined child _ hret
    · cases h
  | shutdownRequested k => cases h; exact .shutdownRequested k
  | shutdownRequest next => cases h; exact .shutdownRequest _
  | malloc k =>
    cases c with
    | ok => cases h; exact .allocated k
    | fail => cases h; exact .notAllocated k
    | _ => cases h
  | free a next =>
    cases a with
    | none => cases h; exact .freedNull _
    | some a => cases h; exact .freed a _
  | touch a next =>
    cases a with
    | none => cases h
    | some a => cases h; exact .touched a _
  | queueCreate q k =>
    cases c with
    | ok => cases h; exact .queueCreated q k
    | fail => cases h; exact .queueNotCreated q k
    | _ => cases h
  | queueDestroy q next =>
    obtain ⟨r,hr,h⟩ := Option.map_eq_some_iff.mp h
    cases h
    exact .queueDestroyed q _ r hr
  | queueShutdown q next =>
    obtain ⟨r,hr,h⟩ := Option.map_eq_some_iff.mp h
    cases h
    exact .queueShutdown q _ r hr
  | enqueue q item k => exact exec_enqueue h
  | tryEnqueue q item k =>
    obtain ⟨r,hr,h⟩ := Option.map_eq_some_iff.mp h
    obtain ⟨hp,hs⟩ := Prod.mk.inj h
    rw [← hp, ← hs, RingQueue.tryEnqueue_fst]
    exact .tryEnqueue q item k r hr
  | dequeue q k => exact exec_dequeue h
  | tryDequeue q k =>
    obtain ⟨r,hr,h⟩ := Option.map_eq_some_iff.mp h
    obtain ⟨hp,hs⟩ := Prod.mk.inj h
    rw [← hp, ← hs, RingQueue.tryDequeue_fst]
    exact .tryDequeue q k r hr
  | subscribe topic q k =>
    simp only [exec] at h
    split at h
    · rename_i hlock
      cases c with
      | ok => cases h; exact .subscribe topic q k hlock
      | fail => cases h; exact .subscribeFailed topic q k hlock
      | _ => cases h
    · cases h
  | unsubscribe topic q next =>
    simp only [exec] at h
    split at h
    · rename_i hlock
      cases h
      exact .unsubscribe topic q _ hlock
    · cases h
  | publishBegin topic item k =>
    simp only [exec] at h
    split at h
    · rename_i hlock
      cases hl : findOrCreateTopic sh.registry topic with
      | none =>
        simp only [hl] at h
        cases h
        exact .publishNone topic item k hlock hl
      | some l =>
        simp only [hl] at h
        cases h
        exact .publishBegin topic item k hlock l hl
    · cases h
  | deliver q item next =>
    obtain ⟨r,hr,h⟩ := Option.bind_eq_some_iff.mp h
    cases c with
    | ok => cases h; exact .deliver q item _ r hr true
    | fail => cases h; exact .deliver q item _ r hr false
    | _ => cases h
  | publishEnd next => cases h; exact .publishEnd _
  | nextSequence k => cases h; exact .nextSequence k
  | time k =>
    cases c with
    | clock ts => cases h; exact .time k ts
    | _ => cases h
  | getInterval k => cases h; exact .getInterval k
  | setInterval ms next =>
    obtain ⟨hp,hs⟩ := Prod.mk.inj (Option.some.inj h)
    have heq : sh' = { sh with intervalMs := if ms = 0 then sh.intervalMs else ms } := by
      rw [← hs]
      split <;> rfl
    rw [← hp, heq]
    exact .setInterval ms _
  | poll k =>
    cases c with
    | poll r => cases h; exact .poll k r
    | _ => cases h
  | accept k =>
    cases c with
    | ok => cases h; exact .accepted k
    | fail => cases h; exact .notAccepted k
    | _ => cases h
  | sockRead n k =>
    cases c with
    | read r =>
      cases r with
      | byte b => cases h; exact .readByte n k b
      | eof => cases h; exact .readNothing n k .eof (fun b hb => by cases hb)
      | eintr => cases h; exact .readNothing n k .eintr (fun b hb => by cases hb)
      | error => cases h; exact .readNothing n k .error (fun b hb => by cases hb)
    | _ => cases h
  | sockWrite n bytes k =>
    cases c with
    | write r =>
      cases r with
      | wrote m =>
        simp only [exec] at h
        split at h
        · rename_i hm
          cases h
          exact .wrote n bytes k m hm
        · cases h
      | eintr => cases h; exact .wroteNothing n bytes k .eintr (fun m hm => by cases hm)
      | error => cases h; exact .wroteNothing n bytes k .error (fun m hm => by cases hm)
    | _ => cases h
  | close n next => cases h; exact .close n _
  | peerDeclare n next => cases h; exact .peerDeclare n _
  | peerRead n k => cases h; exact .peerRead n k
  | peerClear n next => cases h; exact .peerClear n _
  | peerEnd n next => cases h; exact .peerEnd n _
  | noteApplied n line next => cases h; exact .noteApplied n line _

end Inversion

/-- An update of one connection that keeps a field keeps it on every connection. -/
theorem field_setConn {β : Type*} (field : Conn → β) {sh : Shared} {m : ℕ} {c : Conn} (n : ℕ)
    (h : field c = field (sh.conns m)) : field ((sh.setConn m c).conns n) = field (sh.conns n) := by
  by_cases hn : n = m
  · subst hn
    simpa only [Shared.setConn, Function.update_self] using h
  · simp only [Shared.setConn, Function.update_of_ne hn]

section Calls
variable {P : Type} {t : Tid} {c : Choice} {sh sh' : Shared} {op : Op P} {p : P} {n : ℕ}

theorem exec_poll {k : PollResult → P} (h : exec t c sh (.poll k) = some (p,sh')) :
    ∃ r, c = .poll r ∧ p = k r ∧ sh' = sh := by
  cases c with
  | poll r =>
    cases h
    exact ⟨r,rfl,rfl,rfl⟩
  | _ => cases h

theorem exec_sockRead {k : ReadResult → P} (h : exec t c sh (.sockRead n k) = some (p,sh')) :
    ∃ r, c = .read r ∧ p = k r ∧
      sh' = match r with
        | .byte b => sh.setConn n { sh.conns n with consumed := (sh.conns n).consumed ++ [b] }
        | _ => sh := by
  cases c with
  | read r => cases r <;> (cases h; exact ⟨_,rfl,rfl,rfl⟩)
  | _ => cases h

theorem exec_sockWrite {bytes : Bytes} {k : WriteResult → P}
    (h : exec t c sh (.sockWrite n bytes k) = some (p,sh')) : ∃ r, c = .write r ∧ p = k r := by
  cases c with
  | write r =>
    cases r with
    | wrote m =>
      simp only [exec] at h
      split at h
      · cases h
        exact ⟨_,rfl,rfl⟩
      · cases h
    | _ =>
      cases h
      exact ⟨_,rfl,rfl⟩
  | _ => cases h

/-- Only `accept` and `read` change what has been read from the connections. -/
theorem Effect.reads_nothing (h : Effect t sh op p sh') (haccept : ∀ k, op ≠ .accept k)
    (hread : ∀ n k, op ≠ .sockRead n k) :
    sh'.accepted = sh.accepted ∧ ∀ n, (sh'.conns n).consumed = (sh.conns n).consumed := by
  cases h with
  | accepted k => exact absurd rfl (haccept k)
  | readByte n k => exact absurd rfl (hread n k)
  | wrote m | close m | peerDeclare m | peerClear m | peerEnd m | noteApplied m =>
    exact ⟨rfl,fun n => field_setConn Conn.consumed n (by rfl)⟩
  | _ => exact ⟨rfl,fun _ => rfl⟩

end Calls

theorem ring_setQueue (sh : Shared) (q q' : QueueId) (state : QueueState) :
    (sh.setQueue q state).ring q' =
      if q' = q then (match state with | .live r => some r | _ => none) else sh.ring q' := by
  by_cases hq : q' = q
  · subst hq
    cases state <;> simp [Shared.ring, Shared.setQueue]
  · simp [Shared.ring, Shared.setQueue, hq]

@[simp] theorem ring_setQueue_self (sh : Shared) (q : QueueId) (r : RingQueue Item) :
    (sh.setQueue q (.live r)).ring q = some r := by
  rw [ring_setQueue,if_pos rfl]

theorem ring_setQueue_of_ne (sh : Shared) {q q' : QueueId} (h : q' ≠ q) (state : QueueState) :
    (sh.setQueue q state).ring q' = sh.ring q' := by
  rw [ring_setQueue,if_neg h]

theorem contents_of_ring {sh : Shared} {q : QueueId} {r : RingQueue Item} (h : sh.ring q = some r) :
    sh.contents q = r.contents := by
  simp [Shared.contents, h]

theorem contents_setLive (sh : Shared) (q : QueueId) (r : RingQueue Item) :
    (sh.setQueue q (.live r)).contents q = r.contents := by
  simp [Shared.contents, Shared.ring, Shared.setQueue]

theorem contents_setDestroyed (sh : Shared) (q : QueueId) :
    (sh.setQueue q .destroyed).contents q = [] := by
  simp [Shared.contents, Shared.ring, Shared.setQueue]

theorem contents_setQueue_of_ne (sh : Shared) {q q' : QueueId} (h : q' ≠ q) (state : QueueState) :
    (sh.setQueue q state).contents q' = sh.contents q' := by
  rw [Shared.contents, ring_setQueue_of_ne sh h]
  rfl

def Op.All (I : P → Prop) : Op P → Prop
  | .tau next | .ret next | .exit next | .join _ next | .shutdownRequest next | .free _ next
  | .touch _ next | .queueDestroy _ next | .queueShutdown _ next | .unsubscribe _ _ next
  | .deliver _ _ next | .publishEnd next | .setInterval _ next | .close _ next | .peerDeclare _ next
  | .peerClear _ next | .peerEnd _ next | .noteApplied _ _ next => I next
  | .choose k | .spawn _ k | .shutdownRequested k | .queueCreate _ k | .enqueue _ _ k
  | .tryEnqueue _ _ k | .subscribe _ _ k | .peerRead _ k => ∀ b, I (k b)
  | .malloc k => ∀ a, I (k a)
  | .dequeue _ k | .tryDequeue _ k => ∀ item, I (k item)
  | .publishBegin _ _ k => ∀ subscribers, I (k subscribers)
  | .nextSequence k | .getInterval k => ∀ v, I (k v)
  | .time k => ∀ ts, I (k ts)
  | .poll k => ∀ r, I (k r)
  | .accept k => ∀ n, I (k n)
  | .sockRead _ k => ∀ r, I (k r)
  | .sockWrite _ _ k => ∀ r, I (k r)

theorem Op.all_of_forall {I : P → Prop} (h : ∀ p, I p) (op : Op P) : op.All I := by
  cases op <;> first | exact h _ | exact fun _ => h _

theorem Effect.all {t : Tid} {sh sh' : Shared} {op : Op P} {p : P} (h : Effect t sh op p sh') {I : P → Prop}
    (hall : op.All I) : I p := by
  cases h <;> first | exact hall | exact hall _

section Status
variable {t u : Tid} {sh sh' : Shared} {op : Op P} {p : P}

theorem Effect.started (h : Effect t sh op p sh') (hrunning : sh'.status u = .running) :
    sh.status u = .running ∨ ∃ k, op = .spawn u k ∧ p = k true := by
  cases h with
  | ret next =>
    by_cases ht : u = t
    · rw [ht] at hrunning
      simp [Shared.setStatus] at hrunning
    · exact Or.inl (by simpa [Shared.setStatus, ht] using hrunning)
  | spawned child k =>
    by_cases hc : u = child
    · exact Or.inr ⟨k,by rw [hc],rfl⟩
    · exact Or.inl (by simpa [Shared.setStatus, hc] using hrunning)
  | _ => exact Or.inl hrunning

/-- A thread is returned by its own `ret` only. -/
theorem Effect.returned (h : Effect t sh op p sh') (hret : sh'.status u = .returned) :
    sh.status u = .returned ∨ (u = t ∧ op = .ret p) := by
  cases h with
  | ret next =>
    by_cases ht : u = t
    · exact Or.inr ⟨ht,rfl⟩
    · exact Or.inl (by simpa [Shared.setStatus, ht] using hret)
  | spawned child k =>
    by_cases ht : u = child
    · subst ht
      simp [Shared.setStatus] at hret
    · exact Or.inl (by simpa [Shared.setStatus, ht] using hret)
  | _ => exact Or.inl hret

theorem Effect.born (h : Effect t sh op p sh') (hu : sh.status u ≠ .unborn) : sh'.status u ≠ .unborn := by
  cases h with
  | ret next =>
    by_cases heq : u = t
    · simp [Shared.setStatus, heq]
    · simpa [Shared.setStatus, heq] using hu
  | spawned child k =>
    by_cases heq : u = child
    · simp [Shared.setStatus, heq]
    · simpa [Shared.setStatus, heq] using hu
  | _ => exact hu

end Status

end RadioSim.Process
