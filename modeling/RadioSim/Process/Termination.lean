import RadioSim.Foundation.Potential
import RadioSim.Process.Resources
import RadioSim.Process.Shutdown
import RadioSim.Pubsub.Cloning

/-! # The shutdown ends

After `shutdown_request` every thread pays for its steps out of a budget that its
program point gives it. A message in the ingest queue carries the budget of the worker
that will take it, one in the consumer's telemetry queue that of the consumer. Only a byte
from a client and an interrupted call add to the budgets.
-/
namespace RadioSim.Process
open Pubsub Queue

section Budgets

@[simp] def Consumer.budget : Consumer.Pc → ℕ
  | .dequeueTelemetry => 2
  | .logTelemetry _ => 7
  | .freeTelemetry _ => 6
  | .tryAlert => 5
  | .logAlert _ => 4
  | .freeAlert _ => 3
  | .done => 1

/-- A turn of the fan-out may have to pay for a message of the consumer. -/
@[simp] def Worker.budget : Worker.Pc → ℕ
  | .dequeue => 2
  | .sequence _ => 22
  | .time _ _ => 21
  | .read _ _ _ => 20
  | .publish _ _ _ => 19
  | .fanOut _ _ _ subscribers => 4 + 7 * subscribers.length
  | .release _ => 3
  | .done => 1

@[simp] def Producer.budget : Producer.Pc → ℕ
  | .allocTelemetry _ => 50
  | .enqueueTelemetry _ _ => 49
  | .allocAlert _ => 27
  | .enqueueAlert _ _ => 26
  | .readInterval _ => 4
  | .slice _ _ _ => 4
  | .sleep _ _ _ => 3
  | .loop _ => 2
  | .discard _ => 2
  | .done => 1

@[simp] def Command.budget : Command.Pc → ℕ
  | .apply _ => 29
  | .allocAlert _ _ => 28
  | .enqueueAlert _ => 27
  | .checkPeer _ | .setInterval _ | .logAlert _ | .dropAlert _ => 5
  | .poll _ => 4
  | .timedOut _ | .read _ => 3
  | .clearPeer => 2
  | .done => 1

@[simp] def Handshake.budget : Handshake.Pc → ℕ
  | .hello rest => rest.length + 2
  | .readLine _ => 1
  | .nack rest | .ack _ rest => rest.length + 1
  | .done _ _ => 0

@[simp] def Transport.budget : Transport.Pc → ℕ
  | .tryTelemetry _ => 272
  | .tryAlerts _ => 271
  | .formatTelemetry _ _ | .formatAlert _ _ => 270
  | .write _ _ rest => 14 + rest.length
  | .pollListen => 52
  | .accept => 51
  | .handshake _ h => 24 + Handshake.budget h
  | .createTelemetry _ => 23
  | .createAlerts _ => 22
  | .subscribeTelemetry _ => 21
  | .subscribeAlerts _ => 20
  | .declarePeer _ => 19
  | .allocArgs _ => 18
  | .spawnListener _ => 17
  | .sleep _ | .release _ _ _ => 13
  | .checkPeer _ => 12
  | .checkStop _ => 11
  | .clearPeer _ => 10
  | .joinListener _ => 9
  | .endPeer _ => 8
  | .unsubscribeTelemetry _ => 7
  | .unsubscribeAlerts _ => 6
  | .destroyTelemetry _ => 5
  | .destroyAlerts _ => 4
  | .close _ => 3
  | .loop => 2
  | .done => 1

/-- Up to the shutdown request `main` has no budget. -/
@[simp] def Main.budget : Main.Pc → ℕ
  | .shutdownIngest started => 13 + started
  | .shutdownTelemetry started => 12 + started
  | .shutdownAlerts started => 11 + started
  | .joinProducer started => 10 + started
  | .joinWorkers started i => 9 + (started - i)
  | .joinConsumer => 8
  | .unsubscribeTelemetry => 7
  | .unsubscribeAlerts => 6
  | .destroyTelemetry => 5
  | .destroyAlerts => 4
  | .joinTransport => 3
  | .destroyIngest => 2
  | .finish => 1
  | _ => 0

def budget : (t : Tid) → Pc t → ℕ
  | .main => Main.budget
  | .producer => Producer.budget
  | .worker _ => Worker.budget
  | .consumer => Consumer.budget
  | .transport => Transport.budget
  | .listener _ => Command.budget

@[simp] def price : QueueId → ℕ
  | .ingest => 21
  | .consumerTelemetry => 6
  | _ => 0

def Shared.stock (sh : Shared) : ℕ :=
  price .ingest * (sh.contents .ingest).length + price .consumerTelemetry * (sh.contents .consumerTelemetry).length

def Shared.due (sh : Shared) (t : Tid) (amount : ℕ) : ℕ := if sh.status t = .running then amount else 0

/-- A byte of a client may be the end of a line that has to be answered or applied. -/
@[simp] def Choice.credit : Choice → ℕ
  | .read (.byte _) => 40
  | .read .eintr | .poll .eintr | .write .eintr => 2
  | _ => 0

end Budgets

section Stock
variable {P : Type} {t : Tid} {sh sh' : Shared} {op : Op P} {p : P} {q : QueueId}

theorem due_le (sh : Shared) (t : Tid) (amount : ℕ) : sh.due t amount ≤ amount := by
  unfold Shared.due
  split
  · exact le_rfl
  · exact Nat.zero_le _

theorem due_returned (sh : Shared) (t : Tid) (amount : ℕ) : (sh.setStatus t .returned).due t amount = 0 := by
  simp [Shared.due, Shared.setStatus]

theorem Effect.length_le (h : Effect t sh op p sh') (q : QueueId) :
    (sh'.contents q).length ≤ (sh.contents q).length + if op.offers.map Prod.fst = some q then 1 else 0 := by
  rcases h.contents q with ⟨hsame,_⟩ | ⟨offered,item,hoffer,hmore,_⟩ | ⟨_,htail,_⟩ | ⟨_,hnone,_⟩
  · rw [hsame]
    exact Nat.le_add_right _ _
  · simp [hmore, hoffer]
  · rw [htail, List.length_tail]
    omega
  · simp [hnone]

/-- The stock grows by the price of what is offered. -/
theorem Effect.stock_offered (h : Effect t sh op p sh') {item : Item} (hoffers : op.offers = some (q,item)) :
    sh'.stock ≤ sh.stock + price q := by
  have hingest := h.length_le .ingest
  have htelemetry := h.length_le .consumerTelemetry
  simp only [hoffers, Option.map_some, Option.some.injEq] at hingest htelemetry
  unfold Shared.stock
  cases q <;> simp only [reduceCtorEq, ↓reduceIte] at hingest htelemetry <;> simp only [price] <;> omega

theorem Effect.stock_kept (h : Effect t sh op p sh') (hoffers : op.offers = none) : sh'.stock ≤ sh.stock := by
  have hingest := h.length_le .ingest
  have htelemetry := h.length_le .consumerTelemetry
  simp only [hoffers, Option.map_none, reduceCtorEq, ↓reduceIte] at hingest htelemetry
  unfold Shared.stock
  simp only [price]
  omega

theorem length_takeFrom {r : RingQueue Item} (hr : sh.ring q = some r) (q' : QueueId) :
    ((sh.takeFrom q r.tryDequeue).contents q').length + (if q' = q ∧ r.contents.head?.isSome then 1 else 0) =
      (sh.contents q').length := by
  by_cases hq : q' = q
  · subst hq
    have hnew : (sh.takeFrom q' r.tryDequeue).contents q' = r.tryDequeue.2.contents := contents_setLive sh q' _
    rw [hnew, RingQueue.tryDequeue_contents, contents_of_ring hr]
    cases r.contents <;> simp
  · have hnew : (sh.takeFrom q r.tryDequeue).contents q' = sh.contents q' := contents_setQueue_of_ne sh hq _
    simp [hnew, hq]

/-- Who takes a message gets its price. -/
theorem stock_takeFrom {r : RingQueue Item} (hr : sh.ring q = some r) :
    (sh.takeFrom q r.tryDequeue).stock + (if r.contents.head?.isSome then price q else 0) ≤ sh.stock := by
  have hingest := length_takeFrom hr .ingest
  have htelemetry := length_takeFrom hr .consumerTelemetry
  unfold Shared.stock
  cases hhead : r.contents.head?.isSome <;> cases q <;>
    simp only [hhead, price, reduceCtorEq, and_true, and_false, Bool.false_eq_true, ↓reduceIte]
      at hingest htelemetry ⊢ <;>
    omega

end Stock

section Payments
variable {P : Type} {t : Tid} {c : Choice} {sh sh' : Shared} {op : Op P} {p : P} {left : P → ℕ} {amount : ℕ}

@[simp] def Op.charge : Op P → ℕ
  | .spawn child _ => budget child (entry child)
  | _ => 0

/-- After the shutdown request `amount` covers the operation, one step, and what is left
for the program point at which the routine continues. -/
@[simp] def Op.Affords (left : P → ℕ) (amount : ℕ) : Op P → Prop
  | .ret _ => 1 ≤ amount
  | .shutdownRequested k => left (k true) + 1 ≤ amount
  | .spawn child k => ∀ b, left (k b) + budget child (entry child) + 1 ≤ amount
  | .dequeue q k | .tryDequeue q k =>
    left (k none) + 1 ≤ amount ∧ ∀ item, left (k (some item)) + 1 ≤ amount + price q
  | .enqueue q _ k | .tryEnqueue q _ k => ∀ b, left (k b) + price q + 1 ≤ amount
  | .deliver _ _ next => left next + price .consumerTelemetry + 1 ≤ amount
  | .publishBegin _ _ k =>
    left (k none) + 1 ≤ amount ∧ ∀ subscribers, subscribers.length ≤ 2 → left (k (some subscribers)) + 1 ≤ amount
  | .poll k => ∀ r, left (k r) + 1 ≤ amount + (Choice.poll r).credit
  | .sockRead _ k => ∀ r, left (k r) + 1 ≤ amount + (Choice.read r).credit
  | .sockWrite _ _ k => ∀ r, left (k r) + 1 ≤ amount + (Choice.write r).credit
  | op => op.All fun p => left p + 1 ≤ amount

def Op.credit : Op P → Choice → ℕ
  | .poll _, .poll r => (Choice.poll r).credit
  | .sockRead _ _, .read r => (Choice.read r).credit
  | .sockWrite _ _ _, .write r => (Choice.write r).credit
  | _, _ => 0

theorem Op.credit_le (op : Op P) (c : Choice) : op.credit c ≤ c.credit := by
  unfold Op.credit
  split <;> first | exact le_rfl | exact Nat.zero_le _

theorem taken_pays {q : QueueId} {r : RingQueue Item} {k : Option Item → P} {due : ℕ} (hr : sh.ring q = some r)
    (hdue : due ≤ left (k r.contents.head?))
    (hop : left (k none) + 1 ≤ amount ∧ ∀ item, left (k (some item)) + 1 ≤ amount + price q) :
    due + (sh.takeFrom q r.tryDequeue).stock + 1 ≤ amount + sh.stock := by
  have hstock := stock_takeFrom hr
  cases hhead : r.contents.head? with
  | none =>
    simp only [hhead, Option.isSome_none, Bool.false_eq_true, ↓reduceIte] at hstock hdue
    omega
  | some item =>
    have hnext := hop.2 item
    simp only [hhead, Option.isSome_some, ↓reduceIte] at hstock hdue
    omega

/-- The rule: an operation that its thread affords is paid for. -/
theorem exec_pays (h : exec t c sh op = some (p,sh')) (hop : op.Affords left amount) (hstop : sh.stop = true)
    (hpublish : ∀ topic, (subscribersOf topic sh.registry.topics).length ≤ 2)
    (hdeliver : ∀ q item next, op = .deliver q item next → q ≠ .ingest) :
    sh'.due t (left p) + sh'.stock + op.charge + 1 ≤ amount + sh.stock + op.credit c := by
  have heff := exec_effect h
  have hdue := due_le sh' t (left p)
  cases op with
  | ret next =>
    have hstock := heff.stock_kept rfl
    have hone : 1 ≤ amount := hop
    cases heff
    simp only [due_returned, Op.charge]
    omega
  | shutdownRequested k =>
    have hnext : left (k true) + 1 ≤ amount := hop
    cases heff
    simp only [hstop, Op.charge] at hdue ⊢
    omega
  | spawn child k =>
    have hstock := heff.stock_kept rfl
    have hnext := heff.all (I := fun p => left p + budget child (entry child) + 1 ≤ amount) hop
    simp only [Op.charge]
    omega
  | dequeue q k =>
    cases heff with
    | dequeue _ _ r hr => exact (taken_pays hr hdue hop).trans (Nat.le_add_right _ _)
  | tryDequeue q k =>
    cases heff with
    | tryDequeue _ _ r hr => exact (taken_pays hr hdue hop).trans (Nat.le_add_right _ _)
  | enqueue q item k | tryEnqueue q item k =>
    have hstock := heff.stock_offered rfl
    have hnext := heff.all (I := fun p => left p + price q + 1 ≤ amount) hop
    simp only [Op.charge]
    omega
  | deliver q item next =>
    have hstock := heff.stock_offered rfl
    have hnext := heff.all (I := fun p => left p + price .consumerTelemetry + 1 ≤ amount) hop
    have hprice : price q ≤ price .consumerTelemetry := by
      cases q with
      | ingest => exact absurd rfl (hdeliver _ item next rfl)
      | _ => simp
    simp only [Op.charge]
    omega
  | publishBegin topic item k =>
    -- the turns of the fan-out are paid for in advance
    have hstock := heff.stock_kept rfl
    have hsubscribers := findOrCreateTopic_subscribers sh.registry topic
    cases heff with
    | publishNone =>
      have hnext := hop.1
      simp only [Op.charge]
      omega
    | publishBegin _ _ _ _ l hl =>
      rw [hl] at hsubscribers
      have hshort : l.entry.subscribers.length ≤ 2 := (congrArg List.length hsubscribers).trans_le (hpublish topic)
      have hnext := hop.2 _ hshort
      simp only [Op.charge]
      omega
  | poll k =>
    have hstock := heff.stock_kept rfl
    obtain ⟨r,rfl,rfl,_⟩ := exec_poll h
    have hnext := hop r
    simp only [Op.charge, Op.credit]
    omega
  | sockRead n k =>
    have hstock := heff.stock_kept rfl
    obtain ⟨r,rfl,rfl,_⟩ := exec_sockRead h
    have hnext := hop r
    simp only [Op.charge, Op.credit]
    omega
  | sockWrite n bytes k =>
    have hstock := heff.stock_kept rfl
    obtain ⟨r,rfl,rfl⟩ := exec_sockWrite h
    have hnext := hop r
    simp only [Op.charge, Op.credit]
    omega
  | _ =>
    have hstock := heff.stock_kept rfl
    have hnext := heff.all (I := fun p => left p + 1 ≤ amount) hop
    simp only [Op.charge]
    omega

end Payments

section Threads

theorem Consumer.affords (pc : Consumer.Pc) : (Consumer.code pc).Affords Consumer.budget (Consumer.budget pc) := by
  cases pc <;> simp [Consumer.code, Op.All]

theorem Worker.affords (pc : Worker.Pc) : (Worker.code pc).Affords Worker.budget (Worker.budget pc) := by
  cases pc with
  | publish raw seq ts =>
    simp only [Worker.code, Op.Affords, Worker.budget]
    exact ⟨by omega,fun subscribers hshort => by omega⟩
  | fanOut raw seq ts subscribers =>
    cases subscribers with
    | nil => simp [Worker.code, Op.All]
    | cons q rest =>
      simp only [Worker.code, Op.Affords, Worker.budget, price, List.length_cons]
      omega
  | _ => simp [Worker.code, Op.All]

theorem Producer.affords (pc : Producer.Pc) : (Producer.code pc).Affords Producer.budget (Producer.budget pc) := by
  cases pc with
  | allocTelemetry counter | allocAlert counter =>
    intro a
    cases a <;> simp
  | enqueueTelemetry counter a =>
    intro ok
    cases ok
    · simp
    · by_cases halert : counter % 5 = 0 <;> simp [halert]
  | sleep counter totalMs sleptMs =>
    simp only [Producer.code]
    split <;> simp [Op.All]
  | _ => simp [Producer.code, Op.All]

theorem Command.budget_afterApply (line : CString) : Command.budget (Command.afterApply line) ≤ 28 := by
  unfold Command.afterApply
  split <;> simp

theorem Command.affords (n : ℕ) (pc : Command.Pc) : (Command.code n pc).Affords Command.budget (Command.budget pc) := by
  cases pc with
  | poll buf =>
    simp only [Command.code]
    split
    · intro r
      cases r with
      | ready hangup => cases hangup <;> simp
      | _ => simp
    · simp [Op.All]
  | read buf =>
    intro r
    cases r with
    | byte b =>
      dsimp only
      split <;> simp
    | _ => simp
  | apply line => exact Nat.succ_le_succ (Command.budget_afterApply line)
  | allocAlert code antenna =>
    intro a
    cases a <;> simp
  | _ => simp [Command.code, Op.All]

/-- `write_all` pays one for each byte and one for its end. -/
theorem writeAll_affords {P : Type} {left : P → ℕ} {amount n : ℕ} {rest : Bytes} {again : Bytes → P}
    {written failed : P} (hagain : ∀ more, left (again more) + rest.length ≤ amount + more.length)
    (hwritten : left written + 1 ≤ amount) (hfailed : left failed + 1 ≤ amount) :
    (writeAll n rest again written failed).Affords left amount := by
  unfold writeAll
  split
  · exact hwritten
  · rename_i hrest
    have hlength := List.length_pos_iff.mpr hrest
    intro r
    cases r with
    | wrote m =>
      dsimp only
      split
      · exact hfailed
      · have hmore := hagain (rest.drop m)
        rw [List.length_drop] at hmore
        simp only [Choice.credit]
        omega
    | eintr =>
      have hmore := hagain rest
      simp only [Choice.credit]
      omega
    | error => exact hfailed

theorem Op.Affords.map {P R : Type} {f : P → R} {left : R → ℕ} {amount : ℕ} {op : Op P}
    (h : op.Affords (fun p => left (f p)) amount) : (op.map f).Affords left amount := by
  cases op <;> exact h

theorem Handshake.budget_answer (text : CString) :
    Handshake.budget (Handshake.answer Handshake.serverVersions text) ≤ 37 := by
  rcases answer_cases text with h | h <;> rw [h] <;> decide

/-- The handshake within the routine of the transport thread. -/
theorem Handshake.affords (n : ℕ) (h : Handshake.Pc) (hnot : ∀ ok v, h ≠ .done ok v) :
    (Handshake.code Handshake.serverVersions n h).Affords (fun h => 24 + Handshake.budget h)
      (24 + Handshake.budget h) := by
  cases h with
  | hello rest | nack rest | ack version rest =>
    refine writeAll_affords (fun more => ?_) ?_ ?_ <;> simp only [Handshake.budget] <;> omega
  | readLine buf =>
    simp only [Handshake.code]
    split
    · intro r
      cases r with
      | byte b =>
        have hanswer := Handshake.budget_answer (.ofBuffer buf)
        have hcredit : (Choice.read (.byte b)).credit = 40 := rfl
        dsimp only
        split
        · omega
        · simp
      | _ => simp
    · simp [Op.All]
  | done ok v => exact absurd rfl (hnot ok v)

theorem Transport.budget_afterFormat (c : Transport.Client) (item : Item) (line : Bytes) :
    Transport.budget (Transport.afterFormat c item line) + 1 ≤ 270 := by
  unfold Transport.afterFormat
  split
  · rename_i hfits
    have hlength := hfits.2
    simp only [Transport.lineSize] at hlength
    simp only [Transport.budget]
    omega
  · simp

theorem Transport.budget_afterSubscribe (c : Transport.Client) :
    Transport.budget (Transport.afterSubscribe c) + 1 ≤ 20 := by
  unfold Transport.afterSubscribe
  split <;> simp

theorem Transport.affords (pc : Transport.Pc) : (Transport.code pc).Affords Transport.budget (Transport.budget pc) := by
  cases pc with
  | handshake n h =>
    by_cases hdone : ∃ ok v, h = .done ok v
    · obtain ⟨ok,v,rfl⟩ := hdone
      cases ok <;> simp [Transport.code, Op.All]
    · have hop : ((Handshake.code Handshake.serverVersions n h).map (Transport.Pc.handshake n)).Affords
          Transport.budget (24 + Handshake.budget h) :=
        .map (Handshake.affords n h fun ok v hh => hdone ⟨ok,v,hh⟩)
      cases h with
      | done ok v => exact absurd ⟨ok,v,rfl⟩ hdone
      | _ => exact hop
  | pollListen =>
    intro r
    cases r <;> simp
  | accept =>
    intro n
    cases n <;> simp [start_eq, hello, ascii]
  | subscribeAlerts c =>
    simp only [Transport.code]
    split
    · exact fun ok => Transport.budget_afterSubscribe _
    · exact Transport.budget_afterSubscribe c
  | formatTelemetry c item | formatAlert c item => exact Transport.budget_afterFormat c item _
  | write c item rest =>
    refine writeAll_affords (fun more => ?_) ?_ ?_ <;> simp only [Transport.budget] <;> omega
  | release c item alive => cases alive <;> simp [Transport.code, Op.All]
  | spawnListener c =>
    intro ok
    simp [Process.budget, entry]
  | subscribeTelemetry c | joinListener c | unsubscribeTelemetry c | unsubscribeAlerts c | destroyTelemetry c
  | destroyAlerts c =>
    simp only [Transport.code]
    split <;> simp [Op.All]
  | _ => simp [Transport.code, Op.All]

def Main.requested : Main.Pc → Bool
  | .shutdownIngest _ | .shutdownTelemetry _ | .shutdownAlerts _ | .joinProducer _ | .joinWorkers _ _ | .joinConsumer
  | .unsubscribeTelemetry | .unsubscribeAlerts | .destroyTelemetry | .destroyAlerts | .joinTransport | .destroyIngest
  | .finish => true
  | _ => false

theorem Main.affords (W : ℕ) {pc : Main.Pc} (hpc : Main.requested pc = true) :
    (Main.code W pc).Affords Main.budget (Main.budget pc) := by
  cases pc with
  | joinWorkers started i =>
    simp only [Main.code]
    split <;> simp only [Op.Affords, Op.All, Main.budget] <;> omega
  | shutdownIngest started | shutdownTelemetry started | shutdownAlerts started | joinProducer started =>
    simp only [Main.code, Op.Affords, Op.All, Main.budget]
    omega
  | joinConsumer | unsubscribeTelemetry | unsubscribeAlerts | destroyTelemetry | destroyAlerts | joinTransport
  | destroyIngest | finish => simp [Main.code, Op.All]
  | _ => cases hpc

theorem op_affords (W : ℕ) {s : System} (hmain : Main.requested (s.pcs .main) = true) (t : Tid) :
    (s.op W t).Affords (budget t) (budget t (s.pcs t)) := by
  cases t with
  | main => exact Main.affords W hmain
  | producer => exact Producer.affords (s.pcs .producer)
  | worker i => exact Worker.affords (s.pcs (.worker i))
  | consumer => exact Consumer.affords (s.pcs .consumer)
  | transport => exact Transport.affords (s.pcs .transport)
  | listener n => exact Command.affords n (s.pcs (.listener n))

end Threads

section Steps
variable {W : ℕ} {s s' : System} {t : Tid} {c : Choice}

def Requested (s : System) : Prop :=
  s.shared.stop = true → s.shared.exited = true ∨ Main.requested (s.pcs .main) = true

theorem Main.requested_next (W : ℕ) {pc : Main.Pc} (hpc : Main.requested pc = true) :
    (∃ next, Main.code W pc = .exit next) ∨ (Main.code W pc).All fun p => Main.requested p = true := by
  cases pc with
  | finish => exact Or.inl ⟨_,rfl⟩
  | joinWorkers started i =>
    simp only [Main.code]
    split <;> exact Or.inr rfl
  | shutdownIngest started | shutdownTelemetry started | shutdownAlerts started | joinProducer started | joinConsumer
  | unsubscribeTelemetry | unsubscribeAlerts | destroyTelemetry | destroyAlerts | joinTransport | destroyIngest =>
    exact Or.inr rfl
  | _ => cases hpc

/-- The flag is set by the request only. -/
theorem Effect.stop_eq {P : Type} {sh sh' : Shared} {op : Op P} {p : P} (h : Effect t sh op p sh')
    (hstop : sh'.stop = true) : sh.stop = true ∨ op = .shutdownRequest p := by
  cases h with
  | shutdownRequest next => exact Or.inr rfl
  | _ => exact Or.inl hstop

theorem code_shutdownRequest {pc p : Pc t} (h : code W t pc = .shutdownRequest p) : t = .main := by
  have hsite := site_of_code h
  cases t <;> first | rfl | exact hsite.elim

theorem Main.code_shutdownRequest {pc p : Main.Pc} (h : Main.code W pc = .shutdownRequest p) :
    Main.requested p = true := by
  obtain ⟨started,rfl⟩ := Main.site_of_code h
  rfl

theorem step_requested (h : Requested s) (hstep : step W s t c = some s') : Requested s' := by
  obtain ⟨hrunning,p,sh',hexec,rfl⟩ := step_inversion hstep
  have heff := exec_effect hexec
  intro hstop
  by_cases ht : .main = t
  · subst ht
    simp only [Function.update_self]
    rcases heff.stop_eq hstop with hold | hop
    · have hmain := (h hold).resolve_left (by simp [hrunning.1])
      change Effect _ _ (Main.code W (s.pcs .main)) p sh' at heff
      rcases Main.requested_next W hmain with ⟨next,hexit⟩ | hall
      · rw [hexit] at heff
        cases heff
        exact Or.inl rfl
      · exact Or.inr (heff.all hall)
    · exact Or.inr (Main.code_shutdownRequest hop)
  · rcases heff.stop_eq hstop with hold | hop
    · refine Or.inr ?_
      simp only [Function.update_of_ne ht]
      exact (h hold).resolve_left (by simp [hrunning.1])
    · exact absurd (code_shutdownRequest hop).symm ht

theorem run_requested (h : Reachable W s) : Requested s :=
  h.invariant (fun hstop => by cases hstop) fun _ _ _ _ => step_requested

/-- What the running threads and the messages in the queues have left. -/
def System.potential (W : ℕ) (s : System) : ℕ :=
  ∑ t ∈ s.roster W, s.shared.due t (budget t (s.pcs t)) + s.shared.stock

/-- Any larger set of threads has the same potential. -/
theorem potential_eq (hreach : Reachable W s) {T : Finset Tid} (hT : s.roster W ⊆ T) :
    s.potential W = ∑ t ∈ T, s.shared.due t (budget t (s.pcs t)) + s.shared.stock := by
  refine congrArg (· + _) (Potential.sum_eq_of_support (fun t hne => mem_roster hreach ?_) hT)
  by_contra hnot
  exact hne (if_neg hnot)

theorem budget_final {pc : Pc t} (h : Final t pc) : budget t pc ≤ budget t (entry t) := by
  cases t with
  | main => exact h.elim
  | _ =>
    rw [show pc = _ from h]
    simp [budget, entry]

@[simp] def Op.child {P : Type} : Op P → Option Tid
  | .spawn child _ => some child
  | _ => none

/-- Who is not at work gets nothing, unless it is created. -/
theorem due_other (hstaffed : Staffed s) {p : Pc t} {sh' : Shared} (heff : Effect t s.shared (s.op W t) p sh')
    (u : Tid) : sh'.due u (budget u (s.pcs u)) ≤
      s.shared.due u (budget u (s.pcs u)) + if u = (s.op W t).child.getD t then (s.op W t).charge else 0 := by
  by_cases hnew : sh'.status u = .running
  · rcases heff.started hnew with hold | ⟨k,hop,_⟩
    · simp [Shared.due, hnew, hold]
    · have hstart : s.shared.status u ≠ .running → budget u (s.pcs u) ≤ budget u (entry u) := by
        intro hnot
        cases hstatus : s.shared.status u with
        | running => exact absurd hstatus hnot
        | unborn => rw [hstaffed.fresh u hstatus]
        | returned => exact budget_final (hstaffed.ended u hstatus)
      simp only [hop, Op.child, Op.charge, Option.getD_some, ↓reduceIte, Shared.due, hnew]
      split
      · exact Nat.le_add_right _ _
      · rename_i hnot
        simpa using hstart hnot
  · simp [Shared.due, hnew]

theorem Tidy.subscribersOf_le (h : Tidy s) (topic : CString) :
    (subscribersOf topic s.shared.registry.topics).length ≤ 2 := by
  rw [← toMap_subscribers_card h.housed.valid]
  exact h.subscribers_card topic

theorem Tidy.delivers (h : Tidy s) {q : QueueId} {item : Item} {next : Pc t}
    (hop : s.op W t = .deliver q item next) : q ≠ .ingest := by
  rintro rfl
  have hop : code W t (s.pcs t) = .deliver .ingest item next := hop
  have hoffering : Offering t (s.pcs t) .ingest item := code_offering (W := W) (by rw [hop]; rfl)
  generalize hpc : s.pcs t = pc at hop hoffering
  cases hoffering with
  | published i raw seq ts _ rest =>
    have hheld := (h.fanOut (.worker i) (.ingest :: rest) (by rw [hpc]; rfl)).2 .ingest List.mem_cons_self
    exact (h.held .ingest hheld).2
  | _ => cases hop

/-- A step after the shutdown request is paid for. -/
theorem step_potential (hreach : Reachable W s) (hstop : s.shared.stop = true) (hstep : step W s t c = some s') :
    s'.potential W + 1 ≤ s.potential W + (s.op W t).credit c := by
  have hreach' : Reachable W s' := hreach.tail ⟨t,c,hstep⟩
  obtain ⟨hrunning,p,sh',hexec,rfl⟩ := step_inversion hstep
  have htidy := run_tidy hreach
  have hmain := (run_requested hreach hstop).resolve_left (by simp [hrunning.1])
  have hpays := exec_pays hexec (op_affords W hmain t) hstop htidy.subscribersOf_le
    fun q item next hop => htidy.delivers hop
  rw [potential_eq hreach Finset.subset_union_left, potential_eq hreach' Finset.subset_union_right]
  rw [Nat.add_assoc, Nat.add_assoc]
  refine Potential.sum_step_le ((s.op W t).child.getD t) (s.op W t).charge
    (Finset.mem_union_left _ (mem_roster hreach hrunning.2)) ?_ fun u hu => ?_
  · have hdue : s.shared.due t (budget t (s.pcs t)) = budget t (s.pcs t) := if_pos hrunning.2
    simp only [Function.update_self, hdue]
    omega
  · simp only [Function.update_of_ne hu]
    exact due_other (run_staffed hreach) (exec_effect hexec) u

end Steps

section Bounds
variable {W : ℕ} {s s' : System} {t : Tid} {c : Choice} {sh sh' : Shared}

def cap (W : ℕ) : Tid → ℕ
  | .main => 13 + W
  | .producer => 50
  | .worker _ => 22
  | .consumer => 7
  | .transport => 272
  | .listener _ => 29

theorem worker_budget_le {i : ℕ} {pc p : Worker.Pc} (h : Effect (.worker i) sh (Worker.code pc) p sh')
    (hpublish : ∀ topic, (subscribersOf topic sh.registry.topics).length ≤ 2) (hpc : Worker.budget pc ≤ 22) :
    Worker.budget p ≤ 22 := by
  cases pc with
  | publish raw seq ts =>
    cases h with
    | publishNone => simp
    | publishBegin topic _ _ _ l hl =>
      have hsubscribers := findOrCreateTopic_subscribers sh.registry (Worker.topicOf raw.type)
      rw [hl] at hsubscribers
      have hshort := (congrArg List.length hsubscribers).trans_le (hpublish _)
      simp only [Option.elim_some] at hshort
      simp only [Worker.budget]
      omega
  | fanOut raw seq ts subscribers =>
    cases subscribers with
    | nil => exact h.all (I := fun p => Worker.budget p ≤ 22) (by simp [Worker.code, Op.All])
    | cons q rest =>
      refine h.all (I := fun p => Worker.budget p ≤ 22) ?_
      simp only [Worker.budget, List.length_cons] at hpc
      simp only [Worker.code, Op.All, Worker.budget]
      omega
  | dequeue =>
    refine h.all (I := fun p => Worker.budget p ≤ 22) fun item => ?_
    cases item <;> simp
  | _ => exact h.all (I := fun p => Worker.budget p ≤ 22) (by simp [Worker.code, Op.All])

theorem Handshake.code_budget_le {n : ℕ} {h : Handshake.Pc} (hh : Handshake.budget h ≤ 38) :
    (Handshake.code Handshake.serverVersions n h).All fun h => Handshake.budget h ≤ 38 := by
  cases h with
  | hello rest | nack rest | ack version rest =>
    simp only [Handshake.budget] at hh
    refine writeAll_all (fun m => ?_) (by simp) (by simp)
    simp only [Handshake.budget, List.length_drop]
    omega
  | readLine buf =>
    simp only [Handshake.code]
    split
    · intro r
      cases r with
      | byte b =>
        dsimp only
        split
        · exact (Handshake.budget_answer _).trans (Nat.le_succ _)
        · simp
      | _ => simp
    · simp [Op.All]
  | done ok v => exact hh

theorem Op.All.imp {P : Type} {I J : P → Prop} {op : Op P} (h : op.All I) (himp : ∀ p, I p → J p) : op.All J := by
  cases op <;> first | exact himp _ h | exact fun x => himp _ (h x)

theorem Op.All.map {P R : Type} {f : P → R} {I : R → Prop} {op : Op P} (h : op.All fun p => I (f p)) :
    (op.map f).All I := by
  cases op <;> exact h

/-- A message is shorter than its buffer, and a greeting than its line. -/
def Transport.Brief : Transport.Pc → Prop
  | .handshake _ h => Handshake.budget h ≤ 38
  | .write _ _ rest => rest.length < Transport.lineSize
  | _ => True

theorem Transport.Brief.budget_le {pc : Transport.Pc} (h : Transport.Brief pc) : Transport.budget pc ≤ 272 := by
  cases pc with
  | handshake n hs =>
    have hle : Handshake.budget hs ≤ 38 := h
    simp only [Transport.budget]
    omega
  | write c item rest =>
    have hlt : rest.length < Transport.lineSize := h
    simp only [Transport.lineSize] at hlt
    simp only [Transport.budget]
    omega
  | _ => simp

theorem Transport.brief_afterFormat (c : Transport.Client) (item : Item) (line : Bytes) :
    Transport.Brief (Transport.afterFormat c item line) := by
  unfold Transport.afterFormat
  split
  · rename_i hfits
    exact hfits.2
  · trivial

theorem Transport.code_brief {pc : Transport.Pc} (h : Transport.Brief pc) : (Transport.code pc).All Transport.Brief := by
  cases pc with
  | handshake n hs =>
    have hall : ((Handshake.code Handshake.serverVersions n hs).map (Transport.Pc.handshake n)).All Transport.Brief :=
      .map (Handshake.code_budget_le h)
    cases hs with
    | done ok v => cases ok <;> trivial
    | _ => exact hall
  | accept =>
    intro n
    cases n with
    | none => trivial
    | some n =>
      change Handshake.budget (Handshake.start Handshake.serverVersions) ≤ 38
      rw [start_eq]
      decide
  | formatTelemetry c item | formatAlert c item => exact Transport.brief_afterFormat c item _
  | write c item rest =>
    refine writeAll_all (fun m => ?_) trivial trivial
    have hlt : rest.length < Transport.lineSize := h
    simp only [Transport.Brief, List.length_drop]
    omega
  | _ =>
    refine (Transport.code_follows _).imp fun p hp => ?_
    cases hp <;> trivial

/-- `main` joins no more workers than there are. -/
theorem main_budget_le (hreach : Reachable W s) : Main.budget (s.pcs .main) ≤ 13 + W := by
  have hpool : Main.phase (s.pcs .main) ≤ 7 → (Main.pool (s.pcs .main)).2 ≤ W := by
    intro hphase
    by_contra hgt
    have hborn := (run_staffed hreach).hired (.worker W) ⟨Nat.lt_of_not_le hgt,hphase⟩
    exact absurd ((run_enlisted hreach).worker W hborn) (Nat.lt_irrefl W)
  generalize s.pcs .main = pc at hpool
  cases pc with
  | shutdownIngest started | shutdownTelemetry started | shutdownAlerts started | joinProducer started
  | joinWorkers started i =>
    have hstarted : started ≤ W := hpool (by simp [Main.phase])
    simp only [Main.budget]
    omega
  | _ => simp only [Main.budget]; omega

structure Within (s : System) : Prop where
  worker : ∀ i, Worker.budget (s.pcs (.worker i)) ≤ 22
  transport : Transport.Brief (s.pcs .transport)

theorem step_within (hreach : Reachable W s) (h : Within s) (hstep : step W s t c = some s') : Within s' := by
  obtain ⟨_,p,sh',hexec,rfl⟩ := step_inversion hstep
  have heff := exec_effect hexec
  constructor
  · intro i
    by_cases ht : .worker i = t
    · subst ht
      simp only [Function.update_self]
      exact worker_budget_le heff (run_tidy hreach).subscribersOf_le (h.worker i)
    · simp only [Function.update_of_ne ht]
      exact h.worker i
  · by_cases ht : .transport = t
    · subst ht
      simp only [Function.update_self]
      exact heff.all (Transport.code_brief h.transport)
    · simp only [Function.update_of_ne ht]
      exact h.transport

theorem run_within (h : Reachable W s) : Within s := by
  induction h with
  | refl => exact ⟨fun i => by simp [System.initial, entry],trivial⟩
  | tail hreach hstep ih =>
    obtain ⟨t,c,hstep⟩ := hstep
    exact step_within hreach ih hstep

theorem budget_le_cap (hreach : Reachable W s) (t : Tid) : budget t (s.pcs t) ≤ cap W t := by
  have hwithin := run_within hreach
  cases t with
  | main => exact main_budget_le hreach
  | producer =>
    simp only [budget, cap]
    generalize s.pcs .producer = pc
    cases pc <;> simp
  | worker i => exact hwithin.worker i
  | consumer =>
    simp only [budget, cap]
    generalize s.pcs .consumer = pc
    cases pc <;> simp
  | transport => exact hwithin.transport.budget_le
  | listener n =>
    simp only [budget, cap]
    generalize s.pcs (.listener n) = pc
    cases pc <;> simp

theorem stock_le (hreach : Reachable W s) : s.shared.stock ≤ 27 * defaultCapacity := by
  have hingest := contents_length_le hreach .ingest
  have htelemetry := contents_length_le hreach .consumerTelemetry
  simp only [Shared.stock, price]
  omega

theorem sum_cap_le (W : ℕ) (s : System) : ∑ t ∈ s.roster W, cap W t ≤ 371 + 23 * W := by
  have hfixed : ∑ t ∈ ({.main,.producer,.consumer,.transport} : Finset Tid), cap W t = 342 + W := by
    simp only [Finset.mem_insert, Finset.mem_singleton, reduceCtorEq, or_self, not_false_eq_true, Finset.sum_insert,
      Finset.sum_singleton, cap]
    omega
  have hworkers : ∑ t ∈ (Finset.range W).image Tid.worker, cap W t = 22 * W := by
    rw [Finset.sum_image fun i _ j _ h => Tid.worker.inj h]
    simp [cap, Nat.mul_comm]
  have hlistener : ∑ t ∈ (Transport.connection (s.pcs .transport)).toFinset.image Tid.listener, cap W t ≤ 29 := by
    cases Transport.connection (s.pcs .transport) <;> simp [cap]
  calc ∑ t ∈ s.roster W, cap W t
      ≤ (∑ t ∈ ({.main,.producer,.consumer,.transport} : Finset Tid), cap W t +
          ∑ t ∈ (Finset.range W).image Tid.worker, cap W t) +
          ∑ t ∈ (Transport.connection (s.pcs .transport)).toFinset.image Tid.listener, cap W t :=
        (Potential.sum_union_le _ _ _).trans (Nat.add_le_add_right (Potential.sum_union_le _ _ _) _)
    _ ≤ 371 + 23 * W := by
        rw [hfixed, hworkers]
        omega

/-- The potential of a reachable state. -/
theorem potential_le (hreach : Reachable W s) : s.potential W ≤ 371 + 23 * W + 27 * defaultCapacity := by
  refine Nat.add_le_add ((Finset.sum_le_sum fun t _ => ?_).trans (sum_cap_le W s)) (stock_le hreach)
  exact (due_le _ _ _).trans (budget_le_cap hreach t)

end Bounds

section Runs
variable {W : ℕ} {s s' : System}

theorem run_eq_foldlM (W : ℕ) (s : System) (schedule : List (Tid × Choice)) :
    run W s schedule = schedule.foldlM (fun s a => step W s a.1 a.2) s := by
  induction schedule generalizing s with
  | nil => rfl
  | cons a rest ih =>
    simp only [run, List.foldlM_cons]
    congr 1
    funext m
    exact ih m

/-- The shutdown takes a bounded number of steps: from any reachable state in which it has
been requested, whatever the scheduler does, the process makes at most a fixed number of
steps, plus 40 for each byte that is read from a client and 2 for each interrupted call. -/
theorem shutdown_steps_bounded {schedule : List (Tid × Choice)} (hreach : Reachable W s)
    (hstop : s.shared.stop = true) (hrun : run W s schedule = some s') :
    schedule.length ≤ 371 + 23 * W + 27 * defaultCapacity + (schedule.map fun a => a.2.credit).sum := by
  have hstep : ∀ (m : System) (a : Tid × Choice) (m' : System), Reachable W m ∧ m.shared.stop = true →
      step W m a.1 a.2 = some m' → Reachable W m' ∧ m'.shared.stop = true := by
    rintro m a m' ⟨hm,hmstop⟩ hm'
    refine ⟨hm.tail ⟨a.1,a.2,hm'⟩,?_⟩
    obtain ⟨_,p,sh',hexec,rfl⟩ := step_inversion hm'
    exact (exec_effect hexec).stop_mono hmstop
  rw [run_eq_foldlM] at hrun
  have hcost := Potential.run_cost_le hstep (fun m a m' hm hm' =>
    (step_potential hm.1 hm.2 hm').trans (Nat.add_le_add_left (Op.credit_le _ _) _)) ⟨hreach,hstop⟩ hrun
  have hlength : (schedule.map fun _ => 1).sum = schedule.length := by simp
  have hpotential := potential_le hreach
  omega

/-- All threads return after the signal, and `main` joins them and exits. -/
def homecoming : List (Tid × Choice) := proceed .producer 2 ++ retire ++ proceed .main 13

theorem shutdown_steps_bounded_homecoming : ∃ s s',
    run Main.workerPoolDefaultSize .initial (startUp ++ shutDown) = some s ∧ s.shared.stop = true ∧
    run Main.workerPoolDefaultSize s homecoming = some s' ∧ s'.shared.exited = true ∧
    homecoming.length ≤ 371 + 23 * Main.workerPoolDefaultSize + 27 * defaultCapacity +
      (homecoming.map fun a => a.2.credit).sum := by
  have hobserved : (run Main.workerPoolDefaultSize .initial (startUp ++ shutDown)).bind (fun s =>
      (run Main.workerPoolDefaultSize s homecoming).map fun s' => (s.shared.stop,s'.shared.exited)) =
      some (true,true) := by
    decide +kernel
  obtain ⟨s,hrun,hrest⟩ := Option.bind_eq_some_iff.mp hobserved
  obtain ⟨s',hrun',hs⟩ := Option.map_eq_some_iff.mp hrest
  simp only [Prod.mk.injEq] at hs
  exact ⟨s,s',hrun,hs.1,hrun',hs.2,shutdown_steps_bounded (run_reachable .refl hrun) hs.1 hrun'⟩

end Runs

end RadioSim.Process
