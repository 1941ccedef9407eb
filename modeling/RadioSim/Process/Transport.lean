import RadioSim.Process.Handshake

/-! # Transport

`transport_routine` with `serve_client` of `transport.c`: connections one after
the other, each with its handshake, its two subscriber queues and its command
listener.
-/
namespace RadioSim.Process

def Op.map {P R : Type} (f : P → R) : Op P → Op R
  | .tau next => .tau (f next)
  | .choose k => .choose fun b => f (k b)
  | .ret next => .ret (f next)
  | .exit next => .exit (f next)
  | .spawn t k => .spawn t fun b => f (k b)
  | .join t next => .join t (f next)
  | .shutdownRequested k => .shutdownRequested fun b => f (k b)
  | .shutdownRequest next => .shutdownRequest (f next)
  | .malloc k => .malloc fun a => f (k a)
  | .free a next => .free a (f next)
  | .touch a next => .touch a (f next)
  | .queueCreate q k => .queueCreate q fun b => f (k b)
  | .queueDestroy q next => .queueDestroy q (f next)
  | .queueShutdown q next => .queueShutdown q (f next)
  | .enqueue q item k => .enqueue q item fun b => f (k b)
  | .tryEnqueue q item k => .tryEnqueue q item fun b => f (k b)
  | .dequeue q k => .dequeue q fun x => f (k x)
  | .tryDequeue q k => .tryDequeue q fun x => f (k x)
  | .subscribe topic q k => .subscribe topic q fun b => f (k b)
  | .unsubscribe topic q next => .unsubscribe topic q (f next)
  | .publishBegin topic item k => .publishBegin topic item fun s => f (k s)
  | .deliver q item next => .deliver q item (f next)
  | .publishEnd next => .publishEnd (f next)
  | .nextSequence k => .nextSequence fun seq => f (k seq)
  | .time k => .time fun ts => f (k ts)
  | .getInterval k => .getInterval fun ms => f (k ms)
  | .setInterval ms next => .setInterval ms (f next)
  | .poll k => .poll fun r => f (k r)
  | .accept k => .accept fun n => f (k n)
  | .sockRead n k => .sockRead n fun r => f (k r)
  | .sockWrite n bytes k => .sockWrite n bytes fun r => f (k r)
  | .close n next => .close n (f next)
  | .peerDeclare n next => .peerDeclare n (f next)
  | .peerRead n k => .peerRead n fun b => f (k b)
  | .peerClear n next => .peerClear n (f next)
  | .peerEnd n next => .peerEnd n (f next)
  | .noteApplied n line next => .noteApplied n line (f next)

/-- A routine embedded in another one takes the same steps there. -/
theorem exec_map {P R : Type} (f : P → R) (t : Tid) (c : Choice) (sh : Shared) (op : Op P) :
    exec t c sh (op.map f) = (exec t c sh op).map (Prod.map f id) := by
  cases op with
  | free a next | touch a next => cases a <;> rfl
  | join child next =>
    simp only [Op.map, exec]
    split <;> rfl
  | queueDestroy q next | queueShutdown q next | tryEnqueue q item k | tryDequeue q k =>
    simp only [Op.map, exec]
    cases sh.ring q <;> rfl
  | enqueue q item k | dequeue q k =>
    simp only [Op.map, exec, Option.map_bind]
    congr 1
    funext r
    simp only [Function.comp_apply, Option.map_map]
    rfl
  | deliver q item next =>
    simp only [Op.map, exec, Option.map_bind]
    congr 1
    funext r
    cases c <;> rfl
  | subscribe topic q k =>
    simp only [Op.map, exec]
    split
    · cases c <;> rfl
    · rfl
  | unsubscribe topic q next =>
    simp only [Op.map, exec]
    split <;> rfl
  | publishBegin topic item k =>
    simp only [Op.map, exec]
    split
    · cases Pubsub.findOrCreateTopic sh.registry topic <;> rfl
    · rfl
  | sockRead n k =>
    cases c with
    | read r => cases r <;> rfl
    | _ => rfl
  | sockWrite n bytes k =>
    cases c with
    | write r =>
      cases r with
      | wrote m =>
        simp only [Op.map, exec]
        split <;> rfl
      | _ => rfl
    | _ => rfl
  | _ => cases c <;> rfl

theorem map_writeAll {P R : Type} (f : P → R) (n : ℕ) (rest : Bytes) (again : Bytes → P) (written failed : P) :
    (writeAll n rest again written failed).map f =
      writeAll n rest (fun r => f (again r)) (f written) (f failed) := by
  unfold writeAll
  split
  · rfl
  · simp only [Op.map]
    congr 1
    funext r
    cases r with
    | wrote m =>
      dsimp only
      split <;> rfl
    | _ => rfl

namespace Transport

def lineSize : ℕ := 256

def formatTelemetry (t : TelemetryMsg) : Bytes :=
  ascii "\x7b\"schema_version\": 1, \"type\": \"telemetry\", \"seq\": " ++ decimal t.seq.toNat ++
    ascii ", \"ts\": " ++ decimalInt t.ts.toInt ++ ascii ", \"battery_pct\": " ++
    decimal t.batteryPct.toNat ++ ascii ", \"rssi_dbm\": " ++ decimalInt t.rssiDbm.toInt ++ ascii "\x7d\n"

def formatAlert (a : AlertMsg) : Bytes :=
  ascii "\x7b\"schema_version\": 1, \"type\": \"alert\", \"seq\": " ++ decimal a.seq.toNat ++
    ascii ", \"ts\": " ++ decimalInt a.ts.toInt ++ ascii ", \"code\": \"" ++ a.code.text.bytes ++
    ascii "\", \"antenna\": " ++ decimal a.antenna.toNat ++ ascii "\x7d\n"

/-- The locals of one connection: which queues exist, which are subscribed, and
whether the command listener was started. -/
structure Client where
  n : ℕ
  telemetrySub : Bool
  alertsSub : Bool
  subscribedTelemetry : Bool
  subscribedAlerts : Bool
  started : Bool

inductive Pc
  | loop
  | pollListen
  | accept
  | handshake (n : ℕ) (h : Handshake.Pc)
  | createTelemetry (n : ℕ)
  | createAlerts (c : Client)
  | subscribeTelemetry (c : Client)
  | subscribeAlerts (c : Client)
  | declarePeer (c : Client)
  | allocArgs (c : Client)
  | spawnListener (c : Client)
  | checkPeer (c : Client)
  | checkStop (c : Client)
  | tryTelemetry (c : Client)
  | tryAlerts (c : Client)
  | sleep (c : Client)
  | formatTelemetry (c : Client) (item : Item)
  | formatAlert (c : Client) (item : Item)
  | write (c : Client) (item : Item) (rest : Bytes)
  | release (c : Client) (item : Item) (clientAlive : Bool)
  | clearPeer (c : Client)
  | joinListener (c : Client)
  | endPeer (c : Client)
  | unsubscribeTelemetry (c : Client)
  | unsubscribeAlerts (c : Client)
  | destroyTelemetry (c : Client)
  | destroyAlerts (c : Client)
  | close (n : ℕ)
  | done

/-- After the format: the line is written if it fitted its buffer. -/
def afterFormat (c : Client) (item : Item) (line : Bytes) : Pc :=
  if 0 < line.length ∧ line.length < lineSize then .write c item line else .release c item true

def afterSubscribe (c : Client) : Pc :=
  if c.subscribedTelemetry && c.subscribedAlerts then .declarePeer c else .unsubscribeTelemetry c

def code : Pc → Op Pc
  | .loop => .shutdownRequested fun stop => if stop then .done else .pollListen
  | .pollListen => .poll fun
    | .error => .done
    | .eintr => .loop
    | .timeout => .loop
    | .ready _ => .accept
  | .accept => .accept fun
    | none => .loop
    | some n => .handshake n (Handshake.start Handshake.serverVersions)
  | .handshake n (.done ok _) => .tau (if ok then .createTelemetry n else .close n)
  | .handshake n h => (Handshake.code Handshake.serverVersions n h).map (.handshake n)
  | .createTelemetry n => .queueCreate (.connTelemetry n) fun ok =>
    .createAlerts ⟨n,ok,false,false,false,false⟩
  | .createAlerts c => .queueCreate (.connAlerts c.n) fun ok => .subscribeTelemetry { c with alertsSub := ok }
  | .subscribeTelemetry c =>
    if c.telemetrySub then .subscribe topicTelemetry (.connTelemetry c.n) fun ok =>
      .subscribeAlerts { c with subscribedTelemetry := ok }
    else .tau (.subscribeAlerts c)
  | .subscribeAlerts c =>
    if c.alertsSub then .subscribe topicAlerts (.connAlerts c.n) fun ok =>
      afterSubscribe { c with subscribedAlerts := ok }
    else .tau (afterSubscribe c)
  | .declarePeer c => .peerDeclare c.n (.allocArgs c)
  | .allocArgs c => .choose fun ok => if ok then .spawnListener c else .checkPeer c
  | .spawnListener c => .spawn (.listener c.n) fun ok => .checkPeer { c with started := ok }
  -- serve_client: the loop test, then one message
  | .checkPeer c => .peerRead c.n fun alive => if alive then .checkStop c else .clearPeer c
  | .checkStop c => .shutdownRequested fun stop => if stop then .clearPeer c else .tryTelemetry c
  | .tryTelemetry c => .tryDequeue (.connTelemetry c.n) fun
    | some item => .formatTelemetry c item
    | none => .tryAlerts c
  | .tryAlerts c => .tryDequeue (.connAlerts c.n) fun
    | some item => .formatAlert c item
    | none => .sleep c
  | .sleep c => .tau (.checkPeer c)
  | .formatTelemetry c item =>
    .touch item.addr (afterFormat c item (Transport.formatTelemetry (asTelemetryMsg item)))
  | .formatAlert c item => .touch item.addr (afterFormat c item (Transport.formatAlert (asAlertMsg item)))
  | .write c item rest => writeAll c.n rest (.write c item) (.release c item true) (.release c item false)
  | .release c item clientAlive => .free item.addr (if clientAlive then .checkPeer c else .clearPeer c)
  | .clearPeer c => .peerClear c.n (.joinListener c)
  | .joinListener c => if c.started then .join (.listener c.n) (.endPeer c) else .tau (.endPeer c)
  | .endPeer c => .peerEnd c.n (.unsubscribeTelemetry c)
  | .unsubscribeTelemetry c =>
    if c.subscribedTelemetry then .unsubscribe topicTelemetry (.connTelemetry c.n) (.unsubscribeAlerts c)
    else .tau (.unsubscribeAlerts c)
  | .unsubscribeAlerts c =>
    if c.subscribedAlerts then .unsubscribe topicAlerts (.connAlerts c.n) (.destroyTelemetry c)
    else .tau (.destroyTelemetry c)
  | .destroyTelemetry c =>
    if c.telemetrySub then .queueDestroy (.connTelemetry c.n) (.destroyAlerts c) else .tau (.destroyAlerts c)
  | .destroyAlerts c =>
    if c.alertsSub then .queueDestroy (.connAlerts c.n) (.close c.n) else .tau (.close c.n)
  | .close n => .close n .loop
  | .done => .ret .done

/-- The steps of a connection's handshake are those of `handshake_perform`, up to its return. -/
theorem handshake_exec {n : ℕ} {hs : Handshake.Pc} {c : Choice} {sh sh' : Shared} {p : Pc}
    (h : exec .transport c sh (code (.handshake n hs)) = some (p,sh')) :
    (∃ ok v, hs = .done ok v ∧ sh' = sh ∧ p = if ok then .createTelemetry n else .close n) ∨
    ∃ hs', p = .handshake n hs' ∧
      exec .transport c sh (Handshake.code Handshake.serverVersions n hs) = some (hs',sh') := by
  cases hs with
  | done ok v =>
    cases h
    exact Or.inl ⟨ok,v,rfl,rfl,rfl⟩
  | _ =>
    simp only [code] at h
    rw [exec_map] at h
    obtain ⟨⟨hs',sh₁⟩,hexec,hp⟩ := Option.map_eq_some_iff.mp h
    obtain ⟨rfl,rfl⟩ := Prod.mk.inj hp
    exact Or.inr ⟨hs',rfl,hexec⟩

/-- During the handshake the transport thread does nothing but internal steps and
socket calls on its connection. -/
theorem handshake_op (n : ℕ) (h : Handshake.Pc) :
    (∃ next, code (.handshake n h) = .tau next ∧
      (next = .createTelemetry n ∨ next = .close n ∨ ∃ h', next = .handshake n h')) ∨
    (∃ bytes k, code (.handshake n h) = .sockWrite n bytes k ∧ ∀ r, ∃ h', k r = .handshake n h') ∨
    ∃ k, code (.handshake n h) = .sockRead n k ∧ ∀ r, ∃ h', k r = .handshake n h' := by
  have hwrite : ∀ rest again written failed, (∃ next,
      (writeAll n rest again written failed).map (Pc.handshake n) = .tau next ∧
        ∃ h', next = .handshake n h') ∨
      ∃ bytes k, (writeAll n rest again written failed).map (Pc.handshake n) = .sockWrite n bytes k ∧
        ∀ r, ∃ h', k r = .handshake n h' := by
    intro rest again written failed
    unfold writeAll
    split
    · exact Or.inl ⟨_,rfl,_,rfl⟩
    · exact Or.inr ⟨rest,_,rfl,fun r => ⟨_,rfl⟩⟩
  cases h with
  | hello rest | nack rest | ack version rest =>
    simp only [code, Handshake.code]
    rcases hwrite rest _ _ _ with ⟨next,hop,hnext⟩ | hop
    · exact Or.inl ⟨next,hop,Or.inr (Or.inr hnext)⟩
    · exact Or.inr (Or.inl hop)
  | readLine buf =>
    simp only [code, Handshake.code]
    split
    · exact Or.inr (Or.inr ⟨_,rfl,fun r => ⟨_,rfl⟩⟩)
    · exact Or.inl ⟨_,rfl,Or.inr (Or.inr ⟨_,rfl⟩)⟩
  | done ok negotiated =>
    refine Or.inl ⟨_,rfl,?_⟩
    cases ok
    · exact Or.inr (Or.inl rfl)
    · exact Or.inl rfl

end Transport
end RadioSim.Process
