import RadioSim.Process.Stock

/-! # The bytes of a connection

What the server has written on a connection, at every program point of the
transport thread: the greeting, the answer, and one line for each message taken
from the queues of the connection.
-/
namespace RadioSim.Process
open Pubsub Queue

section Lines
open Transport

/-- The text is one line: its last byte is its only newline. -/
def IsLine (text : Bytes) : Prop := ∃ body, text = body ++ [10] ∧ 10 ∉ body

theorem formatTelemetry_isLine (msg : TelemetryMsg) : IsLine (formatTelemetry msg) := by
  refine ⟨ascii "\x7b\"schema_version\": 1, \"type\": \"telemetry\", \"seq\": " ++ decimal msg.seq.toNat ++
    ascii ", \"ts\": " ++ decimalInt msg.ts.toInt ++ ascii ", \"battery_pct\": " ++
    decimal msg.batteryPct.toNat ++ ascii ", \"rssi_dbm\": " ++ decimalInt msg.rssiDbm.toInt ++ ascii "\x7d",?_,?_⟩
  · simp only [formatTelemetry, List.append_assoc]
    rfl
  · simp only [List.mem_append, newline_notMem_decimal, newline_notMem_decimalInt, or_false]
    decide

theorem formatAlert_isLine {msg : AlertMsg} (h : msg.code.Clean) : IsLine (formatAlert msg) := by
  refine ⟨ascii "\x7b\"schema_version\": 1, \"type\": \"alert\", \"seq\": " ++ decimal msg.seq.toNat ++
    ascii ", \"ts\": " ++ decimalInt msg.ts.toInt ++ ascii ", \"code\": \"" ++ msg.code.text.bytes ++
    ascii "\", \"antenna\": " ++ decimal msg.antenna.toNat ++ ascii "\x7d",?_,?_⟩
  · simp only [formatAlert, List.append_assoc]
    rfl
  · have hcode : 10 ∉ msg.code.text.bytes := h
    simp only [List.mem_append, newline_notMem_decimal, newline_notMem_decimalInt, hcode, or_false]
    decide

theorem formatTelemetry_length (msg : TelemetryMsg) :
    0 < (formatTelemetry msg).length ∧ (formatTelemetry msg).length < lineSize := by
  have hseq := decimal_uint32_length msg.seq
  have hts := decimalInt_int64_length msg.ts
  have hbattery := decimal_uint32_length msg.batteryPct
  have hrssi := decimalInt_int32_length msg.rssiDbm
  simp only [formatTelemetry, List.length_append, lineSize,
    show (ascii "\x7b\"schema_version\": 1, \"type\": \"telemetry\", \"seq\": ").length = 50 from rfl,
    show (ascii ", \"ts\": ").length = 8 from rfl, show (ascii ", \"battery_pct\": ").length = 17 from rfl,
    show (ascii ", \"rssi_dbm\": ").length = 14 from rfl, show (ascii "\x7d\n").length = 2 from rfl]
  omega

theorem formatAlert_length (msg : AlertMsg) :
    0 < (formatAlert msg).length ∧ (formatAlert msg).length < lineSize := by
  have hseq := decimal_uint32_length msg.seq
  have hts := decimalInt_int64_length msg.ts
  have hantenna := decimal_uint32_length msg.antenna
  have hcode : msg.code.text.bytes.length ≤ 32 :=
    ((List.takeWhile_prefix _).length_le).trans msg.code.length_eq.le
  simp only [formatAlert, List.length_append, lineSize,
    show (ascii "\x7b\"schema_version\": 1, \"type\": \"alert\", \"seq\": ").length = 46 from rfl,
    show (ascii ", \"ts\": ").length = 8 from rfl, show (ascii ", \"code\": \"").length = 11 from rfl,
    show (ascii "\", \"antenna\": ").length = 14 from rfl, show (ascii "\x7d\n").length = 2 from rfl]
  omega

def line : QueueId × Item → Bytes
  | (.connTelemetry _,item) => formatTelemetry (asTelemetryMsg item)
  | (.connAlerts _,item) => formatAlert (asAlertMsg item)
  | _ => []

theorem line_isLine {x : QueueId × Item} (hfits : Fits x.1 x.2) {n : ℕ}
    (hx : x.1 = .connTelemetry n ∨ x.1 = .connAlerts n) : IsLine (line x) := by
  obtain ⟨q,item⟩ := x
  rcases hx with rfl | rfl
  · exact formatTelemetry_isLine _
  · obtain ⟨msg,hmsg,hclean⟩ := hfits
    have hread : asAlertMsg item = msg := by simp only [asAlertMsg, hmsg]
    exact formatAlert_isLine (hread ▸ hclean)

end Lines

section Shapes
open Handshake

def hello : Bytes := ascii "HELLO SERVER_VERSIONS=1\n"

def ack : Bytes := ackLine 1

theorem start_eq : start serverVersions = .hello hello := rfl

theorem highestCommonVersion_one (client : List ℤ) :
    highestCommonVersion serverVersions client = 0 ∨ highestCommonVersion serverVersions client = 1 := by
  change client.foldl (fun best w => if w = 1 ∧ (1 : ℤ) > best then 1 else best) 0 = 0 ∨
    client.foldl (fun best w => if w = 1 ∧ (1 : ℤ) > best then 1 else best) 0 = 1
  have hfold : ∀ best : ℤ, best = 0 ∨ best = 1 →
      client.foldl (fun best w => if w = 1 ∧ (1 : ℤ) > best then 1 else best) best = 0 ∨
      client.foldl (fun best w => if w = 1 ∧ (1 : ℤ) > best then 1 else best) best = 1 := by
    induction client with
    | nil => exact fun best h => h
    | cons w rest ih =>
      intro best h
      refine ih _ ?_
      dsimp only
      split
      · exact Or.inr rfl
      · exact h
  exact hfold 0 (Or.inl rfl)

/-- The server answers with its refusal, or acknowledges its one version. -/
theorem answer_cases (text : CString) :
    answer serverVersions text = .nack nackLine ∨ answer serverVersions text = .ack 1 ack := by
  unfold answer
  split
  · exact Or.inl rfl
  · rcases highestCommonVersion_one (parseClientVersions text lineMax) with h | h
    · left
      simp only [h, ↓reduceIte]
    · right
      simp only [h]
      rfl

def Shared.dequeued (sh : Shared) (n : ℕ) : List (QueueId × Item) :=
  sh.taken.filter fun x => decide (x.1 = .connTelemetry n ∨ x.1 = .connAlerts n)

/-- The client was not served: it has got a part of the greeting and one answer. -/
def Refused (out : Bytes) (messages : List (QueueId × Item)) : Prop :=
  messages = [] ∧ (out <+: hello ++ nackLine ∨ out <+: hello ++ ack)

def Flowing (out : Bytes) (messages : List (QueueId × Item)) : Prop :=
  out = hello ++ ack ++ messages.flatMap line

/-- Everything that was taken is written, except for the end of the last line. -/
def Served (out : Bytes) (messages : List (QueueId × Item)) : Prop :=
  ∃ sent pending part, messages = sent ++ pending ∧ pending.length ≤ 1 ∧
    out = hello ++ ack ++ sent.flatMap line ++ part ∧ part <+: pending.flatMap line

theorem Flowing.served {out : Bytes} {messages : List (QueueId × Item)} (h : Flowing out messages) :
    Served out messages :=
  ⟨messages,[],[],(List.append_nil _).symm,Nat.zero_le _,by rw [h, List.append_nil],List.prefix_rfl⟩

/-- A client with the whole acknowledgement was not refused. -/
theorem Refused.served {out : Bytes} {messages : List (QueueId × Item)} (h : Refused out messages)
    (hack : hello ++ ack <+: out) : Served out messages := by
  obtain ⟨rfl,hout | hout⟩ := h
  · exact absurd (hack.trans hout) (by decide)
  · refine Flowing.served ?_
    rw [Flowing, List.flatMap_nil, List.append_nil]
    exact (hack.eq_of_length_le hout.length_le).symm

/-- What the program point of the transport thread says about its connection. -/
def Wire : Transport.Pc → Bytes → List (QueueId × Item) → Prop
  | .handshake _ (.hello rest), out, messages => messages = [] ∧ out ++ rest = hello
  | .handshake _ (.readLine _), out, messages => messages = [] ∧ out = hello
  | .handshake _ (.nack rest), out, messages => messages = [] ∧ out ++ rest = hello ++ nackLine
  | .handshake _ (.ack _ rest), out, messages => messages = [] ∧ out ++ rest = hello ++ ack
  | .handshake _ (.done true _), out, messages => messages = [] ∧ out = hello ++ ack
  | .handshake _ (.done false _), out, messages => Refused out messages
  | .formatTelemetry c item, out, messages =>
    ∃ sent, messages = sent ++ [(.connTelemetry c.n,item)] ∧ Flowing out sent
  | .formatAlert c item, out, messages => ∃ sent, messages = sent ++ [(.connAlerts c.n,item)] ∧ Flowing out sent
  | .write _ _ rest, out, messages => ∃ sent x part, messages = sent ++ [x] ∧ line x = part ++ rest ∧
      out = hello ++ ack ++ sent.flatMap line ++ part
  | .release _ _ false, out, messages | .clearPeer _, out, messages | .joinListener _, out, messages
  | .endPeer _, out, messages | .unsubscribeTelemetry _, out, messages | .unsubscribeAlerts _, out, messages
  | .destroyTelemetry _, out, messages | .destroyAlerts _, out, messages => Served out messages
  | .close _, out, messages => Refused out messages ∨ Served out messages
  | _, out, messages => Flowing out messages

theorem refused_of_append {out rest tail : Bytes} {messages : List (QueueId × Item)} (hmessages : messages = [])
    (h : out ++ rest ++ tail = hello ++ nackLine ∨ out ++ rest ++ tail = hello ++ ack) : Refused out messages := by
  refine ⟨hmessages,h.imp (fun h => ?_) (fun h => ?_)⟩ <;>
    exact ⟨rest ++ tail,by rw [← List.append_assoc, h]⟩

/-- Up to the end of the handshake the client is not served. -/
theorem Wire.refused {n : ℕ} {hs : Handshake.Pc} {out : Bytes} {messages : List (QueueId × Item)}
    (h : Wire (.handshake n hs) out messages) : Refused out messages := by
  cases hs with
  | hello rest => exact refused_of_append h.1 (Or.inl (congrArg (· ++ nackLine) h.2))
  | readLine buf => exact ⟨h.1,Or.inl ⟨nackLine,by rw [h.2]⟩⟩
  | nack rest => exact refused_of_append h.1 (Or.inl ((List.append_nil _).trans h.2))
  | ack version rest => exact refused_of_append h.1 (Or.inr ((List.append_nil _).trans h.2))
  | done ok version =>
    cases ok
    · exact h
    · exact ⟨h.1,Or.inr ⟨[],by rw [h.2, List.append_nil]⟩⟩

/-- At every program point the connection is a refused or a served one. -/
theorem Wire.shape {pc : Transport.Pc} {out : Bytes} {messages : List (QueueId × Item)}
    (h : Wire pc out messages) : Refused out messages ∨ Served out messages := by
  cases pc with
  | handshake n hs => exact Or.inl h.refused
  | formatTelemetry c item | formatAlert c item =>
    obtain ⟨sent,hlast,hf⟩ := h
    exact Or.inr ⟨sent,_,[],hlast,le_rfl,by rw [hf, List.append_nil],List.nil_prefix⟩
  | write c item rest =>
    obtain ⟨sent,x,part,hlast,hline,hout⟩ := h
    exact Or.inr ⟨sent,[x],part,hlast,le_rfl,hout,rest,by simp [hline]⟩
  | release c item alive =>
    cases alive
    · exact Or.inr h
    · exact Or.inr (Flowing.served h)
  | clearPeer | joinListener | endPeer | unsubscribeTelemetry | unsubscribeAlerts | destroyTelemetry
  | destroyAlerts => exact Or.inr h
  | close => exact h
  | _ => exact Or.inr (Flowing.served h)

/-- Past the handshake the whole acknowledgement is out. -/
theorem Wire.acknowledged {pc : Transport.Pc} {c : Transport.Client} {out : Bytes}
    {messages : List (QueueId × Item)} (hc : Transport.client pc = some c) (h : Wire pc out messages) :
    hello ++ ack <+: out := by
  have hflowing : ∀ {messages}, Flowing out messages → hello ++ ack <+: out := fun hf => ⟨_,hf.symm⟩
  have hserved : ∀ {messages}, Served out messages → hello ++ ack <+: out := by
    rintro _ ⟨sent,_,part,_,_,hout,_⟩
    exact ⟨_,by rw [hout, List.append_assoc _ (sent.flatMap line)]⟩
  cases pc with
  | formatTelemetry c item | formatAlert c item =>
    obtain ⟨_,_,hf⟩ := h
    exact hflowing hf
  | write c item rest =>
    obtain ⟨sent,_,part,_,_,hout⟩ := h
    exact ⟨_,by rw [hout, List.append_assoc _ (sent.flatMap line)]⟩
  | release c item alive =>
    cases alive
    · exact hserved h
    · exact hflowing h
  | clearPeer | joinListener | endPeer | unsubscribeTelemetry | unsubscribeAlerts | destroyTelemetry
  | destroyAlerts => exact hserved h
  | loop | pollListen | accept | handshake | createTelemetry | close | done => cases hc
  | _ => exact hflowing h

end Shapes

section Frames
variable {t : Tid} {sh sh' : Shared} {n : ℕ}

/-- Only the thread of a connection writes on it and takes from its queues, and
only its listener applies commands. -/
def Op.Wiring (t : Tid) (pc : Pc t) : Op (Pc t) → Prop
  | .sockWrite n _ _ => Opened t pc n
  | .dequeue q _ | .tryDequeue q _ => ∀ n, q = .connTelemetry n ∨ q = .connAlerts n → Opened t pc n
  | .noteApplied n _ _ => t = .listener n
  | _ => True

theorem code_wiring (W : ℕ) (t : Tid) (pc : Pc t) : (code W t pc).Wiring t pc := by
  cases t with
  | main =>
    change (Main.code W pc).Wiring .main pc
    cases pc <;> simp only [Main.code] <;> first | exact trivial | (split <;> exact trivial)
  | producer =>
    change (Producer.code pc).Wiring .producer pc
    cases pc <;> simp only [Producer.code] <;> first | exact trivial | (split <;> exact trivial)
  | worker i =>
    change (Worker.code pc).Wiring (.worker i) pc
    cases pc with
    | dequeue => exact fun n h => by simp at h
    | fanOut raw seq ts subscribers => cases subscribers <;> exact trivial
    | _ => exact trivial
  | consumer =>
    change (Consumer.code pc).Wiring .consumer pc
    cases pc with
    | dequeueTelemetry | tryAlert => exact fun n h => by simp at h
    | _ => exact trivial
  | transport =>
    change (Transport.code pc).Wiring .transport pc
    cases pc with
    | handshake n hs =>
      rcases Transport.handshake_op n hs with ⟨_,hop,_⟩ | ⟨_,_,hop,_⟩ | ⟨_,hop,_⟩ <;> rw [hop]
      · exact trivial
      · exact rfl
      · exact trivial
    | write c item rest =>
      simp only [Transport.code, writeAll]
      split
      · exact trivial
      · exact rfl
    | tryTelemetry c | tryAlerts c =>
      intro n h
      have hn : c.n = n := by simpa using h
      exact congrArg some hn
    | _ =>
      simp only [Transport.code]
      first | exact trivial | (split <;> exact trivial)
  | listener m =>
    change (Command.code m pc).Wiring (.listener m) pc
    cases pc with
    | apply line => exact rfl
    | _ =>
      simp only [Command.code]
      first | exact trivial | (split <;> exact trivial)

variable {pc p : Pc t} {op : Op (Pc t)}

theorem dequeued_takeFrom {q : QueueId} (hq : ¬ (q = .connTelemetry n ∨ q = .connAlerts n))
    (d : Option Item × RingQueue Item) : (sh.takeFrom q d).dequeued n = sh.dequeued n := by
  have hnone : (d.1.toList.map fun x => (q,x)).filter
      (fun x => decide (x.1 = .connTelemetry n ∨ x.1 = .connAlerts n)) = [] := by
    rw [List.filter_eq_nil_iff]
    intro x hx
    obtain ⟨item,_,rfl⟩ := List.mem_map.mp hx
    simpa using hq
  simp only [Shared.dequeued, Shared.takeFrom, List.filter_append, hnone, List.append_nil]

/-- On a connection that is not the thread's own nothing is written, and nothing is
taken from its queues. -/
theorem Effect.elsewhere (h : Effect t sh op p sh') (hop : op.Wiring t pc) (hn : ¬ Opened t pc n)
    (haccept : ∀ k, op ≠ .accept k) :
    (sh'.conns n).output = (sh.conns n).output ∧ sh'.dequeued n = sh.dequeued n ∧ sh'.accepted = sh.accepted := by
  cases h with
  | accepted k | notAccepted k => exact absurd rfl (haccept k)
  | wrote n' bytes k m hm =>
    have hne : n ≠ n' := by
      rintro rfl
      exact hn hop
    simp [Shared.setConn, hne, Shared.dequeued]
  | dequeue q k r hr _ | tryDequeue q k r hr =>
    exact ⟨rfl,dequeued_takeFrom (fun hq => hn (hop n hq)) _,rfl⟩
  | readByte n' | close n' | peerDeclare n' | peerClear n' | peerEnd n' | noteApplied n' =>
    exact ⟨field_setConn Conn.output n (by rfl),rfl,rfl⟩
  | _ => exact ⟨rfl,rfl,rfl⟩

/-- A new connection has applied nothing. On the others the output grows, and only
the listener adds commands. -/
theorem Effect.applied (h : Effect t sh op p sh') (hop : op.Wiring t pc) : (sh'.conns n).applied = [] ∨
    ((sh.conns n).output <+: (sh'.conns n).output ∧
      ((sh'.conns n).applied = (sh.conns n).applied ∨ t = .listener n)) := by
  cases h with
  | accepted k =>
    by_cases hn : n = sh.accepted
    · exact Or.inl (by simp [Shared.setConn, hn])
    · exact Or.inr (by simp [Shared.setConn, hn])
  | noteApplied n' line next =>
    by_cases hn : n = n'
    · subst hn
      exact Or.inr ⟨by simp [Shared.setConn],Or.inr hop⟩
    · exact Or.inr (by simp [Shared.setConn, hn])
  | wrote n' bytes k m hm =>
    refine Or.inr ⟨?_,Or.inl (field_setConn Conn.applied n (by rfl))⟩
    by_cases hn : n = n'
    · subst hn
      simp [Shared.setConn]
    · simp [Shared.setConn, hn]
  | readByte n' | close n' | peerDeclare n' | peerClear n' | peerEnd n' =>
    refine Or.inr ⟨?_,Or.inl (field_setConn Conn.applied n (by rfl))⟩
    rw [field_setConn Conn.output n]
    rfl
  | _ => exact Or.inr ⟨List.prefix_rfl,Or.inl rfl⟩

end Frames

section Connection
open Handshake
variable {sh sh' : Shared} {n : ℕ}

theorem dequeued_congr (h : sh'.taken = sh.taken) : sh'.dequeued n = sh.dequeued n := by
  rw [Shared.dequeued, h, Shared.dequeued]

theorem output_setConn_self (c : Conn) : ((sh.setConn n c).conns n).output = c.output := by
  simp only [Shared.setConn, Function.update_self]

theorem handshake_wire {c : Choice} {hs : Handshake.Pc} {p : Transport.Pc}
    (h : exec .transport c sh (Transport.code (.handshake n hs)) = some (p,sh'))
    (hw : Wire (.handshake n hs) (sh.conns n).output (sh.dequeued n)) :
    Transport.connection p = some n ∧ Wire p (sh'.conns n).output (sh'.dequeued n) := by
  have hrefused := hw.refused
  cases hs with
  | hello rest =>
    simp only [Transport.code, Handshake.code, map_writeAll] at h
    rw [dequeued_congr (writeAll_turn h).1]
    rcases writeAll_whole h hw.2 with ⟨rfl,hout⟩ | ⟨left,rfl,hout⟩ | ⟨_,_,rfl,hout⟩
    · exact ⟨rfl,hw.1,hout⟩
    · exact ⟨rfl,hw.1,hout⟩
    · exact ⟨rfl,hout ▸ hrefused⟩
  | nack rest =>
    simp only [Transport.code, Handshake.code, map_writeAll] at h
    rw [dequeued_congr (writeAll_turn h).1]
    rcases writeAll_whole h hw.2 with ⟨rfl,hout⟩ | ⟨left,rfl,hout⟩ | ⟨_,_,rfl,hout⟩
    · exact ⟨rfl,hw.1,Or.inl (hout ▸ List.prefix_rfl)⟩
    · exact ⟨rfl,hw.1,hout⟩
    · exact ⟨rfl,hout ▸ hrefused⟩
  | ack version rest =>
    simp only [Transport.code, Handshake.code, map_writeAll] at h
    rw [dequeued_congr (writeAll_turn h).1]
    rcases writeAll_whole h hw.2 with ⟨rfl,hout⟩ | ⟨left,rfl,hout⟩ | ⟨_,_,rfl,hout⟩
    · exact ⟨rfl,hw.1,hout⟩
    · exact ⟨rfl,hw.1,hout⟩
    · exact ⟨rfl,hout ▸ hrefused⟩
  | readLine buf =>
    obtain ⟨hnone,hout⟩ := hw
    have heff := exec_effect h
    simp only [Transport.code, Handshake.code] at heff
    split at heff
    · cases heff with
      | readByte _ _ b =>
        refine ⟨rfl,?_⟩
        rw [output_setConn_self]
        dsimp only
        rw [hout]
        split
        · rcases answer_cases (.ofBuffer buf) with hanswer | hanswer <;> rw [hanswer]
          · exact ⟨hnone,rfl⟩
          · exact ⟨hnone,rfl⟩
        · exact ⟨hnone,rfl⟩
      | readNothing _ _ r hr =>
        cases r with
        | byte b => exact absurd rfl (hr b)
        | eintr => exact ⟨rfl,hnone,hout⟩
        | eof | error => exact ⟨rfl,hrefused⟩
    · cases heff with
      | tau => exact ⟨rfl,hrefused⟩
  | done ok version =>
    cases h
    cases ok
    · exact ⟨rfl,Or.inl hw⟩
    · obtain ⟨hnone,hout⟩ := hw
      refine ⟨rfl,?_⟩
      rw [hnone, hout]
      exact (List.append_nil _).symm

/-- A message was taken: it is the last one, and everything before it is out. -/
theorem dequeued_take {q : QueueId} (hq : q = .connTelemetry n ∨ q = .connAlerts n) (r : RingQueue Item) :
    (sh.takeFrom q r.tryDequeue).dequeued n = sh.dequeued n ++ r.contents.head?.toList.map fun x => (q,x) := by
  have hall : ∀ items : List Item, (items.map fun x => (q,x)).filter
      (fun x => decide (x.1 = .connTelemetry n ∨ x.1 = .connAlerts n)) = items.map fun x => (q,x) := by
    intro items
    rw [List.filter_eq_self]
    intro x hx
    obtain ⟨item,_,rfl⟩ := List.mem_map.mp hx
    simpa using hq
  simp only [Shared.dequeued, Shared.takeFrom, List.filter_append, RingQueue.tryDequeue_fst, hall]

/-- A formatted message fits its buffer, and is written. -/
theorem afterFormat_wire {c : Transport.Client} {item : Item} {x : QueueId × Item} {out : Bytes}
    {sent : List (QueueId × Item)} (hlength : 0 < (line x).length ∧ (line x).length < Transport.lineSize)
    (hflowing : Flowing out sent) : Transport.connection (Transport.afterFormat c item (line x)) = some c.n ∧
      Wire (Transport.afterFormat c item (line x)) out (sent ++ [x]) := by
  unfold Transport.afterFormat
  rw [if_pos hlength]
  exact ⟨rfl,sent,x,[],rfl,rfl,by rw [hflowing, List.append_nil]⟩

theorem transport_wire {c : Choice} {pc p : Transport.Pc} (hexec : exec .transport c sh (Transport.code pc) = some (p,sh'))
    (hn : Transport.connection pc = some n)
    (hw : Wire pc (sh.conns n).output (sh.dequeued n)) :
    (Transport.connection p = some n ∧ Wire p (sh'.conns n).output (sh'.dequeued n)) ∨
    (Transport.connection p = none ∧
      (Refused (sh'.conns n).output (sh'.dequeued n) ∨ Served (sh'.conns n).output (sh'.dequeued n))) := by
  have h := exec_effect hexec
  cases pc with
  | loop | pollListen | accept | done => cases hn
  | handshake m hs =>
    cases hn
    exact Or.inl (handshake_wire hexec hw)
  | createTelemetry m =>
    cases hn
    cases h <;> exact Or.inl ⟨rfl,hw⟩
  | createAlerts c =>
    cases hn
    cases h <;> exact Or.inl ⟨rfl,hw⟩
  | subscribeTelemetry c =>
    cases hn
    simp only [Transport.code] at h
    split at h <;> cases h <;> exact Or.inl ⟨rfl,hw⟩
  | subscribeAlerts c =>
    cases hn
    have hafter : ∀ c' : Transport.Client, c'.n = c.n →
        Transport.connection (Transport.afterSubscribe c') = some c.n ∧
        Wire (Transport.afterSubscribe c') (sh.conns c.n).output (sh.dequeued c.n) := by
      intro c' hc
      unfold Transport.afterSubscribe
      split
      · exact ⟨congrArg some hc,hw⟩
      · exact ⟨congrArg some hc,Flowing.served hw⟩
    simp only [Transport.code] at h
    split at h <;> cases h <;> exact Or.inl (hafter _ rfl)
  | declarePeer c =>
    cases hn
    cases h with
    | peerDeclare =>
      refine Or.inl ⟨rfl,?_⟩
      rw [output_setConn_self]
      exact hw
  | allocArgs c =>
    cases hn
    cases h with
    | choose _ b => cases b <;> exact Or.inl ⟨rfl,hw⟩
  | spawnListener c =>
    cases hn
    cases h <;> exact Or.inl ⟨rfl,hw⟩
  | checkPeer c =>
    cases hn
    cases h with
    | peerRead =>
      cases (sh.conns c.n).peerAlive
      · exact Or.inl ⟨rfl,Flowing.served hw⟩
      · exact Or.inl ⟨rfl,hw⟩
  | checkStop c =>
    cases hn
    cases h with
    | shutdownRequested =>
      cases sh.stop
      · exact Or.inl ⟨rfl,hw⟩
      · exact Or.inl ⟨rfl,Flowing.served hw⟩
  | tryTelemetry c =>
    cases hn
    cases h with
    | tryDequeue _ _ r hr =>
      left
      rw [dequeued_take (Or.inl rfl)]
      cases hhead : r.contents.head? with
      | none => exact ⟨rfl,(congrArg (Flowing _) (List.append_nil _)).mpr hw⟩
      | some item => exact ⟨rfl,_,rfl,hw⟩
  | tryAlerts c =>
    cases hn
    cases h with
    | tryDequeue _ _ r hr =>
      left
      rw [dequeued_take (Or.inr rfl)]
      cases hhead : r.contents.head? with
      | none => exact ⟨rfl,(congrArg (Flowing _) (List.append_nil _)).mpr hw⟩
      | some item => exact ⟨rfl,_,rfl,hw⟩
  | sleep c =>
    cases hn
    cases h
    exact Or.inl ⟨rfl,hw⟩
  | formatTelemetry c item =>
    cases hn
    obtain ⟨sent,hlast,hflowing⟩ := hw
    simp only [Transport.code] at h
    generalize item.addr = addr at h
    cases h with
    | touched =>
      rw [hlast]
      exact Or.inl (afterFormat_wire (x := (.connTelemetry c.n,item)) (formatTelemetry_length _) hflowing)
  | formatAlert c item =>
    cases hn
    obtain ⟨sent,hlast,hflowing⟩ := hw
    simp only [Transport.code] at h
    generalize item.addr = addr at h
    cases h with
    | touched =>
      rw [hlast]
      exact Or.inl (afterFormat_wire (x := (.connAlerts c.n,item)) (formatAlert_length _) hflowing)
  | write c item rest =>
    cases hn
    obtain ⟨sent,x,part,hlast,hline,hout⟩ := hw
    obtain ⟨htaken,_,hturn⟩ := writeAll_turn hexec
    left
    rw [dequeued_congr htaken]
    rcases hturn with ⟨rfl,rfl,hout'⟩ | ⟨m,rfl,hout'⟩ | ⟨_,_,rfl,hout'⟩ <;> refine ⟨rfl,?_⟩ <;> rw [hout']
    · rw [List.append_nil] at hline
      simp only [Wire, Flowing, hlast, hout, List.flatMap_append, List.flatMap_cons, List.flatMap_nil, hline,
        List.append_nil, List.append_assoc]
    · exact ⟨sent,x,part ++ rest.take m,hlast,(append_take_drop hline.symm m).symm,by rw [hout, List.append_assoc]⟩
    · refine ⟨sent,[x],part,hlast,le_rfl,hout,rest,?_⟩
      rw [← hline]
      simp
  | release c item alive =>
    cases hn
    simp only [Transport.code] at h
    generalize item.addr = addr at h
    cases alive <;> cases h <;> exact Or.inl ⟨rfl,hw⟩
  | clearPeer c | endPeer c =>
    cases hn
    cases h with
    | _ =>
      refine Or.inl ⟨rfl,?_⟩
      rw [output_setConn_self]
      exact hw
  | joinListener c | unsubscribeTelemetry c | unsubscribeAlerts c | destroyTelemetry c =>
    cases hn
    simp only [Transport.code] at h
    split at h <;> cases h <;> exact Or.inl ⟨rfl,hw⟩
  | destroyAlerts c =>
    cases hn
    simp only [Transport.code] at h
    split at h <;> cases h <;> exact Or.inl ⟨rfl,Or.inr hw⟩
  | close m =>
    cases hn
    cases h with
    | close =>
      refine Or.inr ⟨rfl,?_⟩
      rw [output_setConn_self]
      exact hw

/-- Between two connections nothing is written. A new connection starts with the
greeting. -/
theorem idle_wire {pc p : Transport.Pc} (h : Effect .transport sh (Transport.code pc) p sh')
    (hidle : Transport.connection pc = none) :
    (Transport.connection p = none ∧ sh'.conns = sh.conns ∧ sh'.taken = sh.taken ∧ sh'.accepted = sh.accepted) ∨
    (p = .handshake sh.accepted (.hello hello) ∧ sh'.taken = sh.taken ∧ sh'.accepted = sh.accepted + 1 ∧
      sh'.conns = Function.update sh.conns sh.accepted ⟨true,[],[],false,false,[]⟩) := by
  cases pc with
  | loop =>
    cases h with
    | shutdownRequested => cases sh.stop <;> exact Or.inl ⟨rfl,rfl,rfl,rfl⟩
  | pollListen =>
    cases h with
    | poll _ r => cases r <;> exact Or.inl ⟨rfl,rfl,rfl,rfl⟩
  | accept =>
    cases h with
    | accepted => exact Or.inr ⟨congrArg _ start_eq,rfl,rfl,rfl⟩
    | notAccepted => exact Or.inl ⟨rfl,rfl,rfl,rfl⟩
  | done =>
    cases h
    exact Or.inl ⟨rfl,rfl,rfl,rfl⟩
  | _ => cases hidle

end Connection

/-- The invariant: the connection that is served looks as its program point says,
and those before it as a served or a refused one. -/
structure Wired (pc : Transport.Pc) (sh : Shared) : Prop where
  current : ∀ n, Transport.connection pc = some n →
    n < sh.accepted ∧ Wire pc (sh.conns n).output (sh.dequeued n)
  past : ∀ n, Transport.connection pc ≠ some n →
    Refused (sh.conns n).output (sh.dequeued n) ∨ Served (sh.conns n).output (sh.dequeued n)
  fresh : ∀ n, sh.accepted ≤ n → sh.dequeued n = []

section Steps
variable {W : ℕ} {s s' : System} {t : Tid} {c : Choice} {sh sh' : Shared} {pc p : Transport.Pc}

theorem Wired.frame (h : Wired pc sh) (hsame : ∀ n, (sh'.conns n).output = (sh.conns n).output ∧
    sh'.dequeued n = sh.dequeued n ∧ sh'.accepted = sh.accepted) : Wired pc sh' := by
  refine ⟨fun n hn => ?_,fun n hn => ?_,fun n hn => ?_⟩ <;> obtain ⟨hout,hdequeued,haccepted⟩ := hsame n
  · rw [hout, hdequeued, haccepted]
    exact h.current n hn
  · rw [hout, hdequeued]
    exact h.past n hn
  · rw [hdequeued]
    exact h.fresh n (haccepted ▸ hn)

/-- A step of the transport thread while it serves connection `m`. -/
theorem Wired.serve {m : ℕ} (h : Wired pc sh) (hexec : exec .transport c sh (Transport.code pc) = some (p,sh'))
    (hm : Transport.connection pc = some m) : Wired p sh' := by
  have heff := exec_effect hexec
  have hsame : ∀ n, n ≠ m → (sh'.conns n).output = (sh.conns n).output ∧ sh'.dequeued n = sh.dequeued n ∧
      sh'.accepted = sh.accepted := by
    intro n hn
    refine heff.elsewhere (code_wiring 0 .transport pc) (fun ho => ?_) (fun k hk => ?_)
    · exact hn (Option.some.inj ((show Transport.connection pc = some n from ho).symm.trans hm))
    · have hop := code_disciplined 0 .transport pc
      rw [show code 0 .transport pc = _ from hk] at hop
      exact hop.2.1 m hm
  obtain ⟨hlt,hw⟩ := h.current m hm
  have haccepted : sh'.accepted = sh.accepted := (hsame (m + 1) (Nat.succ_ne_self m)).2.2
  have hfresh : ∀ n, sh'.accepted ≤ n → sh'.dequeued n = [] := by
    intro n hn
    rw [haccepted] at hn
    rw [(hsame n (by omega)).2.1]
    exact h.fresh n hn
  have hpast : ∀ n, n ≠ m →
      Refused (sh'.conns n).output (sh'.dequeued n) ∨ Served (sh'.conns n).output (sh'.dequeued n) := by
    intro n hn
    obtain ⟨hout,hdequeued,_⟩ := hsame n hn
    rw [hout, hdequeued]
    exact h.past n fun heq => hn (Option.some.inj (heq.symm.trans hm))
  rcases transport_wire hexec hm hw with ⟨hp,hw'⟩ | ⟨hp,hended⟩
  · refine ⟨fun n hn => ?_,fun n hn => hpast n fun heq => hn (heq ▸ hp),hfresh⟩
    obtain rfl := Option.some.inj (hp.symm.trans hn)
    exact ⟨by omega,hw'⟩
  · refine ⟨fun n hn => ?_,fun n _ => ?_,hfresh⟩
    · rw [hp] at hn
      cases hn
    · by_cases hn : n = m
      · exact hn ▸ hended
      · exact hpast n hn

/-- A step of the transport thread between two connections. -/
theorem Wired.idle (h : Wired pc sh) (heff : Effect .transport sh (Transport.code pc) p sh')
    (hidle : Transport.connection pc = none) : Wired p sh' := by
  have hpast : ∀ n, Refused (sh.conns n).output (sh.dequeued n) ∨ Served (sh.conns n).output (sh.dequeued n) :=
    fun n => h.past n (by simp [hidle])
  rcases idle_wire heff hidle with ⟨hp,hconns,htaken,haccepted⟩ | ⟨rfl,htaken,haccepted,hconns⟩
  · refine ⟨fun n hn => ?_,fun n _ => ?_,fun n hn => ?_⟩
    · rw [hp] at hn
      cases hn
    · rw [hconns, dequeued_congr htaken]
      exact hpast n
    · rw [dequeued_congr htaken]
      exact h.fresh n (haccepted ▸ hn)
  · refine ⟨fun n hn => ?_,fun n hn => ?_,fun n hn => ?_⟩
    · obtain rfl := Option.some.inj hn
      rw [hconns, Function.update_self, dequeued_congr htaken, haccepted]
      exact ⟨Nat.lt_succ_self _,h.fresh _ le_rfl,rfl⟩
    · have hne : n ≠ sh.accepted := fun heq => hn (heq ▸ rfl)
      rw [hconns, Function.update_of_ne hne, dequeued_congr htaken]
      exact hpast n
    · rw [dequeued_congr htaken]
      exact h.fresh n (by omega)

theorem step_wired (h : Wired (s.pcs .transport) s.shared) (hstep : step W s t c = some s') :
    Wired (s'.pcs .transport) s'.shared := by
  obtain ⟨_,p,sh',hexec,rfl⟩ := step_inversion hstep
  have heff := exec_effect hexec
  by_cases ht : .transport = t
  · subst ht
    simp only [Function.update_self]
    cases hm : Transport.connection (s.pcs .transport) with
    | none => exact h.idle heff hm
    | some m => exact h.serve hexec hm
  · simp only [Function.update_of_ne ht]
    refine h.frame fun n => heff.elsewhere (code_wiring W t (s.pcs t)) (fun ho => ?_) (fun k hk => ?_)
    · cases t <;> first | exact ht rfl | exact ho
    · have hop := code_disciplined W t (s.pcs t)
      rw [show code W t (s.pcs t) = _ from hk] at hop
      exact ht hop.1.symm

theorem initial_wired : Wired (System.initial.pcs .transport) System.initial.shared :=
  ⟨fun _ h => (by cases h),fun _ _ => Or.inl ⟨rfl,Or.inl (List.nil_prefix)⟩,fun _ _ => rfl⟩

def Acknowledged (sh : Shared) : Prop := ∀ n, (sh.conns n).applied ≠ [] → hello ++ ack <+: (sh.conns n).output

theorem Wired.listening {n : ℕ} (h : Wired (s.pcs .transport) s.shared)
    (hlistening : Listening .transport (s.pcs .transport) n) : hello ++ ack <+: (s.shared.conns n).output := by
  obtain ⟨c,hc,rfl,_⟩ := hlistening
  exact (h.current c.n (Transport.connection_client hc)).2.acknowledged hc

theorem step_acknowledged (htidy : Tidy s) (hwired : Wired (s.pcs .transport) s.shared)
    (h : Acknowledged s.shared) (hstep : step W s t c = some s') : Acknowledged s'.shared := by
  obtain ⟨hrunning,p,sh',hexec,rfl⟩ := step_inversion hstep
  intro n hn
  rcases (exec_effect hexec).applied (n := n) (code_wiring W t (s.pcs t)) with hnone | ⟨hgrows,hsame | rfl⟩
  · exact absurd hnone hn
  · exact (h n (hsame ▸ hn)).trans hgrows
  · exact (hwired.listening (htidy.listening n hrunning.2)).trans hgrows

theorem run_wired (h : Reachable W s) :
    Tidy s ∧ Wired (s.pcs .transport) s.shared ∧ Acknowledged s.shared :=
  h.invariant (I := fun s => Tidy s ∧ Wired (s.pcs .transport) s.shared ∧ Acknowledged s.shared)
    ⟨initial_tidy,initial_wired,fun _ hn => absurd rfl hn⟩ fun _ _ _ _ ⟨htidy,hwired,hack⟩ hstep =>
    ⟨step_tidy htidy hstep,step_wired hwired hstep,step_acknowledged htidy hwired hack hstep⟩

end Steps

section Protocol
variable {W : ℕ} {s : System}

theorem fits_of_dequeued {n : ℕ} {x : QueueId × Item} (h : Stocked s) (hx : x ∈ s.shared.dequeued n) :
    Fits x.1 x.2 ∧ (x.1 = .connTelemetry n ∨ x.1 = .connAlerts n) := by
  obtain ⟨htaken,hqueue⟩ := List.mem_filter.mp hx
  exact ⟨h.taken x htaken,of_decide_eq_true hqueue⟩

theorem dequeued_isLine {n : ℕ} (h : Reachable W s) : ∀ x ∈ s.shared.dequeued n, IsLine (line x) := by
  intro x hx
  obtain ⟨hfits,hqueue⟩ := fits_of_dequeued (run_stocked h).2 hx
  exact line_isLine hfits hqueue

theorem run_shape (h : Reachable W s) (n : ℕ) : Refused (s.shared.conns n).output (s.shared.dequeued n) ∨
    Served (s.shared.conns n).output (s.shared.dequeued n) := by
  obtain ⟨_,hwired,_⟩ := run_wired h
  by_cases hn : Transport.connection (s.pcs .transport) = some n
  · exact (hwired.current n hn).2.shape
  · exact hwired.past n hn

/-- Whatever the client and the network do, on every connection: the bytes written
are a part of greeting and refusal, or of greeting and acknowledgement, with
nothing taken from the queues; or they are greeting, acknowledgement and one line
for each message taken, in that order, up to an unfinished last line. Every line
has one newline, at its end. Queues are subscribed and commands are applied only
after the whole acknowledgement. -/
theorem wire_protocol (h : Reachable W s) (n : ℕ) :
    (Refused (s.shared.conns n).output (s.shared.dequeued n) ∨
      Served (s.shared.conns n).output (s.shared.dequeued n)) ∧
    (∀ x ∈ s.shared.dequeued n, IsLine (line x)) ∧
    (s.shared.registry.Holds (.connTelemetry n) ∨ s.shared.registry.Holds (.connAlerts n) ∨
      (s.shared.conns n).applied ≠ [] → hello ++ ack <+: (s.shared.conns n).output) := by
  obtain ⟨htidy,hwired,hack⟩ := run_wired h
  refine ⟨run_shape h n,dequeued_isLine h,?_⟩
  rintro (hheld | hheld | happlied)
  · obtain ⟨c,hc,rfl,_⟩ := (htidy.held _ hheld).2
    exact (hwired.current c.n (Transport.connection_client hc)).2.acknowledged hc
  · obtain ⟨c,hc,rfl,_⟩ := (htidy.held _ hheld).2
    exact (hwired.current c.n (Transport.connection_client hc)).2.acknowledged hc
  · exact hack n happlied

/-- The first client triggers an alert, and its line is written in two parts. -/
def alerted : List (Tid × Choice) :=
  startUp ++ connect ++ command (ascii "TRIGGER_ALERT X 1\n") ++ proceed (.listener 0) 3 ++ workerTurn 0 2 ++
    proceed .transport 5 ++
    [(.transport,.write (.wrote 40)),(.transport,.write .eintr),(.transport,.write (.wrote 45)),(.transport,.ok)]

def alertedLine : Bytes := ascii
  "\x7b\"schema_version\": 1, \"type\": \"alert\", \"seq\": 1, \"ts\": 0, \"code\": \"X\", \"antenna\": 1\x7d\n"

theorem wire_protocol_alerted : ∃ s, Reachable Main.workerPoolDefaultSize s ∧
    (s.shared.conns 0).applied ≠ [] ∧ hello ++ ack <+: (s.shared.conns 0).output ∧
    (s.shared.conns 0).output = hello ++ ack ++ alertedLine ∧
    ∃ x, s.shared.dequeued 0 = [x] ∧ IsLine (line x) := by
  have hobserved : (run Main.workerPoolDefaultSize .initial alerted).map (fun s =>
      ((s.shared.conns 0).output,(s.shared.conns 0).applied.isEmpty,(s.shared.dequeued 0).length)) =
      some (hello ++ ack ++ alertedLine,false,1) := by decide +kernel
  obtain ⟨s,hrun,hs⟩ := Option.map_eq_some_iff.mp hobserved
  simp only [Prod.mk.injEq] at hs
  obtain ⟨hout,hempty,hlength⟩ := hs
  have happlied : (s.shared.conns 0).applied ≠ [] := by
    rw [Ne, ← List.isEmpty_iff, hempty]
    exact Bool.false_ne_true
  obtain ⟨x,hx⟩ := List.length_eq_one_iff.mp hlength
  have hreach : Reachable Main.workerPoolDefaultSize s := run_reachable .refl hrun
  obtain ⟨_,hlines,hack⟩ := wire_protocol hreach 0
  have hmem : x ∈ s.shared.dequeued 0 := hx ▸ List.mem_singleton_self x
  exact ⟨s,hreach,happlied,hack (Or.inr (Or.inr happlied)),hout,x,hx,hlines x hmem⟩

end Protocol

end RadioSim.Process
