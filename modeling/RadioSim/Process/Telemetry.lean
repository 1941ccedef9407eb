import RadioSim.Foundation.Lines
import RadioSim.Process.Schema

/-! # The v1 schema of telemetry lines

The line of a telemetry message is one JSON object and a newline. A decoder for the
schema recovers the message from it, and the messages from a stream of such lines. With
the decoder of alerts, a client recovers what was taken from its queues.
-/
namespace RadioSim.Process
open Json

section Decoder

def telemetryKeys : List (List Char) :=
  ["schema_version", "type", "seq", "ts", "battery_pct", "rssi_dbm"].map String.toList

def asUInt32 (z : ℤ) : Option UInt32 := if 0 ≤ z ∧ z < 2 ^ 32 then some (.ofNat z.toNat) else none

def asInt32 (z : ℤ) : Option Int32 := if -2 ^ 31 ≤ z ∧ z < 2 ^ 31 then some (.ofInt z) else none

def asInt64 (z : ℤ) : Option Int64 := if -2 ^ 63 ≤ z ∧ z < 2 ^ 63 then some (.ofInt z) else none

/-- The members of an object as telemetry of the schema: exactly its keys, in any order, and
numbers within the ranges of the fields. -/
def asTelemetry (members : List (List Char × Json)) : Option TelemetryMsg :=
  if (members.map Prod.fst).isPerm telemetryKeys ∧ intAt members "schema_version" = some 1 ∧
      textAt members "type" = some "telemetry".toList then
    ((intAt members "seq").bind asUInt32).bind fun seq => ((intAt members "ts").bind asInt64).bind fun ts =>
      ((intAt members "battery_pct").bind asUInt32).bind fun batteryPct =>
        ((intAt members "rssi_dbm").bind asInt32).map fun rssiDbm => ⟨seq,ts,batteryPct,rssiDbm⟩
  else none

def decodeTelemetry (line : Bytes) : Option TelemetryMsg :=
  (decodeUtf8 line).bind fun text => (Json.parse text).bind fun
    | .object members => asTelemetry members
    | _ => none

def decodeStream (stream : Bytes) : Option (List TelemetryMsg) :=
  if joinLines 10 (terminatedLines 10 stream) = stream then (terminatedLines 10 stream).mapM decodeTelemetry
  else none

theorem asUInt32_toNat (x : UInt32) : asUInt32 x.toNat = some x := by
  have hlt := x.toNat_lt
  rw [asUInt32, if_pos (by omega), Int.toNat_natCast, UInt32.ofNat_toNat]

theorem asInt32_toInt (x : Int32) : asInt32 x.toInt = some x := by
  rw [asInt32, if_pos ⟨x.le_toInt,x.toInt_lt⟩, Int32.ofInt_toInt]

theorem asInt64_toInt (x : Int64) : asInt64 x.toInt = some x := by
  rw [asInt64, if_pos ⟨x.le_toInt,x.toInt_lt⟩, Int64.ofInt_toInt]

end Decoder

section Lines
variable (msg : TelemetryMsg)

def versionMember : Member := ⟨"schema_version".toList,['1'],.number 1 0⟩

def telemetryMembers : List Member :=
  [⟨"type".toList,'\x22' :: ("telemetry".toList ++ ['\x22']),.string "telemetry".toList⟩,
    ⟨"seq".toList,ofAscii (decimal msg.seq.toNat),.number msg.seq.toNat 0⟩,
    ⟨"ts".toList,ofAscii (decimalInt msg.ts.toInt),.number msg.ts.toInt 0⟩,
    ⟨"battery_pct".toList,ofAscii (decimal msg.batteryPct.toNat),.number msg.batteryPct.toNat 0⟩,
    ⟨"rssi_dbm".toList,ofAscii (decimalInt msg.rssiDbm.toInt),.number msg.rssiDbm.toInt 0⟩]

def telemetryText : List Char := '\x7b' :: (printMembers versionMember (telemetryMembers msg) ++ ['\x7d'])

theorem members_legible : ∀ m ∈ versionMember :: telemetryMembers msg, m.Legible := by
  have hplain : (telemetryKeys.all fun key => key.all fun c => decide (Plain c)) = true := by decide +kernel
  intro m hm
  have hkey : m.key ∈ telemetryKeys := List.mem_map_of_mem (f := Member.key) hm
  refine ⟨plain_of_all (List.all_eq_true.mp hplain m.key hkey),?_⟩
  simp only [telemetryMembers, List.mem_cons, List.not_mem_nil, or_false] at hm
  rcases hm with rfl | rfl | rfl | rfl | rfl | rfl
  · exact reads_one
  · exact reads_quoted (plain_of_all (by decide +kernel))
  · exact reads_decimal _
  · exact reads_decimalInt _
  · exact reads_decimal _
  · exact reads_decimalInt _

theorem telemetryText_eq : telemetryText msg ++ ['\n'] =
    "\x7b\"schema_version\": 1, \"type\": \"telemetry\", \"seq\": ".toList ++ ofAscii (decimal msg.seq.toNat) ++
      ", \"ts\": ".toList ++ ofAscii (decimalInt msg.ts.toInt) ++ ", \"battery_pct\": ".toList ++
      ofAscii (decimal msg.batteryPct.toNat) ++ ", \"rssi_dbm\": ".toList ++
      ofAscii (decimalInt msg.rssiDbm.toInt) ++ "\x7d\n".toList := by
  unfold telemetryText telemetryMembers versionMember
  simp only [printMembers, field, String.reduceToList, List.cons_append, List.append_assoc, List.nil_append]

theorem formatTelemetry_eq : Transport.formatTelemetry msg = utf8 (telemetryText msg) ++ [10] := by
  have hnewline : ([10] : Bytes) = utf8 ['\n'] := by decide +kernel
  unfold Transport.formatTelemetry
  rw [hnewline, ← utf8_append, telemetryText_eq]
  simp (disch := decide +kernel) only [utf8_append, utf8_decimal, utf8_decimalInt, ascii_eq_utf8]

theorem parse_telemetryText (rest : List Char) (hrest : skip rest = []) :
    Json.parse (telemetryText msg ++ rest) =
      some (.object ((versionMember :: telemetryMembers msg).map Member.entry)) := by
  have hparse := parse_print (members_legible msg) hrest
  rw [telemetryText, List.cons_append, List.append_assoc]
  exact hparse

theorem asTelemetry_members :
    asTelemetry ((versionMember :: telemetryMembers msg).map Member.entry) = some msg := by
  generalize hmembers : (versionMember :: telemetryMembers msg).map Member.entry = members
  have hkeys : (members.map Prod.fst).isPerm telemetryKeys = true := by
    rw [← hmembers]
    exact List.isPerm_iff.mpr (List.Perm.refl telemetryKeys)
  have hnodup : (members.map Prod.fst).Nodup := by
    have hdistinct : telemetryKeys.Nodup := by decide +kernel
    exact (List.isPerm_iff.mp hkeys).nodup_iff.mpr hdistinct
  subst hmembers
  have hversion := intAt_of_mem hnodup (List.mem_of_getElem? (i := 0) rfl)
  have htype := textAt_of_mem hnodup (List.mem_of_getElem? (i := 1) rfl)
  have hseq := intAt_of_mem hnodup (List.mem_of_getElem? (i := 2) rfl)
  have hts := intAt_of_mem hnodup (List.mem_of_getElem? (i := 3) rfl)
  have hbattery := intAt_of_mem hnodup (List.mem_of_getElem? (i := 4) rfl)
  have hrssi := intAt_of_mem hnodup (List.mem_of_getElem? (i := 5) rfl)
  unfold asTelemetry
  rw [if_pos ⟨hkeys,hversion,htype⟩, hseq, hts, hbattery, hrssi, Option.bind_some, asUInt32_toNat, Option.bind_some,
    Option.bind_some, asInt64_toInt, Option.bind_some, Option.bind_some, asUInt32_toNat, Option.bind_some,
    Option.bind_some, asInt32_toInt]
  rfl

/-- The decoder takes the object with or without its newline. -/
theorem decodeTelemetry_text (rest : List Char) (hrest : skip rest = []) :
    decodeTelemetry (utf8 (telemetryText msg ++ rest)) = some msg := by
  unfold decodeTelemetry
  rw [decodeUtf8_utf8, Option.bind_some, parse_telemetryText msg rest hrest, Option.bind_some]
  exact asTelemetry_members msg

theorem decodeTelemetry_line : decodeTelemetry (Transport.formatTelemetry msg) = some msg := by
  have hnewline : ([10] : Bytes) = utf8 ['\n'] := by decide +kernel
  rw [formatTelemetry_eq, hnewline, ← utf8_append]
  exact decodeTelemetry_text msg ['\n'] rfl

theorem newline_notMem_telemetryText : 10 ∉ utf8 (telemetryText msg) := by
  obtain ⟨body,hbody,hnot⟩ := formatTelemetry_isLine msg
  rw [formatTelemetry_eq] at hbody
  exact (List.append_inj' hbody rfl).1 ▸ hnot

/-- Texts that are decoded one by one. -/
theorem mapM_decode {α β : Type} {encode : α → Bytes} {decode : Bytes → Option β} {f : α → β} {xs : List α}
    (h : ∀ x ∈ xs, decode (encode x) = some (f x)) : (xs.map encode).mapM decode = some (xs.map f) := by
  induction xs with
  | nil => rfl
  | cons x xs ih =>
    rw [List.map_cons, List.mapM_cons, h x List.mem_cons_self, ih fun y hy => h y (List.mem_cons_of_mem x hy)]
    rfl

theorem decodeStream_lines (msgs : List TelemetryMsg) :
    decodeStream (msgs.flatMap Transport.formatTelemetry) = some msgs := by
  have hjoin : msgs.flatMap Transport.formatTelemetry =
      joinLines 10 (msgs.map fun msg => utf8 (telemetryText msg)) := by
    rw [joinLines, List.flatMap_map]
    exact List.flatMap_congr fun msg _ => formatTelemetry_eq msg
  have hlines : ∀ line ∈ msgs.map fun msg => utf8 (telemetryText msg), 10 ∉ line := by
    intro line hline
    obtain ⟨msg,_,rfl⟩ := List.mem_map.mp hline
    exact newline_notMem_telemetryText msg
  have hsplit := terminatedLines_joinLines hlines []
  rw [List.append_nil, terminatedLines_of_notMem List.not_mem_nil, List.append_nil] at hsplit
  unfold decodeStream
  rw [hjoin, hsplit, if_pos rfl, mapM_decode (f := id) fun msg _ => ?_, List.map_id]
  have hdecode := decodeTelemetry_text msg [] rfl
  rwa [List.append_nil] at hdecode

end Lines

/-- Telemetry lines are reversible: the line of every message is one object of the schema and
a newline, a decoder recovers the message from it, and from lines one after another the
messages in their order. -/
theorem telemetry_reversible :
    (∀ msg : TelemetryMsg, ∃ object : Bytes, Transport.formatTelemetry msg = object ++ [10] ∧ 10 ∉ object ∧
      (decodeUtf8 object).bind Json.parse = some (.object
        [("schema_version".toList,.number 1 0),("type".toList,.string "telemetry".toList),
          ("seq".toList,.number msg.seq.toNat 0),("ts".toList,.number msg.ts.toInt 0),
          ("battery_pct".toList,.number msg.batteryPct.toNat 0),
          ("rssi_dbm".toList,.number msg.rssiDbm.toInt 0)]) ∧
      decodeTelemetry (Transport.formatTelemetry msg) = some msg) ∧
    ∀ msgs : List TelemetryMsg, decodeStream (msgs.flatMap Transport.formatTelemetry) = some msgs := by
  refine ⟨fun msg => ⟨utf8 (telemetryText msg),formatTelemetry_eq msg,newline_notMem_telemetryText msg,?_,?_⟩,
    decodeStream_lines⟩
  · have hparse := parse_telemetryText msg [] rfl
    rw [List.append_nil] at hparse
    rw [decodeUtf8_utf8, Option.bind_some, hparse]
    rfl
  · exact decodeTelemetry_line msg

section Clients
open Pubsub
variable {W : ℕ} {s : System} {n : ℕ} {x : QueueId × Item} {out : Bytes} {messages : List (QueueId × Item)}

inductive Message
  | telemetry (msg : TelemetryMsg)
  | alert (fields : AlertRecord)

/-- A client tries both types of the schema. -/
def decodeLine (line : Bytes) : Option Message :=
  ((decodeTelemetry line).map .telemetry).or ((decodeAlert line).map .alert)

def message : QueueId × Item → Message
  | (.connTelemetry _,item) => .telemetry (asTelemetryMsg item)
  | (_,item) => .alert (asAlertMsg item).fields

def Conforms : QueueId × Item → Prop
  | (.connTelemetry _,_) => True
  | (_,item) => Printable (asAlertMsg item).code.text.bytes

/-- An alert is no telemetry. -/
theorem decodeTelemetry_alert {msg : AlertMsg} (h : Printable msg.code.text.bytes) :
    decodeTelemetry (Transport.formatAlert msg) = none := by
  obtain ⟨text,htext,hplain⟩ := h
  have hkeys : (alertKeys.isPerm telemetryKeys) = false := by decide +kernel
  unfold decodeTelemetry
  rw [decodeUtf8_formatAlert.mpr ⟨text,htext,rfl⟩, Option.bind_some, parse_printable hplain, Option.bind_some]
  refine if_neg fun hschema => ?_
  exact absurd (hkeys.symm.trans hschema.1) Bool.false_ne_true

theorem decodeLine_line (hx : x.1 = .connTelemetry n ∨ x.1 = .connAlerts n) (h : Conforms x) :
    decodeLine (line x) = some (message x) := by
  obtain ⟨q,item⟩ := x
  rcases hx with rfl | rfl
  · simp only [decodeLine, line, decodeTelemetry_line, Option.map_some, Option.some_or, message]
  · simp only [decodeLine, line, decodeTelemetry_alert h, (decodeAlert_iff _).mpr h, Option.map_none, Option.map_some,
      Option.none_or, message]

/-- The complete lines that a client has got after the acknowledgement. -/
def completeLines (out : Bytes) : List Bytes :=
  (terminatedLines 10 (out.drop (hello ++ ack).length)).map (· ++ [10])

theorem completeLines_append (hlines : ∀ x ∈ messages, IsLine (line x)) {part : Bytes} (hpart : 10 ∉ part) :
    completeLines (hello ++ ack ++ messages.flatMap line ++ part) = messages.map line := by
  have hbody : ∀ x ∈ messages, (line x).dropLast ++ [10] = line x ∧ 10 ∉ (line x).dropLast := by
    intro x hx
    obtain ⟨body,hline,hbody⟩ := hlines x hx
    rw [hline, List.dropLast_concat]
    exact ⟨rfl,hbody⟩
  have hjoin : messages.flatMap line = joinLines 10 (messages.map fun x => (line x).dropLast) := by
    rw [joinLines, List.flatMap_map]
    exact List.flatMap_congr fun x hx => (hbody x hx).1.symm
  have hnewline : ∀ body ∈ messages.map fun x => (line x).dropLast, 10 ∉ body := by
    intro body hmem
    obtain ⟨x,hx,rfl⟩ := List.mem_map.mp hmem
    exact (hbody x hx).2
  rw [completeLines, List.append_assoc (hello ++ ack), List.drop_left, hjoin, terminatedLines_joinLines hnewline,
    terminatedLines_of_notMem hpart, List.append_nil, List.map_map]
  exact List.map_congr_left fun x hx => (hbody x hx).1

/-- The complete lines are those of the messages taken, but for the last one. -/
theorem completeLines_served (h : Served out messages) (hlines : ∀ x ∈ messages, IsLine (line x)) :
    ∃ sent pending, messages = sent ++ pending ∧ pending.length ≤ 1 ∧ completeLines out = sent.map line := by
  obtain ⟨sent,pending,part,rfl,hlength,rfl,hpart⟩ := h
  have hsent : ∀ x ∈ sent, IsLine (line x) := fun x hx => hlines x (List.mem_append_left _ hx)
  by_cases hnewline : 10 ∈ part
  · -- the last line is complete
    refine ⟨sent ++ pending,[],(List.append_nil _).symm,Nat.zero_le _,?_⟩
    have hwhole : part = pending.flatMap line := by
      cases pending with
      | nil =>
        rw [List.prefix_nil.mp hpart]
        rfl
      | cons x rest =>
        cases rest with
        | cons y more => simp at hlength
        | nil =>
          obtain ⟨body,hline,hbody⟩ := hlines x (by simp)
          rw [List.flatMap_singleton, hline] at hpart ⊢
          rcases List.prefix_concat_iff.mp hpart with hwhole | hbegun
          · exact hwhole
          · exact absurd (hbegun.subset hnewline) hbody
    have hall : completeLines (_ ++ []) = _ := completeLines_append hlines List.not_mem_nil
    rwa [List.append_nil, List.flatMap_append, ← hwhole, ← List.append_assoc] at hall
  · exact ⟨sent,pending,rfl,hlength,completeLines_append hsent hnewline⟩

/-- What a client decodes. The complete lines after the acknowledgement are, in order, those
of the messages taken from its queues, all or all but the last; every telemetry line and
every alert line with a printable code decodes to its message; and if all codes are
printable, the client gets exactly these messages. -/
theorem messages_decoded (h : Reachable W s) (hack : hello ++ ack <+: (s.shared.conns n).output) :
    ∃ sent pending, s.shared.dequeued n = sent ++ pending ∧ pending.length ≤ 1 ∧
      completeLines (s.shared.conns n).output = sent.map line ∧
      (∀ x ∈ sent, Conforms x → decodeLine (line x) = some (message x)) ∧
      ((∀ x ∈ sent, Conforms x) →
        (completeLines (s.shared.conns n).output).mapM decodeLine = some (sent.map message)) := by
  have hserved := (run_shape h n).elim (fun hrefused => hrefused.served hack) id
  obtain ⟨sent,pending,hsplit,hlength,hlines⟩ := completeLines_served hserved (dequeued_isLine h)
  have hdecode : ∀ x ∈ sent, Conforms x → decodeLine (line x) = some (message x) := by
    intro x hx
    have hmem : x ∈ s.shared.dequeued n := hsplit ▸ List.mem_append_left pending hx
    exact decodeLine_line (fits_of_dequeued (run_stocked h).2 hmem).2
  refine ⟨sent,pending,hsplit,hlength,hlines,hdecode,fun hconforms => ?_⟩
  rw [hlines]
  exact mapM_decode fun x hx => hdecode x hx (hconforms x hx)

/-- The client of the triggered alert decodes it. -/
theorem messages_decoded_alerted : ∃ s, Reachable Main.workerPoolDefaultSize s ∧
    completeLines (s.shared.conns 0).output = [alertedLine] ∧
    (completeLines (s.shared.conns 0).output).mapM decodeLine = some [.alert ⟨1,0,ascii "X",1⟩] := by
  have hobserved : (run Main.workerPoolDefaultSize .initial alerted).map (fun s =>
      ((s.shared.conns 0).output,(s.shared.dequeued 0).map fun x => (x.1,Item.content x.2))) =
      some (hello ++ ack ++ alertedLine,
        [(.connAlerts 0,some (.alertMsg ⟨1,0,.copy ⟨ascii "X",by decide⟩,1⟩))]) := by decide +kernel
  obtain ⟨s,hrun,hs⟩ := Option.map_eq_some_iff.mp hobserved
  obtain ⟨hout,hdequeued⟩ := Prod.mk.inj hs
  have hreach : Reachable Main.workerPoolDefaultSize s := run_reachable .refl hrun
  have hack : hello ++ ack <+: (s.shared.conns 0).output := hout ▸ List.prefix_append _ _
  obtain ⟨sent,pending,hsplit,_,hlines,_,hdecoded⟩ := messages_decoded hreach hack
  have hcomplete : completeLines (s.shared.conns 0).output = [alertedLine] := by
    rw [hout]
    decide +kernel
  obtain ⟨⟨q,item⟩,rfl,_⟩ := List.map_eq_singleton_iff.mp (hlines.symm.trans hcomplete)
  rw [hsplit, List.map_append, List.map_singleton, List.singleton_append, List.cons.injEq] at hdequeued
  obtain ⟨rfl,hcontent⟩ := Prod.mk.inj hdequeued.1
  have hmsg : asAlertMsg item = ⟨1,0,.copy ⟨ascii "X",by decide⟩,1⟩ := by
    rw [asAlertMsg, hcontent]
  have hcode : (CodeBuffer.copy ⟨ascii "X",by decide⟩).text.bytes = ascii "X" := by decide +kernel
  refine ⟨s,hreach,hcomplete,(hdecoded fun x hx => ?_).trans ?_⟩
  · rw [List.mem_singleton.mp hx]
    change Printable (asAlertMsg item).code.text.bytes
    rw [hmsg, hcode]
    exact printable_ascii (by decide +kernel) (by decide +kernel)
  · change some [Message.alert (asAlertMsg item).fields] = _
    rw [hmsg, AlertMsg.fields, hcode]
    rfl

end Clients

end RadioSim.Process
