import RadioSim.Foundation.Json
import RadioSim.Process.Wire

/-! # The v1 schema of alert lines

A client decodes a line as UTF-8 and JSON and reads the members of the schema. The
printed line puts the code between its quotes as it stands, without escapes.
-/
namespace RadioSim.Process
open Json

section Decoder

def alertKeys : List (List Char) :=
  ["schema_version", "type", "seq", "ts", "code", "antenna"].map String.toList

structure AlertRecord where
  seq : ℤ
  ts : ℤ
  code : Bytes
  antenna : ℤ

def AlertMsg.fields (msg : AlertMsg) : AlertRecord :=
  ⟨msg.seq.toNat,msg.ts.toInt,msg.code.text.bytes,msg.antenna.toNat⟩

def intAt (members : List (List Char × Json)) (key : String) : Option ℤ :=
  (members.lookup key.toList).bind Json.toInt

def textAt (members : List (List Char × Json)) (key : String) : Option (List Char) :=
  (members.lookup key.toList).bind Json.toText

theorem intAt_of_mem {members : List (List Char × Json)} {key : String} {z : ℤ}
    (hnodup : (members.map Prod.fst).Nodup) (h : (key.toList,.number z 0) ∈ members) :
    intAt members key = some z := by
  simp [intAt, lookup_of_mem hnodup h, Json.toInt]

theorem textAt_of_mem {members : List (List Char × Json)} {key : String} {s : List Char}
    (hnodup : (members.map Prod.fst).Nodup) (h : (key.toList,.string s) ∈ members) :
    textAt members key = some s := by
  simp [textAt, lookup_of_mem hnodup h, Json.toText]

/-- The members of an object as an alert of the schema: exactly its keys, in any order. -/
def asAlert (members : List (List Char × Json)) : Option AlertRecord :=
  if (members.map Prod.fst).isPerm alertKeys ∧ intAt members "schema_version" = some 1 ∧
      textAt members "type" = some "alert".toList then
    (intAt members "seq").bind fun seq => (intAt members "ts").bind fun ts =>
      (textAt members "code").bind fun code => (intAt members "antenna").map fun antenna =>
        ⟨seq,ts,utf8 code,antenna⟩
  else none

def decodeAlert (line : Bytes) : Option AlertRecord :=
  (decodeUtf8 line).bind fun text => (Json.parse text).bind fun
    | .object members => asAlert members
    | _ => none

/-- Bytes that a JSON string can hold without escapes: UTF-8 with no quote, no backslash
and no control character. -/
def Printable (bytes : Bytes) : Prop := ∃ text, utf8 text = bytes ∧ ∀ c ∈ text, Plain c

end Decoder

section Lines
variable {msg : AlertMsg} {text : List Char}

def codePart (msg : AlertMsg) (text : List Char) : List Char :=
  field "code".toList ('\x22' :: (text ++ ['\x22'])) ++
    ',' :: ' ' :: (field "antenna".toList (ofAscii (decimal msg.antenna.toNat)) ++ ['\x7d','\n'])

def alertText (msg : AlertMsg) (text : List Char) : List Char :=
  '\x7b' :: (field "schema_version".toList ['1'] ++ ',' :: ' ' ::
    (field "type".toList ('\x22' :: ("alert".toList ++ ['\x22'])) ++ ',' :: ' ' ::
    (field "seq".toList (ofAscii (decimal msg.seq.toNat)) ++ ',' :: ' ' ::
    (field "ts".toList (ofAscii (decimalInt msg.ts.toInt)) ++ ',' :: ' ' :: codePart msg text))))

def lead (msg : AlertMsg) : List Char :=
  "\x7b\"schema_version\": 1, \"type\": \"alert\", \"seq\": ".toList ++ ofAscii (decimal msg.seq.toNat) ++
    ", \"ts\": ".toList ++ ofAscii (decimalInt msg.ts.toInt) ++ ", \"code\": \"".toList

def trail (msg : AlertMsg) : List Char :=
  "\", \"antenna\": ".toList ++ ofAscii (decimal msg.antenna.toNat) ++ "\x7d\n".toList

theorem alertText_eq : alertText msg text = lead msg ++ (text ++ trail msg) := by
  unfold alertText codePart lead trail
  simp only [field, String.reduceToList, List.cons_append, List.append_assoc, List.nil_append]

theorem formatAlert_eq :
    Transport.formatAlert msg = utf8 (lead msg) ++ (msg.code.text.bytes ++ utf8 (trail msg)) := by
  unfold Transport.formatAlert lead trail
  simp (disch := decide +kernel) only [utf8_append, utf8_decimal, utf8_decimalInt, ascii_eq_utf8,
    List.append_assoc]

/-- The line decodes as UTF-8 if its code does, and then to the characters of the code in
their place. -/
theorem decodeUtf8_formatAlert {l : List Char} :
    decodeUtf8 (Transport.formatAlert msg) = some l ↔
      ∃ text, utf8 text = msg.code.text.bytes ∧ l = alertText msg text := by
  constructor
  · intro h
    have hbytes := utf8_of_decodeUtf8 h
    rw [formatAlert_eq] at hbytes
    obtain ⟨rest,rfl,hrest⟩ := utf8_strip hbytes
    obtain ⟨tail,htrail⟩ : ∃ tail, utf8 (trail msg) = 34 :: tail := by
      unfold trail
      simp only [String.reduceToList, List.cons_append]
      exact ⟨_,rfl⟩
    rw [htrail] at hrest
    obtain ⟨text,l₂,rfl,htext,hl₂⟩ := utf8_cut (by decide) hrest
    rw [← htrail] at hl₂
    refine ⟨text,htext,?_⟩
    rw [alertText_eq, utf8_injective hl₂]
  · rintro ⟨text,htext,rfl⟩
    rw [formatAlert_eq, ← htext, ← utf8_append, ← utf8_append, ← alertText_eq]
    exact decodeUtf8_utf8 _

def leading (msg : AlertMsg) : List (List Char × Json) :=
  [("schema_version".toList,.number 1 0),("type".toList,.string "alert".toList),
    ("seq".toList,.number msg.seq.toNat 0),("ts".toList,.number msg.ts.toInt 0)]

theorem parse_alertText (msg : AlertMsg) (text : List Char) : ∃ fuel, Json.parse (alertText msg text) =
    (readMembers (fuel + 3) (codePart msg text)).bind fun m =>
      if skip m.2 = [] then some (.object (leading msg ++ m.1)) else none := by
  obtain ⟨fuel,hfuel⟩ : ∃ fuel, (alertText msg text).length = fuel + 7 := by
    refine ⟨(alertText msg text).length - 7,?_⟩
    simp only [alertText, field, String.reduceToList, List.length_cons, List.length_append, List.cons_append]
    omega
  have hparse := parse_object (s := alertText msg text) rfl
  rw [hfuel, readMembers_cons (plain_of_all (by decide +kernel)) reads_one, skip_field,
    readMembers_cons (plain_of_all (by decide +kernel)) (reads_quoted (plain_of_all (by decide +kernel))), skip_field,
    readMembers_cons (plain_of_all (by decide +kernel)) (reads_decimal _), skip_field,
    readMembers_cons (plain_of_all (by decide +kernel)) (reads_decimalInt _), codePart, skip_field] at hparse
  simp only [Option.map_map, Option.bind_map] at hparse
  exact ⟨fuel,hparse⟩

/-- With a printable code the line is the object of its six members. -/
theorem parse_printable (hplain : ∀ c ∈ text, Plain c) : Json.parse (alertText msg text) =
    some (.object (leading msg ++ [("code".toList,.string text),("antenna".toList,.number msg.antenna.toNat 0)])) := by
  obtain ⟨fuel,hparse⟩ := parse_alertText msg text
  rw [codePart, readMembers_cons (plain_of_all (by decide +kernel)) (reads_quoted hplain), skip_field,
    readMembers_last (plain_of_all (by decide +kernel)) (reads_decimal _)] at hparse
  exact hparse

theorem nodup_of_isPerm {members : List (List Char × Json)} (h : (members.map Prod.fst).isPerm alertKeys = true) :
    (members.map Prod.fst).Nodup := by
  have hkeys : alertKeys.Nodup := by decide +kernel
  exact (List.isPerm_iff.mp h).nodup_iff.mpr hkeys

theorem asAlert_members (out : List Char) (antenna : ℤ) :
    asAlert (leading msg ++ [("code".toList,.string out),("antenna".toList,.number antenna 0)]) =
      some ⟨msg.seq.toNat,msg.ts.toInt,utf8 out,antenna⟩ := by
  generalize hmembers : leading msg ++ [("code".toList,.string out),("antenna".toList,.number antenna 0)] = members
  have hkeys : (members.map Prod.fst).isPerm alertKeys = true := by
    rw [← hmembers]
    exact List.isPerm_iff.mpr (List.Perm.refl alertKeys)
  have hnodup := nodup_of_isPerm hkeys
  subst hmembers
  have hversion := intAt_of_mem hnodup (List.mem_of_getElem? (i := 0) rfl)
  have htype := textAt_of_mem hnodup (List.mem_of_getElem? (i := 1) rfl)
  unfold asAlert
  rw [if_pos ⟨hkeys,hversion,htype⟩, intAt_of_mem hnodup (List.mem_of_getElem? (i := 2) rfl),
    intAt_of_mem hnodup (List.mem_of_getElem? (i := 3) rfl), textAt_of_mem hnodup (List.mem_of_getElem? (i := 4) rfl),
    intAt_of_mem hnodup (List.mem_of_getElem? (i := 5) rfl)]
  rfl

/-- A line decodes to the fields of its message exactly if its code is printable. -/
theorem decodeAlert_iff (msg : AlertMsg) :
    decodeAlert (Transport.formatAlert msg) = some msg.fields ↔ Printable msg.code.text.bytes := by
  constructor
  · intro h
    obtain ⟨l,hl,h⟩ := Option.bind_eq_some_iff.mp h
    obtain ⟨text,htext,rfl⟩ := decodeUtf8_formatAlert.mp hl
    obtain ⟨fuel,hparse⟩ := parse_alertText msg text
    rw [hparse] at h
    obtain ⟨v,hv,h⟩ := Option.bind_eq_some_iff.mp h
    obtain ⟨⟨m,rest⟩,hm,hobject⟩ := Option.bind_eq_some_iff.mp hv
    obtain ⟨out,more,rfl,hplain⟩ := readMembers_string (plain_of_all (by decide +kernel)) (by decide) hm
    dsimp only at hobject
    split at hobject
    · cases hobject
      have hout : utf8 out = msg.code.text.bytes := by
        dsimp only at h
        unfold asAlert at h
        split at h
        · rename_i hschema
          have hmem : ("code".toList,Json.string out) ∈ leading msg ++ ("code".toList,Json.string out) :: more := by
            simp
          have hcode := lookup_of_mem (nodup_of_isPerm hschema.1) hmem
          obtain ⟨seq,_,h⟩ := Option.bind_eq_some_iff.mp h
          obtain ⟨ts,_,h⟩ := Option.bind_eq_some_iff.mp h
          rw [textAt, hcode] at h
          obtain ⟨antenna,_,hrecord⟩ := Option.map_eq_some_iff.mp h
          exact congrArg AlertRecord.code hrecord
        · cases h
      exact ⟨text,htext,hplain (utf8_injective (hout.trans htext.symm))⟩
    · cases hobject
  · rintro ⟨text,htext,hplain⟩
    unfold decodeAlert
    rw [decodeUtf8_formatAlert.mpr ⟨text,htext,rfl⟩, Option.bind_some, parse_printable hplain]
    refine (asAlert_members text _).trans ?_
    rw [htext]
    rfl

end Lines

section Alerts

theorem decodeAlert_published {code : CString} (hshort : code.strlen ≤ alertCodeMax - 1) (antenna seq : UInt32)
    (ts : Int64) :
    decodeAlert (Transport.formatAlert ⟨seq,ts,.copy code,antenna⟩) =
      some ⟨seq.toNat,ts.toInt,code.bytes,antenna.toNat⟩ ↔ Printable code.bytes := by
  have htext := CodeBuffer.copy_text hshort
  have hiff := decodeAlert_iff ⟨seq,ts,.copy code,antenna⟩
  rw [AlertMsg.fields, htext] at hiff
  exact hiff

theorem applyCommand_short {line code : CString} {antenna : UInt32}
    (h : Command.applyCommand line = .triggerAlert code antenna) : code.strlen ≤ alertCodeMax - 1 := by
  obtain ⟨args,_,hscan⟩ := Command.applyCommand_alert h
  exact Command.scanAlert_short hscan

theorem printable_ascii {s : String} (hascii : (s.toList.all fun c => decide (c.toNat < 128)) = true)
    (hplain : (s.toList.all fun c => decide (Plain c)) = true) : Printable (ascii s) :=
  ⟨s.toList,(ascii_eq_utf8 hascii).symm,plain_of_all hplain⟩

theorem alertCode_printable (counter : UInt32) : (Producer.alertCode counter).strlen ≤ alertCodeMax - 1 ∧
    Printable (Producer.alertCode counter).bytes := by
  unfold Producer.alertCode
  split
  · exact ⟨by decide +kernel,printable_ascii (by decide +kernel) (by decide +kernel)⟩
  · exact ⟨by decide +kernel,printable_ascii (by decide +kernel) (by decide +kernel)⟩

/-- The line of every alert decodes to its fields exactly if its code is printable: always
for the alerts of the producer, and for those of a command if the client chose such a code. -/
theorem alert_decodable_iff (a : Pubsub.Addr) (seq : UInt32) (ts : Int64) :
    (∀ code antenna,
      decodeAlert (Transport.formatAlert ⟨seq,ts,code,antenna⟩) = some (AlertMsg.fields ⟨seq,ts,code,antenna⟩) ↔
        Printable code.text.bytes) ∧
    (∀ counter,
      decodeAlert (Transport.formatAlert (asAlertMsg (Worker.pubItem (Producer.alertItem counter a) seq ts))) =
        some ⟨seq.toNat,ts.toInt,(Producer.alertCode counter).bytes,(1 + counter % 2).toNat⟩) ∧
    ∀ line code antenna, Command.applyCommand line = .triggerAlert code antenna →
      (decodeAlert (Transport.formatAlert (asAlertMsg (Worker.pubItem (Command.rawItem code antenna a) seq ts))) =
        some ⟨seq.toNat,ts.toInt,code.bytes,antenna.toNat⟩ ↔ Printable code.bytes) := by
  refine ⟨fun code antenna => decodeAlert_iff ⟨seq,ts,code,antenna⟩,fun counter => ?_,
    fun line code antenna hline => ?_⟩
  · obtain ⟨hshort,hprintable⟩ := alertCode_printable counter
    exact (decodeAlert_published hshort _ seq ts).mpr hprintable
  · exact decodeAlert_published (applyCommand_short hline) antenna seq ts

theorem alert_decodable_iff_triggered : ∃ line code, line.bytes = ascii "TRIGGER_ALERT X 1" ∧
    Command.applyCommand line = .triggerAlert code 1 ∧
    decodeAlert (Transport.formatAlert (asAlertMsg (Worker.pubItem (Command.rawItem code 1 (.heap 0)) 1 0))) =
      some ⟨1,0,ascii "X",1⟩ := by
  have hline : Command.applyCommand ⟨ascii "TRIGGER_ALERT X 1",by decide⟩ =
      .triggerAlert ⟨ascii "X",by decide⟩ 1 := by decide +kernel
  have hprintable : Printable (ascii "X") := printable_ascii (by decide +kernel) (by decide +kernel)
  exact ⟨_,_,rfl,hline,((alert_decodable_iff (.heap 0) 1 0).2.2 _ _ _ hline).mpr hprintable⟩

def misquoted : List (Tid × Choice) :=
  startUp ++ connect ++ command (ascii "TRIGGER_ALERT A\"B 1\n") ++ proceed (.listener 0) 3 ++ workerTurn 0 2 ++
    proceed .transport 5 ++ [(.transport,.write (.wrote 87)),(.transport,.ok)]

def quotedCode : CString := ⟨ascii "A\"B",by decide⟩

/-- The written line of that alert is no JSON text. -/
theorem alert_not_decodable : ∃ s, Reachable Main.workerPoolDefaultSize s ∧ ∃ msg : AlertMsg,
    msg.code.text = quotedCode ∧ (s.shared.conns 0).output = hello ++ ack ++ Transport.formatAlert msg ∧
    decodeAlert (Transport.formatAlert msg) = none := by
  have hobserved : (run Main.workerPoolDefaultSize .initial misquoted).map (fun s => (s.shared.conns 0).output) =
      some (hello ++ ack ++ Transport.formatAlert ⟨1,0,.copy quotedCode,1⟩) := by decide +kernel
  obtain ⟨s,hrun,hout⟩ := Option.map_eq_some_iff.mp hobserved
  refine ⟨s,run_reachable .refl hrun,⟨1,0,.copy quotedCode,1⟩,by decide +kernel,hout,?_⟩
  have hparse : (Json.parse (alertText ⟨1,0,.copy quotedCode,1⟩ ['A','\x22','B'])).isNone := by decide +kernel
  have hcode : utf8 ['A','\x22','B'] = (CodeBuffer.copy quotedCode).text.bytes := by decide +kernel
  unfold decodeAlert
  rw [decodeUtf8_formatAlert.mpr ⟨_,hcode,rfl⟩, Option.bind_some, Option.isNone_iff_eq_none.mp hparse]
  rfl

end Alerts

end RadioSim.Process
