import RadioSim.Pubsub.Broker

/-! # Payloads

The four structs of `radio_msg.h` and the items that carry them. A payload is
read through the type its reader expects; `blank` fields stand for what a read
through the wrong type would give.
-/
namespace RadioSim.Process
open Pubsub

def alertCodeMax : ℕ := 32

structure CodeBuffer where
  bytes : Bytes
  length_eq : bytes.length = alertCodeMax
  deriving DecidableEq

/-- `strncpy(code, text, ALERT_CODE_MAX - 1); code[ALERT_CODE_MAX - 1] = '\0'`. -/
def CodeBuffer.copy (text : CString) : CodeBuffer :=
  ⟨text.strncpy (alertCodeMax - 1) ++ [0],by simp [alertCodeMax]⟩

def CodeBuffer.text (code : CodeBuffer) : CString := .ofBuffer code.bytes

theorem CodeBuffer.copy_text {text : CString} (h : text.strlen ≤ alertCodeMax - 1) : (CodeBuffer.copy text).text = text :=
  (CString.ofBuffer_strncpy text (alertCodeMax - 1)).trans (CString.truncate_of_le h)

def CodeBuffer.blank : CodeBuffer := ⟨List.replicate alertCodeMax 0,List.length_replicate⟩

structure TelemetryRaw where
  batteryPct : UInt32
  rssiDbm : Int32
  deriving DecidableEq

structure AlertRaw where
  code : CodeBuffer
  antenna : UInt32
  deriving DecidableEq

structure TelemetryMsg where
  seq : UInt32
  ts : Int64
  batteryPct : UInt32
  rssiDbm : Int32
  deriving DecidableEq

structure AlertMsg where
  seq : UInt32
  ts : Int64
  code : CodeBuffer
  antenna : UInt32
  deriving DecidableEq

inductive Content
  | telemetryRaw (raw : TelemetryRaw)
  | alertRaw (raw : AlertRaw)
  | telemetryMsg (msg : TelemetryMsg)
  | alertMsg (msg : AlertMsg)
  deriving DecidableEq

abbrev Item := MsgItem Content

def Item.content (item : Item) : Option Content := item.payload.map Payload.content

def Item.token (item : Item) : Option ℕ :=
  match item.addr with
  | some (.heap p) => some p
  | _ => none

def asTelemetryRaw (item : Item) : TelemetryRaw :=
  match Item.content item with
  | some (.telemetryRaw raw) => raw
  | _ => ⟨0,0⟩

def asAlertRaw (item : Item) : AlertRaw :=
  match Item.content item with
  | some (.alertRaw raw) => raw
  | _ => ⟨.blank,0⟩

def asTelemetryMsg (item : Item) : TelemetryMsg :=
  match Item.content item with
  | some (.telemetryMsg msg) => msg
  | _ => ⟨0,0,0,0⟩

def asAlertMsg (item : Item) : AlertMsg :=
  match Item.content item with
  | some (.alertMsg msg) => msg
  | _ => ⟨0,0,.blank,0⟩

def sizeofTelemetryRaw : ℕ := 8
def sizeofAlertRaw : ℕ := 36
def sizeofTelemetryMsg : ℕ := 24
def sizeofAlertMsg : ℕ := 56

def topicTelemetry : CString := ⟨ascii "telemetry",by decide⟩
def topicAlerts : CString := ⟨ascii "alerts",by decide⟩

end RadioSim.Process
