import RadioSim.Process.Machine

/-! # Workers

`worker_routine` of `worker_pool.c`. A publish is the lookup of the topic, which
takes the registry mutex, one turn of the loop for each subscriber, and the
unlock. Its payload is a local variable of the worker.
-/
namespace RadioSim.Process.Worker
open Pubsub

inductive Pc
  | dequeue
  | sequence (raw : Item)
  | time (raw : Item) (seq : UInt32)
  | read (raw : Item) (seq : UInt32) (ts : Int64)
  | publish (raw : Item) (seq : UInt32) (ts : Int64)
  | fanOut (raw : Item) (seq : UInt32) (ts : Int64) (subscribers : List QueueId)
  | release (raw : Item)
  | done

def topicOf : MsgType → CString
  | .telemetry => topicTelemetry
  | .alert => topicAlerts

/-- The enriched message, in the worker's stack frame; it is filled in while the
raw struct is read. -/
def pubItem (raw : Item) (seq : UInt32) (ts : Int64) : Item :=
  match raw.type with
  | .telemetry =>
    let msg : TelemetryMsg := ⟨seq,ts,(asTelemetryRaw raw).batteryPct,(asTelemetryRaw raw).rssiDbm⟩
    ⟨seq,.telemetry,some ⟨.stack 0,.telemetryMsg msg⟩,sizeofTelemetryMsg⟩
  | .alert =>
    let msg : AlertMsg := ⟨seq,ts,(asAlertRaw raw).code,(asAlertRaw raw).antenna⟩
    ⟨seq,.alert,some ⟨.stack 0,.alertMsg msg⟩,sizeofAlertMsg⟩

def code : Pc → Op Pc
  | .dequeue => .dequeue .ingest fun
    | none => .done
    | some item => .sequence item
  | .sequence raw => .nextSequence fun seq => .time raw seq
  | .time raw seq => .time fun ts => .read raw seq ts
  | .read raw seq ts => .touch raw.addr (.publish raw seq ts)
  | .publish raw seq ts => .publishBegin (topicOf raw.type) (pubItem raw seq ts) fun
    | none => .release raw
    | some subscribers => .fanOut raw seq ts subscribers
  | .fanOut raw _ _ [] => .publishEnd (.release raw)
  | .fanOut raw seq ts (q :: rest) => .deliver q (pubItem raw seq ts) (.fanOut raw seq ts rest)
  | .release raw => .free raw.addr .dequeue
  | .done => .ret .done

end RadioSim.Process.Worker
