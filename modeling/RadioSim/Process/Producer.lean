import RadioSim.Process.Machine

/-! # Producer and consumer

`producer_routine` with its sliced sleep, and `consumer_routine`, of `main.c`.
-/
namespace RadioSim.Process.Producer
open Pubsub

def producerSleepSliceMs : UInt32 := 100

inductive Pc
  | loop (counter : UInt32)
  | allocTelemetry (counter : UInt32)
  | enqueueTelemetry (counter : UInt32) (a : Addr)
  | allocAlert (counter : UInt32)
  | enqueueAlert (counter : UInt32) (a : Addr)
  | discard (a : Addr)
  | readInterval (counter : UInt32)
  | sleep (counter totalMs sleptMs : UInt32)
  | slice (counter totalMs sleptMs : UInt32)
  | done

def telemetryItem (counter : UInt32) (a : Addr) : Item :=
  let raw : TelemetryRaw := ⟨100 - counter % 101,-40 - (counter % 50).toInt32⟩
  ⟨counter,.telemetry,some ⟨a,.telemetryRaw raw⟩,sizeofTelemetryRaw⟩

def antennaUnplugged : CString := ⟨ascii "ANTENNA_UNPLUGGED",by decide⟩
def batteryLow : CString := ⟨ascii "BATTERY_LOW",by decide⟩

/-- `ALERT_CODES[(counter / 5) % ALERT_CODE_COUNT]`. -/
def alertCode (counter : UInt32) : CString :=
  if counter / 5 % 2 = 0 then antennaUnplugged else batteryLow

def alertItem (counter : UInt32) (a : Addr) : Item :=
  let raw : AlertRaw := ⟨.copy (alertCode counter),1 + counter % 2⟩
  ⟨counter,.alert,some ⟨a,.alertRaw raw⟩,sizeofAlertRaw⟩

def sliceMs (totalMs sleptMs : UInt32) : UInt32 :=
  if totalMs - sleptMs < producerSleepSliceMs then totalMs - sleptMs else producerSleepSliceMs

def code : Pc → Op Pc
  | .loop counter => .shutdownRequested fun stop => if stop then .done else .allocTelemetry (counter + 1)
  | .allocTelemetry counter => .malloc fun
    | none => .done
    | some a => .enqueueTelemetry counter a
  | .enqueueTelemetry counter a => .enqueue .ingest (telemetryItem counter a) fun ok =>
    if ok then if counter % 5 = 0 then .allocAlert counter else .readInterval counter else .discard a
  | .allocAlert counter => .malloc fun
    | none => .done
    | some a => .enqueueAlert counter a
  | .enqueueAlert counter a => .tryEnqueue .ingest (alertItem counter a) fun ok =>
    if ok then .readInterval counter else .discard a
  | .discard a => .free (some a) .done
  | .readInterval counter => .getInterval fun ms => .sleep counter ms 0
  | .sleep counter totalMs sleptMs =>
    if sleptMs < totalMs then
      .shutdownRequested fun stop => if stop then .loop counter else .slice counter totalMs sleptMs
    else .tau (.loop counter)
  | .slice counter totalMs sleptMs => .tau (.sleep counter totalMs (sleptMs + sliceMs totalMs sleptMs))
  | .done => .ret .done

end RadioSim.Process.Producer

namespace RadioSim.Process.Consumer

inductive Pc
  | dequeueTelemetry
  | logTelemetry (item : Item)
  | freeTelemetry (item : Item)
  | tryAlert
  | logAlert (item : Item)
  | freeAlert (item : Item)
  | done

def code : Pc → Op Pc
  | .dequeueTelemetry => .dequeue .consumerTelemetry fun
    | none => .done
    | some item => .logTelemetry item
  | .logTelemetry item => .touch item.addr (.freeTelemetry item)
  | .freeTelemetry item => .free item.addr .tryAlert
  | .tryAlert => .tryDequeue .consumerAlerts fun
    | none => .dequeueTelemetry
    | some item => .logAlert item
  | .logAlert item => .touch item.addr (.freeAlert item)
  | .freeAlert item => .free item.addr .dequeueTelemetry
  | .done => .ret .done

end RadioSim.Process.Consumer
