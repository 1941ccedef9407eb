import RadioSim.Foundation.Scan
import RadioSim.Process.Machine

/-! # Command listener

`command_listener_routine` of `command.c` on the `n`-th connection.
-/
namespace RadioSim.Process.Command
open Pubsub

def commandLineMax : ℕ := 128

inductive Parsed
  | setInterval (ms : UInt32)
  | triggerAlert (code : CString) (antenna : UInt32)
  | rejected
  deriving DecidableEq

/-- `apply_set_interval` up to the call of `radio_control_set_interval_ms`. -/
def applySetInterval (args : Bytes) : Parsed :=
  match strtol args with
  | none => .rejected
  | some (ms,_) => if ms ≤ 0 then .rejected else .setInterval (UInt32.ofNat ms.toNat)

/-- `sscanf(args, "%31s %u", code, &antenna)` when it converts both. -/
def scanAlert (args : Bytes) : Option (CString × UInt32) :=
  match scanWord (alertCodeMax - 1) args with
  | none => none
  | some (word,rest) => (scanUnsigned rest).map fun antenna => (.ofBuffer word,antenna)

/-- `apply_trigger_alert` up to the allocation. -/
def applyTriggerAlert (args : Bytes) : Parsed :=
  match scanAlert args with
  | none => .rejected
  | some (code,antenna) => .triggerAlert code antenna

/-- The dispatch of `apply_command` on what stands before the first space. -/
def applyCommand (line : CString) : Parsed :=
  match line.bytes.dropWhile (· ≠ 32) with
  | [] => .rejected
  | _ :: args =>
    let keyword := line.bytes.takeWhile (· ≠ 32)
    if keyword = ascii "SET_INTERVAL" then applySetInterval args
    else if keyword = ascii "TRIGGER_ALERT" then applyTriggerAlert args
    else .rejected

def rawItem (code : CString) (antenna : UInt32) (a : Addr) : Item :=
  ⟨0,.alert,some ⟨a,.alertRaw ⟨.copy code,antenna⟩⟩,sizeofAlertRaw⟩

inductive Pc
  | poll (buf : Bytes)
  | timedOut (buf : Bytes)
  | checkPeer (buf : Bytes)
  | read (buf : Bytes)
  | apply (line : CString)
  | setInterval (ms : UInt32)
  | allocAlert (code : CString) (antenna : UInt32)
  | enqueueAlert (item : Item)
  | dropAlert (item : Item)
  | logAlert (item : Item)
  | clearPeer
  | done

def afterApply (line : CString) : Pc :=
  match applyCommand line with
  | .setInterval ms => .setInterval ms
  | .triggerAlert code antenna => .allocAlert code antenna
  | .rejected => .poll []

def code (n : ℕ) : Pc → Op Pc
  | .poll buf =>
    if buf.length + 1 < commandLineMax then .poll fun
      | .error => .clearPeer
      | .eintr => .poll buf
      | .timeout => .timedOut buf
      | .ready hangup => if hangup then .clearPeer else .read buf
    else .tau .clearPeer
  | .timedOut buf => .shutdownRequested fun stop => if stop then .clearPeer else .checkPeer buf
  | .checkPeer buf => .peerRead n fun alive => if alive then .poll buf else .clearPeer
  | .read buf => .sockRead n fun
    | .byte b => if b = 10 then .apply (.ofBuffer buf) else .poll (buf ++ [b])
    | .eof => .clearPeer
    | .eintr => .poll buf
    | .error => .clearPeer
  | .apply line => .noteApplied n line (afterApply line)
  | .setInterval ms => .setInterval ms (.poll [])
  | .allocAlert code antenna => .malloc fun
    | none => .poll []
    | some a => .enqueueAlert (rawItem code antenna a)
  | .enqueueAlert item => .tryEnqueue .ingest item fun ok => if ok then .logAlert item else .dropAlert item
  | .dropAlert item => .free item.addr (.poll [])
  -- the log line reads raw->code although the queue owns raw by now
  | .logAlert item => .touch item.addr (.poll [])
  | .clearPeer => .peerClear n .done
  | .done => .ret .done

section Scanning
variable {line code : CString} {antenna : UInt32} {args : Bytes}

theorem applySetInterval_noAlert : applySetInterval args ≠ .triggerAlert code antenna := by
  unfold applySetInterval
  split
  · exact Parsed.noConfusion
  · split <;> exact Parsed.noConfusion

/-- An alert of a command was scanned from its arguments. -/
theorem applyCommand_alert (h : applyCommand line = .triggerAlert code antenna) :
    ∃ args, line.bytes = ascii "TRIGGER_ALERT" ++ 32 :: args ∧ scanAlert args = some (code,antenna) := by
  unfold applyCommand at h
  split at h
  · cases h
  · rename_i b args hargs
    simp only at h
    split at h
    · exact absurd h applySetInterval_noAlert
    · split at h
      · rename_i hkeyword
        have hspace : b = 32 := by
          have hhead := List.head?_dropWhile_not (fun b : Byte => decide (b ≠ 32)) line.bytes
          rw [hargs] at hhead
          simpa using hhead
        unfold applyTriggerAlert at h
        split at h
        · cases h
        · rename_i hscan
          cases h
          refine ⟨args,?_,hscan⟩
          rw [hspace] at hargs
          rw [← hkeyword, ← hargs, List.takeWhile_append_dropWhile]
      · cases h

/-- The width of the conversion bounds the code of a command. -/
theorem scanAlert_short (h : scanAlert args = some (code,antenna)) : code.strlen ≤ alertCodeMax - 1 := by
  unfold scanAlert at h
  split at h
  · cases h
  · rename_i word rest hword
    obtain ⟨antenna',_,heq⟩ := Option.map_eq_some_iff.mp h
    cases heq
    exact (List.takeWhile_prefix _).length_le.trans (scanWord_spec hword).2.1

end Scanning

end RadioSim.Process.Command
