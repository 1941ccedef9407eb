import RadioSim.Foundation.Pointer
import RadioSim.Process.Wire

/-! # The lines of the messages

`serve_client` prints every message that it takes from a queue into its line buffer
and writes the line if it fitted. The codes of alerts are terminated wherever an item
is, so that the print reads nothing outside of them, and every line fits.
-/
namespace RadioSim.Process
open Pubsub Queue CharArray

section Items
variable {K : Item → Prop} {sh sh' : Shared} {W : ℕ} {s s' : System} {t : Tid} {c : Choice}

/-- A property that the items have when they are made, and that copying and publishing
them keeps. -/
structure Inherited (K : Item → Prop) : Prop where
  view : ∀ {item item' : Item}, item'.view = item.view → K item → K item'
  telemetry : ∀ counter a, K (Producer.telemetryItem counter a)
  alert : ∀ counter a, K (Producer.alertItem counter a)
  triggered : ∀ code antenna a, K (Command.rawItem code antenna a)
  published : ∀ {raw : Item}, K raw → ∀ seq ts, K (Worker.pubItem raw seq ts)

def Holding (K : Item → Prop) : (t : Tid) → Pc t → Prop
  | .worker _, .sequence raw | .worker _, .time raw _ | .worker _, .read raw _ _ | .worker _, .publish raw _ _
  | .worker _, .fanOut raw _ _ _ => K raw
  | .listener _, .enqueueAlert item => K item
  | .transport, .formatTelemetry _ item | .transport, .formatAlert _ item => K item
  | _, _ => True

theorem code_holding (hK : Inherited K) {pc : Pc t} (hand : Holding K t pc) {q : QueueId} {item : Item}
    (h : (code W t pc).offers = some (q,item)) : K item := by
  cases code_offering h with
  | telemetry counter a => exact hK.telemetry counter a
  | alert counter a => exact hK.alert counter a
  | triggered n => exact hand
  | published i raw seq ts _ rest => exact hK.published hand seq ts

/-- An item that is taken has what all items of the queue have. -/
theorem head_holding {q : QueueId} {r : RingQueue Item} (hr : sh.ring q = some r)
    (hstock : ∀ q, ∀ item ∈ sh.contents q, K item) {item : Item} (h : r.contents.head? = some item) : K item :=
  hstock q item (by rw [contents_of_ring hr]; exact List.mem_of_mem_head? h)

theorem worker_holding {i : ℕ} {pc p : Worker.Pc} (h : Effect (.worker i) sh (Worker.code pc) p sh')
    (hstock : ∀ q, ∀ item ∈ sh.contents q, K item) (hand : Holding K (.worker i) pc) : Holding K (.worker i) p := by
  cases pc with
  | dequeue =>
    cases h with
    | dequeue _ _ r hr _ =>
      cases hhead : r.contents.head? with
      | none => exact trivial
      | some item => exact head_holding hr hstock hhead
  | fanOut raw seq ts subscribers =>
    apply h.all (I := Holding K (.worker i))
    cases subscribers with
    | nil => exact trivial
    | cons q rest => exact hand
  | publish raw seq ts =>
    apply h.all (I := Holding K (.worker i))
    intro subscribers
    cases subscribers with
    | none => exact trivial
    | some subscribers => exact hand
  | sequence raw | time raw seq => exact h.all (I := Holding K (.worker i)) fun _ => hand
  | read raw seq ts => exact h.all (I := Holding K (.worker i)) hand
  | release raw | done => exact h.all (I := Holding K (.worker i)) trivial

theorem transport_holding {pc p : Transport.Pc} (h : Effect .transport sh (Transport.code pc) p sh')
    (hstock : ∀ q, ∀ item ∈ sh.contents q, K item) : Holding K .transport p := by
  cases pc with
  | tryTelemetry c | tryAlerts c =>
    cases h with
    | tryDequeue _ _ r hr =>
      cases hhead : r.contents.head? with
      | none => exact trivial
      | some item => exact head_holding hr hstock hhead
  | _ => cases h.follows <;> exact trivial

theorem listener_holding (hK : Inherited K) {n : ℕ} {pc p : Command.Pc}
    (h : Effect (.listener n) sh (Command.code n pc) p sh') : Holding K (.listener n) p := by
  cases h.listener_follows with
  | allocated code antenna a => exact hK.triggered code antenna a
  | _ => exact trivial

structure Carrying (K : Item → Prop) (s : System) : Prop where
  contents : ∀ q, ∀ item ∈ s.shared.contents q, K item
  hands : ∀ t, Holding K t (s.pcs t)

theorem step_carrying (hK : Inherited K) (h : Carrying K s) (hstep : step W s t c = some s') : Carrying K s' := by
  obtain ⟨_,p,sh,hexec,rfl⟩ := step_inversion hstep
  have heff := exec_effect hexec
  have hcontents : ∀ q, ∀ item ∈ sh.contents q, K item :=
    heff.stock (K := fun _ => K) (fun _ _ _ => hK.view) h.contents fun q item => code_holding hK (h.hands t)
  refine ⟨hcontents,fun u => ?_⟩
  by_cases hu : u = t
  · subst hu
    simp only [Function.update_self]
    cases u with
    | worker i => exact worker_holding heff h.contents (h.hands (.worker i))
    | transport => exact transport_holding heff h.contents
    | listener n => exact listener_holding hK heff
    | _ => exact trivial
  · simp only [Function.update_of_ne hu]
    exact h.hands u

theorem initial_carrying : Carrying K .initial := by
  refine ⟨fun q item h => (by cases h),fun t => ?_⟩
  cases t <;> exact trivial

theorem run_carrying (hK : Inherited K) (h : Reachable W s) : Carrying K s :=
  h.invariant (I := Carrying K) initial_carrying fun _ _ _ _ => step_carrying hK

end Items

section Codes
open Transport

def Content.code : Content → Option CodeBuffer
  | .alertRaw raw => some raw.code
  | .alertMsg msg => some msg.code
  | _ => none

/-- The code of an alert has a NUL in its 32 bytes. -/
def Item.Terminated (item : Item) : Prop := ∀ code, (Item.content item).bind Content.code = some code → 0 ∈ code.bytes

theorem copy_terminated (text : CString) : 0 ∈ (CodeBuffer.copy text).bytes := by
  simp [CodeBuffer.copy]

theorem asAlertRaw_terminated {item : Item} (h : Item.Terminated item) : 0 ∈ (asAlertRaw item).code.bytes := by
  unfold asAlertRaw
  split
  · rename_i raw hraw
    exact h raw.code (by rw [hraw]; rfl)
  · decide

theorem asAlertMsg_terminated {item : Item} (h : Item.Terminated item) : 0 ∈ (asAlertMsg item).code.bytes := by
  unfold asAlertMsg
  split
  · rename_i msg hmsg
    exact h msg.code (by rw [hmsg]; rfl)
  · decide

theorem terminated_inherited : Inherited Item.Terminated where
  view := fun {item item'} hview h code hcode => by
    have hcontent : Item.content item' = Item.content item := congrArg View.content hview
    exact h code (hcontent ▸ hcode)
  telemetry := fun counter a code hcode => by cases hcode
  alert := fun counter a code hcode => by
    cases hcode
    exact copy_terminated _
  triggered := fun text antenna a code hcode => by
    cases hcode
    exact copy_terminated _
  published := fun {raw} h seq ts code hcode => by
    cases htype : raw.type with
    | telemetry => simp [Worker.pubItem, htype, Item.content, Content.code] at hcode
    | alert =>
      simp only [Worker.pubItem, htype, Item.content, Content.code, Option.map_some, Option.bind_some,
        Option.some.injEq] at hcode
      exact hcode ▸ asAlertRaw_terminated h

end Codes

section Printing
open Transport
variable {array : Bytes}

/-- `format_telemetry` into an array: the length that it returns, and the array. -/
def Transport.formatTelemetryInto (array : Bytes) (msg : TelemetryMsg) : Option (ℕ × Bytes) :=
  snprintf array 0 array.length (formatTelemetry msg)

/-- `format_alert` into an array; the code is read up to its NUL. -/
def Transport.formatAlertInto (array : Bytes) (msg : AlertMsg) : Option (ℕ × Bytes) :=
  (Pointer.string msg.code.bytes).bind fun _ => snprintf array 0 array.length (formatAlert msg)

theorem snprintf_fits {text : Bytes} (harray : array.length = lineSize) (h : text.length < lineSize) :
    ∃ array', snprintf array 0 array.length text = some (text.length,array') ∧ array'.take text.length = text := by
  obtain ⟨array',hprint,_,htake⟩ := snprintf_spec (i := 0) array text (by rw [harray]; decide)
  refine ⟨array',hprint,?_⟩
  simpa using htake (by omega)

theorem formatTelemetryInto_fits (harray : array.length = lineSize) (msg : TelemetryMsg) :
    ∃ n array', formatTelemetryInto array msg = some (n,array') ∧ 0 < n ∧ n < lineSize ∧
      array'.take n = formatTelemetry msg := by
  obtain ⟨hpos,hlt⟩ := formatTelemetry_length msg
  obtain ⟨array',hprint,htake⟩ := snprintf_fits harray hlt
  exact ⟨_,array',hprint,hpos,hlt,htake⟩

theorem formatAlertInto_fits (harray : array.length = lineSize) {msg : AlertMsg} (h : 0 ∈ msg.code.bytes) :
    ∃ n array', formatAlertInto array msg = some (n,array') ∧ 0 < n ∧ n < lineSize ∧
      array'.take n = formatAlert msg := by
  obtain ⟨hpos,hlt⟩ := formatAlert_length msg
  obtain ⟨array',hprint,htake⟩ := snprintf_fits harray hlt
  refine ⟨_,array',?_,hpos,hlt,htake⟩
  rw [formatAlertInto, Pointer.string_of_mem h, Option.bind_some, hprint]

end Printing

section Serving
open Transport
variable {W : ℕ} {s s' : System} {c : Choice} {client : Client} {item : Item} {line : Bytes}

/-- A step from a format writes the line if it fits. -/
theorem step_format (hline : 0 < line.length ∧ line.length < lineSize)
    (hop : s.op W .transport = .touch item.addr (afterFormat client item line))
    (hstep : step W s .transport c = some s') : s'.pcs .transport = .write client item line := by
  obtain ⟨_,p,sh,hexec,rfl⟩ := step_inversion hstep
  have heff := exec_effect hexec
  rw [hop] at heff
  have hp : p = afterFormat client item line := heff.all (I := fun p => p = afterFormat client item line) rfl
  simp only [Function.update_self]
  rw [hp, afterFormat, if_pos hline]

/-- `serve_client` discards nothing that it has taken. The codes of all alerts in the
queues are terminated; every telemetry message, and every alert with such a code, is
printed into the line buffer, in less than its 256 bytes and without a read outside of
the code; and the step after every print goes on to write the whole line. -/
theorem serveClient_discards_nothing (h : Reachable W s) :
    (∀ q, ∀ item ∈ s.shared.contents q, Item.Terminated item) ∧
    (∀ (array : Bytes) (msg : TelemetryMsg), array.length = lineSize →
      ∃ n array', formatTelemetryInto array msg = some (n,array') ∧ 0 < n ∧ n < 256 ∧
        array'.take n = formatTelemetry msg) ∧
    (∀ (array : Bytes) (msg : AlertMsg), array.length = lineSize → 0 ∈ msg.code.bytes →
      ∃ n array', formatAlertInto array msg = some (n,array') ∧ 0 < n ∧ n < 256 ∧
        array'.take n = formatAlert msg) ∧
    (∀ client item c s', s.pcs .transport = .formatTelemetry client item → step W s .transport c = some s' →
      s'.pcs .transport = .write client item (formatTelemetry (asTelemetryMsg item))) ∧
    ∀ client item c s', s.pcs .transport = .formatAlert client item → step W s .transport c = some s' →
      0 ∈ (asAlertMsg item).code.bytes ∧
        s'.pcs .transport = .write client item (formatAlert (asAlertMsg item)) := by
  obtain ⟨hcontents,hands⟩ := run_carrying terminated_inherited h
  refine ⟨hcontents,fun _ msg harray => formatTelemetryInto_fits harray msg,
    fun _ _ harray hcode => formatAlertInto_fits harray hcode,?_,?_⟩
  · intro client item c s' hpc hstep
    exact step_format (formatTelemetry_length _) (by rw [System.op, hpc]; rfl) hstep
  · intro client item c s' hpc hstep
    have hitem : Holding Item.Terminated .transport (.formatAlert client item) := hpc ▸ hands .transport
    exact ⟨asAlertMsg_terminated hitem,step_format (formatAlert_length _) (by rw [System.op, hpc]; rfl) hstep⟩

def waiting : List (Tid × Choice) :=
  startUp ++ connect ++ command (ascii "TRIGGER_ALERT X 1\n") ++ proceed (.listener 0) 3 ++ workerTurn 0 2

theorem serveClient_discards_nothing_waiting : ∃ s item, Reachable Main.workerPoolDefaultSize s ∧
    s.shared.contents (.connAlerts 0) = [item] ∧
    Item.content item = some (.alertMsg ⟨1,0,.copy ⟨ascii "X",by decide⟩,1⟩) ∧ Item.Terminated item := by
  have hobserved : (run Main.workerPoolDefaultSize .initial waiting).map (fun s =>
      (s.shared.contents (.connAlerts 0)).map Item.content) =
      some [some (.alertMsg ⟨1,0,.copy ⟨ascii "X",by decide⟩,1⟩)] := by decide +kernel
  obtain ⟨s,hrun,hs⟩ := Option.map_eq_some_iff.mp hobserved
  obtain ⟨item,hitem,hcontent⟩ := List.map_eq_singleton_iff.mp hs
  have hreach : Reachable Main.workerPoolDefaultSize s := run_reachable .refl hrun
  exact ⟨s,item,hreach,hitem,hcontent,
    (serveClient_discards_nothing hreach).1 (.connAlerts 0) item (by simp [hitem])⟩

end Serving

end RadioSim.Process
