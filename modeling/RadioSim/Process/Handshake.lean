import RadioSim.Foundation.Scan
import RadioSim.Process.Effect

/-! # Version handshake

`handshake_perform` of `handshake.c` on the `n`-th connection, for a list of
server versions.
-/
namespace RadioSim.Process

/-- One turn of `write_all` with `rest` still to be written. -/
def writeAll {P : Type} (n : ℕ) (rest : Bytes) (again : Bytes → P) (written failed : P) : Op P :=
  if rest = [] then .tau written
  else .sockWrite n rest fun
    | .wrote m => if m = 0 then failed else again (rest.drop m)
    | .eintr => again rest
    | .error => failed

theorem writeAll_all {P : Type} {I : P → Prop} {n : ℕ} {rest : Bytes} {again : Bytes → P} {written failed : P}
    (hagain : ∀ m, I (again (rest.drop m))) (hwritten : I written) (hfailed : I failed) :
    (writeAll n rest again written failed).All I := by
  unfold writeAll
  split
  · exact hwritten
  · intro r
    cases r with
    | wrote m =>
      dsimp only
      split
      · exact hfailed
      · exact hagain m
    | eintr => exact hagain 0
    | error => exact hfailed

def Choice.failsWrite : Choice → Bool
  | .write (.wrote m) => m = 0
  | .write .error => true
  | _ => false

/-- One turn of `write_all`: there was nothing to write, `m` more bytes are out, or
the call has failed. -/
theorem writeAll_turn {P : Type} {t : Tid} {c : Choice} {n : ℕ} {sh sh' : Shared} {rest : Bytes}
    {again : Bytes → P} {p written failed : P}
    (h : exec t c sh (writeAll n rest again written failed) = some (p,sh')) :
    sh'.taken = sh.taken ∧ (sh'.conns n).consumed = (sh.conns n).consumed ∧
    ((rest = [] ∧ p = written ∧ (sh'.conns n).output = (sh.conns n).output) ∨
      (∃ m, p = again (rest.drop m) ∧ (sh'.conns n).output = (sh.conns n).output ++ rest.take m) ∨
      (rest ≠ [] ∧ c.failsWrite = true ∧ p = failed ∧ (sh'.conns n).output = (sh.conns n).output)) := by
  unfold writeAll at h
  split at h
  · rename_i hrest
    cases h
    exact ⟨rfl,rfl,Or.inl ⟨hrest,rfl,rfl⟩⟩
  · rename_i hrest
    cases c with
    | write r =>
      cases r with
      | wrote m =>
        simp only [exec] at h
        split at h
        · cases h
          refine ⟨rfl,by simp [Shared.setConn],Or.inr ?_⟩
          by_cases hm : m = 0
          · exact Or.inr ⟨hrest,by simp [Choice.failsWrite, hm],by simp [hm],by simp [Shared.setConn, hm]⟩
          · exact Or.inl ⟨m,by simp [hm],by simp [Shared.setConn]⟩
        · cases h
      | eintr =>
        cases h
        exact ⟨rfl,rfl,Or.inr (Or.inl ⟨0,rfl,by simp⟩)⟩
      | error =>
        cases h
        exact ⟨rfl,rfl,Or.inr (Or.inr ⟨hrest,rfl,rfl,rfl⟩)⟩
    | _ => cases h

theorem append_take_drop {out rest whole : Bytes} (h : out ++ rest = whole) (m : ℕ) :
    out ++ rest.take m ++ rest.drop m = whole := by
  rw [List.append_assoc, List.take_append_drop, h]

/-- One turn of the writing of `whole`, of which `rest` is left. -/
theorem writeAll_whole {P : Type} {t : Tid} {c : Choice} {n : ℕ} {sh sh' : Shared} {rest whole : Bytes}
    {again : Bytes → P} {p written failed : P}
    (h : exec t c sh (writeAll n rest again written failed) = some (p,sh')) (hout : (sh.conns n).output ++ rest = whole) :
    (p = written ∧ (sh'.conns n).output = whole) ∨ (∃ left, p = again left ∧ (sh'.conns n).output ++ left = whole) ∨
      (rest ≠ [] ∧ c.failsWrite = true ∧ p = failed ∧ (sh'.conns n).output = (sh.conns n).output) := by
  rcases (writeAll_turn h).2.2 with ⟨rfl,hp,hout'⟩ | ⟨m,hp,hout'⟩ | hfails
  · exact Or.inl ⟨hp,by rw [hout', ← hout, List.append_nil]⟩
  · exact Or.inr (Or.inl ⟨_,hp,by rw [hout', append_take_drop hout]⟩)
  · exact Or.inr (Or.inr hfails)

namespace Handshake

def lineMax : ℕ := 128

/-- `HANDSHAKE_SERVER_VERSIONS`. -/
def serverVersions : List ℤ := [1]

/-- The `snprintf` loop of `send_hello`; `text` is what a large enough buffer would hold. -/
def helloLoop : Bytes → List ℤ → Bytes → Bytes
  | _, [], text => text
  | separator, v :: rest, text =>
    if text.length < lineMax then helloLoop (ascii ",") rest (text ++ separator ++ decimalInt v) else text

def helloLine (versions : List ℤ) : Option Bytes :=
  let text := helloLoop [] versions (ascii "HELLO SERVER_VERSIONS=")
  if text.length ≥ lineMax - 1 then none else some (text ++ [10])

def clientPrefix : Bytes := ascii "HELLO CLIENT_VERSIONS="

/-- The loop of `parse_client_versions`; every turn consumes a byte, so the
length of the text bounds the number of turns. -/
def parseLoop (capacity : ℕ) : ℕ → Bytes → List ℤ → Option (List ℤ)
  | _, [], out => some out
  | 0, _ :: _, _ => none
  | fuel + 1, p, out =>
    if out.length ≥ capacity then none
    else match strtol p with
      | none => none
      | some (v,44 :: rest) => parseLoop capacity fuel rest (out ++ [toInt32 v])
      | some (v,[]) => some (out ++ [toInt32 v])
      | some (_,_) => none

/-- The versions parsed; the empty list is the returned count 0. -/
def parseClientVersions (line : CString) (capacity : ℕ) : List ℤ :=
  if line.bytes.take clientPrefix.length = clientPrefix then
    let p := line.bytes.drop clientPrefix.length
    (parseLoop capacity p.length p []).getD []
  else []

def highestCommonVersion (server client : List ℤ) : ℤ :=
  server.foldl (fun best v => client.foldl (fun best w => if w = v ∧ v > best then v else best) best) 0

def nackLine : Bytes := ascii "HELLO_NACK REASON=no_common_version\n"

def ackLine (version : ℤ) : Bytes := ascii "HELLO_ACK VERSION=" ++ decimalInt version ++ [10]

inductive Pc
  | hello (rest : Bytes)
  | readLine (buf : Bytes)
  | nack (rest : Bytes)
  | ack (version : ℤ) (rest : Bytes)
  | done (ok : Bool) (negotiated : ℤ)

def start (versions : List ℤ) : Pc :=
  match helloLine versions with
  | none => .done false 0
  | some line => .hello line

def answer (versions : List ℤ) (line : CString) : Pc :=
  match parseClientVersions line lineMax with
  | [] => .nack nackLine
  | client =>
    let negotiated := highestCommonVersion versions client
    if negotiated = 0 then .nack nackLine
    else if (ackLine negotiated).length ≥ lineMax then .done false 0
    else .ack negotiated (ackLine negotiated)

def code (versions : List ℤ) (n : ℕ) : Pc → Op Pc
  | .hello rest => writeAll n rest .hello (.readLine []) (.done false 0)
  | .readLine buf =>
    if buf.length + 1 < lineMax then .sockRead n fun
      | .byte b => if b = 10 then answer versions (.ofBuffer buf) else .readLine (buf ++ [b])
      | .eof => .done false 0
      | .eintr => .readLine buf
      | .error => .done false 0
    else .tau (.done false 0)
  | .nack rest => writeAll n rest .nack (.done false 0) (.done false 0)
  | .ack version rest => writeAll n rest (.ack version) (.done true version) (.done false 0)
  | .done ok negotiated => .tau (.done ok negotiated)

/-- One turn of `read_line`: a byte has come, the call was interrupted, or there will be
no line. -/
theorem readLine_turn {t : Tid} {c : Choice} {versions : List ℤ} {n : ℕ} {buf : Bytes} {p : Pc} {sh sh' : Shared}
    (h : exec t c sh (code versions n (.readLine buf)) = some (p,sh')) :
    (∃ b, p = (if b = 10 then answer versions (.ofBuffer buf) else .readLine (buf ++ [b])) ∧
      sh' = sh.setConn n { sh.conns n with consumed := (sh.conns n).consumed ++ [b] } ∧
      buf.length + 1 < lineMax ∧ c = .read (.byte b)) ∨
    (p = .readLine buf ∧ sh' = sh ∧ buf.length + 1 < lineMax ∧ c = .read .eintr) ∨
    (p = .done false 0 ∧ sh' = sh ∧ (buf.length + 1 < lineMax → c = .read .eof ∨ c = .read .error)) := by
  simp only [code] at h
  split at h
  · rename_i hroom
    cases c with
    | read r =>
      cases r with
      | byte b =>
        cases h
        exact Or.inl ⟨b,rfl,rfl,hroom,rfl⟩
      | eintr =>
        cases h
        exact Or.inr (Or.inl ⟨rfl,rfl,hroom,rfl⟩)
      | eof =>
        cases h
        exact Or.inr (Or.inr ⟨rfl,rfl,fun _ => Or.inl rfl⟩)
      | error =>
        cases h
        exact Or.inr (Or.inr ⟨rfl,rfl,fun _ => Or.inr rfl⟩)
    | _ => cases h
  · rename_i hfull
    cases h
    exact Or.inr (Or.inr ⟨rfl,rfl,fun hroom => absurd hroom hfull⟩)

end Handshake
end RadioSim.Process
