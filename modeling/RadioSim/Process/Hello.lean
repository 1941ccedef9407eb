import RadioSim.Foundation.CharArray
import RadioSim.Process.Offer

/-! # The HELLO line in its buffer

`send_hello` on its character array, store by store, for any list of server
versions; and its line read back as a client's.
-/
namespace RadioSim.Process.Handshake
open CharArray

/-- The loop of `send_hello`; `n` is the length that the calls of `snprintf` have
added up to. -/
def sendHelloLoop : Bytes → List ℤ → ℕ → Bytes → Option (ℕ × Bytes)
  | _, [], n, line => some (n,line)
  | separator, v :: rest, n, line =>
    if 0 < n ∧ n < lineMax then
      (snprintf line n (lineMax - n) (separator ++ decimalInt v)).bind fun r =>
        sendHelloLoop (ascii ",") rest (n + r.1) r.2
    else some (n,line)

/-- `send_hello` up to its `write_all`: what there is to write, or nothing when it
fails before that. `memory` is what the array `line` holds at first. -/
def sendHello (memory : Bytes) (versions : List ℤ) : Option (Option Bytes) :=
  (snprintf memory 0 lineMax (ascii "HELLO SERVER_VERSIONS=")).bind fun r =>
    (sendHelloLoop [] versions r.1 r.2).bind fun (n,line) =>
      if n = 0 ∨ n ≥ lineMax - 1 then some none
      else (store line n 10).map fun line => some (line.take (n + 1))

section Buffer

structure Holds (line text : Bytes) : Prop where
  length_eq : line.length = lineMax
  take_eq : text.length < lineMax → line.take text.length = text

theorem snprintf_holds {line text : Bytes} (more : Bytes) (h : Holds line text) (hlt : text.length < lineMax) :
    ∃ line', snprintf line text.length (lineMax - text.length) more = some (more.length,line') ∧
      Holds line' (text ++ more) := by
  obtain ⟨line',hprint,hlen,htake⟩ := snprintf_spec line more (h.length_eq ▸ hlt)
  rw [h.length_eq] at hprint hlen htake
  refine ⟨line',hprint,hlen,fun hfits => ?_⟩
  rw [List.length_append] at hfits ⊢
  rw [htake hfits, h.take_eq hlt]

theorem sendHelloLoop_holds (separator : Bytes) (versions : List ℤ) {line text : Bytes} (h : Holds line text)
    (hne : text ≠ []) :
    ∃ line', sendHelloLoop separator versions text.length line =
        some ((helloLoop separator versions text).length,line') ∧
      Holds line' (helloLoop separator versions text) := by
  induction versions generalizing separator line text with
  | nil => exact ⟨line,rfl,h⟩
  | cons v rest ih =>
    have hpos := List.length_pos_of_ne_nil hne
    unfold sendHelloLoop helloLoop
    by_cases hlt : text.length < lineMax
    · obtain ⟨line₁,hprint,hholds⟩ := snprintf_holds (separator ++ decimalInt v) h hlt
      rw [← List.append_assoc] at hholds
      obtain ⟨line',hloop,hend⟩ := ih (ascii ",") hholds (by simp [hne])
      refine ⟨line',?_,by simpa only [if_pos hlt] using hend⟩
      rw [if_pos ⟨hpos,hlt⟩, if_pos hlt, hprint, ← hloop]
      simp only [Option.bind_some, List.length_append, Nat.add_assoc]
    · exact ⟨line,by rw [if_neg fun hc => hlt hc.2, if_neg hlt],by rwa [if_neg hlt]⟩

/-- No index of `send_hello` is outside its array, and it writes the text that
an array without a bound would hold. -/
theorem sendHello_eq {memory : Bytes} (hmemory : memory.length = lineMax) (versions : List ℤ) :
    sendHello memory versions = some (helloLine versions) := by
  have hstart : Holds memory [] := ⟨hmemory,fun _ => rfl⟩
  obtain ⟨line₁,hprint,hholds⟩ := snprintf_holds (ascii "HELLO SERVER_VERSIONS=") hstart (by decide)
  obtain ⟨line,hloop,hend⟩ := sendHelloLoop_holds [] versions hholds (by decide)
  unfold sendHello helloLine
  rw [show snprintf memory 0 lineMax _ = _ from hprint, Option.bind_some]
  simp only [List.nil_append] at hloop hend
  rw [hloop, Option.bind_some]
  generalize hellos : helloLoop [] versions (ascii "HELLO SERVER_VERSIONS=") = text at hend ⊢
  have hpos : text.length ≠ 0 := by
    intro hzero
    have hle := (helloLoop_length [] versions (ascii "HELLO SERVER_VERSIONS=") (by rw [hellos, hzero]; decide)).1
    rw [hellos, hzero] at hle
    exact absurd hle (by decide)
  by_cases hlong : text.length ≥ lineMax - 1
  · simp only [hlong, or_true, ↓reduceIte]
  · have hlt : text.length < lineMax := by omega
    have hroom : text.length < line.length := hend.length_eq ▸ hlt
    simp only [hlong, hpos, or_self, ↓reduceIte, store, if_pos hroom, Option.map_some, Option.some.injEq]
    rw [take_set_succ hroom, hend.take_eq hlt]

end Buffer

section RoundTrip
variable {versions : List ℤ} {hello : Bytes}

def joined (versions : List ℤ) : Bytes := [44].intercalate (versions.map decimalInt)

theorem commaSeparated_ofInt (versions : List ℤ) : commaSeparated (versions.map Numeral.ofInt) = joined versions := by
  unfold commaSeparated joined
  rw [List.map_map]
  exact congrArg _ (List.map_congr_left fun v _ => Numeral.ofInt_text v)

theorem joined_cons (v : ℤ) (versions : List ℤ) :
    joined (v :: versions) = decimalInt v ++ versions.flatMap fun w => 44 :: decimalInt w := by
  induction versions generalizing v with
  | nil => simp [joined]
  | cons w rest ih =>
    have hcons : joined (v :: w :: rest) = decimalInt v ++ 44 :: joined (w :: rest) := by simp [joined]
    rw [hcons, ih, List.flatMap_cons]
    simp

/-- A text that stays short has every numeral with its comma. -/
theorem helloLoop_comma {text : Bytes} (h : (helloLoop (ascii ",") versions text).length < lineMax) :
    helloLoop (ascii ",") versions text = text ++ versions.flatMap fun v => 44 :: decimalInt v := by
  induction versions generalizing text with
  | nil => simp [helloLoop]
  | cons v rest ih =>
    unfold helloLoop at h ⊢
    by_cases htext : text.length < lineMax
    · rw [if_pos htext] at h ⊢
      rw [ih h, List.flatMap_cons]
      simp [ascii]
    · rw [if_neg htext] at h
      exact absurd h htext

theorem helloLine_eq (hne : versions ≠ []) (h : helloLine versions = some hello) :
    hello = ascii "HELLO SERVER_VERSIONS=" ++ joined versions ++ [10] ∧
      (ascii "HELLO SERVER_VERSIONS=" ++ joined versions).length + 1 < lineMax := by
  obtain ⟨v,rest,rfl⟩ := List.exists_cons_of_ne_nil hne
  simp only [helloLine, Option.ite_none_left_eq_some, Option.some.injEq] at h
  obtain ⟨hshort,rfl⟩ := h
  have htext : helloLoop [] (v :: rest) (ascii "HELLO SERVER_VERSIONS=") =
      ascii "HELLO SERVER_VERSIONS=" ++ joined (v :: rest) := by
    have hloop : helloLoop [] (v :: rest) (ascii "HELLO SERVER_VERSIONS=") =
        helloLoop (ascii ",") rest (ascii "HELLO SERVER_VERSIONS=" ++ [] ++ decimalInt v) := if_pos (by decide)
    rw [hloop] at hshort ⊢
    rw [helloLoop_comma (by omega), joined_cons]
    simp
  rw [htext] at hshort ⊢
  exact ⟨rfl,by omega⟩

theorem versionOf_ofInt (v : Int32) : versionOf (.ofInt v.toInt) = v.toInt := by
  have hlt := v.toInt_lt
  have hle := v.le_toInt
  unfold versionOf toInt32 saturate longMin longMax
  rw [Numeral.ofInt_value, Int.bmod_def]
  norm_num at hlt hle ⊢
  omega

/-- A list of 32-bit versions that fits a client's line is decoded as it is. -/
theorem decodes_joined (versions : List Int32)
    (hfits : (ascii "HELLO SERVER_VERSIONS=" ++ joined (versions.map Int32.toInt)).length + 1 < lineMax) :
    ∃ line : CString, line.bytes = clientPrefix ++ joined (versions.map Int32.toInt) ∧ 10 ∉ line.bytes ∧
      line.strlen + 1 < lineMax ∧ parseClientVersions line lineMax = versions.map Int32.toInt := by
  have hplain := ofInts_plain (versions.map Int32.toInt)
  rw [← commaSeparated_ofInt] at hfits ⊢
  have hlen : (clientPrefix ++ commaSeparated ((versions.map Int32.toInt).map Numeral.ofInt)).length + 1 < lineMax := by
    have hserver : (ascii "HELLO SERVER_VERSIONS=").length = 22 := rfl
    have hclient : clientPrefix.length = 22 := rfl
    rw [List.length_append] at hfits ⊢
    omega
  let line : CString := ⟨_,fun h => (mem_offer hplain h).1 rfl⟩
  refine ⟨line,rfl,fun h => (mem_offer hplain h).2 rfl,hlen,?_⟩
  rw [parseClientVersions_offer line rfl hlen, List.map_map, List.map_map]
  exact List.map_congr_left fun v _ => versionOf_ofInt v

/-- The highest version that a list has in common with itself. -/
theorem highestCommonVersion_self (hne : versions ≠ []) :
    ∃ m, IsGreatest {v | v ∈ versions} m ∧ highestCommonVersion versions versions = if 0 < m then m else 0 := by
  have hset : Common versions versions = {v | v ∈ versions} := Set.ext fun v => and_self_iff
  obtain ⟨m,hm,hmax⟩ := versions.toFinset.exists_max_image id (by simpa using hne)
  have hgreatest : IsGreatest {v | v ∈ versions} m :=
    ⟨List.mem_toFinset.mp hm,fun v hv => hmax v (List.mem_toFinset.mpr hv)⟩
  refine ⟨m,hgreatest,?_⟩
  split
  · rename_i hpos
    exact (highestCommonVersion_eq_iff hpos).mpr (hset ▸ hgreatest)
  · rename_i hpos
    by_contra hzero
    have hv := highestCommonVersion_isGreatest hzero
    rw [hset] at hv
    have hnonneg := highestCommonVersion_nonneg versions versions
    have hle := hgreatest.2 hv.1
    omega

end RoundTrip

section Sending
variable {versions : List ℤ} {hello : Bytes} {n : ℕ} {t : Tid} {sh sh' : Shared} {pc pc' : Pc}

def Sending (hello : Bytes) (pc : Pc) (out : Bytes) : Prop :=
  (∃ rest, pc = .hello rest ∧ out ++ rest = hello) ∨ hello <+: out

theorem exec_output {c : Choice} (h : exec t c sh (code versions n pc) = some (pc',sh')) :
    (sh.conns n).output <+: (sh'.conns n).output := by
  have hturn : ∀ {rest : Bytes} {again : Bytes → Pc} {written failed : Pc},
      exec t c sh (writeAll n rest again written failed) = some (pc',sh') →
        (sh.conns n).output <+: (sh'.conns n).output := by
    intro rest again written failed hwrite
    rcases (writeAll_turn hwrite).2.2 with ⟨_,_,hout⟩ | ⟨m,_,hout⟩ | ⟨_,_,_,hout⟩
    · rw [hout]
    · rw [hout]
      exact List.prefix_append _ _
    · rw [hout]
  cases pc with
  | hello rest => exact hturn h
  | nack rest => exact hturn h
  | ack v rest => exact hturn h
  | done ok v =>
    cases h
    exact List.prefix_rfl
  | readLine buf =>
    rcases readLine_turn h with ⟨b,rfl,rfl,_⟩ | ⟨rfl,rfl,_⟩ | ⟨rfl,rfl,_⟩
    · simp [Shared.setConn]
    · exact List.prefix_rfl
    · exact List.prefix_rfl

theorem exec_sending {c : Choice} (hs : Sending hello pc (sh.conns n).output) (hc : c.failsWrite = false)
    (h : exec t c sh (code versions n pc) = some (pc',sh')) : Sending hello pc' (sh'.conns n).output := by
  rcases hs with ⟨rest,rfl,hrest⟩ | hs
  · rcases writeAll_whole h hrest with ⟨_,hout⟩ | ⟨left,rfl,hout⟩ | ⟨_,hfails,_⟩
    · exact Or.inr (by rw [hout])
    · exact Or.inl ⟨left,rfl,hout⟩
    · rw [hc] at hfails
      cases hfails
  · exact Or.inr (hs.trans (exec_output h))

/-- Without a failing write nothing but the HELLO line is written first; when it
does not fit, nothing is written and the handshake fails. -/
theorem runThread_sending {choices : List Choice} (hout : (sh.conns n).output = [])
    (hwrites : ∀ c ∈ choices, c.failsWrite = false)
    (h : runThread t (code versions n) (start versions,sh) choices = some (pc,sh')) :
    (helloLine versions = none ∧ pc = .done false 0 ∧ (sh'.conns n).output = []) ∨
    ∃ hello, helloLine versions = some hello ∧ Sending hello pc (sh'.conns n).output := by
  cases hhello : helloLine versions with
  | none =>
    refine Or.inl ⟨rfl,?_⟩
    refine runThread_invariant (I := fun s => s.1 = .done false 0 ∧ (s.2.conns n).output = []) ⟨?_,hout⟩ ?_ h
    · unfold start
      rw [hhello]
    · rintro c _ ⟨q,s⟩ ⟨q',s'⟩ ⟨rfl,hs⟩ hstep
      cases hstep
      exact ⟨rfl,hs⟩
  | some hello =>
    refine Or.inr ⟨hello,rfl,?_⟩
    refine runThread_invariant (I := fun s => Sending hello s.1 (s.2.conns n).output) (Or.inl ⟨hello,?_,?_⟩)
      (fun c hc _ _ hs hstep => exec_sending hs (hwrites c hc) hstep) h
    · unfold start
      rw [hhello]
    · rw [hout, List.nil_append]

theorem runThread_hello (hhello : helloLine versions = some hello) (hout : (sh.conns n).output = []) :
    ∃ choices sh', (∀ c ∈ choices, Choice.failsWrite c = false) ∧
      runThread t (code versions n) (start versions,sh) choices = some (.readLine [],sh') ∧
      (sh'.conns n).output = hello := by
  have hstart : start versions = .hello hello := by
    unfold start
    rw [hhello]
  have hne : hello ≠ [] := helloLine_ne_nil hhello
  obtain ⟨sh',hrun,_,hsent⟩ := runThread_writeAll t sh (code_hello versions n hello)
    (code_hello versions n []) hne
  refine ⟨_,sh',?_,hstart ▸ hrun,by rw [hsent, hout, List.nil_append]⟩
  intro c hc
  rcases List.mem_pair.mp hc with rfl | rfl
  · simpa [Choice.failsWrite] using hne
  · rfl

end Sending

/-- `send_hello` for any list of versions: every index is inside its buffer; it
fails before it writes, or it writes the whole line; and that line as a client's
is read, decoded to the list and answered with its maximum, if positive. -/
theorem hello_round_trip (versions : List Int32) (hne : versions ≠ []) (n : ℕ) (t : Tid) :
    let vs := versions.map Int32.toInt
    (∀ memory : Bytes, memory.length = lineMax → sendHello memory vs = some (helloLine vs)) ∧
    (∀ hello, helloLine vs = some hello → hello = ascii "HELLO SERVER_VERSIONS=" ++ joined vs ++ [10] ∧
      ∀ sh, (sh.conns n).output = [] → ∃ choices sh', (∀ c ∈ choices, Choice.failsWrite c = false) ∧
        runThread t (code vs n) (start vs,sh) choices = some (.readLine [],sh') ∧ (sh'.conns n).output = hello) ∧
    (∀ sh choices pc sh', (sh.conns n).output = [] → (∀ c ∈ choices, Choice.failsWrite c = false) →
      runThread t (code vs n) (start vs,sh) choices = some (pc,sh') →
      (helloLine vs = none ∧ pc = .done false 0 ∧ (sh'.conns n).output = []) ∨
      ∃ hello, helloLine vs = some hello ∧ Sending hello pc (sh'.conns n).output) ∧
    (helloLine vs ≠ none → ∃ line : CString, line.bytes = clientPrefix ++ joined vs ∧
      (∀ sh choices, bytesRead choices = some line.bytes → ∃ sh',
        runThread t (code vs n) (.readLine [],sh) (choices ++ [.read (.byte 10)]) = some (answer vs line,sh')) ∧
      parseClientVersions line lineMax = vs ∧
      ∃ m, IsGreatest {v | v ∈ vs} m ∧
        highestCommonVersion vs (parseClientVersions line lineMax) = if 0 < m then m else 0) := by
  intro vs
  have hvs : vs ≠ [] := by simpa [vs] using hne
  refine ⟨fun memory hmemory => sendHello_eq hmemory vs,fun hello hhello => ⟨(helloLine_eq hvs hhello).1,
    fun sh hout => runThread_hello hhello hout⟩,
    fun sh choices pc sh' hout hwrites hrun => runThread_sending hout hwrites hrun,fun hsent => ?_⟩
  obtain ⟨hello,hhello⟩ := Option.ne_none_iff_exists'.mp hsent
  obtain ⟨line,hline,hnewline,hlen,hparse⟩ := decodes_joined versions (helloLine_eq hvs hhello).2
  refine ⟨line,hline,fun sh choices hreads => ?_,hparse,hparse.symm ▸ highestCommonVersion_self hvs⟩
  obtain ⟨sh',hrun,_⟩ := runThread_bytesRead vs n t sh hreads hnewline hlen
  rw [CString.ofBuffer_bytes] at hrun
  exact ⟨sh',hrun⟩

theorem hello_round_trip_extremes :
    ∃ line : CString, line.bytes = ascii "HELLO CLIENT_VERSIONS=2147483647,-2147483648,0" ∧
      parseClientVersions line lineMax = [2147483647, -2147483648, 0] := by
  obtain ⟨_,_,_,h⟩ := hello_round_trip [Int32.maxValue, Int32.minValue, 0] (by decide) 0 .transport
  obtain ⟨line,hline,_,hparse,_⟩ := h (by decide)
  exact ⟨line,hline,hparse⟩

end RadioSim.Process.Handshake
