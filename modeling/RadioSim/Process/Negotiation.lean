import Mathlib.Order.Bounds.Basic
import RadioSim.Process.Reading

/-! # The outcome of a handshake

`handshake_perform` on its own, for any list of server versions: what it has
written and read at each of its program points, and so on each of its exits.
-/
namespace RadioSim.Process.Handshake

section Versions

theorem foldl_common (client : List ℤ) (v best : ℤ) :
    client.foldl (fun best w => if w = v ∧ v > best then v else best) best =
      if v ∈ client ∧ v > best then v else best := by
  induction client generalizing best with
  | nil => simp
  | cons w rest ih =>
    rw [List.foldl_cons, ih]
    by_cases hw : w = v
    · subst hw
      by_cases hbest : w > best <;> simp [hbest]
    · simp [hw, Ne.symm hw]

theorem foldl_highest (client server : List ℤ) (best : ℤ) :
    let r := server.foldl (fun best v => client.foldl (fun best w => if w = v ∧ v > best then v else best) best) best
    best ≤ r ∧ (∀ v ∈ server, v ∈ client → v ≤ r) ∧ (r = best ∨ (r ∈ server ∧ r ∈ client)) := by
  induction server generalizing best with
  | nil => simp
  | cons v rest ih =>
    simp only [List.foldl_cons, foldl_common] at ih ⊢
    obtain ⟨hle,hall,hmem⟩ := ih (if v ∈ client ∧ v > best then v else best)
    split at hle <;> rename_i hv
    · rw [if_pos hv] at hall hmem ⊢
      refine ⟨by omega,fun w hw hc => ?_,?_⟩
      · rcases List.mem_cons.mp hw with rfl | hw
        · exact hle
        · exact hall w hw hc
      · rcases hmem with heq | ⟨hs,hc⟩
        · exact Or.inr ⟨by rw [heq]; exact List.mem_cons_self,by rw [heq]; exact hv.1⟩
        · exact Or.inr ⟨List.mem_cons_of_mem v hs,hc⟩
    · rw [if_neg hv] at hall hmem ⊢
      refine ⟨hle,fun w hw hc => ?_,hmem.imp_right fun h => ⟨List.mem_cons_of_mem v h.1,h.2⟩⟩
      rcases List.mem_cons.mp hw with rfl | hw
      · have hbest : ¬ w > best := fun hgt => hv ⟨hc,hgt⟩
        omega
      · exact hall w hw hc

def Common (server client : List ℤ) : Set ℤ := {v | v ∈ server ∧ v ∈ client}

theorem highestCommonVersion_isGreatest {server client : List ℤ} (h : highestCommonVersion server client ≠ 0) :
    IsGreatest (Common server client) (highestCommonVersion server client) := by
  obtain ⟨_,hall,hmem⟩ := foldl_highest client server 0
  exact ⟨hmem.resolve_left h,fun v hv => hall v hv.1 hv.2⟩

end Versions

section Texts
variable {versions : List ℤ} {hello : Bytes}

/-- A HELLO line that fits has room for each of its numerals. -/
theorem helloLoop_length (separator : Bytes) (versions : List ℤ) (text : Bytes)
    (h : (helloLoop separator versions text).length < lineMax) :
    text.length ≤ (helloLoop separator versions text).length ∧
    ∀ v ∈ versions, text.length + (decimalInt v).length ≤ (helloLoop separator versions text).length := by
  induction versions generalizing separator text with
  | nil => exact ⟨le_rfl,by simp⟩
  | cons v rest ih =>
    unfold helloLoop at h ⊢
    split at h
    · rename_i htext
      rw [if_pos htext]
      obtain ⟨hle,hall⟩ := ih _ _ h
      simp only [List.length_append] at hle hall
      refine ⟨by omega,fun w hw => ?_⟩
      rcases List.mem_cons.mp hw with rfl | hw
      · omega
      · have hw := hall w hw
        omega
    · rename_i htext
      exact absurd h htext

theorem ackLine_fits (hhello : helloLine versions = some hello) {v : ℤ} (hv : v ∈ versions) :
    (ackLine v).length < lineMax := by
  simp only [helloLine, Option.ite_none_left_eq_some] at hhello
  have hlt : (helloLoop [] versions (ascii "HELLO SERVER_VERSIONS=")).length < lineMax - 1 := by omega
  have hlen := (helloLoop_length [] versions _ (hlt.trans_le (Nat.sub_le _ _))).2 v hv
  have hprefix : (ascii "HELLO SERVER_VERSIONS=").length = 22 := rfl
  have hack : (ackLine v).length = 18 + (decimalInt v).length + 1 := by
    simp only [ackLine, List.length_append, List.length_singleton]
    rfl
  omega

/-- The server acknowledges the highest common version, or refuses. -/
theorem answer_common (hhello : helloLine versions = some hello) (line : CString) :
    answer versions line = .nack nackLine ∨
    ∃ v, answer versions line = .ack v (ackLine v) ∧ v ≠ 0 ∧
      IsGreatest (Common versions (parseClientVersions line lineMax)) v := by
  unfold answer
  split
  · exact Or.inl rfl
  · dsimp only
    split
    · exact Or.inl rfl
    · rename_i hzero
      have hgreatest := highestCommonVersion_isGreatest hzero
      rw [if_neg (Nat.not_le_of_lt (ackLine_fits hhello hgreatest.1.1))]
      exact Or.inr ⟨_,rfl,hzero,hgreatest⟩

def Unacknowledged (hello out : Bytes) : Prop := ∀ v, ¬ hello ++ ackLine v <+: out

theorem unacknowledged_hello {out : Bytes} (h : out <+: hello) : Unacknowledged hello out := by
  intro v hv
  have hle := (hv.trans h).length_le
  simp [ackLine] at hle

theorem unacknowledged_nack {out : Bytes} (h : out <+: hello ++ nackLine) : Unacknowledged hello out := by
  intro v hv
  have hnack : ackLine v <+: nackLine := (List.prefix_append_right_inj hello).mp (hv.trans h)
  have hstart : ascii "HELLO_ACK VERSION=" <+: ackLine v := by
    rw [ackLine, List.append_assoc]
    exact List.prefix_append _ _
  exact absurd (hstart.trans hnack) (by decide)

theorem ackLine_newline (v : ℤ) : 10 ∉ ascii "HELLO_ACK VERSION=" ++ decimalInt v := by
  intro h
  rcases List.mem_append.mp h with h | h
  · exact absurd h (by decide)
  · rcases mem_decimalInt h with h | h
    · exact absurd h (by decide)
    · exact absurd h (by decide)

theorem unacknowledged_ack {out rest : Bytes} {v : ℤ} (hrest : rest ≠ []) (h : out ++ rest = hello ++ ackLine v) :
    Unacknowledged hello out := by
  rintro w ⟨more,rfl⟩
  obtain ⟨body,last,rfl⟩ := List.eq_nil_or_concat rest |>.resolve_left hrest
  have hsplit : ackLine w ++ more ++ body ++ [last] = ackLine v := by
    simpa only [List.append_assoc, List.append_cancel_left_eq, List.concat_eq_append] using h
  have hbody := List.append_inj_left' hsplit rfl
  refine ackLine_newline v (hbody ▸ ?_)
  simp [ackLine]

end Texts

section Runs
variable {versions : List ℤ} {hello : Bytes} {n : ℕ} {faulty : Prop}

def FirstLine (consumed line : Bytes) : Prop := consumed = line ++ [10] ∧ 10 ∉ line

def Agreed (versions : List ℤ) (consumed : Bytes) (v : ℤ) : Prop :=
  v ≠ 0 ∧ ∃ line, FirstLine consumed line ∧
    IsGreatest (Common versions (parseClientVersions (.ofBuffer line) lineMax)) v

/-- What is read and written at a program point; `faulty` says that some write of
the run fails. -/
def Reached (versions : List ℤ) (hello : Bytes) (faulty : Prop) : Pc → Conn → Prop
  | .hello rest, conn => conn.consumed = [] ∧ conn.output ++ rest = hello
  | .readLine buf, conn => conn.consumed = buf ∧ 10 ∉ buf ∧ conn.output = hello
  | .nack rest, conn => (∃ line, FirstLine conn.consumed line) ∧ conn.output ++ rest = hello ++ nackLine
  | .ack v rest, conn => Agreed versions conn.consumed v ∧ conn.output ++ rest = hello ++ ackLine v
  | .done true v, conn => Agreed versions conn.consumed v ∧ conn.output = hello ++ ackLine v
  | .done false v, conn => v = 0 ∧ Unacknowledged hello conn.output ∧
      (faulty ∨ ((∃ line, FirstLine conn.consumed line) ∧ conn.output = hello ++ nackLine) ∨
        (10 ∉ conn.consumed ∧ conn.output = hello))

theorem reached_start (hhello : helloLine versions = some hello) {conn : Conn} (hout : conn.output = [])
    (hin : conn.consumed = []) : Reached versions hello faulty (start versions) conn := by
  unfold start
  rw [hhello]
  exact ⟨hin,by rw [hout, List.nil_append]⟩

theorem reached_byte (hhello : helloLine versions = some hello) {conn : Conn} {buf : Bytes} {b : Byte}
    (hin : conn.consumed = buf ++ [b]) (hline : 10 ∉ buf) (hout : conn.output = hello) :
    Reached versions hello faulty (if b = 10 then answer versions (.ofBuffer buf) else .readLine (buf ++ [b])) conn := by
  split
  · rename_i hb
    have hfirst : FirstLine conn.consumed buf := ⟨hb ▸ hin,hline⟩
    rcases answer_common hhello (.ofBuffer buf) with hnack | ⟨v,hack,hv,hgreatest⟩
    · rw [hnack]
      exact ⟨⟨buf,hfirst⟩,by rw [hout]⟩
    · rw [hack]
      exact ⟨⟨hv,buf,hfirst,hgreatest⟩,by rw [hout]⟩
  · rename_i hb
    exact ⟨hin,by simpa [hline] using Ne.symm hb,hout⟩

theorem exec_reached (hhello : helloLine versions = some hello) {t : Tid} {c : Choice} {pc pc' : Pc} {sh sh' : Shared}
    (hc : c.failsWrite = true → faulty) (hs : Reached versions hello faulty pc (sh.conns n))
    (h : exec t c sh (code versions n pc) = some (pc',sh')) : Reached versions hello faulty pc' (sh'.conns n) := by
  cases pc with
  | hello rest =>
    obtain ⟨hin,hout⟩ := hs
    have hin' := (writeAll_turn h).2.1
    rcases writeAll_whole h hout with ⟨rfl,hout'⟩ | ⟨left,rfl,hout'⟩ | ⟨_,hfails,rfl,hout'⟩
    · exact ⟨hin'.trans hin,by simp,hout'⟩
    · exact ⟨hin'.trans hin,hout'⟩
    · refine ⟨rfl,unacknowledged_hello ?_,Or.inl (hc hfails)⟩
      exact hout' ▸ hout ▸ List.prefix_append _ _
  | readLine buf =>
    obtain ⟨hin,hline,hout⟩ := hs
    have hfail : Reached versions hello faulty (.done false 0) (sh.conns n) :=
      ⟨rfl,unacknowledged_hello (hout ▸ List.prefix_rfl),Or.inr (Or.inr ⟨hin ▸ hline,hout⟩)⟩
    rcases readLine_turn h with ⟨b,rfl,rfl,_⟩ | ⟨rfl,rfl,_⟩ | ⟨rfl,rfl,_⟩
    · exact reached_byte hhello (by simp [Shared.setConn, hin]) hline (by simp [Shared.setConn, hout])
    · exact ⟨hin,hline,hout⟩
    · exact hfail
  | nack rest =>
    obtain ⟨hfirst,hout⟩ := hs
    rw [← (writeAll_turn h).2.1] at hfirst
    rcases writeAll_whole h hout with ⟨rfl,hout'⟩ | ⟨left,rfl,hout'⟩ | ⟨_,hfails,rfl,hout'⟩
    · exact ⟨rfl,unacknowledged_nack (hout' ▸ List.prefix_rfl),Or.inr (Or.inl ⟨hfirst,hout'⟩)⟩
    · exact ⟨hfirst,hout'⟩
    · refine ⟨rfl,unacknowledged_nack ?_,Or.inl (hc hfails)⟩
      exact hout' ▸ hout ▸ List.prefix_append _ _
  | ack v rest =>
    obtain ⟨hagreed,hout⟩ := hs
    rw [← (writeAll_turn h).2.1] at hagreed
    rcases writeAll_whole h hout with ⟨rfl,hout'⟩ | ⟨left,rfl,hout'⟩ | ⟨hrest,hfails,rfl,hout'⟩
    · exact ⟨hagreed,hout'⟩
    · exact ⟨hagreed,hout'⟩
    · exact ⟨rfl,hout' ▸ unacknowledged_ack hrest hout,Or.inl (hc hfails)⟩
  | done ok v =>
    cases h
    exact hs

theorem runThread_reached (hhello : helloLine versions = some hello) {sh sh' : Shared} {pc : Pc}
    {choices : List Choice} (hout : (sh.conns n).output = []) (hin : (sh.conns n).consumed = [])
    (h : runThread .transport (code versions n) (start versions,sh) choices = some (pc,sh')) :
    Reached versions hello (∃ c ∈ choices, c.failsWrite = true) pc (sh'.conns n) :=
  runThread_invariant (I := fun s => Reached versions hello (∃ c ∈ choices, c.failsWrite = true) s.1 (s.2.conns n))
    (reached_start hhello hout hin)
    (fun c hc _ _ hs hstep => exec_reached hhello (fun hfails => ⟨c,hc,hfails⟩) hs hstep) h

theorem reached_acknowledged {pc : Pc} {conn : Conn} (hs : Reached versions hello faulty pc conn)
    (hack : ∃ w, hello ++ ackLine w <+: conn.output) :
    (∃ v, pc = .ack v []) ∨ ∃ v, pc = .done true v := by
  obtain ⟨w,hw⟩ := hack
  cases pc with
  | hello rest => exact absurd hw (unacknowledged_hello (hs.2 ▸ List.prefix_append _ _) w)
  | readLine buf => exact absurd hw (unacknowledged_hello (hs.2.2 ▸ List.prefix_rfl) w)
  | nack rest => exact absurd hw (unacknowledged_nack (hs.2 ▸ List.prefix_append _ _) w)
  | ack v rest =>
    by_cases hrest : rest = []
    · exact Or.inl ⟨v,by rw [hrest]⟩
    · exact absurd hw (unacknowledged_ack hrest hs.2 w)
  | done ok v =>
    cases ok with
    | true => exact Or.inr ⟨v,rfl⟩
    | false => exact absurd hw (hs.2.1 w)

/-- `handshake_perform` returns true exactly when it leaves a version, exactly when
the acknowledgement is out, and the version is then the highest common one; once
the acknowledgement is out, nothing can make it return anything else. -/
theorem handshakePerform_outcome (hhello : helloLine versions = some hello) {sh sh' : Shared} {pc : Pc}
    {choices : List Choice} (hout : (sh.conns n).output = []) (hin : (sh.conns n).consumed = [])
    (h : runThread .transport (code versions n) (start versions,sh) choices = some (pc,sh')) :
    (∀ ok v, pc = .done ok v →
      (ok = true ↔ v ≠ 0) ∧
      (ok = true ↔ ∃ w, hello ++ ackLine w <+: (sh'.conns n).output) ∧
      (ok = true → (sh'.conns n).output = hello ++ ackLine v ∧
        ∃ line, FirstLine (sh'.conns n).consumed line ∧
          IsGreatest (Common versions (parseClientVersions (.ofBuffer line) lineMax)) v) ∧
      (ok = false → v = 0 ∧ Unacknowledged hello (sh'.conns n).output)) ∧
    ((∃ w, hello ++ ackLine w <+: (sh'.conns n).output) →
      ∃ v, ∀ c, exec .transport c sh' (code versions n pc) = some (.done true v,sh')) := by
  have hreached := runThread_reached hhello hout hin h
  refine ⟨?_,fun hack => ?_⟩
  · rintro ok v rfl
    cases ok with
    | true =>
      obtain ⟨⟨hv,hline⟩,hsent⟩ := hreached
      exact ⟨by simp [hv],by simpa using ⟨v,hsent ▸ List.prefix_rfl⟩,fun _ => ⟨hsent,hline⟩,fun hok => absurd hok (by decide)⟩
    | false =>
      obtain ⟨rfl,hnone,_⟩ := hreached
      refine ⟨by simp,⟨fun hok => absurd hok (by decide),?_⟩,fun hok => absurd hok (by decide),fun _ => ⟨rfl,hnone⟩⟩
      rintro ⟨w,hw⟩
      exact absurd hw (hnone w)
  · rcases reached_acknowledged hreached hack with ⟨v,rfl⟩ | ⟨v,rfl⟩
    · exact ⟨v,fun _ => rfl⟩
    · exact ⟨v,fun _ => rfl⟩

/-- A client that shares two versions with the server; the server's writes are
interrupted and cut short. -/
def agreeing : List Choice :=
  [.write (.wrote 5),.write .eintr,.write (.wrote 23),.ok] ++
  (ascii "HELLO CLIENT_VERSIONS=2,9,3,2\n").map (fun b => .read (.byte b)) ++
  [.write (.wrote 18),.write (.wrote 2),.ok]

theorem handshakePerform_outcome_agreeing :
    ∃ sh', runThread .transport (code [1, 3, 2] 0) (start [1, 3, 2],.initial) agreeing = some (.done true 3,sh') ∧
      (sh'.conns 0).output = ascii "HELLO SERVER_VERSIONS=1,3,2\n" ++ ackLine 3 ∧
      ∃ line, FirstLine (sh'.conns 0).consumed line ∧
        IsGreatest (Common [1, 3, 2] (parseClientVersions (.ofBuffer line) lineMax)) 3 := by
  have hrun : ∃ sh', runThread .transport (code [1, 3, 2] 0) (start [1, 3, 2],.initial) agreeing =
      some (.done true 3,sh') := ⟨_,rfl⟩
  obtain ⟨sh',h⟩ := hrun
  exact ⟨sh',h,((handshakePerform_outcome
    (show helloLine [1, 3, 2] = some (ascii "HELLO SERVER_VERSIONS=1,3,2\n") from rfl) rfl rfl h).1
    true 3 rfl).2.2.1 rfl⟩

/-- When no write fails, a refusal is answered by the NACK line exactly if a newline is
among the first 127 bytes that `read` gives, before an end or an error of the stream. -/
theorem refusal_answered_iff (hhello : helloLine versions = some hello) {sh sh' : Shared} {v : ℤ}
    {choices : List Choice} (hout : (sh.conns n).output = []) (hin : (sh.conns n).consumed = [])
    (hwrites : ∀ c ∈ choices, c.failsWrite = false)
    (h : runThread .transport (code versions n) (start versions,sh) choices = some (.done false v,sh')) :
    (sh'.conns n).output = hello ++ nackLine ↔
      ∃ line, StartsWith (bytesGiven (readAnswers .transport (code versions n) (start versions,sh) choices)) line ∧
        line.length + 1 < lineMax := by
  rw [← newline_consumed_iff hin h]
  obtain ⟨_,_,hfaulty | ⟨⟨line,hline,_⟩,hsent⟩ | ⟨hnewline,hsent⟩⟩ := runThread_reached hhello hout hin h
  · obtain ⟨c,hc,hfails⟩ := hfaulty
    exact absurd hfails (by simp [hwrites c hc])
  · exact iff_of_true hsent (hline ▸ List.mem_append_right line (by simp))
  · refine iff_of_false (fun hnack => ?_) hnewline
    exact absurd (List.self_eq_append_right.mp (hsent.symm.trans hnack)) (by decide)

theorem refusal_answered_iff_malformed :
    ∃ sh', runThread .transport (code serverVersions 0) (start serverVersions,.initial)
        ([.write (.wrote 24),.ok,.read (.byte 63),.read (.byte 10),.write (.wrote 36),.ok]) =
          some (.done false 0,sh') ∧
      (sh'.conns 0).output = ascii "HELLO SERVER_VERSIONS=1\n" ++ nackLine := by
  have hrun : ∃ sh', runThread .transport (code serverVersions 0) (start serverVersions,.initial)
      ([.write (.wrote 24),.ok,.read (.byte 63),.read (.byte 10),.write (.wrote 36),.ok]) =
        some (.done false 0,sh') := ⟨_,rfl⟩
  obtain ⟨sh',h⟩ := hrun
  refine ⟨sh',h,(refusal_answered_iff
    (show helloLine serverVersions = some (ascii "HELLO SERVER_VERSIONS=1\n") from rfl) rfl rfl (by decide) h).mpr
    ⟨[63],⟨by decide,[],?_⟩,by decide⟩⟩
  rfl

/-- A client that closes after the HELLO line gets no NACK. -/
theorem refusal_unanswered :
    ∃ choices sh', (∀ c ∈ choices, Choice.failsWrite c = false) ∧
      runThread .transport (code serverVersions 0) (start serverVersions,.initial) choices = some (.done false 0,sh') ∧
      (sh'.conns 0).output = ascii "HELLO SERVER_VERSIONS=1\n" ∧
      (sh'.conns 0).output ≠ ascii "HELLO SERVER_VERSIONS=1\n" ++ nackLine :=
  ⟨[.write (.wrote 24),.ok,.read .eof],_,by decide,rfl,rfl,by decide⟩

end Runs

end RadioSim.Process.Handshake
