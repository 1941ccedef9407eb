import RadioSim.Foundation.Numeral
import RadioSim.Process.Negotiation

/-! # The client's version list

Which lines `parse_client_versions` accepts and what it makes of their numerals,
and so which version a client can get acknowledged.
-/
namespace RadioSim.Process.Handshake

section Parsing
variable {capacity fuel : ℕ} {p : Bytes} {out : List ℤ} {xs : List Numeral} {line : CString}

def versionOf (x : Numeral) : ℤ := toInt32 (saturate x.value)

theorem parseLoop_listed (h : Listed xs p) (hfuel : p.length ≤ fuel) (hcap : out.length + xs.length ≤ capacity) :
    parseLoop capacity fuel p out = some (out ++ xs.map versionOf) := by
  induction h generalizing fuel out with
  | done => simp [parseLoop]
  | last x =>
    have hne := x.text_ne_nil
    obtain ⟨b,bs,hb⟩ := List.exists_cons_of_ne_nil hne
    have hscan := strtol_text x noDigit_nil
    rw [List.append_nil, hb] at hscan
    rw [hb, List.length_cons] at hfuel
    obtain ⟨fuel,rfl⟩ := Nat.exists_eq_add_of_lt (Nat.lt_of_lt_of_le (Nat.succ_pos _) hfuel)
    simp only [List.length_singleton] at hcap
    have hroom : ¬ out.length ≥ capacity := by omega
    rw [hb, Nat.zero_add, parseLoop.eq_3 _ _ _ _ (by simp), if_neg hroom, hscan]
    rfl
  | @comma x xs p hlisted ih =>
    have hscan := strtol_text x (noDigit_cons (b := 44) rfl p)
    obtain ⟨b,bs,hb⟩ := List.exists_cons_of_ne_nil (List.append_ne_nil_of_left_ne_nil x.text_ne_nil (44 :: p))
    have hlen : p.length + 1 ≤ bs.length := by
      have hx := List.length_pos_of_ne_nil x.text_ne_nil
      have := congrArg List.length hb
      simp only [List.length_append, List.length_cons] at this
      omega
    rw [hb] at hscan hfuel ⊢
    rw [List.length_cons] at hfuel
    obtain ⟨fuel,rfl⟩ := Nat.exists_eq_add_of_lt (Nat.lt_of_lt_of_le (Nat.succ_pos _) hfuel)
    simp only [List.length_cons] at hcap
    have hroom : ¬ out.length ≥ capacity := by omega
    rw [Nat.zero_add, parseLoop.eq_3 _ _ _ _ (by simp), if_neg hroom, hscan]
    simp only
    rw [ih (by omega) (by simp only [List.length_append, List.length_singleton]; omega)]
    simp [versionOf]

theorem parseLoop_some {vs : List ℤ} (h : parseLoop capacity fuel p out = some vs) :
    ∃ xs, Listed xs p ∧ vs = out ++ xs.map versionOf := by
  induction fuel generalizing p out with
  | zero =>
    cases p with
    | nil =>
      cases h
      exact ⟨[],.done,by simp⟩
    | cons b p => cases h
  | succ fuel ih =>
    cases p with
    | nil =>
      cases h
      exact ⟨[],.done,by simp⟩
    | cons b p =>
      rw [parseLoop.eq_3 _ _ _ _ (by simp)] at h
      split at h
      · cases h
      · split at h
        · cases h
        · rename_i v rest hscan
          obtain ⟨x,hx,rfl,_⟩ := strtol_some hscan
          obtain ⟨xs,hlisted,rfl⟩ := ih h
          exact ⟨x :: xs,hx ▸ .comma x hlisted,by simp [versionOf]⟩
        · rename_i v hscan
          obtain ⟨x,hx,rfl,_⟩ := strtol_some hscan
          cases h
          rw [List.append_nil] at hx
          exact ⟨[x],hx ▸ .last x,by simp [versionOf]⟩
        · cases h

/-- A list that fits the output array is stored, numeral by numeral. -/
theorem parseClientVersions_listed (hline : line.bytes = clientPrefix ++ p) (h : Listed xs p)
    (hcap : xs.length ≤ capacity) : parseClientVersions line capacity = xs.map versionOf := by
  unfold parseClientVersions
  rw [hline, List.take_left, if_pos rfl]
  simp only [List.drop_left]
  rw [parseLoop_listed h le_rfl (by simpa using hcap)]
  simp

theorem parseClientVersions_ne_nil (h : parseClientVersions line capacity ≠ []) :
    ∃ xs p, line.bytes = clientPrefix ++ p ∧ Listed xs p ∧ parseClientVersions line capacity = xs.map versionOf := by
  unfold parseClientVersions at h ⊢
  by_cases hstart : line.bytes.take clientPrefix.length = clientPrefix
  · have hline : line.bytes = clientPrefix ++ line.bytes.drop clientPrefix.length := by
      nth_rewrite 1 [← List.take_append_drop clientPrefix.length line.bytes]
      rw [hstart]
    simp only [if_pos hstart] at h ⊢
    generalize line.bytes.drop clientPrefix.length = p at h hline ⊢
    cases hloop : parseLoop capacity p.length p [] with
    | none => simp [hloop] at h
    | some vs =>
      obtain ⟨xs,hlisted,hvs⟩ := parseLoop_some hloop
      exact ⟨xs,p,hline,hlisted,by simpa using hvs⟩
  · simp [hstart] at h

end Parsing

section Grammar
variable {line : CString} {capacity : ℕ}

/-- The line offers `k` versions: decimal integers with single commas between them. -/
def Offers (line : CString) (k : ℕ) : Prop :=
  ∃ xs : List Numeral, xs.length = k ∧ (∀ x ∈ xs, x.Plain) ∧ line.bytes = clientPrefix ++ commaSeparated xs

/-- White space or a plus sign anywhere, or a comma at the end. -/
def Loose (p : Bytes) : Prop := (∃ b ∈ p, isSpace b = true ∨ b = 43) ∨ p.getLast? = some 44

/-- A list with one of the liberties that the parser allows. -/
def Tolerated (line : CString) : Prop := ∃ xs p, line.bytes = clientPrefix ++ p ∧ Listed xs p ∧ xs ≠ [] ∧ Loose p

/-- The count for a line, in terms of its text. -/
theorem parseClientVersions_count {k : ℕ} (hcap : line.bytes.count 44 < capacity) (hk : 0 < k) :
    (parseClientVersions line capacity).length = k ↔
      ∃ xs p, line.bytes = clientPrefix ++ p ∧ Listed xs p ∧ xs.length = k := by
  constructor
  · intro h
    obtain ⟨xs,p,hline,hlisted,hparse⟩ := parseClientVersions_ne_nil (List.ne_nil_of_length_pos (h ▸ hk))
    rw [hparse, List.length_map] at h
    exact ⟨xs,p,hline,hlisted,h⟩
  · rintro ⟨xs,p,hline,hlisted,rfl⟩
    have hcount := hlisted.length_le_count
    rw [hline, List.count_append] at hcap
    rw [parseClientVersions_listed hline hlisted (by omega), List.length_map]

theorem not_loose_of_plain {xs : List Numeral} (hne : xs ≠ []) (hplain : ∀ x ∈ xs, x.Plain) :
    ¬ Loose (commaSeparated xs) := by
  rintro (⟨b,hb,hloose⟩ | hlast)
  · rcases (listed_commaSeparated xs).mem_cases hb with rfl | ⟨x,hx,hmem⟩
    · exact absurd hloose (by decide)
    · obtain ⟨hspace,hplus⟩ := hplain x hx
      rw [Numeral.text, hspace, List.nil_append, List.mem_append] at hmem
      rcases hmem with hmem | hmem
      · cases hsign : x.sign with
        | none => simp [hsign, Sign.text] at hmem
        | plus => exact hplus hsign
        | minus =>
          rw [hsign, Sign.text, List.mem_singleton] at hmem
          rw [hmem] at hloose
          exact absurd hloose (by decide)
      · obtain ⟨hs,_,hp,_⟩ := digit_cases (x.digits_all b hmem)
        simp [hs, hp] at hloose
  · obtain ⟨b,hb,hdigit⟩ := getLast_commaSeparated hne
    rw [hb] at hlast
    cases hlast
    exact absurd hdigit (by decide)

theorem plain_of_not_loose {xs : List Numeral} {p : Bytes} (h : Listed xs p) (hloose : ¬ Loose p) :
    p = commaSeparated xs ∧ ∀ x ∈ xs, x.Plain := by
  refine ⟨?_,fun x hx => ⟨?_,fun hplus => ?_⟩⟩
  · rcases h.eq_or with hp | ⟨_,hp⟩
    · exact hp
    · exact absurd (Or.inr (by simp [hp])) hloose
  · cases hspace : x.space with
    | nil => rfl
    | cons b bs =>
      have hmem : b ∈ x.text := by simp [Numeral.text, hspace]
      exact absurd (Or.inl ⟨b,h.mem hx hmem,Or.inl (x.space_all b (by simp [hspace]))⟩) hloose
  · have hmem : 43 ∈ x.text := by simp [Numeral.text, hplus, Sign.text]
    exact hloose (Or.inl ⟨43,h.mem hx hmem,Or.inr rfl⟩)

/-- With an output array for every number of a line, the count is that of the
grammar, unless the line is a list with white space, a plus sign or a comma at
the end, which the parser takes as well. -/
theorem parseClientVersions_grammar_iff (line : CString) (capacity : ℕ) (hcap : line.bytes.count 44 < capacity) :
    (∀ k > 0, (parseClientVersions line capacity).length = k ↔ Offers line k) ↔ ¬ Tolerated line := by
  constructor
  · rintro h ⟨xs,p,hline,hlisted,hne,hloose⟩
    have hpos := List.length_pos_of_ne_nil hne
    obtain ⟨ys,hlen,hplain,hys⟩ :=
      (h xs.length hpos).mp ((parseClientVersions_count hcap hpos).mpr ⟨xs,p,hline,hlisted,rfl⟩)
    have hp : p = commaSeparated ys := List.append_cancel_left (hline.symm.trans hys)
    exact not_loose_of_plain (List.ne_nil_of_length_pos (hlen ▸ hpos)) hplain (hp ▸ hloose)
  · intro h k hk
    rw [parseClientVersions_count hcap hk]
    constructor
    · rintro ⟨xs,p,hline,hlisted,hlen⟩
      have hne : xs ≠ [] := List.ne_nil_of_length_pos (hlen ▸ hk)
      obtain ⟨rfl,hplain⟩ := plain_of_not_loose hlisted fun hloose => h ⟨xs,p,hline,hlisted,hne,hloose⟩
      exact ⟨xs,hlen,hplain,hline⟩
    · rintro ⟨xs,hlen,_,hline⟩
      exact ⟨xs,_,hline,listed_commaSeparated xs,hlen⟩

def offerLine : CString := ⟨ascii "HELLO CLIENT_VERSIONS=1,-2",by decide⟩

theorem parseClientVersions_grammar_iff_offer :
    (parseClientVersions offerLine lineMax).length = 2 ∧ Offers offerLine 2 := by
  have hstrict : ¬ Tolerated offerLine := by
    rintro ⟨xs,p,hline,_,_,hloose⟩
    have hp : commaSeparated [.ofInt 1,.ofInt (-2)] = p :=
      List.append_cancel_left (show clientPrefix ++ commaSeparated [.ofInt 1,.ofInt (-2)] = _ from hline)
    refine not_loose_of_plain (List.cons_ne_nil _ _) (fun x hx => ?_) (hp ▸ hloose)
    rcases List.mem_pair.mp hx with rfl | rfl <;> exact Numeral.ofInt_plain _
  have hcount : (parseClientVersions offerLine lineMax).length = 2 := by decide
  exact ⟨hcount,((parseClientVersions_grammar_iff offerLine lineMax (by decide)).mpr hstrict 2 (by decide)).mp hcount⟩

/-- A comma after the last version is accepted. -/
theorem trailing_comma_accepted :
    let line : CString := ⟨ascii "HELLO CLIENT_VERSIONS=1,",by decide⟩
    (parseClientVersions line lineMax).length = 1 ∧ ¬ Offers line 1 := by
  intro line
  refine ⟨by decide,?_⟩
  rintro ⟨xs,hlen,hplain,hline⟩
  have hp : commaSeparated xs = ascii "1," :=
    (List.append_cancel_left (show clientPrefix ++ ascii "1," = _ from hline)).symm
  refine not_loose_of_plain (List.ne_nil_of_length_pos (hlen ▸ Nat.one_pos)) hplain ?_
  rw [hp]
  exact Or.inr rfl

end Grammar

section Reading
variable (versions : List ℤ) (n : ℕ) (t : Tid) (sh : Shared)

def bytesRead : List Choice → Option Bytes
  | [] => some []
  | .read (.byte b) :: rest => (bytesRead rest).map (b :: ·)
  | .read .eintr :: rest => bytesRead rest
  | _ => none

theorem bytesRead_map (bytes : Bytes) : bytesRead (bytes.map fun b => .read (.byte b)) = some bytes := by
  induction bytes with
  | nil => rfl
  | cons b bytes ih => simp [bytesRead, ih]

theorem reads_of_bytesRead {choices : List Choice} {bytes : Bytes} (h : bytesRead choices = some bytes) :
    ∃ reads : List ReadResult, choices = reads.map .read ∧ (∀ r ∈ reads, ReadResult.quiet r = true) ∧
      reads.filterMap ReadResult.told = bytes := by
  fun_induction bytesRead choices generalizing bytes with
  | case1 =>
    cases h
    exact ⟨[],rfl,by simp,rfl⟩
  | case2 b rest ih =>
    obtain ⟨bytes,hrest,rfl⟩ := Option.map_eq_some_iff.mp h
    obtain ⟨reads,rfl,hquiet,rfl⟩ := ih hrest
    exact ⟨.byte b :: reads,rfl,List.forall_mem_cons.mpr ⟨rfl,hquiet⟩,rfl⟩
  | case3 rest ih =>
    obtain ⟨reads,rfl,hquiet,rfl⟩ := ih h
    exact ⟨.eintr :: reads,rfl,List.forall_mem_cons.mpr ⟨rfl,hquiet⟩,rfl⟩
  | case4 => cases h

/-- `read_line` accepts a line of up to 126 bytes. -/
theorem runThread_bytesRead {choices : List Choice} {line : Bytes} (hreads : bytesRead choices = some line)
    (hline : 10 ∉ line) (hlen : line.length + 1 < lineMax) :
    ∃ sh', runThread t (code versions n) (.readLine [],sh) (choices ++ [.read (.byte 10)]) =
        some (answer versions (.ofBuffer line),sh') ∧
      (sh'.conns n).consumed = (sh.conns n).consumed ++ (line ++ [10]) ∧
      (sh'.conns n).output = (sh.conns n).output := by
  obtain ⟨reads,rfl,hquiet,htold⟩ := reads_of_bytesRead hreads
  exact runThread_line versions n t sh hquiet htold hline hlen

end Reading

section Writing
variable {P : Type} {table : P → Op P} {n : ℕ} {again : Bytes → P} {written failed : P}

/-- `write_all` when the first `write` takes everything. -/
theorem runThread_writeAll (t : Tid) (sh : Shared) {pc : P} {rest : Bytes} (hpc : table pc = writeAll n rest again written failed)
    (hend : table (again []) = writeAll n [] again written failed) (hrest : rest ≠ []) :
    ∃ sh', runThread t table (pc,sh) [.write (.wrote rest.length),.ok] = some (written,sh') ∧
      (sh'.conns n).consumed = (sh.conns n).consumed ∧ (sh'.conns n).output = (sh.conns n).output ++ rest := by
  have hlen : rest.length ≠ 0 := by simpa using hrest
  refine ⟨sh.setConn n { sh.conns n with output := (sh.conns n).output ++ rest },?_,?_,?_⟩
  · simp only [runThread, hpc, writeAll, hrest, ↓reduceIte, exec, le_refl, hlen, List.take_length,
      List.drop_length, Option.bind_some, hend]
  · simp [Shared.setConn]
  · simp [Shared.setConn]

theorem code_hello (versions : List ℤ) (n : ℕ) (rest : Bytes) :
    code versions n (.hello rest) = writeAll n rest .hello (.readLine []) (.done false 0) := rfl

theorem code_ack (versions : List ℤ) (n : ℕ) (v : ℤ) (rest : Bytes) :
    code versions n (.ack v rest) = writeAll n rest (.ack v) (.done true v) (.done false 0) := rfl

end Writing

section Acknowledgement
variable {versions : List ℤ} {hello : Bytes} {n : ℕ} {v : ℤ}

/-- Some run of `handshake_perform` reads exactly this line and returns with `v` negotiated. -/
def Acknowledges (versions : List ℤ) (n : ℕ) (line : Bytes) (v : ℤ) : Prop :=
  ∃ sh choices sh', (sh.conns n).output = [] ∧ (sh.conns n).consumed = [] ∧
    runThread .transport (code versions n) (start versions,sh) choices = some (.done true v,sh') ∧
    (sh'.conns n).consumed = line ++ [10]

theorem highestCommonVersion_nonneg (server client : List ℤ) : 0 ≤ highestCommonVersion server client :=
  (foldl_highest client server 0).1

theorem highestCommonVersion_eq_iff {server client : List ℤ} (hv : 0 < v) :
    highestCommonVersion server client = v ↔ IsGreatest (Common server client) v := by
  constructor
  · intro h
    exact h ▸ highestCommonVersion_isGreatest (by omega)
  · intro h
    have hle : v ≤ highestCommonVersion server client :=
      (foldl_highest client server 0).2.1 v h.1.1 h.1.2
    exact (highestCommonVersion_isGreatest (by omega)).unique h

def Positive : Pc → Prop
  | .ack v _ => 0 < v
  | .done true v => 0 < v
  | _ => True

theorem answer_positive (versions : List ℤ) (line : CString) : Positive (answer versions line) := by
  unfold answer
  split
  · trivial
  · dsimp only
    split
    · trivial
    · rename_i hzero
      split
      · trivial
      · have hnonneg := highestCommonVersion_nonneg versions (parseClientVersions line lineMax)
        exact lt_of_le_of_ne hnonneg (Ne.symm hzero)

theorem exec_positive {t : Tid} {c : Choice} {pc pc' : Pc} {sh sh' : Shared} (hs : Positive pc)
    (h : exec t c sh (code versions n pc) = some (pc',sh')) : Positive pc' := by
  cases pc with
  | hello rest =>
    rcases (writeAll_turn h).2.2 with ⟨_,rfl,_⟩ | ⟨_,rfl,_⟩ | ⟨_,_,rfl,_⟩ <;> trivial
  | readLine buf =>
    rcases readLine_turn h with ⟨b,rfl,rfl,_⟩ | ⟨rfl,rfl,_⟩ | ⟨rfl,rfl,_⟩
    · split
      · exact answer_positive _ _
      · trivial
    · trivial
    · trivial
  | nack rest =>
    rcases (writeAll_turn h).2.2 with ⟨_,rfl,_⟩ | ⟨_,rfl,_⟩ | ⟨_,_,rfl,_⟩ <;> trivial
  | ack v rest =>
    rcases (writeAll_turn h).2.2 with ⟨_,rfl,_⟩ | ⟨_,rfl,_⟩ | ⟨_,_,rfl,_⟩
    · exact hs
    · exact hs
    · trivial
  | done ok v =>
    cases h
    exact hs

theorem start_positive (versions : List ℤ) : Positive (start versions) := by
  unfold start
  split <;> trivial

theorem runThread_positive {t : Tid} {choices : List Choice} {pc : Pc} {sh sh' : Shared}
    (h : runThread t (code versions n) (start versions,sh) choices = some (pc,sh')) : Positive pc :=
  runThread_invariant (I := fun s => Positive s.1) (start_positive versions)
    (fun _ _ _ _ hs hstep => exec_positive hs hstep) h

theorem answer_acknowledges (hhello : helloLine versions = some hello) {line : CString} (hv : 0 < v)
    (h : IsGreatest (Common versions (parseClientVersions line lineMax)) v) :
    answer versions line = .ack v (ackLine v) := by
  rcases answer_common hhello line with hnack | ⟨w,hack,_,hw⟩
  · have hnegotiated := (highestCommonVersion_eq_iff hv).mpr h
    unfold answer at hnack
    split at hnack
    · rename_i hparse
      rw [hparse] at h
      exact absurd h.1.2 List.not_mem_nil
    · dsimp only at hnack
      rw [hnegotiated, if_neg hv.ne'] at hnack
      split at hnack <;> cases hnack
  · rw [hack, hw.unique h]

theorem helloLine_ne_nil (hhello : helloLine versions = some hello) : hello ≠ [] := by
  simp only [helloLine, Option.ite_none_left_eq_some, Option.some.injEq] at hhello
  rw [← hhello.2]
  simp

/-- The version that a complete line gets acknowledged. -/
theorem acknowledges_iff (hhello : helloLine versions = some hello) (line : CString) (hline : 10 ∉ line.bytes)
    (hlen : line.strlen + 1 < lineMax) :
    Acknowledges versions n line.bytes v ↔
      0 < v ∧ IsGreatest (Common versions (parseClientVersions line lineMax)) v := by
  constructor
  · rintro ⟨sh,choices,sh',hout,hin,hrun,hconsumed⟩
    obtain ⟨⟨_,first,⟨hfirst,_⟩,hgreatest⟩,_⟩ := runThread_reached hhello hout hin hrun
    have heq : first = line.bytes := List.append_cancel_right (hfirst.symm.trans hconsumed)
    rw [heq, CString.ofBuffer_bytes] at hgreatest
    exact ⟨runThread_positive hrun,hgreatest⟩
  · rintro ⟨hv,hgreatest⟩
    have hanswer := answer_acknowledges hhello hv hgreatest
    have hstart : start versions = .hello hello := by
      unfold start
      rw [hhello]
    have hne : hello ≠ [] := helloLine_ne_nil hhello
    obtain ⟨s₁,hrun₁,hin₁,hout₁⟩ := runThread_writeAll .transport .initial
      (code_hello versions n hello) (code_hello versions n []) hne
    obtain ⟨s₂,hrun₂,hin₂,hout₂⟩ := runThread_bytesRead versions n .transport s₁
      (bytesRead_map line.bytes) hline hlen
    rw [CString.ofBuffer_bytes, hanswer] at hrun₂
    obtain ⟨s₃,hrun₃,hin₃,_⟩ := runThread_writeAll .transport s₂
      (code_ack versions n v (ackLine v)) (code_ack versions n v []) (by simp [ackLine])
    have hrun := (runThread_append hrun₁ _).trans ((runThread_append hrun₂ _).trans hrun₃)
    refine ⟨.initial,_,s₃,rfl,rfl,hstart ▸ hrun,?_⟩
    rw [hin₃, hin₂, hin₁]
    rfl

/-- A numeral within the range of `long` that the conversion to `int` takes for `v`. -/
def Matches (xs : List Numeral) (v : ℤ) : Prop :=
  ∃ x ∈ xs, longMin ≤ x.value ∧ x.value ≤ longMax ∧ x.value ≡ v [ZMOD 2 ^ 32]

theorem versionOf_eq_iff {x : Numeral} (hpos : 0 < v) (hlt : v < 2 ^ 31) :
    versionOf x = v ↔ longMin ≤ x.value ∧ x.value ≤ longMax ∧ x.value ≡ v [ZMOD 2 ^ 32] := by
  unfold versionOf toInt32 saturate longMin longMax Int.ModEq
  rw [Int.bmod_def]
  generalize x.value = z
  norm_num at hlt ⊢
  omega

theorem mem_map_versionOf {xs : List Numeral} (hpos : 0 < v) (hlt : v < 2 ^ 31) :
    v ∈ xs.map versionOf ↔ Matches xs v := by
  rw [List.mem_map]
  exact exists_congr fun x => and_congr_right fun _ => versionOf_eq_iff hpos hlt

theorem mem_offer {xs : List Numeral} (hplain : ∀ x ∈ xs, x.Plain) {b : Byte}
    (hb : b ∈ clientPrefix ++ commaSeparated xs) : b ≠ 0 ∧ b ≠ 10 := by
  rcases List.mem_append.mp hb with hb | hb
  · have hall : (clientPrefix.all fun c => decide (c ≠ 0 ∧ c ≠ 10)) = true := by decide
    exact of_decide_eq_true (List.all_eq_true.mp hall b hb)
  · by_cases hxs : xs = []
    · rw [hxs] at hb
      cases hb
    · refine ⟨?_,fun h => not_loose_of_plain hxs hplain (Or.inl ⟨b,hb,Or.inl (h ▸ rfl)⟩)⟩
      rcases (listed_commaSeparated xs).mem_cases hb with rfl | ⟨x,_,hmem⟩
      · decide
      · exact x.text_noNul b hmem

/-- A line that fits its buffer has no more numerals than the output array has cells. -/
theorem parseClientVersions_offer (line : CString) {xs : List Numeral}
    (hline : line.bytes = clientPrefix ++ commaSeparated xs) (hfits : line.strlen + 1 < lineMax) :
    parseClientVersions line lineMax = xs.map versionOf := by
  refine parseClientVersions_listed hline (listed_commaSeparated xs) ?_
  have hcount := (listed_commaSeparated xs).length_le_count
  have hle : (commaSeparated xs).count 44 ≤ (commaSeparated xs).length := List.count_le_length
  rw [CString.strlen, hline, List.length_append] at hfits
  omega

theorem int32_lt {versions : List Int32} (hv : v ∈ versions.map Int32.toInt) : v < 2 ^ 31 := by
  obtain ⟨i,_,rfl⟩ := List.mem_map.mp hv
  exact i.toInt_lt

/-- The versions that a list of offers can get acknowledged. -/
theorem acknowledges_offer_iff (versions : List Int32) {xs : List Numeral}
    (hhello : helloLine (versions.map Int32.toInt) = some hello) (hplain : ∀ x ∈ xs, x.Plain)
    (hfits : (clientPrefix ++ commaSeparated xs).length + 1 < lineMax) :
    Acknowledges (versions.map Int32.toInt) n (clientPrefix ++ commaSeparated xs) v ↔
      IsGreatest {v | v ∈ versions.map Int32.toInt ∧ 0 < v ∧ Matches xs v} v := by
  let line : CString := ⟨clientPrefix ++ commaSeparated xs,fun h => (mem_offer hplain h).1 rfl⟩
  refine (acknowledges_iff hhello line (fun h => (mem_offer hplain h).2 rfl) hfits).trans ?_
  rw [parseClientVersions_offer line rfl hfits]
  constructor
  · rintro ⟨hpos,hmem,hupper⟩
    refine ⟨⟨hmem.1,hpos,(mem_map_versionOf hpos (int32_lt hmem.1)).mp hmem.2⟩,?_⟩
    rintro w ⟨hw,hwpos,hmatches⟩
    exact hupper ⟨hw,(mem_map_versionOf hwpos (int32_lt hw)).mpr hmatches⟩
  · rintro ⟨⟨hmem,hpos,hmatches⟩,hupper⟩
    refine ⟨hpos,⟨hmem,(mem_map_versionOf hpos (int32_lt hmem)).mpr hmatches⟩,?_⟩
    rintro w ⟨hw,hclient⟩
    by_cases hwpos : 0 < w
    · exact hupper ⟨hw,hwpos,(mem_map_versionOf hwpos (int32_lt hw)).mp hclient⟩
    · omega

/-- An acknowledged version was really offered exactly if one of the numerals that
match it modulo `2 ^ 32` lies in the range of `int`. -/
theorem acknowledged_offered_iff (versions : List Int32) (n : ℕ) (xs : List Numeral)
    (hhello : helloLine (versions.map Int32.toInt) = some hello) (hplain : ∀ x ∈ xs, x.Plain)
    (hfits : (clientPrefix ++ commaSeparated xs).length + 1 < lineMax) :
    (∀ v, Acknowledges (versions.map Int32.toInt) n (clientPrefix ++ commaSeparated xs) v → ∃ x ∈ xs, x.value = v) ↔
      ∀ v, IsGreatest {v | v ∈ versions.map Int32.toInt ∧ 0 < v ∧ Matches xs v} v →
        ∃ x ∈ xs, x.value ≡ v [ZMOD 2 ^ 32] ∧ -2 ^ 31 ≤ x.value ∧ x.value < 2 ^ 31 := by
  refine forall_congr' fun v =>
    (imp_congr_left (acknowledges_offer_iff versions hhello hplain hfits)).trans (imp_congr_right fun hv => ?_)
  have hlt := int32_lt hv.1.1
  have hpos := hv.1.2.1
  refine exists_congr fun x => and_congr_right fun _ => ⟨?_,?_⟩
  · intro heq
    exact ⟨heq ▸ rfl,by omega,heq ▸ hlt⟩
  · rintro ⟨hmod,hlow,hhigh⟩
    unfold Int.ModEq at hmod
    norm_num at hmod hlow hhigh hlt
    omega

theorem ofInts_plain (zs : List ℤ) : ∀ x ∈ zs.map Numeral.ofInt, x.Plain := by
  intro x hx
  obtain ⟨z,_,rfl⟩ := List.mem_map.mp hx
  exact Numeral.ofInt_plain z

theorem helloLine_one : helloLine [1] = some (ascii "HELLO SERVER_VERSIONS=1\n") := rfl

theorem acknowledged_offered_iff_two :
    helloLine [1] = some (ascii "HELLO SERVER_VERSIONS=1\n") ∧
    ∀ v, Acknowledges [1] 0 (ascii "HELLO CLIENT_VERSIONS=4294967297,1") v →
      ∃ x ∈ [4294967297, 1].map Numeral.ofInt, x.value = v := by
  have htext : clientPrefix ++ commaSeparated ([4294967297, 1].map Numeral.ofInt) =
      ascii "HELLO CLIENT_VERSIONS=4294967297,1" := by decide
  have hfits : (clientPrefix ++ commaSeparated ([4294967297, 1].map Numeral.ofInt)).length + 1 < lineMax := by decide
  have hiff := acknowledged_offered_iff [1] 0 ([4294967297, 1].map Numeral.ofInt) helloLine_one (ofInts_plain _) hfits
  rw [htext] at hiff
  refine ⟨helloLine_one,hiff.mpr fun v hv => ⟨.ofInt 1,by simp,?_⟩⟩
  obtain rfl : v = 1 := List.mem_singleton.mp hv.1.1
  rw [Numeral.ofInt_value]
  exact ⟨rfl,by norm_num,by norm_num⟩

/-- The numeral 4294967297 gets version 1 acknowledged. -/
theorem acknowledged_not_offered :
    let xs := [4294967297].map Numeral.ofInt
    (∀ x ∈ xs, x.Plain) ∧ clientPrefix ++ commaSeparated xs = ascii "HELLO CLIENT_VERSIONS=4294967297" ∧
      Acknowledges serverVersions 0 (clientPrefix ++ commaSeparated xs) 1 ∧ ¬ ∃ x ∈ xs, x.value = 1 := by
  intro xs
  have hvalue : ∀ x ∈ xs, x.value = 4294967297 := by
    intro x hx
    obtain rfl := List.mem_singleton.mp hx
    exact Numeral.ofInt_value _
  refine ⟨ofInts_plain _,by decide,?_,?_⟩
  · refine (acknowledges_offer_iff [1] helloLine_one (ofInts_plain _) (by decide)).mpr
      ⟨⟨by decide,by decide,_,List.mem_cons_self,?_⟩,?_⟩
    · rw [Numeral.ofInt_value]
      exact ⟨by decide,by decide,by decide⟩
    · rintro w ⟨hw,_⟩
      exact (List.mem_singleton.mp hw).le
  · rintro ⟨x,hx,hone⟩
    rw [hvalue x hx] at hone
    exact absurd hone (by decide)

end Acknowledgement

end RadioSim.Process.Handshake
