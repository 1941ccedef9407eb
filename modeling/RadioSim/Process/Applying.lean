import RadioSim.Foundation.Numeral
import RadioSim.Process.Command
import RadioSim.Process.Reading

/-! # What a command line does

`apply_command` from its call to its return, for every line: which interval and
which ingest queue it leaves.
-/
namespace RadioSim.Process.Command
open Pubsub Queue

section Calls
variable {n : ℕ} {t : Tid} {c : Choice} {line : CString} {sh sh' : Shared} {pc : Pc}

def Pc.applying : Pc → Bool
  | .apply _ => true
  | .setInterval _ => true
  | .allocAlert _ _ => true
  | .enqueueAlert _ => true
  | .dropAlert _ => true
  | .logAlert _ => true
  | _ => false

/-- `apply_command` runs from a program point to its return, where the listener
polls for the next line. The choice is the answer of `malloc`; no other operation
of `apply_command` looks at it. -/
inductive Applies (n : ℕ) (t : Tid) (c : Choice) : Pc → Shared → Shared → Prop
  | returned (sh : Shared) : Applies n t c (.poll []) sh sh
  | step {pc pc' : Pc} {sh m sh' : Shared} (happlying : pc.applying = true)
      (hexec : exec t c sh (code n pc) = some (pc',m)) (hrest : Applies n t c pc' m sh') : Applies n t c pc sh sh'

theorem Applies.returned_eq (h : Applies n t c (.poll []) sh sh') : sh' = sh := by
  cases h with
  | returned => rfl
  | step happlying => cases happlying

theorem Applies.next {pc' : Pc} {m : Shared} (h : Applies n t c pc sh sh') (hpc : pc.applying = true)
    (hexec : exec t c sh (code n pc) = some (pc',m)) : Applies n t c pc' m sh' := by
  cases h with
  | returned => cases hpc
  | step _ hexec' hrest =>
    rw [hexec] at hexec'
    cases hexec'
    exact hrest

def noted (n : ℕ) (line : CString) (sh : Shared) : Shared :=
  sh.setConn n { sh.conns n with applied := (sh.conns n).applied ++ [line] }

theorem Applies.after (h : Applies n t c (.apply line) sh sh') : Applies n t c (afterApply line) (noted n line sh) sh' :=
  h.next rfl rfl

theorem Applies.rejected (h : Applies n t c (.apply line) sh sh') (hline : applyCommand line = .rejected) :
    sh' = noted n line sh := by
  have hafter := h.after
  rw [afterApply, hline] at hafter
  exact hafter.returned_eq

theorem Applies.interval {ms : UInt32} (h : Applies n t c (.apply line) sh sh')
    (hline : applyCommand line = .setInterval ms) :
    sh' = if ms = 0 then noted n line sh else { noted n line sh with intervalMs := ms } := by
  have hafter := h.after
  rw [afterApply, hline] at hafter
  exact (hafter.next rfl rfl).returned_eq

/-- Whether the item is taken or freed, only the ingest queue is written. -/
theorem Applies.offered {item : Item} {a : Addr} (h : Applies n t c (.enqueueAlert item) sh sh')
    (hitem : item.addr = some a) :
    sh'.intervalMs = sh.intervalMs ∧ ∃ r, sh.ring .ingest = some r ∧
      sh'.queues = Function.update sh.queues .ingest (.live (r.tryEnqueue item).2) := by
  cases h with
  | step _ hexec hrest =>
    obtain ⟨r,hr,hm⟩ := Option.map_eq_some_iff.mp hexec
    obtain ⟨rfl,rfl⟩ := Prod.mk.inj hm
    have hkept : sh'.intervalMs = sh.intervalMs ∧
        sh'.queues = Function.update sh.queues .ingest (.live (r.tryEnqueue item).2) := by
      dsimp only at hrest
      split at hrest
      · have hlog := hrest.next rfl (by simp only [code, hitem]; rfl)
        rw [hlog.returned_eq]
        exact ⟨rfl,rfl⟩
      · have hdrop := hrest.next rfl (by simp only [code, hitem]; rfl)
        rw [hdrop.returned_eq]
        exact ⟨rfl,rfl⟩
    exact ⟨hkept.1,r,hr,hkept.2⟩

def freshAlert (sh : Shared) (code : CString) (antenna : UInt32) : Item := rawItem code antenna (.heap sh.heap.next)

/-- An alert is offered to the ingest queue, unless its allocation fails. -/
theorem Applies.alert {code : CString} {antenna : UInt32} (h : Applies n t c (.apply line) sh sh')
    (hline : applyCommand line = .triggerAlert code antenna) :
    sh'.intervalMs = sh.intervalMs ∧
    ((c = .fail ∧ sh'.queues = sh.queues) ∨
      (c = .ok ∧ ∃ r, sh.ring .ingest = some r ∧
        sh'.queues = Function.update sh.queues .ingest (.live (r.tryEnqueue (freshAlert sh code antenna)).2))) := by
  have hafter := h.after
  rw [afterApply, hline] at hafter
  simp only at hafter
  cases c with
  | fail =>
    have hpoll := hafter.next rfl rfl
    rw [hpoll.returned_eq]
    exact ⟨rfl,Or.inl ⟨rfl,rfl⟩⟩
  | ok =>
    obtain ⟨hinterval,r,hr,hqueues⟩ := (hafter.next rfl rfl).offered rfl
    exact ⟨hinterval,Or.inr ⟨rfl,r,hr,hqueues⟩⟩
  | _ =>
    cases hafter with
    | step _ hexec => cases hexec

theorem offered_exists {item : Item} {a : Addr} {r : RingQueue Item} (n : ℕ) (t : Tid) (c : Choice)
    (hitem : item.addr = some a) (hring : sh.ring .ingest = some r) :
    ∃ sh', Applies n t c (.enqueueAlert item) sh sh' := by
  have hoffer : exec t c sh (code n (.enqueueAlert item)) =
      some (if (r.tryEnqueue item).1 then .logAlert item else .dropAlert item,
        sh.setQueue .ingest (.live (r.tryEnqueue item).2)) := by
    simp only [code, exec, hring, Option.map_some]
  cases hok : (r.tryEnqueue item).1 with
  | true =>
    rw [hok, if_pos rfl] at hoffer
    exact ⟨_,.step rfl hoffer (.step rfl (by simp only [code, hitem]; rfl) (.returned _))⟩
  | false =>
    rw [hok, if_neg Bool.false_ne_true] at hoffer
    exact ⟨_,.step rfl hoffer (.step rfl (by simp only [code, hitem]; rfl) (.returned _))⟩

/-- While the ingest queue exists, `apply_command` returns. -/
theorem applies_exists (sh : Shared) {r : RingQueue Item} (n : ℕ) (t : Tid) (line : CString) (hring : sh.ring .ingest = some r)
    (hc : c = .ok ∨ c = .fail) : ∃ sh', Applies n t c (.apply line) sh sh' := by
  suffices h : ∃ sh', Applies n t c (afterApply line) (noted n line sh) sh' by
    obtain ⟨sh',h⟩ := h
    exact ⟨sh',.step rfl rfl h⟩
  unfold afterApply
  split
  · exact ⟨_,.step rfl rfl (.returned _)⟩
  · rename_i code antenna _
    rcases hc with rfl | rfl
    · have hmalloc : Shared.ring { noted n line sh with heap := sh.heap.malloc.2 } .ingest = some r := hring
      have haddr : (freshAlert sh code antenna).addr = some (.heap sh.heap.next) := rfl
      obtain ⟨sh',hrest⟩ := offered_exists n t .ok haddr hmalloc
      exact ⟨sh',.step rfl rfl hrest⟩
    · exact ⟨_,.step rfl rfl (.returned _)⟩
  · exact ⟨_,.returned _⟩

end Calls

section Dispatch
variable {line : CString} {keyword args : Bytes}

theorem setInterval_space (args : Bytes) : ascii "SET_INTERVAL " ++ args = ascii "SET_INTERVAL" ++ 32 :: args := by
  have hspace : ascii "SET_INTERVAL " = ascii "SET_INTERVAL" ++ [32] := by decide
  rw [hspace, List.append_assoc, List.singleton_append]

theorem triggerAlert_space (args : Bytes) :
    ascii "TRIGGER_ALERT " ++ args = ascii "TRIGGER_ALERT" ++ 32 :: args := by
  have hspace : ascii "TRIGGER_ALERT " = ascii "TRIGGER_ALERT" ++ [32] := by decide
  rw [hspace, List.append_assoc, List.singleton_append]

theorem applyCommand_keyword (hkeyword : 32 ∉ keyword) (hline : line.bytes = keyword ++ 32 :: args) :
    applyCommand line =
      if keyword = ascii "SET_INTERVAL" then applySetInterval args
      else if keyword = ascii "TRIGGER_ALERT" then applyTriggerAlert args else .rejected := by
  have hall : ∀ b ∈ keyword, decide (b ≠ 32) = true := by
    intro b hb
    have hne : b ≠ 32 := fun h => hkeyword (h ▸ hb)
    simpa using hne
  have htake : line.bytes.takeWhile (fun b => decide (b ≠ 32)) = keyword := by
    rw [hline, List.takeWhile_append_of_pos hall]
    simp
  have hdrop : line.bytes.dropWhile (fun b => decide (b ≠ 32)) = 32 :: args := by
    rw [hline, List.dropWhile_append_of_pos hall]
    simp
  unfold applyCommand
  simp only [hdrop, htake]

theorem applyCommand_noSpace (h : 32 ∉ line.bytes) : applyCommand line = .rejected := by
  have hdrop : line.bytes.dropWhile (fun b => decide (b ≠ 32)) = [] := by
    rw [List.dropWhile_eq_nil_iff]
    intro b hb
    have hne : b ≠ 32 := fun he => h (he ▸ hb)
    simpa using hne
  unfold applyCommand
  simp only [hdrop]

end Dispatch

section Interval
variable {n : ℕ} {t : Tid} {c : Choice} {line : CString} {sh sh' : Shared} {x : Numeral}

/-- What SET_INTERVAL with a numeral leaves: the saturated value modulo `2 ^ 32`,
unless it is rejected or ignored. -/
theorem interval_after (hline : line.bytes = ascii "SET_INTERVAL " ++ x.text)
    (h : Applies n t c (.apply line) sh sh') :
    sh'.queues = sh.queues ∧
    sh'.intervalMs.toNat = if x.value ≤ 0 ∨ (saturate x.value).toNat % 2 ^ 32 = 0 then sh.intervalMs.toNat
      else (saturate x.value).toNat % 2 ^ 32 := by
  have hscan : strtol x.text = some (saturate x.value,[]) := by
    simpa using strtol_text x noDigit_nil
  have hsign : saturate x.value ≤ 0 ↔ x.value ≤ 0 := by
    unfold saturate longMin longMax
    omega
  have hparsed : applyCommand line =
      if x.value ≤ 0 then .rejected else .setInterval (UInt32.ofNat (saturate x.value).toNat) := by
    have hwords : line.bytes = ascii "SET_INTERVAL" ++ 32 :: x.text := hline.trans (setInterval_space _)
    rw [applyCommand_keyword (by decide) hwords, if_pos rfl]
    unfold applySetInterval
    rw [hscan]
    simp only [hsign]
  by_cases hneg : x.value ≤ 0
  · rw [if_pos hneg] at hparsed
    rw [h.rejected hparsed, if_pos (Or.inl hneg)]
    exact ⟨rfl,rfl⟩
  · rw [if_neg hneg] at hparsed
    have hms : (UInt32.ofNat (saturate x.value).toNat).toNat = (saturate x.value).toNat % 2 ^ 32 := UInt32.toNat_ofNat'
    rw [h.interval hparsed]
    by_cases hzero : (saturate x.value).toNat % 2 ^ 32 = 0
    · have hnone : UInt32.ofNat (saturate x.value).toNat = 0 := UInt32.toNat_inj.mp (hms.trans hzero)
      rw [if_pos hnone, if_pos (Or.inr hzero)]
      exact ⟨rfl,rfl⟩
    · rw [if_neg fun heq => hzero (by rw [← hms, heq]; rfl), if_neg (not_or.mpr ⟨hneg,hzero⟩)]
      exact ⟨rfl,hms⟩

/-- SET_INTERVAL stores the number it is given or nothing, and never zero, exactly
if the number is below `2 ^ 32`, is a multiple of it in the range of `long`, or
happens to be reduced to the interval there is. -/
theorem interval_faithful_iff (hline : line.bytes = ascii "SET_INTERVAL " ++ x.text) (hold : sh.intervalMs ≠ 0)
    (h : Applies n t c (.apply line) sh sh') :
    (((sh'.intervalMs.toNat : ℤ) = x.value ∨ sh'.intervalMs = sh.intervalMs) ∧ sh'.intervalMs ≠ 0) ↔
      x.value < 2 ^ 32 ∨ (x.value ≤ longMax ∧ 2 ^ 32 ∣ x.value) ∨
        min x.value longMax % 2 ^ 32 = sh.intervalMs.toNat := by
  have hafter := (interval_after hline h).2
  have hlt := sh.intervalMs.toNat_lt
  have hne : sh.intervalMs.toNat ≠ 0 := fun he => hold (UInt32.toNat_inj.mp he)
  have hzero : sh'.intervalMs ≠ 0 ↔ sh'.intervalMs.toNat ≠ 0 := by
    rw [ne_eq, ← UInt32.toNat_inj]
    rfl
  rw [hzero, ← UInt32.toNat_inj, hafter]
  unfold saturate longMin longMax
  norm_num at hlt ⊢
  generalize x.value = z
  split <;> omega

def everyMs (ms : UInt32) : Shared := { Shared.initial with intervalMs := ms, queues := fun _ => .live newQueue }

theorem interval_faithful_iff_500 :
    ∃ sh', Applies 0 (.listener 0) .ok (.apply ⟨ascii "SET_INTERVAL 500",by decide⟩) (everyMs 1000) sh' ∧
      ((sh'.intervalMs.toNat : ℤ) = 500 ∨ sh'.intervalMs = 1000) ∧ sh'.intervalMs ≠ 0 := by
  obtain ⟨sh',h⟩ := applies_exists (everyMs 1000) 0 (.listener 0) ⟨ascii "SET_INTERVAL 500",by decide⟩ rfl
    (Or.inl rfl)
  have hline : ascii "SET_INTERVAL 500" = ascii "SET_INTERVAL " ++ (Numeral.ofInt 500).text := by decide
  have hiff := interval_faithful_iff hline (by decide) h
  rw [Numeral.ofInt_value] at hiff
  exact ⟨sh',h,hiff.mpr (Or.inl (by norm_num))⟩

/-- SET_INTERVAL 4294967297 makes the interval one millisecond. -/
theorem interval_not_faithful :
    let x := Numeral.ofInt 4294967297
    let line : CString := ⟨ascii "SET_INTERVAL 4294967297",by decide⟩
    line.bytes = ascii "SET_INTERVAL " ++ x.text ∧
    ∃ sh', Applies 0 (.listener 0) .ok (.apply line) (everyMs 1000) sh' ∧ sh'.intervalMs = 1 ∧
      ¬ ((sh'.intervalMs.toNat : ℤ) = x.value ∨ sh'.intervalMs = (everyMs 1000).intervalMs) := by
  intro x line
  have hline : line.bytes = ascii "SET_INTERVAL " ++ x.text := by decide
  obtain ⟨sh',h⟩ := applies_exists (everyMs 1000) 0 (.listener 0) line rfl (Or.inl rfl)
  have hone : sh'.intervalMs = 1 := by
    have hafter := (interval_after hline h).2
    rw [Numeral.ofInt_value] at hafter
    exact UInt32.toNat_inj.mp (hafter.trans (by decide))
  refine ⟨hline,sh',h,hone,?_⟩
  rw [hone, Numeral.ofInt_value]
  decide

end Interval

section Words
variable {args first second : Bytes}

def IsWord (w : Bytes) : Prop := w ≠ [] ∧ ∀ b ∈ w, isSpace b = false

structure TwoWords (args first second : Bytes) : Prop where
  split : ∃ lead gap trail, args = lead ++ (first ++ (gap ++ (second ++ trail))) ∧ gap ≠ [] ∧
    (∀ b ∈ lead, isSpace b = true) ∧ (∀ b ∈ gap, isSpace b = true) ∧ ∀ b ∈ trail, isSpace b = true
  first_word : IsWord first
  second_word : IsWord second

/-- A text that ends in a word ends in the second one. -/
theorem TwoWords.mem_second (h : TwoWords args first second) {b : Byte} (hlast : args.getLast? = some b)
    (hb : isSpace b = false) : b ∈ second := by
  obtain ⟨lead,gap,trail,rfl,_,_,_,htrail⟩ := h.split
  have hne := h.second_word.1
  cases trail using List.reverseRecOn with
  | nil =>
    simp only [List.append_nil, List.getLast?_append] at hlast
    obtain ⟨d,hd⟩ := Option.ne_none_iff_exists'.mp (mt List.getLast?_eq_none_iff.mp hne)
    rw [hd] at hlast
    cases hlast
    exact List.mem_of_getLast? hd
  | append_singleton trail d =>
    simp only [← List.append_assoc, List.getLast?_concat] at hlast
    cases hlast
    rw [htrail b (by simp)] at hb
    cases hb

theorem not_digit_of_space {b : Byte} (h : isSpace b = true) : isDigit b = false := by
  cases hd : isDigit b with
  | false => rfl
  | true =>
    rw [(digit_cases hd).1] at h
    cases h

/-- Two words of which the first fits and the second is a number are scanned. -/
theorem scanAlert_words (code : CString) (h : TwoWords args code.bytes second) (hlen : code.strlen ≤ alertCodeMax - 1)
    (hdigits : ∀ b ∈ second, isDigit b = true) (hvalue : digitsValue second < 2 ^ 32) :
    scanAlert args = some (code,UInt32.ofNat (digitsValue second)) := by
  obtain ⟨⟨lead,gap,trail,rfl,hgap,hlead,hspace,htrail⟩,⟨hne,hword⟩,hsecond,_⟩ := h
  have hstart : skipSpace (lead ++ (code.bytes ++ (gap ++ (second ++ trail)))) =
      code.bytes ++ (gap ++ (second ++ trail)) := by
    rw [skipSpace_append hlead]
    refine skipSpace_of_head fun b hb => ?_
    obtain ⟨_,ds,hds⟩ := List.exists_cons_of_ne_nil hne
    rw [hds] at hb hword
    cases hb
    exact hword b List.mem_cons_self
  have htake : (code.bytes ++ (gap ++ (second ++ trail))).takeWhile (fun b => !isSpace b) = code.bytes := by
    rw [List.takeWhile_append_of_pos fun b hb => by simp [hword b hb]]
    obtain ⟨g,gs,rfl⟩ := List.exists_cons_of_ne_nil hgap
    simp [hspace g List.mem_cons_self]
  have hscanWord : scanWord (alertCodeMax - 1) (lead ++ (code.bytes ++ (gap ++ (second ++ trail)))) =
      some (code.bytes,gap ++ (second ++ trail)) := by
    unfold scanWord
    simp only [hstart, htake, List.take_of_length_le hlen, if_neg hne, List.drop_left]
  let x : Numeral := ⟨gap,.none,second,hspace,hdigits,hsecond⟩
  have hend : NoDigit trail := by
    intro b hb
    exact not_digit_of_space (htrail b (List.mem_of_mem_head? hb))
  have hscan : scanNumeral (gap ++ (second ++ trail)) = some (false,digitsValue second,trail) := by
    have hx := x.scanNumeral_text hend
    rw [Numeral.text, List.append_assoc] at hx
    exact hx
  unfold scanAlert scanUnsigned
  simp only [hscanWord, hscan, Option.map_some, CString.ofBuffer_bytes, Bool.false_eq_true, ↓reduceIte]
  rw [if_neg (by omega)]

end Words

section Alerts
variable {n : ℕ} {t : Tid} {c : Choice} {line : CString} {sh sh' : Shared} {item : Item}

/-- The line is TRIGGER_ALERT with these two arguments. -/
def Requests (line : CString) (first second : Bytes) : Prop :=
  ∃ args, line.bytes = ascii "TRIGGER_ALERT " ++ args ∧ TwoWords args first second

/-- With its block allocated, an alert is appended unless the queue is full. -/
theorem alert_contents {code : CString} {antenna : UInt32} {r : RingQueue Item}
    (h : Applies n t .ok (.apply line) sh sh') (hparsed : applyCommand line = .triggerAlert code antenna)
    (hr : sh.ring .ingest = some r) :
    sh'.contents .ingest = if r.full then r.contents else r.contents ++ [freshAlert sh code antenna] := by
  obtain ⟨_,⟨hc,_⟩ | ⟨_,r',hr',hqueues⟩⟩ := h.alert hparsed
  · cases hc
  · rw [hr] at hr'
    cases hr'
    have hcontents : sh'.contents .ingest = (r.tryEnqueue (freshAlert sh code antenna)).2.contents := by
      unfold Shared.contents Shared.ring
      simp [hqueues]
    rw [hcontents, RingQueue.tryEnqueue_contents]

/-- What the ingest queue gains is the alert of the line. -/
theorem enqueued_alert (h : Applies n t c (.apply line) sh sh')
    (hitem : sh'.contents .ingest = sh.contents .ingest ++ [item]) :
    ∃ code antenna, applyCommand line = .triggerAlert code antenna ∧ item = freshAlert sh code antenna := by
  have hsame : sh'.queues = sh.queues → False := by
    intro hqueues
    have hcontents : sh'.contents .ingest = sh.contents .ingest := by
      unfold Shared.contents Shared.ring
      rw [hqueues]
    rw [hcontents] at hitem
    exact absurd hitem (by simp)
  cases hparsed : applyCommand line with
  | rejected =>
    rw [h.rejected hparsed] at hsame
    exact absurd rfl hsame
  | setInterval ms =>
    rw [h.interval hparsed] at hsame
    refine absurd ?_ hsame
    split <;> rfl
  | triggerAlert code antenna =>
    refine ⟨code,antenna,rfl,?_⟩
    obtain ⟨_,⟨_,hqueues⟩ | ⟨rfl,r,hr,_⟩⟩ := h.alert hparsed
    · exact absurd hqueues hsame
    · rw [alert_contents h hparsed hr, contents_of_ring hr] at hitem
      split at hitem
      · exact absurd hitem (by simp)
      · exact (List.singleton_inj.mp (List.append_cancel_left hitem)).symm

/-- An enqueued alert has the arguments of its line, whole, exactly if there are two
words, the first of at most 31 bytes and the second of digits below `2 ^ 32`. -/
theorem alert_faithful_iff (h : Applies n t c (.apply line) sh sh')
    (hitem : sh'.contents .ingest = sh.contents .ingest ++ [item]) :
    (∃ first second, Requests line first second ∧ (asAlertRaw item).code.text.bytes = first ∧
      (∀ b ∈ second, isDigit b = true) ∧ digitsValue second = (asAlertRaw item).antenna.toNat) ↔
    ∃ first second, Requests line first second ∧ first.length < alertCodeMax ∧
      (∀ b ∈ second, isDigit b = true) ∧ digitsValue second < 2 ^ 32 := by
  obtain ⟨code,antenna,hparsed,rfl⟩ := enqueued_alert h hitem
  obtain ⟨args,hargs,hscan⟩ := applyCommand_alert hparsed
  have hshort := scanAlert_short hscan
  have htext : (asAlertRaw (freshAlert sh code antenna)).code.text = code := CodeBuffer.copy_text hshort
  have hantenna : (asAlertRaw (freshAlert sh code antenna)).antenna = antenna := rfl
  rw [htext, hantenna]
  constructor
  · rintro ⟨first,second,hline,rfl,hdigits,hvalue⟩
    exact ⟨_,second,hline,Nat.lt_of_le_of_lt hshort (by decide),hdigits,hvalue ▸ antenna.toNat_lt⟩
  · rintro ⟨first,second,⟨args',hargs',hwords⟩,hlen,hdigits,hvalue⟩
    have heq : args' = args := by
      have hline := hargs'.symm.trans hargs
      rw [← triggerAlert_space] at hline
      exact List.append_cancel_left hline
    subst heq
    have hnul : 0 ∉ first := by
      intro hzero
      obtain ⟨lead,gap,trail,hsplit,_⟩ := hwords.split
      refine line.noNul ?_
      rw [hargs', hsplit]
      simp [hzero]
    have hscan' := scanAlert_words ⟨first,hnul⟩ hwords (Nat.le_pred_of_lt hlen) hdigits hvalue
    rw [hscan] at hscan'
    obtain ⟨rfl,rfl⟩ := Prod.mk.inj (Option.some.inj hscan')
    refine ⟨first,second,⟨args',hargs',hwords⟩,rfl,hdigits,?_⟩
    rw [UInt32.toNat_ofNat', Nat.mod_eq_of_lt hvalue]

theorem everyMs_contents (ms : UInt32) : (everyMs ms).contents .ingest = [] :=
  (contents_of_ring (show (everyMs ms).ring .ingest = some newQueue from rfl)).trans (by decide)

/-- An empty ingest queue gains the alert. -/
theorem everyMs_alert {code : CString} {antenna ms : UInt32} (h : Applies n t .ok (.apply line) (everyMs ms) sh')
    (hparsed : applyCommand line = .triggerAlert code antenna) :
    sh'.contents .ingest = [freshAlert (everyMs ms) code antenna] := by
  have hring : (everyMs ms).ring .ingest = some newQueue := rfl
  have hfull : newQueue.full = false := by decide
  have hempty := everyMs_contents ms
  rw [contents_of_ring hring] at hempty
  rw [alert_contents h hparsed hring, hfull, hempty]
  rfl

theorem alert_faithful_iff_triggered :
    ∃ sh' item, Applies 0 (.listener 0) .ok (.apply ⟨ascii "TRIGGER_ALERT X 2",by decide⟩) (everyMs 1000) sh' ∧
      sh'.contents .ingest = [item] ∧
      ∃ first second, Requests ⟨ascii "TRIGGER_ALERT X 2",by decide⟩ first second ∧
        (asAlertRaw item).code.text.bytes = first ∧
        (∀ b ∈ second, isDigit b = true) ∧ digitsValue second = (asAlertRaw item).antenna.toNat := by
  let line : CString := ⟨ascii "TRIGGER_ALERT X 2",by decide⟩
  obtain ⟨sh',h⟩ := applies_exists (everyMs 1000) 0 (.listener 0) line rfl (Or.inl rfl)
  have hparsed : applyCommand line = .triggerAlert ⟨ascii "X",by decide⟩ 2 := rfl
  have hcontents := everyMs_alert h hparsed
  have hitem := hcontents.trans (List.nil_append _).symm
  rw [← everyMs_contents 1000] at hitem
  refine ⟨sh',_,h,hcontents,(alert_faithful_iff h hitem).mpr ⟨ascii "X",ascii "2",⟨ascii "X 2",rfl,?_⟩,?_,?_,?_⟩⟩
  · refine ⟨⟨[],[32],[],rfl,by decide,by simp,?_,by simp⟩,⟨by decide,?_⟩,by decide,?_⟩
    all_goals
      intro b hb
      rw [List.mem_singleton.mp hb]
      rfl
  · decide
  · intro b hb
    rw [List.mem_singleton.mp hb]
    rfl
  · decide

/-- What follows the digits of the antenna is ignored. -/
theorem alert_not_faithful :
    let line : CString := ⟨ascii "TRIGGER_ALERT X 2abc",by decide⟩
    ∃ sh' item, Applies 0 (.listener 0) .ok (.apply line) (everyMs 1000) sh' ∧ sh'.contents .ingest = [item] ∧
      (asAlertRaw item).antenna = 2 ∧
      ¬ ∃ first second, Requests line first second ∧ (asAlertRaw item).code.text.bytes = first ∧
        (∀ b ∈ second, isDigit b = true) ∧ digitsValue second = (asAlertRaw item).antenna.toNat := by
  intro line
  obtain ⟨sh',h⟩ := applies_exists (everyMs 1000) 0 (.listener 0) line rfl (Or.inl rfl)
  have hparsed : applyCommand line = .triggerAlert ⟨ascii "X",by decide⟩ 2 := rfl
  refine ⟨sh',_,h,everyMs_alert h hparsed,rfl,?_⟩
  rintro ⟨first,second,⟨args,hargs,hwords⟩,_,hdigits,_⟩
  have heq : args = ascii "X 2abc" := by
    have hline : line.bytes = ascii "TRIGGER_ALERT " ++ ascii "X 2abc" := by decide
    exact List.append_cancel_left (hargs.symm.trans hline)
  rw [heq] at hwords
  exact absurd (hdigits 99 (hwords.mem_second rfl rfl)) (by decide)

end Alerts

section Reading
variable (n : ℕ) (t : Tid)

/-- The bytes that a sequence of polls and reads gives. An interrupted call gives
none, and neither does a timeout with the two checks that follow it. -/
def bytesPolled : List Choice → Option Bytes
  | [] => some []
  | .poll (.ready false) :: .read (.byte b) :: rest => (bytesPolled rest).map (b :: ·)
  | .poll (.ready false) :: .read .eintr :: rest => bytesPolled rest
  | .poll .eintr :: rest => bytesPolled rest
  | .poll .timeout :: _ :: _ :: rest => bytesPolled rest
  | _ => none

def Unstopped (n : ℕ) (sh : Shared) : Prop := sh.stop = false ∧ (sh.conns n).peerAlive = true

/-- A turn that does not end `read_command_line`, with the choices that the listener gets. -/
inductive Turn
  | interrupted
  | timedOut (first second : Choice)
  | byte (b : Byte)
  | readInterrupted

def Turn.answer : Turn → Polled
  | .interrupted => .eintr
  | .timedOut _ _ => .timeout false true
  | .byte b => .ready (.byte b)
  | .readInterrupted => .ready .eintr

def Turn.choices : Turn → List Choice
  | .interrupted => [.poll .eintr]
  | .timedOut first second => [.poll .timeout,first,second]
  | .byte b => [.poll (.ready false),.read (.byte b)]
  | .readInterrupted => [.poll (.ready false),.read .eintr]

theorem Turn.quiet_answer (x : Turn) : x.answer.quiet = true := by
  cases x <;> rfl

theorem turns_of_bytesPolled {choices : List Choice} {bytes : Bytes} (h : bytesPolled choices = some bytes) :
    ∃ turns : List Turn, choices = turns.flatMap Turn.choices ∧ (turns.map Turn.answer).filterMap Polled.told = bytes := by
  fun_induction bytesPolled choices generalizing bytes with
  | case1 =>
    cases h
    exact ⟨[],rfl,rfl⟩
  | case2 b rest ih =>
    obtain ⟨bytes,hrest,rfl⟩ := Option.map_eq_some_iff.mp h
    obtain ⟨turns,rfl,rfl⟩ := ih hrest
    exact ⟨.byte b :: turns,rfl,rfl⟩
  | case3 rest ih =>
    obtain ⟨turns,rfl,rfl⟩ := ih h
    exact ⟨.readInterrupted :: turns,rfl,rfl⟩
  | case4 rest ih =>
    obtain ⟨turns,rfl,rfl⟩ := ih h
    exact ⟨.interrupted :: turns,rfl,rfl⟩
  | case5 first second rest ih =>
    obtain ⟨turns,rfl,rfl⟩ := ih h
    exact ⟨.timedOut first second :: turns,rfl,rfl⟩
  | case6 => cases h

def afterReadCommandLine : Control Filling Bool → Pc
  | .again s => .poll s.consumed
  | .returned true s => .apply (.ofBuffer s.array)
  | .returned false _ => .clearPeer

section Turns
variable {n : ℕ} {t : Tid} {buf : Buffer} {m : Pc × Shared}

theorem turn_stands (hbuf : buf.bytes.length = commandLineMax) {pre : Bytes} {x : Turn} {d : Control Filling Bool}
    (hm : Stands afterReadCommandLine (fun _ => Unstopped n) (.again (filled buf pre)) m)
    (hroom : pre.length + 1 < buf.bytes.length)
    (hbody : (readCommandLineLoop buf.bytes.length).body (filled buf pre) x.answer = some d) :
    ∃ m', runThread t (code n) m x.choices = some m' ∧ Stands afterReadCommandLine (fun _ => Unstopped n) d m' := by
  obtain ⟨pc,sh⟩ := m
  obtain ⟨rfl,hsh⟩ := hm
  obtain ⟨hstop,halive⟩ : Unstopped n sh := hsh
  have hroom' : pre.length + 1 < commandLineMax := hbuf ▸ hroom
  change ∃ m', runThread t (code n) (.poll pre,sh) x.choices = some m' ∧ _
  cases x with
  | byte b =>
    have hsh' : Unstopped n (sh.setConn n { sh.conns n with consumed := (sh.conns n).consumed ++ [b] }) :=
      ⟨hstop,by simpa [Shared.setConn] using halive⟩
    by_cases hb : b = 10
    · subst hb
      cases (receive_newline (Nat.lt_of_succ_lt hroom)).symm.trans hbody
      refine ⟨(.apply (.ofBuffer pre),_),?_,?_,hsh'⟩
      · simp only [runThread, Turn.choices, code, if_pos hroom', exec, Option.bind_some,
          Bool.false_eq_true, ↓reduceIte]
        rfl
      · simp only [afterReadCommandLine, terminated, CString.ofBuffer_nul]
    · cases (receive_byte (Nat.lt_of_succ_lt hroom) hb).symm.trans hbody
      refine ⟨(.poll (pre ++ [b]),_),?_,rfl,hsh'⟩
      simp only [runThread, Turn.choices, code, if_pos hroom', exec, Option.bind_some,
        Bool.false_eq_true, ↓reduceIte, if_neg hb]
      rfl
  | interrupted | readInterrupted =>
    cases hbody
    refine ⟨(.poll pre,sh),?_,rfl,⟨hstop,halive⟩⟩
    simp only [runThread, Turn.choices, code, if_pos hroom', exec, Option.bind_some,
      Bool.false_eq_true, ↓reduceIte]
  | timedOut first second =>
    cases hbody
    refine ⟨(.poll pre,sh),?_,rfl,⟨hstop,halive⟩⟩
    simp only [runThread, Turn.choices, code, if_pos hroom', exec, Option.bind_some, hstop,
      halive, Bool.false_eq_true, ↓reduceIte]

theorem full_stands (hbuf : buf.bytes.length = commandLineMax) {pre : Bytes}
    (hm : Stands afterReadCommandLine (fun _ => Unstopped n) (.again (filled buf pre)) m)
    (hfull : ¬ pre.length + 1 < buf.bytes.length) :
    ∃ m', runThread t (code n) m [.ok] = some m' ∧
      Stands afterReadCommandLine (fun _ => Unstopped n) (.returned false (filled buf pre)) m' := by
  obtain ⟨pc,sh⟩ := m
  obtain ⟨rfl,hsh⟩ := hm
  have hfull' : ¬ (filled buf pre).consumed.length + 1 < commandLineMax := hbuf ▸ hfull
  refine ⟨(.clearPeer,sh),?_,rfl,hsh⟩
  simp only [runThread, afterReadCommandLine, code, if_neg hfull', exec, Option.bind_some]

end Turns

/-- `read_command_line` gives a line of up to 126 bytes unaltered. -/
theorem runThread_commandLine {choices : List Choice} {line : CString} {sh : Shared}
    (hpolled : bytesPolled choices = some line.bytes) (hline : 10 ∉ line.bytes)
    (hlen : line.strlen + 1 < commandLineMax) (hsh : Unstopped n sh) :
    ∃ sh', runThread t (code n) (.poll [],sh) (choices ++ [.poll (.ready false),.read (.byte 10)]) =
      some (.apply line,sh') := by
  obtain ⟨turns,rfl,htold⟩ := turns_of_bytesPolled hpolled
  let buf := zeroed commandLineMax (by decide)
  have hbuf : buf.bytes.length = commandLineMax := List.length_replicate
  have hquiet : ∀ r ∈ turns.map Turn.answer, r.quiet = true := List.forall_mem_map.mpr fun x _ => x.quiet_answer
  have hdelivers : ∃ m, runThread t (code n) (.poll [],sh)
        (turns.flatMap Turn.choices ++ Turn.choices (.byte 10)) = some m ∧
      Stands afterReadCommandLine (fun _ => Unstopped n) (.returned true (terminated buf line.bytes)) m :=
    runThread_delivers Turn.answer Turn.choices (readCommandLine_readsLines buf.bytes.length)
      (fun _ _ _ _ hm hroom hbody => turn_stands hbuf hm hroom hbody) (fun _ _ hm hfull => full_stands hbuf hm hfull)
      ⟨rfl,hsh⟩ hline (hbuf.symm ▸ hlen) (by rw [follow_readCommandLine hquiet, htold]) (fun _ => rfl)
  obtain ⟨⟨pc,sh'⟩,hrun,rfl,_⟩ := hdelivers
  refine ⟨sh',?_⟩
  simpa only [Turn.choices, afterReadCommandLine, terminated, CString.ofBuffer_nul, CString.ofBuffer_bytes] using hrun

/-- However `read_command_line` gets to its bytes, it returns this line. -/
def ReadBack (line : CString) : Prop :=
  ∀ sh choices, Unstopped n sh → bytesPolled choices = some line.bytes →
    ∃ sh', runThread t (code n) (.poll [],sh) (choices ++ [.poll (.ready false),.read (.byte 10)]) =
      some (.apply line,sh')

/-- `apply_command` returns, and whatever it leaves is as required. -/
def Does (line : CString) (sh : Shared) (Q : Choice → Shared → Prop) : Prop :=
  (∀ c, c = .ok ∨ c = .fail → ∃ sh', Applies n t c (.apply line) sh sh') ∧
  ∀ c sh', Applies n t c (.apply line) sh sh' → Q c sh'

end Reading

section Effects
variable {n : ℕ} {t : Tid} {c : Choice} {line : CString} {sh sh' : Shared} {r : RingQueue Item}

theorem interval_effect {m : UInt32} (hm : m ≠ 0) (hline : line.bytes = ascii "SET_INTERVAL " ++ decimal m.toNat)
    (h : Applies n t c (.apply line) sh sh') : sh'.intervalMs = m ∧ sh'.queues = sh.queues := by
  have htext : line.bytes = ascii "SET_INTERVAL " ++ (Numeral.ofInt m.toNat).text := by
    rw [hline, Numeral.ofInt_text]
    rfl
  obtain ⟨hqueues,hafter⟩ := interval_after htext h
  have hlt := m.toNat_lt
  have hpos : m.toNat ≠ 0 := fun he => hm (UInt32.toNat_inj.mp he)
  have hsat : (saturate (m.toNat : ℤ)).toNat = m.toNat := by
    rw [saturate_of_mem (by unfold longMin; omega) (by unfold longMax; omega)]
    rfl
  rw [Numeral.ofInt_value, hsat, Nat.mod_eq_of_lt hlt, if_neg (by omega)] at hafter
  exact ⟨UInt32.toNat_inj.mp hafter,hqueues⟩

theorem applyCommand_words {code : CString} {a : UInt32} (hne : code.bytes ≠ []) (hlen : code.strlen < alertCodeMax)
    (hword : ∀ b ∈ code.bytes, isSpace b = false)
    (hline : line.bytes = ascii "TRIGGER_ALERT " ++ (code.bytes ++ 32 :: decimal a.toNat)) :
    applyCommand line = .triggerAlert code a := by
  have hdigits : ∀ b ∈ decimal a.toNat, isDigit b = true := fun _ => isDigit_of_mem_decimal
  have hvalue : digitsValue (decimal a.toNat) = a.toNat := foldl_decimal a.toNat
  have hwords : TwoWords (code.bytes ++ 32 :: decimal a.toNat) code.bytes (decimal a.toNat) := by
    refine ⟨⟨[],[32],[],by simp,by simp,by simp,?_,by simp⟩,⟨hne,hword⟩,decimal_ne_nil _,
      fun b hb => (digit_cases (hdigits b hb)).1⟩
    intro b hb
    rw [List.mem_singleton.mp hb]
    rfl
  have hscan := scanAlert_words code hwords (Nat.le_pred_of_lt hlen) hdigits (by rw [hvalue]; exact a.toNat_lt)
  rw [hvalue, UInt32.ofNat_toNat] at hscan
  have hkeyword := hline.trans (triggerAlert_space _)
  rw [applyCommand_keyword (by decide) hkeyword, if_neg (by decide), if_pos rfl]
  unfold applyTriggerAlert
  rw [hscan]

theorem alert_effect {code : CString} {a : UInt32} (h : Applies n t c (.apply line) sh sh')
    (hparsed : applyCommand line = .triggerAlert code a) (hring : sh.ring .ingest = some r) :
    sh'.intervalMs = sh.intervalMs ∧ (c = .fail → sh'.queues = sh.queues) ∧
    (c = .ok → ∃ b, sh'.contents .ingest = (if r.full then r.contents else r.contents ++ [rawItem code a b])) ∧
    (r.full = true → sh'.queues = sh.queues) ∧ ∀ q ≠ .ingest, sh'.queues q = sh.queues q := by
  obtain ⟨hinterval,⟨hc,hqueues⟩ | ⟨hc,r',hr,hqueues⟩⟩ := h.alert hparsed
  · refine ⟨hinterval,fun _ => hqueues,fun hok => ?_,fun _ => hqueues,fun q _ => by rw [hqueues]⟩
    rw [hc] at hok
    cases hok
  · subst hc
    rw [hring] at hr
    cases hr
    have hlive : sh.queues .ingest = .live r := by
      unfold Shared.ring at hring
      split at hring
      · rename_i heq
        rw [heq, Option.some.inj hring]
      · cases hring
    refine ⟨hinterval,fun hfail => absurd hfail Choice.noConfusion,fun _ => ⟨_,alert_contents h hparsed hring⟩,
      fun hfull => ?_,fun q hq => by rw [hqueues, Function.update_of_ne hq]⟩
    rw [hqueues, r.tryEnqueue_of_full _ hfull, ← hlive, Function.update_eq_self]

/-- Every well-formed command line is read back and has exactly its effect, and a
line with another first word has none. -/
theorem commands_effect (n : ℕ) (t : Tid) (sh : Shared) (hring : sh.ring .ingest = some r) :
    (∀ (m : UInt32) (line : CString), m ≠ 0 → line.bytes = ascii "SET_INTERVAL " ++ decimal m.toNat →
      ReadBack n t line ∧ Does n t line sh fun _ sh' => sh'.intervalMs = m ∧ sh'.queues = sh.queues) ∧
    (∀ (code : CString) (a : UInt32) (line : CString), code.bytes ≠ [] → code.strlen < alertCodeMax →
      (∀ b ∈ code.bytes, isSpace b = false) →
      line.bytes = ascii "TRIGGER_ALERT " ++ (code.bytes ++ 32 :: decimal a.toNat) →
      ReadBack n t line ∧ Does n t line sh fun c sh' =>
        sh'.intervalMs = sh.intervalMs ∧ (c = .fail → sh'.queues = sh.queues) ∧
        (c = .ok → ∃ b, (rawItem code a b).type = .alert ∧ (asAlertRaw (rawItem code a b)).code.text = code ∧
          (asAlertRaw (rawItem code a b)).antenna = a ∧
          sh'.contents .ingest = if r.full then r.contents else r.contents ++ [rawItem code a b]) ∧
        (r.full = true → sh'.queues = sh.queues) ∧ ∀ q ≠ .ingest, sh'.queues q = sh.queues q) ∧
    (∀ line : CString, (32 ∉ line.bytes ∨ ∃ keyword args, line.bytes = keyword ++ 32 :: args ∧ 32 ∉ keyword ∧
        keyword ≠ ascii "SET_INTERVAL" ∧ keyword ≠ ascii "TRIGGER_ALERT") →
      Does n t line sh fun _ sh' => sh'.intervalMs = sh.intervalMs ∧ sh'.queues = sh.queues) := by
  have hreturns : ∀ line c, c = .ok ∨ c = .fail → ∃ sh', Applies n t c (.apply line) sh sh' :=
    fun line c hc => applies_exists sh n t line hring hc
  refine ⟨fun m line hm hline => ⟨?_,hreturns line,fun c sh' h => interval_effect hm hline h⟩,
    fun code a line hne hlen hword hline => ⟨?_,hreturns line,fun c sh' h => ?_⟩,
    fun line hline => ⟨hreturns line,fun c sh' h => ?_⟩⟩
  · intro sh choices hsh hpolled
    have hdecimal := decimal_uint32_length m
    refine runThread_commandLine n t hpolled ?_ ?_ hsh
    · rw [hline, List.mem_append, not_or]
      exact ⟨by decide,newline_notMem_decimal _⟩
    · rw [CString.strlen, hline, List.length_append]
      have hkeyword : (ascii "SET_INTERVAL ").length = 13 := rfl
      unfold commandLineMax
      omega
  · intro sh choices hsh hpolled
    have hdecimal := decimal_uint32_length a
    refine runThread_commandLine n t hpolled ?_ ?_ hsh
    · rw [hline, List.mem_append, not_or, List.mem_append, not_or, List.mem_cons, not_or]
      exact ⟨by decide,fun h => absurd (hword 10 h) (by decide),by decide,newline_notMem_decimal _⟩
    · rw [CString.strlen, hline, List.length_append, List.length_append, List.length_cons]
      have hkeyword : (ascii "TRIGGER_ALERT ").length = 14 := rfl
      unfold CString.strlen alertCodeMax at hlen
      unfold commandLineMax
      omega
  · have hparsed := applyCommand_words hne hlen hword hline
    obtain ⟨hinterval,hfail,hok,hfull,hframe⟩ := alert_effect h hparsed hring
    refine ⟨hinterval,hfail,fun hc => ?_,hfull,hframe⟩
    obtain ⟨b,hcontents⟩ := hok hc
    exact ⟨b,rfl,CodeBuffer.copy_text (Nat.le_pred_of_lt hlen),rfl,hcontents⟩
  · have hparsed : applyCommand line = .rejected := by
      rcases hline with hnone | ⟨keyword,args,hline,hspace,hset,htrigger⟩
      · exact applyCommand_noSpace hnone
      · rw [applyCommand_keyword hspace hline, if_neg hset, if_neg htrigger]
    rw [h.rejected hparsed]
    exact ⟨rfl,rfl⟩

theorem commands_effect_set :
    ∃ sh', Applies 0 (.listener 0) .ok (.apply ⟨ascii "SET_INTERVAL 4294967295",by decide⟩) (everyMs 1000) sh' ∧
      sh'.intervalMs = 4294967295 := by
  obtain ⟨hset,_⟩ := commands_effect 0 (.listener 0) (everyMs 1000) rfl
  obtain ⟨_,hreturns,heffect⟩ := hset 4294967295 ⟨ascii "SET_INTERVAL 4294967295",by decide⟩ (by decide) (by decide)
  obtain ⟨sh',h⟩ := hreturns .ok (Or.inl rfl)
  exact ⟨sh',h,(heffect .ok sh' h).1⟩

end Effects

end RadioSim.Process.Command
