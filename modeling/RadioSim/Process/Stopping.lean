import RadioSim.Process.Backpressure
import RadioSim.Process.Session

/-! # Telling the listener to stop

The command listener looks at the shutdown flag and at `peer_alive` only after a
poll that timed out.
-/
namespace RadioSim.Process
variable {W : ℕ} {s s' : System} {t : Tid} {c : Choice} {n : ℕ}

def Stopped (n : ℕ) (s : System) : Prop :=
  s.shared.stop = true ∨ (s.shared.status (.listener n) ≠ .unborn ∧ (s.shared.conns n).peerAlive = false)

def Op.timesOut {P : Type} : Op P → Choice → Bool
  | .poll _, .poll .timeout => true
  | _, _ => false

def Op.receives {P : Type} : Op P → Choice → Bytes
  | .sockRead _ _, .read (.byte b) => [b]
  | _, _ => []

/-- The bytes that the listener of connection `n` reads up to its next poll timeout, that
is as long as the client always has another byte ready. -/
def heard (W n : ℕ) (s : System) : List (Tid × Choice) → Bytes
  | [] => []
  | (t,c) :: rest =>
    if t = .listener n then
      if (s.op W t).timesOut c then []
      else (s.op W t).receives c ++ ((step W s t c).map fun s' => heard W n s' rest).getD []
    else ((step W s t c).map fun s' => heard W n s' rest).getD []

def Command.due : Command.Pc → ℕ
  | .apply _ => 1
  | _ => 0

def Quitting : Command.Pc → Conn → Prop
  | .timedOut _, _ | .clearPeer, _ | .done, _ => True
  | .checkPeer _, conn => conn.peerAlive = false
  | _, _ => False

theorem step_peerAlive (hsession : Session (s.pcs .transport) (s.pcs (.listener n)) s.shared n)
    (hborn : s.shared.status (.listener n) ≠ .unborn) (hdead : (s.shared.conns n).peerAlive = false)
    (hstep : step W s t c = some s') : (s'.shared.conns n).peerAlive = false := by
  obtain ⟨_,p,sh',hexec,rfl⟩ := step_inversion hstep
  rcases (exec_effect hexec).peerAlive hdead with hdead' | ⟨next,hdeclare⟩
  · exact hdead'
  · have hop := code_heeding W t (s.pcs t)
    rw [show code W t (s.pcs t) = _ from hdeclare] at hop
    cases t with
    | transport => exact absurd ((hsession.greeted hop.1).2 hop.2).1 hborn
    | _ => exact hop.elim

theorem step_stopped (hsession : Session (s.pcs .transport) (s.pcs (.listener n)) s.shared n) (h : Stopped n s)
    (hstep : step W s t c = some s') : Stopped n s' := by
  rcases h with hstop | ⟨hborn,hdead⟩
  · obtain ⟨_,p,sh',hexec,rfl⟩ := step_inversion hstep
    exact Or.inl ((exec_effect hexec).stop_mono hstop)
  · refine Or.inr ⟨?_,step_peerAlive hsession hborn hdead hstep⟩
    obtain ⟨_,p,sh',hexec,rfl⟩ := step_inversion hstep
    exact (exec_effect hexec).born hborn

/-- A step of another thread. -/
theorem step_bystander (hsession : Session (s.pcs .transport) (s.pcs (.listener n)) s.shared n)
    (ht : t ≠ .listener n) (hstep : step W s t c = some s') :
    s'.pcs (.listener n) = s.pcs (.listener n) ∧ (s'.shared.conns n).applied = (s.shared.conns n).applied := by
  obtain ⟨_,p,sh',hexec,rfl⟩ := step_inversion hstep
  have heff := exec_effect hexec
  refine ⟨Function.update_of_ne (Ne.symm ht) ..,?_⟩
  by_cases haccept : ∃ k, s.op W t = .accept k
  · obtain ⟨k,hk⟩ := haccept
    rw [hk] at heff
    cases heff with
    | notAccepted => rfl
    | accepted =>
      by_cases hn : n = s.shared.accepted
      · have hunborn : s.shared.status (.listener n) = .unborn := by
          by_contra hborn
          exact absurd (hsession.heard hborn).1 (by omega)
        simp [Shared.setConn, hn, (hn ▸ hsession.unheard hunborn).1]
      · simp [Shared.setConn, hn]
  · exact (heff.bystander (code_heeding W t (s.pcs t)) ht fun k hk => haccept ⟨k,hk⟩).1

/-- A listener that has been told to stop and is on its way out applies nothing more. -/
theorem step_quitting (hsession : Session (s.pcs .transport) (s.pcs (.listener n)) s.shared n)
    (hborn : s.shared.status (.listener n) ≠ .unborn) (hstop : Stopped n s)
    (h : Quitting (s.pcs (.listener n)) (s.shared.conns n)) (hstep : step W s t c = some s') :
    Quitting (s'.pcs (.listener n)) (s'.shared.conns n) ∧
    (s'.shared.conns n).applied = (s.shared.conns n).applied := by
  by_cases ht : t = .listener n
  · subst ht
    obtain ⟨_,p,sh',hexec,rfl⟩ := step_inversion hstep
    have heff := exec_effect hexec
    simp only [Function.update_self]
    change Effect _ _ (Command.code n (s.pcs (.listener n))) _ _ at heff
    generalize s.pcs (.listener n) = pc at h heff
    cases pc with
    | timedOut buf =>
      -- if it is not the flag of the process, the peer is gone, and that is looked at next
      cases heff with
      | shutdownRequested =>
        refine ⟨?_,rfl⟩
        cases hflag : s.shared.stop
        · exact (hstop.resolve_left (by simp [hflag])).2
        · exact trivial
    | checkPeer buf =>
      cases heff with
      | peerRead =>
        rw [show (s.shared.conns n).peerAlive = false from h]
        exact ⟨trivial,rfl⟩
    | clearPeer =>
      cases heff
      exact ⟨trivial,by simp [Shared.setConn]⟩
    | done =>
      cases heff
      exact ⟨trivial,rfl⟩
    | _ => exact h.elim
  · obtain ⟨hpc,happlied⟩ := step_bystander hsession ht hstep
    refine ⟨?_,happlied⟩
    rw [hpc]
    generalize s.pcs (.listener n) = pc at h
    cases pc with
    | checkPeer buf => exact step_peerAlive hsession hborn h hstep
    | _ => exact h

theorem run_quitting {schedule : List (Tid × Choice)} (h : Reachable W s)
    (hborn : s.shared.status (.listener n) ≠ .unborn) (hstop : Stopped n s)
    (hquitting : Quitting (s.pcs (.listener n)) (s.shared.conns n)) (hrun : run W s schedule = some s') :
    Quitting (s'.pcs (.listener n)) (s'.shared.conns n) ∧
    (s'.shared.conns n).applied = (s.shared.conns n).applied := by
  induction schedule generalizing s with
  | nil =>
    cases hrun
    exact ⟨hquitting,rfl⟩
  | cons a rest ih =>
    obtain ⟨m,hstep,hrest⟩ := Option.bind_eq_some_iff.mp hrun
    have hsession := run_session h n
    obtain ⟨hquitting',happlied⟩ := step_quitting hsession hborn hstop hquitting hstep
    have hborn' : m.shared.status (.listener n) ≠ .unborn := by
      obtain ⟨_,p,sh',hexec,rfl⟩ := step_inversion hstep
      exact (exec_effect hexec).born hborn
    obtain ⟨hlast,hsame⟩ := ih (h.tail ⟨a.1,a.2,hstep⟩) hborn' (step_stopped hsession hstop hstep) hquitting' hrest
    exact ⟨hlast,hsame.trans happlied⟩

theorem Quitting.due {pc : Command.Pc} {conn : Conn} (h : Quitting pc conn) : Command.due pc = 0 := by
  cases pc with
  | apply line => exact h.elim
  | _ => rfl

/-- Every newline after the first line is that of a command, applied or due. -/
theorem Heard.count {pc : Command.Pc} {conn : Conn} (h : Heard pc conn) :
    conn.consumed.count 10 = conn.applied.length + Command.due pc + 1 := by
  obtain ⟨first,lines,part,hsplit,hfirst,hlines,happlied,hpending⟩ := h
  have hpart : part.count 10 = Command.due pc := by
    cases pc with
    | poll buf | timedOut buf | checkPeer buf =>
      obtain ⟨rfl,hbuf⟩ := hpending
      exact List.count_eq_zero.mpr hbuf
    | read buf =>
      obtain ⟨rfl,hbuf⟩ := hpending
      exact List.count_eq_zero.mpr hbuf.1
    | apply line =>
      obtain ⟨text,rfl,htext,_⟩ := hpending
      rw [List.count_append, List.count_eq_zero.mpr htext.1]
      rfl
    | clearPeer | done => exact List.count_eq_zero.mpr hpending
    | _ =>
      rw [show part = [] from hpending]
      rfl
  have hcommands := count_joinLines fun line hline => (hlines line hline).1
  rw [hsplit, happlied, List.count_append, List.count_cons_self, List.count_append, hcommands, hpart,
    List.count_eq_zero.mpr hfirst, List.length_map]
  omega

/-- Each newline that the listener reads becomes a command. -/
theorem listener_accounts (h : Reachable W s) (hstep : step W s (.listener n) c = some s') :
    (s'.shared.conns n).applied.length + Command.due (s'.pcs (.listener n)) =
      (s.shared.conns n).applied.length + Command.due (s.pcs (.listener n)) +
        ((s.op W (.listener n)).receives c).count 10 := by
  have h' : Reachable W s' := h.tail ⟨_,c,hstep⟩
  obtain ⟨hrunning,p,sh',hexec,hs'⟩ := step_inversion hstep
  have hborn : s.shared.status (.listener n) ≠ .unborn := by simp [hrunning.2]
  have hborn' : s'.shared.status (.listener n) ≠ .unborn := by
    rw [hs']
    exact (exec_effect hexec).born hborn
  have hread : (s'.shared.conns n).consumed = (s.shared.conns n).consumed ++ (s.op W (.listener n)).receives c := by
    have hheeding := code_heeding W (.listener n) (s.pcs (.listener n))
    rw [hs']
    generalize hop : s.op W (.listener n) = op at hexec
    rw [show code W (.listener n) (s.pcs (.listener n)) = op from hop] at hheeding
    cases op with
    | sockRead m k =>
      obtain rfl : n = m := Tid.listener.inj (hheeding.resolve_right id)
      obtain ⟨r,rfl,_,rfl⟩ := exec_sockRead hexec
      cases r with
      | byte b => simp [Shared.setConn, Op.receives]
      | _ => exact (List.append_nil _).symm
    | accept k => cases hheeding
    | _ =>
      have hsame := (exec_effect hexec).reads_nothing (fun _ h => by cases h) (fun _ _ h => by cases h)
      exact (hsame.2 n).trans (List.append_nil _).symm
  have hbefore := ((run_session h n).heard hborn).2.count
  have hafter := ((run_session h' n).heard hborn').2.count
  rw [hread, List.count_append] at hafter
  omega

/-- A poll that finds nothing to read makes the listener look at the flags. -/
theorem timeout_quitting (htimeout : (s.op W (.listener n)).timesOut c = true)
    (hstep : step W s (.listener n) c = some s') :
    Quitting (s'.pcs (.listener n)) (s'.shared.conns n) ∧ s'.shared = s.shared ∧
    Command.due (s.pcs (.listener n)) = 0 := by
  obtain ⟨_,p,sh',hexec,rfl⟩ := step_inversion hstep
  simp only [Function.update_self]
  change (Command.code n (s.pcs (.listener n))).timesOut c = true at htimeout
  change exec _ _ _ (Command.code n (s.pcs (.listener n))) = _ at hexec
  generalize s.pcs (.listener n) = pc at htimeout hexec
  cases pc with
  | poll buf =>
    simp only [Command.code] at htimeout hexec
    split at hexec
    · rename_i hroom
      obtain ⟨r,rfl,rfl,rfl⟩ := exec_poll hexec
      rw [if_pos hroom] at htimeout
      cases r with
      | timeout => exact ⟨trivial,rfl,rfl⟩
      | _ => cases htimeout
    · rename_i hfull
      rw [if_neg hfull] at htimeout
      cases htimeout
  | _ => cases htimeout

/-- What a listener that has been told to stop still applies is what it hears before its
next poll timeout. -/
theorem run_accounts {schedule : List (Tid × Choice)} (h : Reachable W s) (hstop : Stopped n s)
    (hrun : run W s schedule = some s') :
    (s'.shared.conns n).applied.length + Command.due (s'.pcs (.listener n)) =
      (s.shared.conns n).applied.length + Command.due (s.pcs (.listener n)) + (heard W n s schedule).count 10 := by
  induction schedule generalizing s with
  | nil =>
    cases hrun
    rfl
  | cons a rest ih =>
    obtain ⟨t,c⟩ := a
    obtain ⟨m,hstep,hrest⟩ := Option.bind_eq_some_iff.mp hrun
    have hsession := run_session h n
    have hm : Reachable W m := h.tail ⟨t,c,hstep⟩
    have hstop' := step_stopped hsession hstop hstep
    have hlater := ih hm hstop' hrest
    simp only [heard, hstep, Option.map_some, Option.getD_some]
    by_cases ht : t = .listener n
    · subst ht
      cases htimeout : (s.op W (.listener n)).timesOut c with
      | true =>
        -- from here on the listener only leaves
        obtain ⟨hquitting,hshared,hdue⟩ := timeout_quitting htimeout hstep
        have hborn : m.shared.status (.listener n) ≠ .unborn := by
          rw [hshared]
          simp [(step_inversion hstep).1.2]
        obtain ⟨hlast,hsame⟩ := run_quitting hm hborn hstop' hquitting hrest
        simp [hsame, hshared, hlast.due, hdue]
      | false =>
        have hnow := listener_accounts h hstep
        simp only [↓reduceIte, Bool.false_eq_true, List.count_append]
        omega
    · obtain ⟨hpc,happlied⟩ := step_bystander hsession ht hstep
      rw [if_neg ht, hlater, hpc, happlied]

/-- After the listener has been told to stop, it applies at most one more command if the
bytes it reads before its next poll timeout hold at most one newline, and none when a
line is about to be applied already. This is exact for every run that does not end right
before the application of a line, as one that ends after the listener's return. -/
theorem listener_stops_iff {schedule : List (Tid × Choice)} (h : Reachable W s) (hstop : Stopped n s)
    (hrun : run W s schedule = some s') :
    ((heard W n s schedule).count 10 + Command.due (s.pcs (.listener n)) ≤ 1 →
      (s'.shared.conns n).applied.length ≤ (s.shared.conns n).applied.length + 1) ∧
    ((∀ line, s'.pcs (.listener n) ≠ .apply line) →
      ((s'.shared.conns n).applied.length ≤ (s.shared.conns n).applied.length + 1 ↔
        (heard W n s schedule).count 10 + Command.due (s.pcs (.listener n)) ≤ 1)) := by
  have haccounts := run_accounts h hstop hrun
  refine ⟨fun hfew => by omega,fun hnone => ?_⟩
  have hdue : Command.due (s'.pcs (.listener n)) = 0 := by
    generalize s'.pcs (.listener n) = pc at hnone
    cases pc with
    | apply line => exact absurd rfl (hnone line)
    | _ => rfl
  omega

def stopRequested : List (Tid × Choice) := startUp ++ connect ++ proceed .main 2

/-- One more command, then a pause of the client. -/
def lastCommand : List (Tid × Choice) :=
  command (ascii "SET_INTERVAL 50\n") ++
    [(.listener 0,.ok),(.listener 0,.poll .timeout),(.listener 0,.ok),(.listener 0,.ok),(.listener 0,.ok)]

theorem listener_stops_iff_timeout : ∃ s s', Reachable Main.workerPoolDefaultSize s ∧ Stopped 0 s ∧
    run Main.workerPoolDefaultSize s lastCommand = some s' ∧ s'.shared.status (.listener 0) = .returned ∧
    (heard Main.workerPoolDefaultSize 0 s lastCommand).count 10 + Command.due (s.pcs (.listener 0)) = 1 ∧
    (s'.shared.conns 0).applied.length ≤ (s.shared.conns 0).applied.length + 1 := by
  have hobserved : ((run Main.workerPoolDefaultSize .initial stopRequested).bind fun s =>
      (run Main.workerPoolDefaultSize s lastCommand).map fun s' =>
      (s.shared.stop,decide (s'.shared.status (.listener 0) = .returned),
        (heard Main.workerPoolDefaultSize 0 s lastCommand).count 10 + Command.due (s.pcs (.listener 0)))) =
      some (true,true,1) := by decide +kernel
  obtain ⟨s,hs,hrest⟩ := Option.bind_eq_some_iff.mp hobserved
  obtain ⟨s',hs',hvalues⟩ := Option.map_eq_some_iff.mp hrest
  simp only [Prod.mk.injEq, decide_eq_true_eq] at hvalues
  obtain ⟨hflag,hreturned,hheard⟩ := hvalues
  have hreach : Reachable Main.workerPoolDefaultSize s := run_reachable .refl hs
  have hstops := listener_stops_iff (n := 0) hreach (Or.inl hflag) hs'
  exact ⟨s,s',hreach,Or.inl hflag,hs',hreturned,hheard,hstops.1 hheard.le⟩

/-- Shutdown has been requested, but a client that always has a byte ready has two
more commands applied. -/
theorem listener_goes_on : ∃ s s', Reachable Main.workerPoolDefaultSize s ∧ Stopped 0 s ∧
    Relation.ReflTransGen (Step Main.workerPoolDefaultSize) s s' ∧
    (s.shared.conns 0).applied.length = 0 ∧ (s'.shared.conns 0).applied.length = 2 := by
  have hobserved : ((run Main.workerPoolDefaultSize .initial stopRequested).bind fun s =>
      (run Main.workerPoolDefaultSize s (command (ascii "SET_INTERVAL 50\n") ++ [(.listener 0,.ok)] ++
        command (ascii "SET_INTERVAL 60\n"))).map fun s' =>
      (s.shared.stop,(s.shared.conns 0).applied.length,(s'.shared.conns 0).applied.length)) =
      some (true,0,2) := by decide +kernel
  obtain ⟨s,hs,hrest⟩ := Option.bind_eq_some_iff.mp hobserved
  obtain ⟨s',hs',hvalues⟩ := Option.map_eq_some_iff.mp hrest
  simp only [Prod.mk.injEq] at hvalues
  obtain ⟨hflag,hbefore,hafter⟩ := hvalues
  exact ⟨s,s',run_reachable .refl hs,Or.inl hflag,run_path (fun a _ _ _ hm => ⟨a.1,a.2,hm⟩) hs',hbefore,hafter⟩

end RadioSim.Process
