import RadioSim.Process.Backpressure
import RadioSim.Process.Client

/-! # Commands before a close

A client sends its commands and closes. The listener looks at the hang-up flag of each
poll before it reads, so whether a command is applied depends on how much was read
before the close.
-/
namespace RadioSim.Process

def Choice.fails : Choice → Bool
  | .poll .error | .read .error | .write .error | .write (.wrote 0) => true
  | _ => false

def Undisturbed (n : ℕ) (w : World) : Event → Prop
  | .server (.listener m) c => m = n → c.fails = false
  | .server .transport c => Transport.connection (w.system.pcs .transport) = some n → c.fails = false
  | _ => True

instance (line : Bytes) : Decidable (IsCommand line) := inferInstanceAs (Decidable (_ ∧ _))

def LeftLoop (n : ℕ) (s : System) : Prop :=
  s.shared.status (.listener n) ≠ .unborn ∧
  (s.pcs (.listener n) = .clearPeer ∨ s.pcs (.listener n) = Command.Pc.done)

/-- The listener's poll reports the hang-up while there are bytes to read. -/
def CutOff (W n : ℕ) (w : World) (e : Event) : Prop :=
  e = .server (.listener n) (.poll (.ready true)) ∧ (∃ k, w.system.op W (.listener n) = .poll k) ∧ w.unread n ≠ []

section Attention
variable {W n : ℕ} {s s' : System} {t : Tid} {c : Choice}

/-- While the listener is in its loop the transport thread serves the connection. -/
structure Attentive (n : ℕ) (s : System) : Prop where
  declared : Scoped .transport (s.pcs .transport) n → Transport.stage (s.pcs .transport) ≤ 8 →
    (s.shared.conns n).peerAlive = true
  listening : s.shared.status (.listener n) ≠ .unborn → s.pcs (.listener n) ≠ Command.Pc.done →
    (s.shared.conns n).peerAlive = true ∧ ¬ Transport.Departed (s.pcs .transport)

theorem Effect.peerKept {P : Type} {sh sh' : Shared} {op : Op P} {p : P} (h : Effect t sh op p sh')
    (halive : (sh.conns n).peerAlive = true) : (sh'.conns n).peerAlive = true ∨
      (∃ next, op = .peerClear n next) ∨ (n = sh.accepted ∧ ∃ k, op = .accept k) := by
  cases h with
  | accepted k =>
    by_cases hn : n = sh.accepted
    · exact Or.inr (Or.inr ⟨hn,k,rfl⟩)
    · exact Or.inl (by simpa [Shared.setConn, hn] using halive)
  | peerDeclare m next =>
    left
    by_cases hn : n = m
    · simp [Shared.setConn, hn]
    · simpa [Shared.setConn, hn] using halive
  | peerClear m next =>
    by_cases hn : n = m
    · exact Or.inr (Or.inl ⟨_,by rw [hn]⟩)
    · exact Or.inl (by simpa [Shared.setConn, hn] using halive)
  | readByte m | wrote m | close m | peerEnd m | noteApplied m =>
    exact Or.inl ((field_setConn Conn.peerAlive n (by rfl)).trans halive)
  | _ => exact Or.inl halive

def Clearing : (t : Tid) → Pc t → ℕ → Prop
  | .listener m, pc, n => m = n ∧ pc = .clearPeer
  | .transport, .clearPeer client, n => client.n = n
  | _, _, _ => False

theorem code_peerClear {pc next : Pc t} (h : code W t pc = .peerClear n next) : Clearing t pc n := by
  have hsite := site_of_code h
  cases t with
  | transport =>
    obtain ⟨c,rfl,hc⟩ := hsite
    exact hc
  | listener m => exact ⟨hsite.1.symm,hsite.2⟩
  | _ => exact hsite.elim

/-- `peer_alive` comes into scope by its declaration. -/
theorem Effect.scoped {pc p : Pc t} {op : Op (Pc t)} {sh sh' : Shared} (h : Effect t sh op p sh')
    (hop : op.Disciplined t pc) (hscoped : Scoped t p n) : Scoped t pc n ∨ ∃ next, op = .peerDeclare n next := by
  have hsteady : Steady t pc p → Scoped t pc n := fun hs => (hs.peer n hscoped).resolve_right nofun
  cases h with
  | peerDeclare m next =>
    rcases hop.2.peer n hscoped with hold | hdeclared
    · exact Or.inl hold
    · cases hdeclared
      exact Or.inr ⟨_,rfl⟩
  | queueCreated q k => exact Or.inl ((hop.2.1.peer n hscoped).resolve_right nofun)
  | queueNotCreated q k => exact Or.inl (hsteady hop.2.2)
  | queueDestroyed q next r hr => exact Or.inl (hsteady hop.2.2.2)
  | subscribe topic q k hlock | subscribeFailed topic q k hlock => exact Or.inl (hsteady (hop.2.2.2.2 _))
  | unsubscribe topic q next hlock => exact Or.inl ((hop.2.2.peer n hscoped).resolve_right nofun)
  | publishNone topic item k hlock hl | publishBegin topic item k hlock l hl => exact Or.inl (hsteady (hop.2 _))
  | spawned child k | notSpawned child k => exact Or.inl (hsteady (hop.2 _))
  | joined child next hret => exact Or.inl ((Shift.peer hop n hscoped).resolve_right nofun)
  | accepted k => exact Or.inl ((hop.2.2.1 _).peer n hscoped |>.resolve_right nofun)
  | notAccepted k => exact Or.inl (hsteady hop.2.2.2)
  | close m next | peerEnd m next => exact Or.inl (hsteady hop.2.2.2)
  | _ => first | exact Or.inl (hsteady hop) | exact Or.inl (hsteady (hop _))

/-- A transport thread whose calls do not fail goes on serving. -/
theorem transport_serves {sh sh' : Shared} {pc p : Transport.Pc}
    (h : exec .transport c sh (Transport.code pc) = some (p,sh')) (hstage : Transport.stage pc = 9)
    (hn : Transport.connection pc = some n) (hserves : ¬ Transport.Departed pc)
    (halive : (sh.conns n).peerAlive = true) (hstop : sh.stop = false) (hcall : c.fails = false) :
    ¬ Transport.Departed p := by
  cases pc with
  | checkPeer client =>
    cases hn
    simp only [Transport.code, exec, halive, ↓reduceIte] at h
    cases h
    exact id
  | checkStop client =>
    simp only [Transport.code, exec, hstop, Bool.false_eq_true, ↓reduceIte] at h
    cases h
    exact id
  | tryTelemetry client | tryAlerts client =>
    refine (exec_effect h).all (I := fun p => ¬ Transport.Departed p) fun item => ?_
    cases item <;> exact id
  | sleep client =>
    cases h
    exact id
  | formatTelemetry client item | formatAlert client item =>
    refine (exec_effect h).all (I := fun p => ¬ Transport.Departed p) ?_
    change ¬ Transport.Departed (Transport.afterFormat _ _ _)
    unfold Transport.afterFormat
    split
    · exact id
    · exact Bool.noConfusion
  | write client item rest =>
    rcases (writeAll_turn h).2.2 with ⟨_,rfl,_⟩ | ⟨m,rfl,_⟩ | ⟨_,hfails,_⟩
    · exact Bool.noConfusion
    · exact id
    · have hcontra : c.fails = true := by
        cases c with
        | write r =>
          cases r with
          | wrote m =>
            obtain rfl : m = 0 := of_decide_eq_true hfails
            rfl
          | error => rfl
          | eintr => cases hfails
        | _ => cases hfails
      rw [hcall] at hcontra
      cases hcontra
  | release client item alive =>
    cases alive with
    | false => exact absurd rfl hserves
    | true =>
      refine (exec_effect h).all (I := fun p => ¬ Transport.Departed p) ?_
      exact id
  | clearPeer client | joinListener client => exact absurd trivial hserves
  | _ => cases hstage

/-- The flag survives a step that does not clear it. -/
theorem step_alive (halive : (s.shared.conns n).peerAlive = true) (hlt : n < s.shared.accepted)
    (hclear : ¬ Clearing t (s.pcs t) n) (hstep : step W s t c = some s') : (s'.shared.conns n).peerAlive = true := by
  obtain ⟨_,p,sh',hexec,rfl⟩ := step_inversion hstep
  rcases (exec_effect hexec).peerKept halive with hsame | ⟨next,hop⟩ | ⟨hn,_⟩
  · exact hsame
  · exact absurd (code_peerClear hop) hclear
  · omega

theorem step_declared (hsession : Session (s.pcs .transport) (s.pcs (.listener n)) s.shared n) (h : Attentive n s)
    (hstep : step W s t c = some s') (hscoped : Scoped .transport (s'.pcs .transport) n)
    (hstage : Transport.stage (s'.pcs .transport) ≤ 8) : (s'.shared.conns n).peerAlive = true := by
  have hkept := fun halive hlt hclear => step_alive (n := n) halive hlt hclear hstep
  obtain ⟨hrunning,p,sh',hexec,rfl⟩ := step_inversion hstep
  have heff := exec_effect hexec
  by_cases ht : .transport = t
  · subst ht
    simp only [Function.update_self] at hscoped hstage
    rcases heff.scoped (code_disciplined W .transport (s.pcs .transport)) hscoped with hold | ⟨next,hop⟩
    · have hn := scoped_opened hold
      have hpc : s.pcs .transport ≠ .accept := by
        intro hpc
        rw [hpc] at hn
        cases hn
      have hstage' : Transport.stage (s.pcs .transport) ≤ 8 :=
        ((Effect.follows heff).advances hpc (scoped_opened hscoped)).2.trans hstage
      refine hkept (h.declared hold hstage') (hsession.greeted hn).1 fun hclear => ?_
      generalize s.pcs .transport = tpc at hclear hstage'
      cases tpc with
      | clearPeer client => exact absurd hstage' (by simp [Transport.stage])
      | _ => exact hclear
    · rw [hop] at heff
      cases heff
      simp [Shared.setConn]
  · simp only [Function.update_of_ne ht] at hscoped hstage
    obtain ⟨hlt,hgreeted⟩ := hsession.greeted (scoped_opened hscoped)
    refine hkept (h.declared hscoped hstage) hlt fun hclear => ?_
    cases t with
    | transport => exact ht rfl
    | listener m =>
      obtain ⟨rfl,_⟩ := hclear
      exact absurd ((hgreeted hstage).1.symm.trans hrunning.2) (by simp)
    | _ => exact hclear

/-- A step of the transport thread, which may be the one that starts the listener. -/
theorem step_serves (hreach : Reachable W s) (h : Attentive n s) (hstop : s.shared.stop = false)
    (hcall : Transport.connection (s.pcs .transport) = some n → c.fails = false)
    (hstep : step W s .transport c = some s') (hborn : s'.shared.status (.listener n) ≠ .unborn)
    (hpc : s.pcs (.listener n) ≠ Command.Pc.done) :
    (s'.shared.conns n).peerAlive = true ∧ ¬ Transport.Departed (s'.pcs .transport) := by
  have hkept := fun halive hlt hclear => step_alive (n := n) halive hlt hclear hstep
  have hsession := run_session hreach n
  obtain ⟨_,p,sh',hexec,rfl⟩ := step_inversion hstep
  simp only [Function.update_self]
  have heff := exec_effect hexec
  -- either this step starts the listener, or the listener was running before it
  by_cases hold : s.shared.status (.listener n) = .unborn
  · have hstart : Starting .transport (s.pcs .transport) n := by
      by_contra hnot
      have hstatus := heff.listener_status (code_heeding W .transport (s.pcs .transport)) (by simp) hnot
      exact hborn (hstatus.trans hold)
    change Effect _ _ (Transport.code (s.pcs .transport)) _ _ at heff
    have hdeclared := h.declared
    generalize s.pcs .transport = tpc at hstart heff hdeclared
    cases tpc with
    | spawnListener client =>
      cases heff with
      | spawned =>
        exact ⟨hdeclared ⟨client,rfl,hstart,Nat.le_of_ble_eq_true rfl,Nat.le_of_ble_eq_true rfl⟩
          (Nat.le_of_ble_eq_true rfl),id⟩
      | notSpawned => exact absurd hold hborn
    | _ => exact hstart.elim
  · obtain ⟨halive,hserves⟩ := h.listening hold hpc
    have hrunning : s.shared.status (.listener n) = .running := by
      cases hstatus : s.shared.status (.listener n) with
      | unborn => exact absurd hstatus hold
      | running => rfl
      | returned => exact absurd ((run_staffed hreach).ended _ hstatus) hpc
    obtain ⟨client,hclient,rfl,_,hstage⟩ := (run_tidy hreach).listening n hrunning
    have hn := Transport.connection_client hclient
    refine ⟨hkept halive (hsession.heard hold).1 fun hclear => hserves ?_,
      transport_serves hexec hstage hn hserves halive hstop (hcall hn)⟩
    generalize s.pcs .transport = tpc at hclear
    cases tpc with
    | clearPeer client => exact trivial
    | _ => exact hclear.elim

theorem step_attentive (hreach : Reachable W s) (h : Attentive n s) (hstop : s.shared.stop = false)
    (hcall : t = .transport → Transport.connection (s.pcs .transport) = some n → c.fails = false)
    (hstep : step W s t c = some s') : Attentive n s' := by
  have hsession := run_session hreach n
  refine ⟨step_declared hsession h hstep,fun hborn hpc => ?_⟩
  have hkept := fun halive hlt hclear => step_alive (n := n) halive hlt hclear hstep
  by_cases ht : .transport = t
  · subst ht
    have hpc' : s.pcs (.listener n) ≠ Command.Pc.done := by
      obtain ⟨_,p,sh',_,rfl⟩ := step_inversion hstep
      simpa using hpc
    exact step_serves hreach h hstop (hcall rfl) hstep hborn hpc'
  · obtain ⟨hrunning,p,sh',hexec,rfl⟩ := step_inversion hstep
    have heff := exec_effect hexec
    simp only [Function.update_of_ne ht]
    by_cases hl : .listener n = t
    · subst hl
      simp only [Function.update_self] at hpc
      have hborn' : s.shared.status (.listener n) ≠ .unborn := by simp [hrunning.2]
      change Effect _ _ (Command.code n (s.pcs (.listener n))) _ _ at heff
      have hpc' : s.pcs (.listener n) ≠ Command.Pc.done := by
        intro hdone
        rw [hdone] at heff
        cases heff
        exact hpc rfl
      obtain ⟨halive,hserves⟩ := h.listening hborn' hpc'
      refine ⟨hkept halive (hsession.heard hborn').1 fun hclear => ?_,hserves⟩
      rw [hclear.2] at heff
      cases heff
      exact hpc rfl
    · simp only [Function.update_of_ne hl] at hpc
      have hstatus := heff.listener_status (n := n) (code_heeding W t (s.pcs t)) (Ne.symm hl)
        (not_starting (Ne.symm ht) _ n)
      obtain ⟨halive,hserves⟩ := h.listening (hstatus ▸ hborn) hpc
      refine ⟨hkept halive (hsession.heard (hstatus ▸ hborn)).1 fun hclear => ?_,hserves⟩
      cases t with
      | transport => exact ht rfl
      | listener m => exact hl (by rw [hclear.1])
      | _ => exact hclear

end Attention

section Leaving
variable {W room n : ℕ} {w w' : World} {e : Event} {events : List Event}

/-- Why a listener leaves its loop while it is told to go on and its calls do not fail. -/
theorem listener_leaves {c : Choice} {sh sh' : Shared} {pc p : Command.Pc}
    (h : exec (.listener n) c sh (Command.code n pc) = some (p,sh')) (hp : p = .clearPeer ∨ p = .done)
    (hpc : pc ≠ .clearPeer) (hpc' : pc ≠ .done) (hstop : sh.stop = false) (halive : (sh.conns n).peerAlive = true)
    (hcall : c.fails = false) : sh' = sh ∧
      ((∃ k, Command.code n pc = .poll k ∧ c = .poll (.ready true)) ∨
        (∃ buf, pc = .poll buf ∧ Command.commandLineMax ≤ buf.length + 1) ∨
        ∃ buf k, pc = .read buf ∧ Command.code n pc = .sockRead n k ∧ c = .read .eof) := by
  cases (exec_effect h).listener_follows with
  | leaves buf =>
    simp only [Command.code] at h ⊢
    split at h
    · rename_i hroom
      rw [if_pos hroom]
      cases c with
      | poll r =>
        cases r with
        | error => cases hcall
        | eintr | timeout => cases h
        | ready hangup =>
          cases hangup with
          | false => cases h
          | true =>
            cases h
            exact ⟨rfl,Or.inl ⟨_,rfl,rfl⟩⟩
      | _ => cases h
    · rename_i hlong
      cases h
      exact ⟨rfl,Or.inr (Or.inl ⟨buf,rfl,by omega⟩)⟩
  | stops buf =>
    simp only [Command.code, exec, hstop, Bool.false_eq_true, ↓reduceIte] at h
    cases h
  | peerGone buf =>
    simp only [Command.code, exec, halive, ↓reduceIte] at h
    cases h
  | closed buf =>
    obtain ⟨r,rfl,hr,rfl⟩ := exec_sockRead h
    cases r with
    | byte b =>
      dsimp only at hr
      split at hr <;> cases hr
    | eof => exact ⟨rfl,Or.inr (Or.inr ⟨buf,_,rfl,rfl,rfl⟩)⟩
    | eintr => cases hr
    | error => cases hcall
  | cleared => exact absurd rfl hpc
  | returned => exact absurd rfl hpc'
  | _ => rcases hp with hp | hp <;> cases hp

/-- A listener that has left its loop does not come back, and reads nothing more. -/
theorem next_left (hreach : Reachable W w.system) (h : LeftLoop n w.system) (hnext : World.next W room w e = some w') :
    LeftLoop n w'.system ∧ (w'.system.shared.conns n).consumed = (w.system.shared.conns n).consumed := by
  rcases next_inversion hnext with ⟨t,c,s,_,hstep,rfl,_⟩ | ⟨_,hsystem,_⟩
  · obtain ⟨hborn,hpc⟩ := h
    by_cases ht : .listener n = t
    · subst ht
      obtain ⟨_,p,sh',hexec,rfl⟩ := step_inversion hstep
      have heff := exec_effect hexec
      refine ⟨⟨heff.born hborn,?_⟩,?_⟩
      · simp only [Function.update_self]
        change Effect _ _ (Command.code n (w.system.pcs (.listener n))) _ _ at heff
        rcases hpc with hpc | hpc <;> rw [hpc] at heff <;> cases heff <;> exact Or.inr rfl
      · change Effect _ _ (Command.code n (w.system.pcs (.listener n))) _ _ at heff
        rcases hpc with hpc | hpc <;> rw [hpc] at heff <;> cases heff
        · exact field_setConn Conn.consumed n (by rfl)
        · rfl
    · have hconsumed := step_consumed (run_session hreach n) hborn (Ne.symm ht) hstep
      obtain ⟨_,p,sh',hexec,rfl⟩ := step_inversion hstep
      refine ⟨⟨(exec_effect hexec).born hborn,?_⟩,hconsumed⟩
      simpa only [Function.update_of_ne ht] using hpc
  · rw [hsystem]
    exact ⟨h,rfl⟩

def WasCutOff (W room n : ℕ) (events : List Event) : Prop :=
  ∃ pre e m, pre ++ [e] <+: events ∧ World.run W room .initial pre = some m ∧ CutOff W n m e

def Overlong (consumed : Bytes) : Prop :=
  ∃ first lines part, consumed = joinLines 10 (first :: lines) ++ part ∧ (∀ line ∈ first :: lines, 10 ∉ line) ∧
    10 ∉ part ∧ Command.commandLineMax - 1 ≤ part.length

/-- What a run without failing calls and without shutdown makes of the listener: it stays
in its loop until everything is read, it is cut off, or a line is too long. -/
structure Fate (W room n : ℕ) (events : List Event) (w : World) : Prop where
  attentive : Attentive n w.system
  reason : LeftLoop n w.system → ((w.clients n).ended = true ∧ w.unread n = []) ∨ WasCutOff W room n events ∨
    Overlong (w.system.shared.conns n).consumed
  cut : WasCutOff W room n events → LeftLoop n w.system ∧ w.unread n ≠ []

theorem WasCutOff.mono (h : WasCutOff W room n events) (e : Event) : WasCutOff W room n (events ++ [e]) := by
  obtain ⟨pre,e',m,hpre,hm,hcut⟩ := h
  exact ⟨pre,e',m,hpre.trans (List.prefix_append _ _),hm,hcut⟩

theorem wasCutOff_concat (hrun : World.run W room .initial events = some w) :
    WasCutOff W room n (events ++ [e]) ↔ WasCutOff W room n events ∨ CutOff W n w e := by
  constructor
  · rintro ⟨pre,e',m,hpre,hm,hcut⟩
    rcases List.prefix_concat_iff.mp hpre with hsame | hold
    · obtain ⟨rfl,hlast⟩ := List.append_inj' hsame rfl
      obtain rfl := List.singleton_inj.mp hlast
      rw [hrun] at hm
      cases hm
      exact Or.inr hcut
    · exact Or.inl ⟨pre,e',m,hold,hm,hcut⟩
  · rintro (hold | hcut)
    · exact hold.mono e
    · exact ⟨events,e,w,List.prefix_rfl,hrun,hcut⟩

/-- The listener leaves its loop with this event. -/
theorem next_reason (hrun : World.run W room .initial events = some w) (h : Fate W room n events w)
    (hstop : w.system.shared.stop = false) (hcall : Undisturbed n w e) (hnext : World.next W room w e = some w')
    (hbefore : ¬ LeftLoop n w.system) (hafter : LeftLoop n w'.system) :
    ((w'.clients n).ended = true ∧ w'.unread n = []) ∨ WasCutOff W room n (events ++ [e]) ∨
      Overlong (w'.system.shared.conns n).consumed := by
  have hreach := world_run_system hrun
  rcases next_inversion hnext with ⟨t,c,s,rfl,hstep,rfl,hadmits⟩ | ⟨_,hsystem,_⟩
  · obtain ⟨hrunning,p,sh',hexec,rfl⟩ := step_inversion hstep
    by_cases ht : .listener n = t
    · subst ht
      have hborn : w.system.shared.status (.listener n) ≠ .unborn := by simp [hrunning.2]
      have hpc : w.system.pcs (.listener n) ≠ .clearPeer := fun heq => hbefore ⟨hborn,Or.inl heq⟩
      have hpc' : w.system.pcs (.listener n) ≠ Command.Pc.done := fun heq => hbefore ⟨hborn,Or.inr heq⟩
      have hp := hafter.2
      simp only [Function.update_self] at hp
      obtain ⟨rfl,⟨k,hop,rfl⟩ | ⟨buf,hpoll,hlong⟩ | ⟨buf,k,hread,hop,rfl⟩⟩ :=
        listener_leaves hexec hp hpc hpc' hstop (h.attentive.listening hborn hpc').1 (hcall rfl)
      · -- the poll reports a hang-up
        rw [show w.system.op W (.listener n) = .poll k from hop] at hadmits
        have hclosed : (w.clients n).closed = true := by
          by_contra hopen
          by_cases hnone : w.unread n = [] ∧ (w.clients n).ended = false <;>
            simp [World.answers, Op.faults, World.pollAnswer, hopen, hnone] at hadmits
        by_cases hunread : w.unread n = []
        · exact Or.inl ⟨(w.clients n).ended_of_closed hclosed,hunread⟩
        · exact Or.inr (Or.inl ((wasCutOff_concat hrun).mpr (Or.inr ⟨rfl,⟨k,hop⟩,hunread⟩)))
      · -- the buffer is full
        obtain ⟨first,lines,part,hsplit,hfirst,hlines,_,hpart⟩ := ((run_session hreach n).heard hborn).2
        rw [hpoll] at hpart
        obtain ⟨rfl,hbuf⟩ := hpart
        refine Or.inr (Or.inr ⟨first,lines,part,?_,?_,hbuf,by omega⟩)
        · rw [joinLines_cons]
          exact hsplit
        · exact List.forall_mem_cons.mpr ⟨hfirst,fun line hline => (hlines line hline).1⟩
      · -- the stream has ended
        rw [show w.system.op W (.listener n) = .sockRead n k from hop] at hadmits
        have hanswer : w.readAnswer n = some .eof := by simpa [World.answers, Op.faults] using hadmits
        unfold World.readAnswer at hanswer
        split at hanswer
        · cases hanswer
        · rename_i hunread
          split at hanswer
          · rename_i hended
            exact Or.inl ⟨hended,hunread⟩
          · cases hanswer
    · refine absurd ?_ hbefore
      have hpc := hafter.2
      simp only [Function.update_of_ne ht] at hpc
      refine ⟨fun hunborn => ?_,hpc⟩
      rw [(run_staffed hreach).fresh _ hunborn] at hpc
      rcases hpc with hpc | hpc <;> cases hpc
  · rw [hsystem] at hafter
    exact absurd hafter hbefore

theorem next_fate (hrun : World.run W room .initial events = some w) (h : Fate W room n events w)
    (hstop : w.system.shared.stop = false) (hcall : Undisturbed n w e) (hnext : World.next W room w e = some w') :
    Fate W room n (events ++ [e]) w' := by
  have hreach := world_run_system hrun
  refine ⟨?_,fun hafter => ?_,fun hcut => ?_⟩
  · rcases next_inversion hnext with ⟨t,c,s,rfl,hstep,rfl,_⟩ | ⟨_,hsystem,_⟩
    · refine step_attentive hreach h.attentive hstop (fun ht hn => ?_) hstep
      subst ht
      exact hcall hn
    · rw [hsystem]
      exact h.attentive
  · by_cases hbefore : LeftLoop n w.system
    · have hconsumed := (next_left hreach hbefore hnext).2
      rcases h.reason hbefore with ⟨hended,hunread⟩ | hcut | hlong
      · obtain ⟨hended',hsent⟩ := (next_clients hnext n).2 hended
        refine Or.inl ⟨hended',?_⟩
        rw [World.unread, hconsumed, hsent]
        exact hunread
      · exact Or.inr (Or.inl (hcut.mono e))
      · exact Or.inr (Or.inr (hconsumed ▸ hlong))
    · exact next_reason hrun h hstop hcall hnext hbefore hafter
  · rcases (wasCutOff_concat hrun).mp hcut with hold | ⟨rfl,⟨k,hop⟩,hne⟩
    · obtain ⟨hleft,hne⟩ := h.cut hold
      obtain ⟨hleft',hconsumed⟩ := next_left hreach hleft hnext
      exact ⟨hleft',(run_linked hrun).unread_mono hnext hconsumed hne⟩
    · rcases next_inversion hnext with ⟨t,c,s,heq,hstep,rfl,_⟩ | ⟨hnot,_⟩
      · cases heq
        obtain ⟨hrunning,p,sh',hexec,rfl⟩ := step_inversion hstep
        rw [hop] at hexec
        cases hexec
        refine ⟨⟨by simp [hrunning.2],Or.inl ?_⟩,hne⟩
        simp only [Function.update_self]
        change Command.code n (w.system.pcs (.listener n)) = _ at hop
        generalize w.system.pcs (.listener n) = pc at hop
        cases pc with
        | poll buf =>
          simp only [Command.code] at hop
          split at hop
          · cases hop
            rfl
          · cases hop
        | _ => cases hop
      · exact absurd rfl (hnot _ _)

theorem run_fate (hrun : World.run W room .initial events = some w)
    (hcalls : ∀ pre e m, pre ++ [e] <+: events → World.run W room .initial pre = some m → Undisturbed n m e)
    (hstop : w.system.shared.stop = false) : Fate W room n events w := by
  refine world_run_induction (I := fun pre w => pre <+: events → w.system.shared.stop = false →
    Fate W room n pre w) (fun _ _ => ?_) (fun pre m e m' hm hnext ih hpre hstop => ?_) hrun List.prefix_rfl hstop
  · refine ⟨⟨?_,?_⟩,?_,?_⟩
    · rintro ⟨client,hclient,_⟩
      cases hclient
    · exact fun hborn => absurd rfl hborn
    · exact fun hleft => absurd rfl hleft.1
    · rintro ⟨pre,e,_,hpre,_⟩
      simp at hpre
  · have hstop' : m.system.shared.stop = false := by
      rcases next_inversion hnext with ⟨t,c,s,_,hstep,rfl,_⟩ | ⟨_,hsystem,_⟩
      · obtain ⟨_,p,sh',hexec,rfl⟩ := step_inversion hstep
        by_contra hnot
        rw [Bool.not_eq_false] at hnot
        rw [(exec_effect hexec).stop_mono hnot] at hstop
        cases hstop
      · rwa [hsystem] at hstop
    exact next_fate hm (ih ((List.prefix_append _ _).trans hpre) hstop') hstop' (hcalls pre e m hpre hm) hnext

end Leaving

section Commands
variable {W room n : ℕ} {w : World} {events : List Event} {first : Bytes} {lines : List Bytes}

/-- Commands before a close, over every run without shutdown in which no call of the
server on the connection fails: when the listener has left its loop it has applied all
commands that the client has sent exactly if none of its polls reported the hang-up
while there were still bytes to read. -/
theorem commands_kept_iff (hrun : World.run W room .initial events = some w)
    (hcalls : ∀ pre e m, pre ++ [e] <+: events → World.run W room .initial pre = some m → Undisturbed n m e)
    (hstop : w.system.shared.stop = false) (hleft : LeftLoop n w.system) (hfirst : 10 ∉ first)
    (hlines : ∀ line ∈ lines, IsCommand line) (hsent : (w.clients n).sent = joinLines 10 (first :: lines)) :
    (w.system.shared.conns n).applied = lines.map .ofBuffer ↔
      ∀ pre e m, pre ++ [e] <+: events → World.run W room .initial pre = some m → ¬ CutOff W n m e := by
  have hfate := run_fate hrun hcalls hstop
  obtain ⟨first',got,part,hsplit,hfirst',hgot,happlied,hpending⟩ :=
    ((run_session (world_run_system hrun) n).heard hleft.1).2
  have hpart : 10 ∉ part := by
    rcases hleft.2 with hpc | hpc <;> rw [hpc] at hpending <;> exact hpending
  have hall : ∀ line ∈ first :: lines, 10 ∉ line :=
    List.forall_mem_cons.mpr ⟨hfirst,fun line hline => (hlines line hline).1⟩
  have hbytes := hsent.symm.trans ((run_linked hrun).sent_eq n)
  -- what has been applied is an initial part of what was sent
  obtain ⟨more,hmore,hrest⟩ : ∃ more, first :: lines = first' :: got ++ more ∧
      part ++ w.unread n = joinLines 10 more := by
    refine joinLines_split (List.forall_mem_cons.mpr ⟨hfirst',fun line hline => (hgot line hline).1⟩) hall ?_
    rw [hbytes, hsplit, joinLines_cons]
    simp
  obtain ⟨rfl,rfl⟩ := List.cons.inj (hmore.trans List.cons_append)
  constructor
  · intro hkept pre e m hpre hm hcut
    have hlength := congrArg List.length (happlied.symm.trans hkept)
    simp only [List.length_map, List.length_append] at hlength
    obtain rfl : more = [] := List.length_eq_zero_iff.mp (by omega)
    exact (hfate.cut ⟨pre,e,m,hpre,hm,hcut⟩).2 (List.append_eq_nil_iff.mp hrest).2
  · intro hnone
    have hdone : more = [] := by
      rcases hfate.reason hleft with ⟨_,hunread⟩ | ⟨pre,e,m,hpre,hm,hcut⟩ | ⟨head,before,long,hlong,hbefore,hnot,hmax⟩
      · rw [hunread, List.append_nil] at hrest
        cases more with
        | nil => rfl
        | cons line rest => exact absurd (by simp [hrest, joinLines]) hpart
      · exact absurd hcut (hnone pre e m hpre hm)
      · -- the line that is too long would be one of the commands
        obtain ⟨after,hafter,hend⟩ := joinLines_split hbefore hall (by rw [hbytes, hlong, List.append_assoc])
        have hne : long ≠ [] := by
          rintro rfl
          simp [Command.commandLineMax] at hmax
        obtain ⟨line,hline,hle⟩ := length_le_of_joinLines hnot hne hend
        rw [List.cons_append] at hafter
        have hcommand := (hlines line ((List.cons.inj hafter).2 ▸ List.mem_append_right before hline)).2
        simp only [Command.commandLineMax] at hmax hcommand
        omega
    rw [happlied, hdone, List.append_nil]

def Event.fails : Event → Bool
  | .server _ c => c.fails
  | _ => false

theorem undisturbed_of_calls (h : ∀ e ∈ events, e.fails = false) (pre : List Event) (e : Event) (m : World)
    (hpre : pre ++ [e] <+: events) (_ : World.run W room .initial pre = some m) : Undisturbed n m e := by
  have he := h e (hpre.subset (by simp))
  cases e with
  | server t c =>
    cases t with
    | listener k => exact fun _ => he
    | transport => exact fun _ => he
    | _ => exact trivial
  | _ => exact trivial

def greetingLine : Bytes := ascii "HELLO CLIENT_VERSIONS=1"
def intervalLine : Bytes := ascii "SET_INTERVAL 50"

/-- The client closes after the listener has read its command. -/
def patient : List Event :=
  greeting ++ [.send 0 (intervalLine ++ [10])] ++ serve (command (intervalLine ++ [10]) ++ [(.listener 0,.ok)]) ++
    [.close 0] ++ serve [(.listener 0,.poll (.ready true)),(.listener 0,.ok),(.listener 0,.ok)]

theorem left_of_returned (hrun : World.run W room .initial events = some w)
    (h : w.system.shared.status (.listener n) = .returned) : LeftLoop n w.system :=
  ⟨by simp [h],Or.inr ((run_staffed (world_run_system hrun)).ended _ h)⟩

theorem commands_kept_iff_patient : ∃ w, World.run Main.workerPoolDefaultSize 4096 .initial patient = some w ∧
    LeftLoop 0 w.system ∧ (w.clients 0).closed = true ∧ (w.system.shared.conns 0).applied = [.ofBuffer intervalLine] ∧
    ∀ pre e m, pre ++ [e] <+: patient → World.run Main.workerPoolDefaultSize 4096 .initial pre = some m →
      ¬ CutOff Main.workerPoolDefaultSize 0 m e := by
  have hobserved : (World.run Main.workerPoolDefaultSize 4096 .initial patient).map (fun w =>
      (w.system.shared.stop,w.system.shared.status (.listener 0),(w.clients 0).closed,(w.clients 0).sent,
        (w.system.shared.conns 0).applied)) =
      some (false,.returned,true,joinLines 10 [greetingLine,intervalLine],[.ofBuffer intervalLine]) := by
    decide +kernel
  obtain ⟨w,hrun,hw⟩ := Option.map_eq_some_iff.mp hobserved
  simp only [Prod.mk.injEq] at hw
  obtain ⟨hstop,hstatus,hclosed,hsent,happlied⟩ := hw
  have hleft := left_of_returned hrun hstatus
  have hcalls : ∀ e ∈ patient, e.fails = false := by decide +kernel
  have hline : ∀ line ∈ [intervalLine], IsCommand line := by decide +kernel
  exact ⟨w,hrun,hleft,hclosed,happlied,
    (commands_kept_iff hrun (undisturbed_of_calls hcalls) hstop hleft (by decide +kernel) hline hsent).mp happlied⟩

/-- The client closes as soon as it has sent its command. -/
def hasty : List Event :=
  greeting ++ [.send 0 (intervalLine ++ [10]),.close 0] ++
    serve [(.listener 0,.poll (.ready true)),(.listener 0,.ok),(.listener 0,.ok)]

/-- No call has failed and no shutdown is requested, but the command is not applied. -/
theorem commands_not_kept : ∃ w, World.run Main.workerPoolDefaultSize 4096 .initial hasty = some w ∧
    (∀ pre e m, pre ++ [e] <+: hasty → World.run Main.workerPoolDefaultSize 4096 .initial pre = some m →
      Undisturbed 0 m e) ∧
    w.system.shared.stop = false ∧ LeftLoop 0 w.system ∧ (∀ line ∈ [intervalLine], IsCommand line) ∧
    (w.clients 0).sent = joinLines 10 [greetingLine,intervalLine] ∧ (w.system.shared.conns 0).applied = [] := by
  have hobserved : (World.run Main.workerPoolDefaultSize 4096 .initial hasty).map (fun w =>
      (w.system.shared.stop,w.system.shared.status (.listener 0),(w.clients 0).sent,
        (w.system.shared.conns 0).applied)) =
      some (false,.returned,joinLines 10 [greetingLine,intervalLine],[]) := by
    decide +kernel
  obtain ⟨w,hrun,hw⟩ := Option.map_eq_some_iff.mp hobserved
  simp only [Prod.mk.injEq] at hw
  obtain ⟨hstop,hstatus,hsent,happlied⟩ := hw
  have hcalls : ∀ e ∈ hasty, e.fails = false := by decide +kernel
  exact ⟨w,hrun,undisturbed_of_calls hcalls,hstop,left_of_returned hrun hstatus,by decide +kernel,hsent,happlied⟩

end Commands

end RadioSim.Process
