import RadioSim.Foundation.Lines
import RadioSim.Process.Negotiation
import RadioSim.Process.Wire

/-! # What a client sends

The bytes of a connection have two readers, one after the other: the handshake
takes the first line, and the command listener the lines after it.
-/
namespace RadioSim.Process
open Handshake

section Lines

/-- A line that `read_command_line` can return. -/
def IsCommand (line : Bytes) : Prop := 10 ∉ line ∧ line.length ≤ Command.commandLineMax - 2

def Pending : Command.Pc → Bytes → Prop
  | .poll buf, part | .timedOut buf, part | .checkPeer buf, part => part = buf ∧ 10 ∉ buf
  | .read buf, part => part = buf ∧ IsCommand buf
  | .apply line, part => ∃ text, part = text ++ [10] ∧ IsCommand text ∧ line = .ofBuffer text
  | .clearPeer, part | .done, part => 10 ∉ part
  | _, part => part = []

/-- Everything read so far is the first line, the applied commands and what is pending. -/
def Heard (pc : Command.Pc) (conn : Conn) : Prop :=
  ∃ first lines part, conn.consumed = first ++ 10 :: (joinLines 10 lines ++ part) ∧ 10 ∉ first ∧
    (∀ line ∈ lines, IsCommand line) ∧ conn.applied = lines.map .ofBuffer ∧ Pending pc part

/-- The commands of a stream: its lines after the first one, up to one that is too long. -/
def commandLines (stream : Bytes) : List Bytes :=
  (terminatedLines 10 stream).tail.takeWhile fun line => line.length ≤ Command.commandLineMax - 2

theorem Heard.mono {pc p : Command.Pc} {conn conn' : Conn} (h : Heard pc conn)
    (hin : conn'.consumed = conn.consumed) (happlied : conn'.applied = conn.applied)
    (hp : ∀ part, Pending pc part → Pending p part) : Heard p conn' := by
  obtain ⟨first,lines,part,hsplit,hfirst,hlines,hcommands,hpending⟩ := h
  exact ⟨first,lines,part,hin.trans hsplit,hfirst,hlines,happlied.trans hcommands,hp part hpending⟩

/-- What has been applied is a part of the commands of any stream that begins with
what has been read. -/
theorem Heard.applied_in_order {pc : Command.Pc} {conn : Conn} (h : Heard pc conn) {stream : Bytes}
    (hstream : conn.consumed <+: stream) : conn.applied <+: (commandLines stream).map .ofBuffer := by
  obtain ⟨first,lines,part,hsplit,hfirst,hlines,hcommands,_⟩ := h
  obtain ⟨more,rfl⟩ := hstream
  have hterminated : (terminatedLines 10 (conn.consumed ++ more)).tail =
      lines ++ terminatedLines 10 (part ++ more) := by
    rw [hsplit, List.append_assoc, List.cons_append, List.append_assoc, terminatedLines_append hfirst,
      terminatedLines_joinLines fun line hline => (hlines line hline).1, List.tail_cons]
  have hfit : ∀ line ∈ lines, decide (line.length ≤ Command.commandLineMax - 2) = true :=
    fun line hline => decide_eq_true (hlines line hline).2
  rw [commandLines, hterminated, List.takeWhile_append_of_pos hfit, hcommands, List.map_append]
  exact List.prefix_append _ _

end Lines

section Listener
variable {n : ℕ} {sh sh' : Shared} {pc p : Command.Pc}

theorem pending_afterApply (line : CString) : Pending (Command.afterApply line) [] := by
  unfold Command.afterApply
  split
  · exact rfl
  · exact rfl
  · exact ⟨rfl,List.not_mem_nil⟩

/-- A step of the listener loses no byte and passes on no byte twice. -/
theorem listener_heard (h : Effect (.listener n) sh (Command.code n pc) p sh') (hs : Heard pc (sh.conns n)) :
    Heard p (sh'.conns n) := by
  cases pc with
  | poll buf =>
    simp only [Command.code] at h
    split at h
    · rename_i hroom
      cases h with
      | poll _ r =>
        refine hs.mono rfl rfl fun part hpart => ?_
        cases r with
        | error => exact hpart.1 ▸ hpart.2
        | eintr | timeout => exact hpart
        | ready hangup =>
          cases hangup
          · refine ⟨hpart.1,hpart.2,?_⟩
            simp only [Command.commandLineMax] at hroom ⊢
            omega
          · exact hpart.1 ▸ hpart.2
    · cases h
      exact hs.mono rfl rfl fun part hpart => hpart.1 ▸ hpart.2
  | timedOut buf =>
    cases h with
    | shutdownRequested =>
      refine hs.mono rfl rfl fun part hpart => ?_
      cases sh.stop
      · exact hpart
      · exact hpart.1 ▸ hpart.2
  | checkPeer buf =>
    cases h with
    | peerRead =>
      refine hs.mono rfl rfl fun part hpart => ?_
      cases (sh.conns n).peerAlive
      · exact hpart.1 ▸ hpart.2
      · exact hpart
  | read buf =>
    cases h with
    | readByte _ _ b =>
      -- a newline completes the line that is pending, any other byte prolongs it
      obtain ⟨first,lines,part,hsplit,hfirst,hlines,hcommands,hpart,hbuf⟩ := hs
      rw [hpart] at hsplit
      refine ⟨first,lines,buf ++ [b],?_,hfirst,hlines,?_,?_⟩
      · simp [Shared.setConn, hsplit]
      · simp [Shared.setConn, hcommands]
      · dsimp only
        split
        · rename_i hb
          exact ⟨_,by rw [hb],hbuf,rfl⟩
        · rename_i hb
          exact ⟨rfl,by simpa [hbuf.1] using Ne.symm hb⟩
    | readNothing _ _ r hr =>
      refine hs.mono rfl rfl fun part hpart => ?_
      cases r with
      | byte b => exact absurd rfl (hr b)
      | eintr => exact ⟨hpart.1,hpart.2.1⟩
      | eof | error => exact hpart.1 ▸ hpart.2.1
  | apply line =>
    cases h with
    | noteApplied =>
      obtain ⟨first,lines,_,hsplit,hfirst,hlines,hcommands,text,rfl,htext,rfl⟩ := hs
      refine ⟨first,lines ++ [text],[],?_,hfirst,?_,?_,pending_afterApply _⟩
      · simp [Shared.setConn, hsplit, joinLines_concat]
      · intro line hline
        rcases List.mem_append.mp hline with hline | hline
        · exact hlines line hline
        · exact List.mem_singleton.mp hline ▸ htext
      · simp [Shared.setConn, hcommands]
  | setInterval ms =>
    cases h
    exact hs.mono rfl rfl fun part hpart => ⟨hpart,List.not_mem_nil⟩
  | allocAlert code antenna =>
    cases h with
    | allocated => exact hs.mono rfl rfl fun part hpart => hpart
    | notAllocated => exact hs.mono rfl rfl fun part hpart => ⟨hpart,List.not_mem_nil⟩
  | enqueueAlert item =>
    cases h with
    | tryEnqueue _ _ _ r hr =>
      refine hs.mono rfl rfl fun part hpart => ?_
      cases r.full <;> exact hpart
  | dropAlert item | logAlert item =>
    simp only [Command.code] at h
    generalize item.addr = addr at h
    cases h <;> exact hs.mono rfl rfl fun part hpart => ⟨hpart,List.not_mem_nil⟩
  | clearPeer =>
    cases h
    exact hs.mono (by simp [Shared.setConn]) (by simp [Shared.setConn]) fun part hpart => hpart
  | done =>
    cases h
    exact hs

end Listener

section Readers
variable {t : Tid} {sh sh' : Shared} {n : ℕ}

def Shaking : (t : Tid) → Pc t → ℕ → Prop
  | .transport, .handshake m _, n => m = n
  | _, _, _ => False

def Starting : (t : Tid) → Pc t → ℕ → Prop
  | .transport, .spawnListener c, n => c.n = n
  | _, _, _ => False

def Introducing : (t : Tid) → Pc t → ℕ → Prop
  | .transport, pc, n => Transport.connection pc = some n ∧ Transport.stage pc ≤ 8
  | _, _, _ => False

/-- Only the handshake and the listener of a connection read from it, and only the
transport thread accepts connections, declares `peer_alive` and starts listeners. -/
def Op.Heeding (t : Tid) (pc : Pc t) : Op (Pc t) → Prop
  | .sockRead n _ => t = .listener n ∨ Shaking t pc n
  | .noteApplied n _ _ => t = .listener n
  | .spawn (.listener n) _ => Starting t pc n
  | .accept _ => t = .transport
  | .peerDeclare n _ => Introducing t pc n
  | _ => True

theorem code_heeding (W : ℕ) (t : Tid) (pc : Pc t) : (code W t pc).Heeding t pc := by
  cases t with
  | main =>
    change (Main.code W pc).Heeding .main pc
    cases pc <;> simp only [Main.code] <;> first | exact trivial | (split <;> exact trivial)
  | producer =>
    change (Producer.code pc).Heeding .producer pc
    cases pc <;> simp only [Producer.code] <;> first | exact trivial | (split <;> exact trivial)
  | worker i =>
    change (Worker.code pc).Heeding (.worker i) pc
    cases pc with
    | fanOut raw seq ts subscribers => cases subscribers <;> exact trivial
    | _ => exact trivial
  | consumer =>
    change (Consumer.code pc).Heeding .consumer pc
    cases pc <;> exact trivial
  | transport =>
    change (Transport.code pc).Heeding .transport pc
    cases pc with
    | handshake n hs =>
      rcases Transport.handshake_op n hs with ⟨_,hop,_⟩ | ⟨_,_,hop,_⟩ | ⟨_,hop,_⟩ <;> rw [hop]
      · exact trivial
      · exact trivial
      · exact Or.inr rfl
    | accept | spawnListener c => exact rfl
    | declarePeer c => exact ⟨rfl,Nat.le_of_ble_eq_true rfl⟩
    | _ =>
      simp only [Transport.code, writeAll]
      first | exact trivial | (split <;> exact trivial)
  | listener m =>
    change (Command.code m pc).Heeding (.listener m) pc
    cases pc with
    | read buf => exact Or.inl rfl
    | apply line => exact rfl
    | _ =>
      simp only [Command.code]
      first | exact trivial | (split <;> exact trivial)

variable {pc p : Pc t} {op : Op (Pc t)}

theorem Effect.listener_status (h : Effect t sh op p sh') (hop : op.Heeding t pc) (ht : t ≠ .listener n)
    (hstart : ¬ Starting t pc n) : sh'.status (.listener n) = sh.status (.listener n) := by
  cases h with
  | spawned child k =>
    have hne : Tid.listener n ≠ child := by
      rintro rfl
      exact hstart hop
    simp [Shared.setStatus, hne]
  | ret next => simp [Shared.setStatus, Ne.symm ht]
  | _ => rfl

theorem Effect.accepted_le (h : Effect t sh op p sh') : sh.accepted ≤ sh'.accepted := by
  cases h with
  | accepted k => exact Nat.le_succ _
  | _ => exact Nat.le_refl _

theorem Effect.peerAlive (h : Effect t sh op p sh') (hdead : (sh.conns n).peerAlive = false) :
    (sh'.conns n).peerAlive = false ∨ ∃ next, op = .peerDeclare n next := by
  cases h with
  | accepted k =>
    left
    by_cases hn : n = sh.accepted
    · simp [Shared.setConn, hn]
    · simpa [Shared.setConn, hn] using hdead
  | peerDeclare m next =>
    by_cases hn : n = m
    · exact Or.inr ⟨_,by rw [hn]⟩
    · exact Or.inl (by simpa [Shared.setConn, hn] using hdead)
  | peerClear m next =>
    left
    by_cases hn : n = m
    · simp [Shared.setConn, hn]
    · simpa [Shared.setConn, hn] using hdead
  | readByte m | wrote m | close m | peerEnd m | noteApplied m =>
    exact Or.inl ((field_setConn Conn.peerAlive n (by rfl)).trans hdead)
  | _ => exact Or.inl hdead

/-- What a thread leaves alone of a connection that is not its own. -/
theorem Effect.bystander (h : Effect t sh op p sh') (hop : op.Heeding t pc) (ht : t ≠ .listener n)
    (haccept : ∀ k, op ≠ .accept k) :
    (sh'.conns n).applied = (sh.conns n).applied ∧ sh'.accepted = sh.accepted ∧
    (¬ Shaking t pc n → (sh'.conns n).consumed = (sh.conns n).consumed) := by
  cases h with
  | accepted k | notAccepted k => exact absurd rfl (haccept k)
  | readByte m k b =>
    refine ⟨field_setConn Conn.applied n (by rfl),rfl,fun hshake => ?_⟩
    have hne : n ≠ m := by
      rintro rfl
      exact hop.elim ht hshake
    simp [Shared.setConn, hne]
  | noteApplied m line next =>
    have hne : n ≠ m := by
      rintro rfl
      exact ht hop
    simp [Shared.setConn, hne]
  | wrote m | close m | peerDeclare m | peerClear m | peerEnd m =>
    exact ⟨field_setConn Conn.applied n (by rfl),rfl,fun _ => field_setConn Conn.consumed n (by rfl)⟩
  | _ => exact ⟨rfl,rfl,fun _ => rfl⟩

theorem Effect.unmanaged (h : Effect t sh op p sh') (hop : op.manages = false) : sh'.accepted = sh.accepted ∧
    ∀ u, sh'.status u = sh.status u ∨ (u = t ∧ sh'.status u = .returned) := by
  cases h with
  | ret next =>
    refine ⟨rfl,fun u => ?_⟩
    by_cases hu : u = t
    · exact Or.inr ⟨hu,by simp [Shared.setStatus, hu]⟩
    · exact Or.inl (by simp [Shared.setStatus, hu])
  | spawned | accepted => cases hop
  | _ => exact ⟨rfl,fun _ => Or.inl rfl⟩

end Readers

/-- The transport thread gets further and further with a connection. -/
theorem Transport.Follows.advances {pc p : Transport.Pc} {n : ℕ} (h : Transport.Follows pc p) (hpc : pc ≠ .accept)
    (hn : Transport.connection p = some n) :
    Transport.connection pc = some n ∧ Transport.stage pc ≤ Transport.stage p := by
  cases h with
  | accepted m => exact absurd rfl hpc
  | subscribed c c' hc | notSubscribed c c' hc =>
    refine ⟨?_,Nat.le_of_ble_eq_true rfl⟩
    rcases hc with rfl | ⟨_,ok,rfl⟩ <;> exact hn
  | stopped | listens | pollFailed | polled | ready | notAccepted | closed m | done => cases hn
  | _ => exact ⟨hn,Nat.le_of_ble_eq_true rfl⟩

def Greeted : Transport.Pc → Conn → Prop
  | .handshake _ hs, conn => Reached serverVersions hello True hs conn
  | _, conn => ∃ first, FirstLine conn.consumed first

theorem Transport.stage_handshake {pc : Transport.Pc} {n : ℕ} (hn : Transport.connection pc = some n) :
    (∃ hs, pc = .handshake n hs) ∨ 2 ≤ Transport.stage pc := by
  cases pc with
  | handshake m hs =>
    cases hn
    exact Or.inl ⟨hs,rfl⟩
  | loop | pollListen | accept | done => cases hn
  | _ => exact Or.inr (Nat.le_of_ble_eq_true rfl)

theorem greeted_firstLine {pc : Transport.Pc} (hpc : 2 ≤ Transport.stage pc) {conn : Conn} :
    Greeted pc conn ↔ ∃ first, FirstLine conn.consumed first := by
  cases pc with
  | handshake m hs => exact absurd hpc (by simp [Transport.stage])
  | _ => exact Iff.rfl

theorem Greeted.congr {pc : Transport.Pc} {conn conn' : Conn} (h : Greeted pc conn)
    (hin : conn'.consumed = conn.consumed) (hout : conn'.output = conn.output) : Greeted pc conn' := by
  cases pc with
  | handshake m hs =>
    cases hs with
    | done ok v => cases ok <;> simpa only [Greeted, Reached, hin, hout] using h
    | _ => simpa only [Greeted, Reached, hin, hout] using h
  | _ => simpa only [Greeted, hin] using h

/-- The invariant of connection `n`: before its listener is started nothing has been
applied and the handshake has read at most the first line; afterwards the listener
accounts for every byte. -/
structure Session (tpc : Transport.Pc) (lpc : Command.Pc) (sh : Shared) (n : ℕ) : Prop where
  unheard : sh.status (.listener n) = .unborn → (sh.conns n).applied = [] ∧ lpc = .poll []
  heard : sh.status (.listener n) ≠ .unborn → n < sh.accepted ∧ Heard lpc (sh.conns n)
  greeted : Transport.connection tpc = some n → n < sh.accepted ∧
    (Transport.stage tpc ≤ 8 → sh.status (.listener n) = .unborn ∧ Greeted tpc (sh.conns n))

section Steps
variable {W : ℕ} {s s' : System} {t : Tid} {c : Choice} {n : ℕ} {tpc p : Transport.Pc} {lpc : Command.Pc}
  {sh sh' : Shared}

/-- A step of the listener. -/
theorem Session.listen {lpc' : Command.Pc} (h : Session tpc lpc sh n) (hrunning : sh.status (.listener n) = .running)
    (heff : Effect (.listener n) sh (Command.code n lpc) lpc' sh') : Session tpc lpc' sh' n := by
  obtain ⟨haccepted,hstatus⟩ := heff.unmanaged (Command.manages n lpc)
  have hborn : sh.status (.listener n) ≠ .unborn := by simp [hrunning]
  have hborn' : sh'.status (.listener n) ≠ .unborn := by
    rcases hstatus (.listener n) with hsame | ⟨_,hreturned⟩
    · rwa [hsame]
    · simp [hreturned]
  refine ⟨fun hunborn => absurd hunborn hborn',fun _ => ?_,fun hn => ?_⟩
  · rw [haccepted]
    exact ⟨(h.heard hborn).1,listener_heard heff (h.heard hborn).2⟩
  · rw [haccepted]
    exact ⟨(h.greeted hn).1,fun hstage => absurd ((h.greeted hn).2 hstage).1 hborn⟩

theorem Session.frame (h : Session tpc lpc sh n) (hin : (sh'.conns n).consumed = (sh.conns n).consumed)
    (happlied : (sh'.conns n).applied = (sh.conns n).applied)
    (hstatus : sh'.status (.listener n) = sh.status (.listener n)) (haccepted : sh'.accepted = sh.accepted)
    (hgreeted : Transport.connection p = some n → Transport.stage p ≤ 8 →
      Transport.connection tpc = some n ∧ Transport.stage tpc ≤ 8 ∧
        (Greeted tpc (sh.conns n) → Greeted p (sh'.conns n)))
    (hconnection : Transport.connection p = some n → Transport.connection tpc = some n) :
    Session p lpc sh' n := by
  refine ⟨fun hunborn => ?_,fun hborn => ?_,fun hn => ?_⟩
  · rw [happlied]
    exact h.unheard (hstatus ▸ hunborn)
  · obtain ⟨hlt,hheard⟩ := h.heard (hstatus ▸ hborn)
    exact ⟨haccepted ▸ hlt,hheard.mono hin happlied fun _ hpart => hpart⟩
  · refine ⟨haccepted ▸ (h.greeted (hconnection hn)).1,fun hstage => ?_⟩
    obtain ⟨hn',hstage',himp⟩ := hgreeted hn hstage
    obtain ⟨hunborn,hg⟩ := (h.greeted hn').2 hstage'
    exact ⟨hstatus ▸ hunborn,himp hg⟩

/-- A new connection. -/
theorem Session.accept (h : Session .accept lpc sh n) (heff : Effect .transport sh (Transport.code .accept) p sh') :
    Session p lpc sh' n := by
  cases heff with
  | notAccepted => exact h.frame rfl rfl rfl rfl (fun hn => by cases hn) (fun hn => by cases hn)
  | accepted =>
    by_cases hn : n = sh.accepted
    · subst hn
      have hunborn : sh.status (.listener sh.accepted) = .unborn := by
        by_contra hborn
        exact absurd (h.heard hborn).1 (Nat.lt_irrefl _)
      refine ⟨fun _ => ⟨by simp [Shared.setConn],(h.unheard hunborn).2⟩,fun hborn => absurd hunborn hborn,fun _ => ?_⟩
      refine ⟨Nat.lt_succ_self _,fun _ => ⟨hunborn,?_⟩⟩
      change Reached serverVersions hello True (Handshake.start serverVersions) _
      exact reached_start rfl (by simp [Shared.setConn]) (by simp [Shared.setConn])
    · have hconn : ∀ conn, ((sh.setConn sh.accepted conn).conns n) = sh.conns n := fun conn => by
        simp [Shared.setConn, hn]
      refine ⟨fun hunborn => ?_,fun hborn => ?_,fun heq => absurd (Option.some.inj heq).symm hn⟩
      · dsimp only
        rw [hconn]
        exact h.unheard hunborn
      · dsimp only
        rw [hconn]
        exact ⟨Nat.lt_succ_of_lt (h.heard hborn).1,(h.heard hborn).2⟩

/-- A step of the handshake. -/
theorem Session.shake {m : ℕ} {hs : Handshake.Pc} (h : Session (.handshake m hs) lpc sh n)
    (hexec : exec .transport c sh (Transport.code (.handshake m hs)) = some (p,sh')) : Session p lpc sh' n := by
  have hop := code_heeding 0 .transport (.handshake m hs)
  have hstatus := (exec_effect hexec).listener_status (n := n) hop (by simp) (fun hstart => hstart)
  obtain ⟨happlied,haccepted,hin⟩ := (exec_effect hexec).bystander (n := n) hop (by simp)
    (fun k hk => by cases (Transport.site_of_code hk).1)
  rcases Transport.handshake_exec hexec with ⟨ok,v,rfl,rfl,rfl⟩ | ⟨hs',rfl,hinner⟩
  · cases ok with
    | true =>
      refine h.frame rfl rfl rfl rfl (fun hn _ => ⟨hn,Nat.le_of_ble_eq_true rfl,fun hg => ?_⟩) (fun hn => hn)
      obtain ⟨_,first,hfirst,_⟩ := hg.1
      exact ⟨first,hfirst⟩
    | false => exact h.frame rfl rfl rfl rfl (fun _ hstage => absurd hstage (by simp [Transport.stage])) (fun hn => hn)
  · by_cases hm : m = n
    · subst hm
      refine ⟨fun hunborn => ?_,fun hborn => ?_,fun hn => ?_⟩
      · rw [happlied]
        exact h.unheard (hstatus ▸ hunborn)
      · exact absurd ((h.greeted rfl).2 (Nat.le_of_ble_eq_true rfl)).1 (hstatus ▸ hborn)
      · obtain ⟨hlt,hg⟩ := h.greeted rfl
        obtain ⟨hunborn,hreached⟩ := hg (Nat.le_of_ble_eq_true rfl)
        exact ⟨haccepted ▸ hlt,fun _ => ⟨hstatus ▸ hunborn,exec_reached rfl (fun _ => trivial) hreached hinner⟩⟩
    · have hother : ∀ hs, Transport.connection (.handshake m hs) ≠ some n := fun _ heq => hm (Option.some.inj heq)
      exact h.frame (hin hm) happlied hstatus haccepted (fun hn => absurd hn (hother _)) (fun hn => absurd hn (hother _))

/-- The listener is started. -/
theorem Session.start {client : Transport.Client} (h : Session (.spawnListener client) lpc sh n)
    (heff : Effect .transport sh (Transport.code (.spawnListener client)) p sh') : Session p lpc sh' n := by
  cases heff with
  | notSpawned => exact h.frame rfl rfl rfl rfl (fun _ hstage => absurd hstage (by simp [Transport.stage])) (fun hn => hn)
  | spawned =>
    by_cases hn : client.n = n
    · subst hn
      obtain ⟨hlt,hg⟩ := h.greeted rfl
      obtain ⟨hunborn,first,hfirst⟩ := hg (Nat.le_of_ble_eq_true rfl)
      obtain ⟨happlied,rfl⟩ := h.unheard hunborn
      refine ⟨fun hborn => ?_,fun _ => ⟨hlt,first,[],[],?_,hfirst.2,by simp,happlied,rfl,List.not_mem_nil⟩,fun _ => ?_⟩
      · simp [Shared.setStatus] at hborn
      · exact hfirst.1
      · exact ⟨hlt,fun hstage => absurd hstage (by simp [Transport.stage])⟩
    · refine h.frame rfl rfl ?_ rfl (fun _ hstage => absurd hstage (by simp [Transport.stage])) (fun hn => hn)
      simp [Shared.setStatus, Ne.symm hn]

/-- A step of the transport thread. -/
theorem Session.transport (h : Session tpc lpc sh n)
    (hexec : exec .transport c sh (Transport.code tpc) = some (p,sh')) : Session p lpc sh' n := by
  have hother : ¬ Starting .transport tpc n → ¬ Shaking .transport tpc n → tpc ≠ .accept →
      (∀ m hs, tpc ≠ .handshake m hs) → Session p lpc sh' n := by
    intro hstart hshake haccept hhandshake
    have hstatus := (exec_effect hexec).listener_status (n := n) (code_heeding 0 .transport tpc) (by simp) hstart
    obtain ⟨happlied,haccepted,hin⟩ := (exec_effect hexec).bystander (n := n) (code_heeding 0 .transport tpc)
      (by simp) (fun k hk => haccept (Transport.site_of_code hk).1)
    have hadvance := (exec_effect hexec).follows.advances (n := n) haccept
    refine h.frame (hin hshake) happlied hstatus haccepted (fun hn hstage => ?_) (fun hn => (hadvance hn).1)
    obtain ⟨hn',hle⟩ := hadvance hn
    have htwo : 2 ≤ Transport.stage tpc :=
      (Transport.stage_handshake hn').resolve_left fun ⟨hs,heq⟩ => hhandshake n hs heq
    refine ⟨hn',by omega,fun hg => ?_⟩
    rw [greeted_firstLine (by omega), hin hshake]
    exact (greeted_firstLine htwo).mp hg
  cases tpc with
  | accept => exact h.accept (exec_effect hexec)
  | handshake m hs => exact h.shake hexec
  | spawnListener client => exact h.start (exec_effect hexec)
  | _ => exact hother (fun hno => hno) (fun hno => hno) (by simp) (by simp)

theorem not_starting (ht : t ≠ .transport) (pc : Pc t) (n : ℕ) : ¬ Starting t pc n := by
  cases t <;> first | exact absurd rfl ht | exact fun h => h

theorem not_shaking (ht : t ≠ .transport) (pc : Pc t) (n : ℕ) : ¬ Shaking t pc n := by
  cases t <;> first | exact absurd rfl ht | exact fun h => h

theorem code_accept {pc : Pc t} {k : Option ℕ → Pc t} (h : code W t pc = .accept k) : t = .transport := by
  have hsite := site_of_code h
  cases t <;> first | rfl | exact hsite.elim

theorem step_session (h : Session (s.pcs .transport) (s.pcs (.listener n)) s.shared n)
    (hstep : step W s t c = some s') : Session (s'.pcs .transport) (s'.pcs (.listener n)) s'.shared n := by
  obtain ⟨hrunning,p,sh',hexec,rfl⟩ := step_inversion hstep
  have heff := exec_effect hexec
  have hop := code_heeding W t (s.pcs t)
  by_cases hl : .listener n = t
  · subst hl
    simp only [Function.update_self, Function.update_of_ne (show (.transport : Tid) ≠ .listener n by simp)]
    exact h.listen hrunning.2 heff
  · by_cases ht : .transport = t
    · subst ht
      simp only [Function.update_self, Function.update_of_ne hl]
      exact h.transport hexec
    · simp only [Function.update_of_ne ht, Function.update_of_ne hl]
      have ht' : t ≠ .transport := Ne.symm ht
      have haccept : ∀ k, s.op W t ≠ .accept k := fun k hk => ht' (code_accept hk)
      have hstatus := heff.listener_status (n := n) hop (Ne.symm hl) (not_starting ht' _ n)
      obtain ⟨happlied,haccepted,hin⟩ := heff.bystander (n := n) hop (Ne.symm hl) haccept
      have hin := hin (not_shaking ht' _ n)
      have hopened : ¬ Opened t (s.pcs t) n := by
        cases t <;> first | exact absurd rfl ht | exact fun h => h
      have hout := (heff.elsewhere (code_wiring W t (s.pcs t)) hopened haccept).1
      exact h.frame hin happlied hstatus haccepted (fun hn hstage => ⟨hn,hstage,fun hg => hg.congr hin hout⟩)
        (fun hn => hn)

theorem run_session (h : Reachable W s) (n : ℕ) :
    Session (s.pcs .transport) (s.pcs (.listener n)) s.shared n :=
  h.invariant (I := fun s => Session (s.pcs .transport) (s.pcs (.listener n)) s.shared n)
    ⟨fun _ => ⟨rfl,rfl⟩,fun hborn => absurd rfl hborn,fun hn => by cases hn⟩ fun _ _ _ _ hs hstep => step_session hs hstep

def Dismissed (n : ℕ) (s : System) : Prop :=
  n < s.shared.accepted ∧ s.shared.status (.listener n) = .unborn ∧
  (Transport.connection (s.pcs .transport) = some n →
    s.pcs .transport = .close n ∨ ∃ v, s.pcs .transport = .handshake n (.done false v))

theorem step_dismissed (h : Dismissed n s) (hstep : step W s t c = some s') : Dismissed n s' := by
  obtain ⟨hrunning,p,sh',hexec,rfl⟩ := step_inversion hstep
  have heff := exec_effect hexec
  have hop := code_heeding W t (s.pcs t)
  obtain ⟨hlt,hunborn,htransport⟩ := h
  have hl : t ≠ .listener n := by
    rintro rfl
    exact absurd (hunborn.symm.trans hrunning.2) (by simp)
  have hstart : ¬ Starting t (s.pcs t) n := by
    intro hstart
    by_cases ht : t = .transport
    · subst ht
      generalize hpc : s.pcs .transport = tpc at *
      cases tpc with
      | spawnListener client =>
        cases hstart
        rcases htransport rfl with heq | ⟨v,heq⟩ <;> cases heq
      | _ => exact hstart
    · exact not_starting ht _ n hstart
  refine ⟨hlt.trans_le heff.accepted_le,(heff.listener_status hop hl hstart).trans hunborn,?_⟩
  by_cases ht : .transport = t
  · subst ht
    simp only [Function.update_self]
    intro hn
    change Effect _ _ (Transport.code (s.pcs .transport)) _ _ at heff
    generalize s.pcs .transport = tpc at *
    by_cases haccept : tpc = .accept
    · subst haccept
      cases heff with
      | accepted => exact absurd (Option.some.inj hn) (by omega)
      | notAccepted => cases hn
    · obtain ⟨hn',_⟩ := heff.follows.advances haccept hn
      rcases htransport hn' with rfl | ⟨v,rfl⟩
      · cases heff
        cases hn
      · cases heff
        exact Or.inl rfl
  · simp only [Function.update_of_ne ht]
    exact htransport

/-- On every connection, whatever the client sends and whatever the calls return:
the commands that were applied are, in order and each once, the first of the lines
that the client's stream has after its first one, and none after a line that is
too long. When the handshake fails there are none. -/
theorem commands_in_order (h : Reachable W s) (n : ℕ) :
    (∀ stream, (s.shared.conns n).consumed <+: stream →
      (s.shared.conns n).applied <+: (commandLines stream).map .ofBuffer) ∧
    ∀ v s', s.pcs .transport = .handshake n (.done false v) → Relation.ReflTransGen (Step W) s s' →
      (s'.shared.conns n).applied = [] := by
  have hsession := run_session h n
  refine ⟨fun stream hstream => ?_,fun v s' hfailed hpath => ?_⟩
  · by_cases hborn : s.shared.status (.listener n) = .unborn
    · rw [(hsession.unheard hborn).1]
      exact List.nil_prefix
    · exact (hsession.heard hborn).2.applied_in_order hstream
  · obtain ⟨hlt,hg⟩ := hsession.greeted (by rw [hfailed]; rfl)
    have hdismissed : Dismissed n s :=
      ⟨hlt,(hg (by rw [hfailed]; exact Nat.le_of_ble_eq_true rfl)).1,fun _ => Or.inr ⟨v,hfailed⟩⟩
    have hdismissed' : Dismissed n s' := by
      clear hfailed hg hlt
      induction hpath with
      | refl => exact hdismissed
      | tail _ hs ih =>
        obtain ⟨t,c,hs⟩ := hs
        exact step_dismissed ih hs
    exact ((run_session (h.trans hpath) n).unheard hdismissed'.2.1).1

/-- The first client sends a command and the beginning of a second one; the listener's
polls are interrupted and time out in between. -/
def interrupted : List (Tid × Choice) :=
  startUp ++ connect ++ [(.listener 0,.poll .timeout),(.listener 0,.ok),(.listener 0,.ok),(.listener 0,.poll .eintr)] ++
    command (ascii "SET_INTERVAL 50\n") ++
    [(.listener 0,.ok),(.listener 0,.poll (.ready false)),(.listener 0,.read .eintr),
      (.listener 0,.poll (.ready false)),(.listener 0,.read (.byte 83))]

theorem commands_in_order_interrupted : ∃ s, Reachable Main.workerPoolDefaultSize s ∧
    (s.shared.conns 0).applied.length = 1 ∧ (s.shared.conns 0).applied <+:
      (commandLines (ascii "HELLO CLIENT_VERSIONS=1\nSET_INTERVAL 50\nSET_INTERVAL 60\n")).map .ofBuffer := by
  have hobserved : (run Main.workerPoolDefaultSize .initial interrupted).map (fun s =>
      ((s.shared.conns 0).consumed,(s.shared.conns 0).applied.length)) =
      some (ascii "HELLO CLIENT_VERSIONS=1\nSET_INTERVAL 50\nS",1) := by decide +kernel
  obtain ⟨s,hrun,hs⟩ := Option.map_eq_some_iff.mp hobserved
  simp only [Prod.mk.injEq] at hs
  obtain ⟨hin,hlength⟩ := hs
  have hstream : (s.shared.conns 0).consumed <+:
      ascii "HELLO CLIENT_VERSIONS=1\nSET_INTERVAL 50\nSET_INTERVAL 60\n" := by
    rw [hin]
    decide +kernel
  have hreach : Reachable Main.workerPoolDefaultSize s := run_reachable .refl hrun
  exact ⟨s,hreach,hlength,(commands_in_order hreach 0).1 _ hstream⟩

end Steps

end RadioSim.Process
