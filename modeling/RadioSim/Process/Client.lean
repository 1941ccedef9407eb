import RadioSim.Process.Drain
import RadioSim.Process.Session

/-! # The clients

The process together with its clients. A client connects, sends, receives, shuts down
its sending side and closes whenever it likes. What `poll`, `accept`, `read` and `write` answer follows from what
the clients have done, up to calls that are interrupted or fail.
-/
namespace RadioSim.Process

/-- A client's end of a connection: the bytes it has sent, how many it has received,
whether it has ended its sending side, and whether it has closed, which ends both sides. -/
structure Endpoint where
  sent : Bytes
  received : ℕ
  ended : Bool
  closed : Bool
  ended_of_closed : closed = true → ended = true

/-- `connected` counts the calls of `connect`; the first of these connections have been
accepted, the others wait. -/
structure World where
  system : System
  connected : ℕ
  clients : ℕ → Endpoint

namespace World

def initial : World := ⟨.initial,0,fun _ => ⟨[],0,false,false,id⟩⟩

def unread (w : World) (n : ℕ) : Bytes := (w.clients n).sent.drop (w.system.shared.conns n).consumed.length

def backlog (w : World) (n : ℕ) : ℕ := (w.system.shared.conns n).output.length - (w.clients n).received

/-- The listeners poll their connection, the transport thread polls the listening socket.
After the client's close `POLLHUP` is reported, with or without unread bytes; the end of
what it sends alone is something to read. -/
def pollAnswer (w : World) : Tid → PollResult
  | .listener n =>
    if (w.clients n).closed then .ready true
    else if w.unread n = [] ∧ (w.clients n).ended = false then .timeout else .ready false
  | _ => if w.system.shared.accepted < w.connected then .ready false else .timeout

/-- There is no answer when the call blocks. -/
def readAnswer (w : World) (n : ℕ) : Option ReadResult :=
  match w.unread n with
  | b :: _ => some (.byte b)
  | [] => if (w.clients n).ended then some .eof else none

def writeAnswer (room : ℕ) (w : World) (n : ℕ) : WriteResult → Bool
  | .wrote m => !(w.clients n).closed && (0 < m && w.backlog n + m ≤ room)
  | .error => (w.clients n).closed
  | .eintr => false

def answers {P : Type} (room : ℕ) (w : World) (t : Tid) : Op P → Choice → Bool
  | .poll _, .poll r => r = w.pollAnswer t
  | .accept _, c =>
    match c with
    | .ok => w.system.shared.accepted < w.connected
    | _ => false
  | .sockRead n _, .read r => w.readAnswer n = some r
  | .sockWrite n _ _, .write r => w.writeAnswer room n r
  | _, _ => true

end World

/-- The results of calls that fail whatever the client does. -/
def Op.faults {P : Type} : Op P → Choice → Bool
  | .poll _, .poll .eintr | .poll _, .poll .error | .accept _, .fail | .sockRead _ _, .read .eintr
  | .sockRead _ _, .read .error | .sockWrite _ _ _, .write .eintr | .sockWrite _ _ _, .write .error => true
  | _, _ => false

inductive Event
  | server (t : Tid) (c : Choice)
  | connect
  | send (n : ℕ) (bytes : Bytes)
  | receive (n k : ℕ)
  | endSending (n : ℕ)
  | close (n : ℕ)

namespace World

def setClient (w : World) (n : ℕ) (client : Endpoint) : World :=
  { w with clients := Function.update w.clients n client }

def next (W room : ℕ) (w : World) : Event → Option World
  | .server t c =>
    if w.answers room t (w.system.op W t) c || (w.system.op W t).faults c then
      (step W w.system t c).map fun s => { w with system := s }
    else none
  | .connect => some { w with connected := w.connected + 1 }
  | .send n bytes =>
    if n < w.connected ∧ (w.clients n).ended = false then
      some (w.setClient n { w.clients n with sent := (w.clients n).sent ++ bytes })
    else none
  | .receive n k =>
    if (w.clients n).closed = false ∧ k ≤ w.backlog n then
      some (w.setClient n { w.clients n with received := (w.clients n).received + k })
    else none
  | .endSending n =>
    if n < w.connected then some (w.setClient n { w.clients n with ended := true, ended_of_closed := fun _ => rfl })
    else none
  | .close n =>
    if n < w.connected then
      some (w.setClient n { w.clients n with ended := true, closed := true, ended_of_closed := id })
    else none

def run (W room : ℕ) (w : World) (events : List Event) : Option World := events.foldlM (next W room) w

end World

section Worlds
variable {W room : ℕ} {w w' : World} {e : Event} {events : List Event} {n : ℕ}

/-- An event is a step of the server, or a client gets further with a connection. -/
theorem next_inversion (h : World.next W room w e = some w') :
    (∃ t c s, e = .server t c ∧ step W w.system t c = some s ∧ w' = { w with system := s } ∧
      (w.answers room t (w.system.op W t) c || (w.system.op W t).faults c) = true) ∨
    ((∀ t c, e ≠ .server t c) ∧ w'.system = w.system ∧ w.connected ≤ w'.connected ∧
      ∀ n, (w.clients n).sent <+: (w'.clients n).sent ∧ ((w.clients n).ended = true →
        (w'.clients n).ended = true ∧ (w'.clients n).sent = (w.clients n).sent)) := by
  have hclient : ∀ m client, (w.clients m).sent <+: client.sent → ((w.clients m).ended = true →
      client.ended = true ∧ client.sent = (w.clients m).sent) → ∀ n,
      (w.clients n).sent <+: ((w.setClient m client).clients n).sent ∧ ((w.clients n).ended = true →
        ((w.setClient m client).clients n).ended = true ∧
          ((w.setClient m client).clients n).sent = (w.clients n).sent) := by
    intro m client hsent hended n
    by_cases hn : n = m
    · subst hn
      simp only [World.setClient, Function.update_self]
      exact ⟨hsent,hended⟩
    · have hsame : (w.setClient m client).clients n = w.clients n := Function.update_of_ne hn _ _
      rw [hsame]
      exact ⟨List.prefix_rfl,fun h => ⟨h,rfl⟩⟩
  cases e with
  | server t c =>
    simp only [World.next] at h
    split at h
    · rename_i hadmits
      obtain ⟨s,hs,hw⟩ := Option.map_eq_some_iff.mp h
      exact Or.inl ⟨t,c,s,rfl,hs,hw.symm,hadmits⟩
    · cases h
  | connect =>
    cases h
    exact Or.inr ⟨nofun,rfl,Nat.le_succ _,fun n => ⟨List.prefix_rfl,fun h => ⟨h,rfl⟩⟩⟩
  | send m bytes =>
    simp only [World.next] at h
    split at h
    · rename_i hopen
      cases h
      exact Or.inr ⟨nofun,rfl,le_rfl,hclient m _ (List.prefix_append _ _) (by simp [hopen.2])⟩
    · cases h
  | receive m k =>
    simp only [World.next] at h
    split at h
    · cases h
      exact Or.inr ⟨nofun,rfl,le_rfl,hclient m _ List.prefix_rfl fun h => ⟨h,rfl⟩⟩
    · cases h
  | endSending m | close m =>
    simp only [World.next] at h
    split at h
    · cases h
      exact Or.inr ⟨nofun,rfl,le_rfl,hclient m _ List.prefix_rfl fun _ => ⟨rfl,rfl⟩⟩
    · cases h

theorem world_run_concat (h : World.run W room w events = some w') (e : Event) :
    World.run W room w (events ++ [e]) = World.next W room w' e := by
  unfold World.run at h ⊢
  rw [List.foldlM_append, h]
  simp

/-- What holds at the start and is kept by every event holds after every run. -/
theorem world_run_induction {I : List Event → World → Prop} (hinit : I [] .initial)
    (hnext : ∀ pre w e w', World.run W room .initial pre = some w → World.next W room w e = some w' →
      I pre w → I (pre ++ [e]) w')
    (h : World.run W room .initial events = some w) : I events w := by
  induction events using List.reverseRecOn generalizing w with
  | nil =>
    cases h
    exact hinit
  | append_singleton pre e ih =>
    cases hm : World.run W room .initial pre with
    | none =>
      unfold World.run at h hm
      rw [List.foldlM_append, hm] at h
      cases h
    | some m =>
      rw [world_run_concat hm] at h
      exact hnext pre m e w hm h (ih hm)

/-- The server of a world runs as it does on its own. -/
theorem world_run_system (h : World.run W room .initial events = some w) : Reachable W w.system := by
  refine world_run_induction (I := fun _ w => Reachable W w.system) .refl (fun pre w e w' _ hnext hw => ?_) h
  rcases next_inversion hnext with ⟨t,c,s,_,hstep,rfl,_⟩ | ⟨_,hsystem,_⟩
  · exact hw.tail ⟨t,c,hstep⟩
  · rw [hsystem]
    exact hw

/-- What the clients know and the server has done fit together: the server has read what
was sent, it accepts a connection only while one waits, and a listener reads only when
the call does not block. -/
structure Linked (w : World) : Prop where
  consumed : ∀ n, (w.system.shared.conns n).consumed <+: (w.clients n).sent
  waiting : w.system.pcs .transport = .accept → w.system.shared.accepted < w.connected
  ready : ∀ n buf, w.system.pcs (.listener n) = .read buf → w.unread n ≠ [] ∨ (w.clients n).ended = true

theorem Linked.sent_eq (h : Linked w) (n : ℕ) :
    (w.clients n).sent = (w.system.shared.conns n).consumed ++ w.unread n :=
  (List.prefix_iff_eq_append.mp (h.consumed n)).symm

theorem next_clients (h : World.next W room w e = some w') (n : ℕ) :
    (w.clients n).sent <+: (w'.clients n).sent ∧ ((w.clients n).ended = true →
      (w'.clients n).ended = true ∧ (w'.clients n).sent = (w.clients n).sent) := by
  rcases next_inversion h with ⟨t,c,s,_,_,rfl,_⟩ | ⟨_,_,_,hclients⟩
  · exact ⟨List.prefix_rfl,fun hended => ⟨hended,rfl⟩⟩
  · exact hclients n

/-- What is not read remains. -/
theorem Linked.unread_mono (h : Linked w) (hnext : World.next W room w e = some w')
    (hconsumed : (w'.system.shared.conns n).consumed = (w.system.shared.conns n).consumed) (hne : w.unread n ≠ []) :
    w'.unread n ≠ [] := by
  obtain ⟨more,hmore⟩ := (next_clients hnext n).1
  unfold World.unread at hne ⊢
  rw [hconsumed, ← hmore, List.drop_append_of_le_length (h.consumed n).length_le]
  simp [hne]

/-- Once its listener is started, nobody else reads from a connection. -/
theorem step_consumed {s s' : System} {t : Tid} {c : Choice}
    (hsession : Session (s.pcs .transport) (s.pcs (.listener n)) s.shared n)
    (hborn : s.shared.status (.listener n) ≠ .unborn) (ht : t ≠ .listener n) (hstep : step W s t c = some s') :
    (s'.shared.conns n).consumed = (s.shared.conns n).consumed := by
  obtain ⟨_,p,sh',hexec,rfl⟩ := step_inversion hstep
  have heff := exec_effect hexec
  have hop := code_heeding W t (s.pcs t)
  by_cases haccept : ∃ k, s.op W t = .accept k
  · obtain ⟨k,hk⟩ := haccept
    have hne : n ≠ s.shared.accepted := Nat.ne_of_lt (hsession.heard hborn).1
    rw [hk] at heff
    cases heff with
    | accepted => simp [Shared.setConn, hne]
    | notAccepted => rfl
  · refine (heff.bystander hop ht fun k hk => haccept ⟨k,hk⟩).2.2 fun hshake => ?_
    cases t with
    | transport =>
      generalize hpc : s.pcs .transport = tpc at hshake hsession
      cases tpc with
      | handshake m hs =>
        cases hshake
        exact hborn ((hsession.greeted rfl).2 (Nat.le_of_ble_eq_true rfl)).1
      | _ => exact hshake
    | _ => exact hshake

/-- The byte that is read is the next one. -/
theorem unread_of_byte {t : Tid} {b : Byte} {P : Type} {k : ReadResult → P}
    (h : (w.answers room t (.sockRead n k) (.read (.byte b)) || (Op.sockRead n k).faults (.read (.byte b))) = true) :
    ∃ rest, w.unread n = b :: rest := by
  have hread : w.readAnswer n = some (.byte b) := by simpa [World.answers, Op.faults] using h
  unfold World.readAnswer at hread
  split at hread
  · rename_i b' rest hunread
    cases hread
    exact ⟨rest,hunread⟩
  · split at hread <;> cases hread

theorem next_consumed (h : Linked w) (hnext : World.next W room w e = some w') (n : ℕ) :
    (w'.system.shared.conns n).consumed <+: (w'.clients n).sent := by
  rcases next_inversion hnext with ⟨t,c,s,_,hstep,rfl,hadmits⟩ | ⟨_,hsystem,_,hclients⟩
  · obtain ⟨_,p,sh',hexec,rfl⟩ := step_inversion hstep
    dsimp only
    generalize w.system.op W t = op at hexec hadmits
    have hold := h.consumed n
    by_cases hread : ∃ k, op = .sockRead n k
    · obtain ⟨k,rfl⟩ := hread
      obtain ⟨r,rfl,_,rfl⟩ := exec_sockRead hexec
      cases r with
      | byte b =>
        obtain ⟨rest,hrest⟩ := unread_of_byte hadmits
        rw [h.sent_eq n, hrest]
        exact ⟨rest,by simp [Shared.setConn]⟩
      | _ => exact hold
    · cases exec_effect hexec with
      | readByte m k b =>
        have hne : n ≠ m := fun hn => hread ⟨k,hn ▸ rfl⟩
        simpa [Shared.setConn, hne] using hold
      | accepted k =>
        by_cases hn : n = w.system.shared.accepted
        · simp [Shared.setConn, hn]
        · simpa [Shared.setConn, hn] using hold
      | wrote m | close m | peerDeclare m | peerClear m | peerEnd m | noteApplied m =>
        rwa [field_setConn Conn.consumed n (by rfl)]
      | _ => exact hold
  · rw [hsystem]
    exact (h.consumed n).trans (hclients n).1

/-- Only a poll that found a waiting client leads to `accept`. -/
theorem transport_accepts {c : Choice} {sh sh' : Shared} {pc : Transport.Pc}
    (h : exec .transport c sh (Transport.code pc) = some (.accept,sh')) :
    sh' = sh ∧ ∃ hangup k, Transport.code pc = .poll k ∧ c = .poll (.ready hangup) := by
  cases (exec_effect h).follows with
  | ready =>
    cases c with
    | poll r =>
      cases r with
      | ready hangup =>
        cases h
        exact ⟨rfl,hangup,_,rfl,rfl⟩
      | _ => cases h
    | _ => cases h

/-- Only a poll that found something to read leads to `read`. -/
theorem listener_reads {c : Choice} {sh sh' : Shared} {pc : Command.Pc} {buf : Bytes}
    (h : exec (.listener n) c sh (Command.code n pc) = some (.read buf,sh')) :
    sh' = sh ∧ ∃ k, Command.code n pc = .poll k ∧ c = .poll (.ready false) := by
  cases (exec_effect h).listener_follows with
  | ready =>
    simp only [Command.code] at h ⊢
    split at h
    · rename_i hroom
      rw [if_pos hroom]
      cases c with
      | poll r =>
        cases r with
        | ready hangup =>
          cases hangup
          · cases h
            exact ⟨rfl,_,rfl,rfl⟩
          · cases h
        | _ => cases h
      | _ => cases h
    · cases h

theorem Effect.accepted_eq {P : Type} {t : Tid} {sh sh' : Shared} {op : Op P} {p : P} (h : Effect t sh op p sh')
    (haccept : ∀ k, op ≠ .accept k) : sh'.accepted = sh.accepted := by
  cases h with
  | accepted k => exact absurd rfl (haccept k)
  | _ => rfl

theorem next_linked (hreach : Reachable W w.system) (h : Linked w) (hnext : World.next W room w e = some w') :
    Linked w' := by
  have hborn : ∀ n buf, w.system.pcs (.listener n) = .read buf → w.system.shared.status (.listener n) ≠ .unborn := by
    intro n buf hpc hunborn
    rw [(run_staffed hreach).fresh _ hunborn] at hpc
    cases hpc
  -- a poll has reported what the next call relies on, and only that call can use it up
  refine ⟨next_consumed h hnext,fun hpc => ?_,fun n buf hpc => ?_⟩
  · rcases next_inversion hnext with ⟨t,c,s,_,hstep,rfl,hadmits⟩ | ⟨_,hsystem,hconnected,_⟩
    · obtain ⟨_,p,sh',hexec,rfl⟩ := step_inversion hstep
      by_cases ht : .transport = t
      · subst ht
        simp only [Function.update_self] at hpc
        subst hpc
        obtain ⟨rfl,hangup,k,hop,rfl⟩ := transport_accepts hexec
        rw [show w.system.op W .transport = .poll k from hop] at hadmits
        by_contra hnone
        simp [World.answers, Op.faults, World.pollAnswer, hnone] at hadmits
      · simp only [Function.update_of_ne ht] at hpc
        have haccepted := (exec_effect hexec).accepted_eq fun k hk => ht (code_accept hk).symm
        rw [haccepted]
        exact h.waiting hpc
    · rw [hsystem] at hpc ⊢
      exact (h.waiting hpc).trans_le hconnected
  · rcases next_inversion hnext with ⟨t,c,s,_,hstep,rfl,hadmits⟩ | ⟨_,hsystem,_,hclients⟩
    · by_cases ht : .listener n = t
      · subst ht
        obtain ⟨_,p,sh',hexec,rfl⟩ := step_inversion hstep
        simp only [Function.update_self] at hpc
        subst hpc
        obtain ⟨rfl,k,hop,rfl⟩ := listener_reads hexec
        rw [show w.system.op W (.listener n) = .poll k from hop] at hadmits
        by_contra hnone
        rw [not_or, not_not, Bool.not_eq_true] at hnone
        have hnone : w.unread n = [] ∧ (w.clients n).ended = false := hnone
        cases hclosed : (w.clients n).closed <;>
          simp [World.answers, Op.faults, World.pollAnswer, hnone, hclosed] at hadmits
      · have hpc' : w.system.pcs (.listener n) = .read buf := by
          obtain ⟨_,p,sh',_,rfl⟩ := step_inversion hstep
          simpa only [Function.update_of_ne ht] using hpc
        have hsame := step_consumed (run_session hreach n) (hborn n buf hpc') (Ne.symm ht) hstep
        simp only [World.unread, hsame]
        exact h.ready n buf hpc'
    · rw [hsystem] at hpc
      exact (h.ready n buf hpc).imp (h.unread_mono hnext (by rw [hsystem])) fun hended => ((hclients n).2 hended).1

theorem run_linked (h : World.run W room .initial events = some w) : Linked w :=
  world_run_induction (I := fun _ w => Linked w) ⟨fun _ => List.nil_prefix,nofun,fun _ _ h => by cases h⟩
    (fun _ _ _ _ hrun hnext hw => next_linked (world_run_system hrun) hw hnext) h

end Worlds

section Runs

def serve (schedule : List (Tid × Choice)) : List Event := schedule.map fun a => .server a.1 a.2

def greeting : List Event :=
  serve startUp ++ [.connect,.send 0 (ascii "HELLO CLIENT_VERSIONS=1\n")] ++ serve connect

end Runs

end RadioSim.Process
