import RadioSim.Process.Roles

/-! # Where an operation stands

The routine tables read backwards. Some operations stand at one or two program
points of a routine only; what is to be known there is listed for each routine
and checked once against its table.
-/
namespace RadioSim.Process
open Pubsub

def Main.controlled : Main.Pc → Bool
  | .poolCreate _ _ control | .poolThreads control | .workerArgs control _ | .workerSpawn control _
  | .poolDone control _ => control
  | .sigmask | .pubsubCreate | .createIngest _ | .createControl _ _ | .initControl _ _ | .failed | .exited => false
  | _ => true

def Main.Site (pc : Main.Pc) : Op Main.Pc → Prop
  | .spawn child _ => (∃ control i, pc = .workerSpawn control i ∧ child = .worker i) ∨
    (Main.controlled pc = true ∧ ∀ i, child ≠ .worker i)
  | .join child _ => (∃ started, pc = .joinProducer started ∧ child = .producer) ∨
    (∃ started i, pc = .joinWorkers started i ∧ i < started ∧ child = .worker i) ∨
    (pc = .joinConsumer ∧ child = .consumer) ∨ (pc = .joinTransport ∧ child = .transport)
  | .shutdownRequest next => ∃ started, next = .shutdownIngest started
  | .queueDestroy q next => q = .ingest → next = .finish
  | .publishBegin _ _ _ | .publishEnd _ | .accept _ | .peerDeclare _ _ | .peerClear _ _ | .ret _ => False
  | _ => True

def Producer.Site : Op Producer.Pc → Prop
  | .ret next => next = .done
  | .spawn _ _ | .join _ _ | .shutdownRequest _ | .publishBegin _ _ _ | .publishEnd _ | .accept _ | .peerDeclare _ _
  | .peerClear _ _ => False
  | _ => True

def Worker.Site (pc : Worker.Pc) : Op Worker.Pc → Prop
  | .publishBegin _ _ k => ∀ subscribers, ∃ raw seq ts, k (some subscribers) = .fanOut raw seq ts subscribers
  | .publishEnd _ => ∃ raw seq ts, pc = .fanOut raw seq ts []
  | .ret next => next = .done
  | .spawn _ _ | .join _ _ | .shutdownRequest _ | .accept _ | .peerDeclare _ _ | .peerClear _ _ => False
  | _ => True

def Consumer.Site : Op Consumer.Pc → Prop
  | .ret next => next = .done
  | .spawn _ _ | .join _ _ | .shutdownRequest _ | .publishBegin _ _ _ | .publishEnd _ | .accept _ | .peerDeclare _ _
  | .peerClear _ _ => False
  | _ => True

def Transport.Site (pc : Transport.Pc) : Op Transport.Pc → Prop
  | .accept k => pc = .accept ∧ ∀ n, Opened .transport (k (some n)) n
  | .queueCreate q k => Owns .transport (k true) q
  | .peerDeclare n next => Scoped .transport next n
  | .spawn child _ => ∃ n, child = .listener n
  | .peerClear n _ => ∃ c, pc = .clearPeer c ∧ c.n = n
  | .join child _ => ∃ c, pc = .joinListener c ∧ c.started = true ∧ child = .listener c.n
  | .sockWrite _ bytes _ => bytes ≠ []
  | .ret next => next = .done
  | .shutdownRequest _ | .publishBegin _ _ _ | .publishEnd _ => False
  | _ => True

def Command.Site (n : ℕ) (pc : Command.Pc) : Op Command.Pc → Prop
  | .peerClear m _ => m = n ∧ pc = .clearPeer
  | .ret next => next = .done
  | .spawn _ _ | .join _ _ | .shutdownRequest _ | .publishBegin _ _ _ | .publishEnd _ | .accept _
  | .peerDeclare _ _ => False
  | _ => True

theorem Main.code_site (W : ℕ) (pc : Main.Pc) : Main.Site pc (Main.code W pc) := by
  cases pc with
  | poolCreate context ingest control | workerArgs control i =>
    simp only [Main.code]
    split <;> exact trivial
  | workerSpawn control i => exact Or.inl ⟨control,i,rfl,rfl⟩
  | transportSpawn | spawnProducer | spawnConsumer => exact Or.inr ⟨rfl,fun _ h => by cases h⟩
  | requestShutdown started => exact ⟨started,rfl⟩
  | joinProducer started => exact Or.inl ⟨started,rfl,rfl⟩
  | joinWorkers started i =>
    simp only [Main.code]
    split
    · rename_i hi
      exact Or.inr (Or.inl ⟨started,i,rfl,hi,rfl⟩)
    · exact trivial
  | joinConsumer => exact Or.inr (Or.inr (Or.inl ⟨rfl,rfl⟩))
  | joinTransport => exact Or.inr (Or.inr (Or.inr ⟨rfl,rfl⟩))
  | destroyTelemetry | destroyAlerts => exact fun h => by cases h
  | destroyIngest => exact fun _ => rfl
  | _ => exact trivial

theorem Producer.code_site (pc : Producer.Pc) : Producer.Site (Producer.code pc) := by
  cases pc with
  | sleep counter totalMs sleptMs =>
    simp only [Producer.code]
    split <;> exact trivial
  | done => exact rfl
  | _ => exact trivial

theorem Worker.code_site (pc : Worker.Pc) : Worker.Site pc (Worker.code pc) := by
  cases pc with
  | publish raw seq ts => exact fun subscribers => ⟨raw,seq,ts,rfl⟩
  | fanOut raw seq ts subscribers =>
    cases subscribers with
    | nil => exact ⟨raw,seq,ts,rfl⟩
    | cons q rest => exact trivial
  | done => exact rfl
  | _ => exact trivial

theorem Consumer.code_site (pc : Consumer.Pc) : Consumer.Site (Consumer.code pc) := by
  cases pc with
  | done => exact rfl
  | _ => exact trivial

/-- `write_all` never asks for an empty write. -/
theorem Transport.writeAll_site {pc : Transport.Pc} (n : ℕ) (rest : Bytes) (again : Bytes → Transport.Pc)
    (written failed : Transport.Pc) : Transport.Site pc (writeAll n rest again written failed) := by
  unfold writeAll
  split
  · exact trivial
  · assumption

theorem Transport.code_site (pc : Transport.Pc) : Transport.Site pc (Transport.code pc) := by
  cases pc with
  | accept => exact ⟨rfl,fun _ => rfl⟩
  | handshake n hs =>
    cases hs with
    | hello rest | nack rest | ack version rest =>
      simp only [Transport.code, Handshake.code, map_writeAll]
      exact Transport.writeAll_site ..
    | readLine buf =>
      simp only [Transport.code, Handshake.code]
      split <;> exact trivial
    | done ok version => exact trivial
  | createTelemetry n => exact ⟨_,rfl,rfl,rfl,by simp [Transport.stage]⟩
  | createAlerts c => exact ⟨_,rfl,rfl,rfl,by simp [Transport.stage]⟩
  | declarePeer c => exact ⟨c,rfl,rfl,by simp [Transport.stage]⟩
  | spawnListener c => exact ⟨c.n,rfl⟩
  | write c item rest => exact Transport.writeAll_site ..
  | clearPeer c => exact ⟨c,rfl,rfl⟩
  | joinListener c =>
    simp only [Transport.code]
    split
    · rename_i hstarted
      exact ⟨c,rfl,hstarted,rfl⟩
    · exact trivial
  | subscribeTelemetry c | subscribeAlerts c | unsubscribeTelemetry c | unsubscribeAlerts c | destroyTelemetry c
  | destroyAlerts c =>
    simp only [Transport.code]
    split <;> exact trivial
  | done => exact rfl
  | _ => exact trivial

theorem Command.code_site (n : ℕ) (pc : Command.Pc) : Command.Site n pc (Command.code n pc) := by
  cases pc with
  | poll buf =>
    simp only [Command.code]
    split <;> exact trivial
  | clearPeer => exact ⟨rfl,rfl⟩
  | done => exact rfl
  | _ => exact trivial

section Threads
variable {W : ℕ} {t : Tid} {pc : Pc t}

def Site : (t : Tid) → Pc t → Op (Pc t) → Prop
  | .main, pc, op => Main.Site pc op
  | .producer, _, op => Producer.Site op
  | .worker _, pc, op => Worker.Site pc op
  | .consumer, _, op => Consumer.Site op
  | .transport, pc, op => Transport.Site pc op
  | .listener n, pc, op => Command.Site n pc op

theorem code_site (W : ℕ) (t : Tid) (pc : Pc t) : Site t pc (code W t pc) := by
  cases t with
  | main => exact Main.code_site W pc
  | producer => exact Producer.code_site pc
  | worker i => exact Worker.code_site pc
  | consumer => exact Consumer.code_site pc
  | transport => exact Transport.code_site pc
  | listener n => exact Command.code_site n pc

theorem site_of_code {op : Op (Pc t)} (h : code W t pc = op) : Site t pc op := h ▸ code_site W t pc

theorem Main.site_of_code {pc : Main.Pc} {op : Op Main.Pc} (h : Main.code W pc = op) : Main.Site pc op :=
  h ▸ Main.code_site W pc

theorem Transport.site_of_code {pc : Transport.Pc} {op : Op Transport.Pc} (h : Transport.code pc = op) :
    Transport.Site pc op := h ▸ Transport.code_site pc

end Threads

end RadioSim.Process
