import RadioSim.Process.Client
import RadioSim.Process.Readiness
import RadioSim.Process.Wire

/-! # Shutdown and the clients

After the signal `main` requests the shutdown, shuts down the three queues and joins
the threads one after the other. Every thread can go on by itself, or waits for one
that can, unless the transport thread is inside a `read` or `write` that its client
keeps from returning.
-/
namespace RadioSim.Process
open Pubsub Queue

/-- The part of `main` after `shutdown_request` and the three `msg_queue_shutdown` calls. -/
def Main.ShuttingDown : Main.Pc → Prop
  | .joinProducer _ | .joinWorkers _ _ | .joinConsumer | .unsubscribeTelemetry | .unsubscribeAlerts
  | .destroyTelemetry | .destroyAlerts | .joinTransport | .destroyIngest | .finish => True
  | _ => False

instance (pc : Main.Pc) : Decidable (Main.ShuttingDown pc) := by
  cases pc <;> first | exact isTrue trivial | exact isFalse id

def Op.locks {P : Type} : Op P → Bool
  | .subscribe _ _ _ | .unsubscribe _ _ _ | .publishBegin _ _ _ => true
  | _ => false

namespace World

/-- The thread has a step of its own, whatever the clients do from now on. A call that
is interrupted or fails does not count. -/
def Enabled (W room : ℕ) (w : World) (t : Tid) : Prop :=
  ∃ c s, w.answers room t (w.system.op W t) c = true ∧ step W w.system t c = some s

def Joining (W : ℕ) (w : World) (t : Tid) : Prop :=
  ∃ child next, w.system.op W t = .join child next ∧ w.system.shared.status child ≠ .returned

def Queued (W room : ℕ) (w : World) (t : Tid) : Prop :=
  (w.system.op W t).locks = true ∧ ∃ holder, w.system.shared.registryLock = some holder ∧
    w.system.Running holder ∧ w.Enabled W room holder

def Progresses (W room : ℕ) (w : World) (t : Tid) : Prop :=
  w.Joining W t ∨ w.Enabled W room t ∨ w.Queued W room t

/-- The transport thread is in a `read` of a client that is silent and has not ended its
sending side, or in a `write` to one that has left the socket's buffer full and has not
closed. -/
def BlockedOnClient (W room : ℕ) (w : World) : Prop :=
  w.system.Running .transport ∧ ∃ n,
    ((∃ k, w.system.op W .transport = .sockRead n k ∧ w.unread n = [] ∧ (w.clients n).ended = false) ∨
      ∃ bytes k, w.system.op W .transport = .sockWrite n bytes k ∧ room ≤ w.backlog n ∧ (w.clients n).closed = false)

/-- What an operation needs so that it neither blocks nor lacks a meaning. -/
def Ready {P : Type} (room : ℕ) (w : World) : Op P → Prop
  | .join child _ => w.system.shared.status child = .returned
  | .touch a _ => a ≠ none
  | .queueDestroy q _ | .queueShutdown q _ | .tryEnqueue q _ _ | .tryDequeue q _ | .deliver q _ _ =>
    Live w.system.shared q
  | .enqueue q _ _ | .dequeue q _ => ClosedIn w.system.shared q
  | .subscribe _ _ _ | .unsubscribe _ _ _ | .publishBegin _ _ _ => w.system.shared.registryLock = none
  | .accept _ => w.system.shared.accepted < w.connected
  | .sockRead n _ => w.unread n ≠ [] ∨ (w.clients n).ended = true
  | .sockWrite n bytes _ => (w.clients n).closed = true ∨ (bytes ≠ [] ∧ w.backlog n < room)
  | _ => True

end World

section Threads
variable {W room : ℕ} {w : World} {t : Tid}

theorem exec_of_ready {P : Type} {op : Op P} (t : Tid) (h : w.Ready room op) :
    ∃ c r, w.answers room t op c = true ∧ exec t c w.system.shared op = some r := by
  cases op with
  | join child next => exact ⟨.ok,_,rfl,if_pos h⟩
  | touch a next =>
    cases a with
    | none => exact absurd rfl h
    | some a => exact ⟨.ok,_,rfl,rfl⟩
  | free a next => cases a <;> exact ⟨.ok,_,rfl,rfl⟩
  | queueDestroy q next | queueShutdown q next | tryEnqueue q item k | tryDequeue q k | deliver q item next =>
    obtain ⟨r,hr⟩ := Option.isSome_iff_exists.mp h
    exact ⟨.ok,_,rfl,by simp only [exec, hr, Option.map_some, Option.bind_some]; rfl⟩
  | enqueue q item k =>
    obtain ⟨r,hr,hclosed⟩ := h
    have henqueue : r.enqueue item = some (r.tryEnqueue item) := by simp [RingQueue.enqueue_eq, hclosed]
    exact ⟨.ok,_,rfl,by simp only [exec, hr, Option.bind_some, henqueue, Option.map_some]; rfl⟩
  | dequeue q k =>
    obtain ⟨r,hr,hclosed⟩ := h
    have hdequeue : r.dequeue = some r.tryDequeue := by simp [RingQueue.dequeue_eq, hclosed]
    exact ⟨.ok,_,rfl,by simp only [exec, hr, Option.bind_some, hdequeue, Option.map_some]; rfl⟩
  | subscribe topic q k | unsubscribe topic q next => exact ⟨.ok,_,rfl,if_pos h⟩
  | publishBegin topic item k =>
    cases hl : findOrCreateTopic w.system.shared.registry topic with
    | none => exact ⟨.ok,_,rfl,by simp only [exec, hl]; exact if_pos h⟩
    | some l => exact ⟨.ok,_,rfl,by simp only [exec, hl]; exact if_pos h⟩
  | time k => exact ⟨.clock 0,_,rfl,rfl⟩
  | poll k => exact ⟨.poll (w.pollAnswer t),_,decide_eq_true rfl,rfl⟩
  | accept k => exact ⟨.ok,_,decide_eq_true h,rfl⟩
  | sockRead n k =>
    cases hunread : w.unread n with
    | nil =>
      have hended := h.resolve_left (fun hne => hne hunread)
      exact ⟨.read .eof,_,by simp [World.answers, World.readAnswer, hunread, hended],rfl⟩
    | cons b rest => exact ⟨.read (.byte b),_,by simp [World.answers, World.readAnswer, hunread],rfl⟩
  | sockWrite n bytes k =>
    rcases h with hclosed | ⟨hne,hroom⟩
    · exact ⟨.write .error,_,hclosed,rfl⟩
    · cases hclosed : (w.clients n).closed with
      | true => exact ⟨.write .error,_,hclosed,rfl⟩
      | false =>
        have hone : 1 ≤ bytes.length := List.length_pos_iff.mpr hne
        refine ⟨.write (.wrote 1),_,?_,if_pos hone⟩
        simp [World.answers, World.writeAnswer, hclosed]
        omega
  | _ => exact ⟨.ok,_,rfl,rfl⟩

theorem enabled_of_ready (hrunning : w.system.Running t) (h : w.Ready room (w.system.op W t)) :
    w.Enabled W room t := by
  obtain ⟨c,r,hanswers,hexec⟩ := exec_of_ready t h
  exact ⟨c,_,hanswers,by rw [step, if_pos hrunning, hexec]; rfl⟩

theorem progresses_of_ready (hrunning : w.system.Running t) {op : Op (Pc t)} (hop : w.system.op W t = op)
    (hready : w.Ready room op) : w.Progresses W room t :=
  Or.inr (Or.inl (enabled_of_ready hrunning (hop ▸ hready)))

theorem progresses_of_join (hrunning : w.system.Running t) {child : Tid} {next : Pc t}
    (hop : w.system.op W t = .join child next) : w.Progresses W room t := by
  by_cases hreturned : w.system.shared.status child = .returned
  · exact progresses_of_ready hrunning hop hreturned
  · exact Or.inl ⟨child,next,hop,hreturned⟩

end Threads

section Operations
variable {W : ℕ}

/-- `main` joins the threads it has created, the transport thread its listener. -/
def Joins : (t : Tid) → Pc t → Tid → Prop
  | .main, pc, child => Main.hired pc child
  | .transport, pc, .listener n => Transport.Started pc n
  | _, _, _ => False

theorem code_join {t child : Tid} {pc next : Pc t} (h : code W t pc = .join child next) : Joins t pc child := by
  have hsite := site_of_code h
  cases t with
  | main =>
    rcases hsite with ⟨started,rfl,rfl⟩ | ⟨started,i,rfl,hi,rfl⟩ | ⟨rfl,rfl⟩ | ⟨rfl,rfl⟩
    · exact ⟨Nat.le_of_ble_eq_true rfl,Nat.le_of_ble_eq_true rfl⟩
    · exact ⟨hi,Nat.le_of_ble_eq_true rfl⟩
    · exact ⟨Nat.le_of_ble_eq_true rfl,Nat.le_of_ble_eq_true rfl⟩
    · exact ⟨Nat.le_of_ble_eq_true rfl,Nat.le_of_ble_eq_true rfl⟩
  | transport =>
    obtain ⟨c,rfl,hstarted,rfl⟩ := hsite
    exact ⟨c,rfl,rfl,hstarted⟩
  | _ => exact hsite.elim

end Operations

structure AtShutdown (w : World) : Prop where
  tidy : Tidy w.system
  stocked : Stocked w.system
  staffed : Staffed w.system
  poised : Poised w.system
  wired : Wired (w.system.pcs .transport) w.system.shared
  linked : Linked w
  running : w.system.Running .main
  shutting : Main.ShuttingDown (w.system.pcs .main)

theorem run_atShutdown {W room : ℕ} {w : World} {events : List Event}
    (hrun : World.run W room .initial events = some w) (hrunning : w.system.Running .main)
    (hpc : Main.ShuttingDown (w.system.pcs .main)) : AtShutdown w := by
  have hreach := world_run_system hrun
  obtain ⟨htidy,hstocked⟩ := run_stocked hreach
  exact ⟨htidy,hstocked,run_staffed hreach,run_poised hreach,(run_wired hreach).2.1,run_linked hrun,hrunning,hpc⟩

theorem ClosedIn.live {sh : Shared} {q : QueueId} (h : ClosedIn sh q) : Live sh q := by
  obtain ⟨r,hr,_⟩ := h
  exact Option.isSome_iff_exists.mpr ⟨r,hr⟩

namespace AtShutdown
variable {W room : ℕ} {w : World} {t : Tid} {n : ℕ} (h : AtShutdown w)
include h

theorem runs (hstatus : w.system.shared.status t = .running) : w.system.Running t := ⟨h.running.1,hstatus⟩

/-- Whoever holds the registry mutex can go on. -/
theorem holder_enabled (hlock : w.system.shared.registryLock = some t) :
    w.system.Running t ∧ w.Enabled W room t := by
  obtain ⟨hstatus,subscribers,hremaining⟩ := h.poised.locked t hlock
  refine ⟨h.runs hstatus,enabled_of_ready (h.runs hstatus) ?_⟩
  rcases code_remaining (W := W) hremaining with ⟨_,next,hop⟩ | ⟨q,rest,item,next,rfl,hop,_⟩
  · rw [show w.system.op W t = _ from hop]
    exact trivial
  · rw [show w.system.op W t = _ from hop]
    exact (h.tidy.held q ((h.tidy.fanOut t _ hremaining).2 q List.mem_cons_self)).1

theorem lock_progresses (hrunning : w.system.Running t) (hlocks : (w.system.op W t).locks = true) :
    w.Progresses W room t := by
  cases hlock : w.system.shared.registryLock with
  | none =>
    refine progresses_of_ready hrunning rfl ?_
    generalize w.system.op W t = op at hlocks
    cases op <;> first | exact hlock | cases hlocks
  | some holder => exact Or.inr (Or.inr ⟨hlocks,holder,hlock,h.holder_enabled hlock⟩)

/-- A listener runs during the life of the transport thread only. -/
theorem transport_running (hrunning : w.system.Running (.listener n)) : w.system.Running .transport := by
  obtain ⟨c,hc,_⟩ := h.tidy.listening n hrunning.2
  refine h.runs ?_
  cases hstatus : w.system.shared.status .transport with
  | running => rfl
  | unborn =>
    rw [h.staffed.fresh .transport hstatus] at hc
    cases hc
  | returned =>
    rw [show w.system.pcs .transport = .done from h.staffed.ended .transport hstatus] at hc
    cases hc

theorem ingest_closed (ht : t ≠ .main) (hrunning : w.system.Running t) : ClosedIn w.system.shared .ingest := by
  have hcrew : ∃ u, u ≠ .main ∧ (∀ n, u ≠ .listener n) ∧ Main.crew (w.system.pcs .main) u := by
    by_cases hlistener : ∃ n, t = .listener n
    · obtain ⟨n,rfl⟩ := hlistener
      exact ⟨.transport,nofun,nofun,h.staffed.crew _ (h.transport_running hrunning).2⟩
    · exact ⟨t,ht,fun n hn => hlistener ⟨n,hn⟩,h.staffed.crew t hrunning.2⟩
  refine h.poised.shut .ingest ?_
  have hpc := h.shutting
  generalize w.system.pcs .main = pc at hcrew hpc
  obtain ⟨u,humain,hulistener,hu⟩ := hcrew
  cases pc with
  | finish =>
    cases u with
    | main => exact absurd rfl humain
    | listener n => exact absurd rfl (hulistener n)
    | _ => simp [Main.crew, Main.phase, Main.pool] at hu
  | _ => first | exact trivial | exact hpc.elim

theorem main_progresses : w.Progresses W room .main := by
  have hpc := h.shutting
  have howned := h.tidy.owned .main
  have hshut := h.poised.shut .ingest
  have hop : w.system.op W .main = Main.code W (w.system.pcs .main) := rfl
  generalize w.system.pcs .main = pc at hpc howned hshut hop
  cases pc with
  | joinProducer started | joinConsumer | joinTransport => exact progresses_of_join h.running hop
  | joinWorkers started i =>
    simp only [Main.code] at hop
    split at hop
    · exact progresses_of_join h.running hop
    · exact progresses_of_ready h.running hop trivial
  | unsubscribeTelemetry | unsubscribeAlerts => exact h.lock_progresses h.running (by rw [hop]; rfl)
  | destroyTelemetry =>
    exact progresses_of_ready h.running hop (howned .consumerTelemetry (Or.inr ⟨Nat.le_of_ble_eq_true rfl,le_rfl⟩))
  | destroyAlerts =>
    exact progresses_of_ready h.running hop (howned .consumerAlerts ⟨Nat.le_of_ble_eq_true rfl,le_rfl⟩)
  | destroyIngest => exact progresses_of_ready h.running hop (hshut trivial).live
  | finish => exact progresses_of_ready h.running hop trivial
  | _ => exact hpc.elim

theorem producer_progresses (hrunning : w.system.Running .producer) : w.Progresses W room .producer := by
  have hclosed := h.ingest_closed (by simp) hrunning
  refine progresses_of_ready hrunning rfl ?_
  change w.Ready room (Producer.code (w.system.pcs .producer))
  generalize w.system.pcs .producer = pc
  cases pc with
  | enqueueTelemetry counter a => exact hclosed
  | enqueueAlert counter a => exact hclosed.live
  | sleep counter totalMs sleptMs =>
    simp only [Producer.code]
    split <;> exact trivial
  | _ => exact trivial

theorem worker_progresses {i : ℕ} (hrunning : w.system.Running (.worker i)) : w.Progresses W room (.worker i) := by
  have hclosed := h.ingest_closed (by simp) hrunning
  have hand := h.stocked.hands (.worker i)
  have hfanOut := h.tidy.fanOut (.worker i)
  have hop : w.system.op W (.worker i) = Worker.code (w.system.pcs (.worker i)) := rfl
  generalize w.system.pcs (.worker i) = pc at hand hfanOut hop
  cases pc with
  | dequeue => exact progresses_of_ready hrunning hop hclosed
  | read raw seq ts => exact progresses_of_ready hrunning hop (Fits.addr (q := .ingest) hand)
  | publish raw seq ts => exact h.lock_progresses hrunning (by rw [hop]; rfl)
  | fanOut raw seq ts subscribers => exact Or.inr (Or.inl (h.holder_enabled (hfanOut subscribers rfl).1).2)
  | _ => exact progresses_of_ready hrunning hop trivial

theorem consumer_progresses (hrunning : w.system.Running .consumer) : w.Progresses W room .consumer := by
  have hladen := h.poised.laden .consumer
  have hqueues : ClosedIn w.system.shared .consumerTelemetry ∧ Live w.system.shared .consumerAlerts := by
    have hcrew := h.staffed.crew .consumer hrunning.2
    have hpc := h.shutting
    have howned := h.tidy.owned .main .consumerAlerts
    have hshut := h.poised.shut .consumerTelemetry
    generalize w.system.pcs .main = pc at hcrew hpc howned hshut
    cases pc with
    | joinProducer started | joinWorkers started i | joinConsumer =>
      exact ⟨hshut trivial,howned ⟨Nat.le_of_ble_eq_true rfl,Nat.le_of_ble_eq_true rfl⟩⟩
    | _ => first | exact hpc.elim | exact absurd hcrew (by simp [Main.crew, Main.phase])
  refine progresses_of_ready hrunning rfl ?_
  change w.Ready room (Consumer.code (w.system.pcs .consumer))
  generalize w.system.pcs .consumer = pc at hladen
  cases pc with
  | dequeueTelemetry => exact hqueues.1
  | tryAlert => exact hqueues.2
  | logTelemetry item | logAlert item => exact hladen
  | _ => exact trivial

theorem listener_enabled (hrunning : w.system.Running (.listener n)) : w.Enabled W room (.listener n) := by
  have hclosed := h.ingest_closed (by simp) hrunning
  have hladen := h.poised.laden (.listener n)
  have hread := h.linked.ready n
  refine enabled_of_ready hrunning ?_
  change w.Ready room (Command.code n (w.system.pcs (.listener n)))
  generalize w.system.pcs (.listener n) = pc at hladen hread
  cases pc with
  | poll buf =>
    simp only [Command.code]
    split <;> exact trivial
  | read buf => exact hread buf rfl
  | enqueueAlert item => exact hclosed.live
  | logAlert item => exact hladen
  | _ => exact trivial

theorem transport_progresses (hrunning : w.system.Running .transport) (hfree : ¬ w.BlockedOnClient W room) :
    w.Progresses W room .transport := by
  -- a call on a socket waits for nobody but the client
  have hread : ∀ n k, w.system.op W .transport = .sockRead n k → w.Progresses W room .transport := by
    intro n k hop
    refine progresses_of_ready hrunning hop ?_
    by_contra hblocked
    obtain ⟨hnone,hopen⟩ := not_or.mp hblocked
    exact hfree ⟨hrunning,n,Or.inl ⟨k,hop,not_not.mp hnone,Bool.eq_false_iff.mpr hopen⟩⟩
  have hwrite : ∀ n bytes k, w.system.op W .transport = .sockWrite n bytes k → w.Progresses W room .transport := by
    intro n bytes k hop
    refine progresses_of_ready hrunning hop ?_
    by_contra hblocked
    obtain ⟨hopen,hfull⟩ := not_or.mp hblocked
    have hroom : room ≤ w.backlog n := Nat.le_of_not_lt fun hlt => hfull ⟨Transport.site_of_code hop,hlt⟩
    exact hfree ⟨hrunning,n,Or.inr ⟨bytes,k,hop,hroom,Bool.eq_false_iff.mpr hopen⟩⟩
  have howned := h.tidy.owned .transport
  have hequipped := h.poised.equipped
  have hwaiting := h.linked.waiting
  have hitem : ∀ n x sent, w.system.shared.dequeued n = sent ++ [x] → x.2.addr ≠ none := fun n x sent hlast =>
    (fits_of_dequeued h.stocked (n := n) (by rw [hlast]; simp)).1.addr
  have hwired := h.wired.current
  have hop : w.system.op W .transport = Transport.code (w.system.pcs .transport) := rfl
  generalize w.system.pcs .transport = pc at howned hequipped hwaiting hwired hop
  cases pc with
  | accept => exact progresses_of_ready hrunning hop (hwaiting rfl)
  | handshake n hs =>
    rcases Transport.handshake_op n hs with ⟨next,hnext,_⟩ | ⟨bytes,k,hnext,_⟩ | ⟨k,hnext,_⟩
    · exact progresses_of_ready hrunning (hop.trans hnext) trivial
    · exact hwrite n bytes k (hop.trans hnext)
    · exact hread n k (hop.trans hnext)
  | write c item rest =>
    simp only [Transport.code, writeAll] at hop
    split at hop
    · exact progresses_of_ready hrunning hop trivial
    · exact hwrite c.n rest _ hop
  | subscribeTelemetry c | subscribeAlerts c | unsubscribeTelemetry c | unsubscribeAlerts c =>
    simp only [Transport.code] at hop
    split at hop
    · exact h.lock_progresses hrunning (by rw [hop]; rfl)
    · exact progresses_of_ready hrunning hop trivial
  | tryTelemetry c =>
    obtain ⟨htelemetry,_⟩ := hequipped c rfl (Nat.le_of_ble_eq_true rfl)
    exact progresses_of_ready hrunning hop (howned (.connTelemetry c.n) ⟨c,rfl,rfl,htelemetry,Nat.le_of_ble_eq_true rfl⟩)
  | tryAlerts c =>
    obtain ⟨_,halerts⟩ := hequipped c rfl (Nat.le_of_ble_eq_true rfl)
    exact progresses_of_ready hrunning hop (howned (.connAlerts c.n) ⟨c,rfl,rfl,halerts,Nat.le_of_ble_eq_true rfl⟩)
  | formatTelemetry c item | formatAlert c item =>
    obtain ⟨_,sent,hlast,_⟩ := hwired c.n rfl
    exact progresses_of_ready hrunning hop (hitem c.n _ sent hlast)
  | joinListener c =>
    simp only [Transport.code] at hop
    split at hop
    · exact progresses_of_join hrunning hop
    · exact progresses_of_ready hrunning hop trivial
  | destroyTelemetry c =>
    simp only [Transport.code] at hop
    split at hop
    · rename_i hsub
      exact progresses_of_ready hrunning hop (howned (.connTelemetry c.n) ⟨c,rfl,rfl,hsub,Nat.le_of_ble_eq_true rfl⟩)
    · exact progresses_of_ready hrunning hop trivial
  | destroyAlerts c =>
    simp only [Transport.code] at hop
    split at hop
    · rename_i hsub
      exact progresses_of_ready hrunning hop (howned (.connAlerts c.n) ⟨c,rfl,rfl,hsub,Nat.le_of_ble_eq_true rfl⟩)
    · exact progresses_of_ready hrunning hop trivial
  | _ => exact progresses_of_ready hrunning hop trivial

theorem all_progress (hfree : ¬ w.BlockedOnClient W room) (hrunning : w.system.Running t) :
    w.Progresses W room t := by
  cases t with
  | main => exact h.main_progresses
  | producer => exact h.producer_progresses hrunning
  | worker i => exact h.worker_progresses hrunning
  | consumer => exact h.consumer_progresses hrunning
  | transport => exact h.transport_progresses hrunning hfree
  | listener n => exact Or.inr (Or.inl (h.listener_enabled hrunning))

/-- The thread that another one waits to join exists. -/
theorem joined_running {child : Tid} (hjoins : Joins t (w.system.pcs t) child)
    (hnot : w.system.shared.status child ≠ .returned) : w.system.Running child := by
  have hborn : w.system.shared.status child ≠ .unborn := by
    cases t with
    | main => exact h.staffed.hired child hjoins
    | transport =>
      cases child with
      | listener n => exact h.poised.started n hjoins
      | _ => exact hjoins.elim
    | _ => exact hjoins.elim
  cases hstatus : w.system.shared.status child with
  | unborn => exact absurd hstatus hborn
  | running => exact h.runs hstatus
  | returned => exact absurd hstatus hnot

/-- Not all threads wait for each other. -/
theorem exists_enabled (hfree : ¬ w.BlockedOnClient W room) : ∃ t, w.system.Running t ∧ w.Enabled W room t := by
  have hmain : w.Progresses W room .main := h.main_progresses
  rcases hmain with ⟨child,next,hop,hnot⟩ | henabled | ⟨_,holder,_,hholder⟩
  · have hjoins := code_join hop
    have hchild := h.joined_running hjoins hnot
    rcases h.all_progress hfree hchild with ⟨child',next',hop',hnot'⟩ | henabled | ⟨_,holder,_,hholder⟩
    · -- the transport thread, which waits for its listener
      have hjoins' := code_join hop'
      have hchild' := h.joined_running hjoins' hnot'
      cases child with
      | main => exact hjoins.elim
      | transport =>
        cases child' with
        | listener n => exact ⟨.listener n,hchild',h.listener_enabled hchild'⟩
        | _ => exact hjoins'.elim
      | _ => exact hjoins'.elim
    · exact ⟨child,hchild,henabled⟩
    · exact ⟨holder,hholder⟩
  · exact ⟨.main,h.running,henabled⟩
  · exact ⟨holder,hholder⟩

end AtShutdown

section Blocking
variable {W room : ℕ} {w : World} {events : List Event}

/-- An operation other than a join or a lock holds its thread up if no answer fits. -/
theorem not_progresses {t : Tid} {op : Op (Pc t)} (hop : w.system.op W t = op)
    (hjoin : ∀ child next, op ≠ .join child next) (hlocks : op.locks = false)
    (hblocks : ∀ c r, exec t c w.system.shared op = some r → w.answers room t op c = false) :
    ¬ w.Progresses W room t := by
  rintro (⟨child,next,hop',_⟩ | ⟨c,s,hanswers,hstep⟩ | ⟨hlocks',_⟩)
  · exact hjoin child next (hop.symm.trans hop')
  · obtain ⟨_,p,sh,hexec,_⟩ := step_inversion hstep
    rw [hop] at hanswers hexec
    exact absurd ((hblocks c _ hexec).symm.trans hanswers) Bool.false_ne_true
  · rw [hop, hlocks] at hlocks'
    cases hlocks'

theorem World.BlockedOnClient.not_progresses (h : w.BlockedOnClient W room) : ¬ w.Progresses W room .transport := by
  obtain ⟨_,n,⟨k,hop,hnone,hopen⟩ | ⟨bytes,k,hop,hfull,hopen⟩⟩ := h
  · refine Process.not_progresses hop (fun _ _ hjoin => by cases hjoin) rfl fun c r hexec => ?_
    cases c with
    | read answer => simp [World.answers, World.readAnswer, hnone, hopen]
    | _ => cases hexec
  · refine Process.not_progresses hop (fun _ _ hjoin => by cases hjoin) rfl fun c r hexec => ?_
    cases c with
    | write answer =>
      cases answer with
      | wrote m =>
        simp [World.answers, World.writeAnswer, hopen]
        omega
      | eintr => rfl
      | error => exact hopen
    | _ => cases hexec

theorem World.Queued.not_enabled {t : Tid} (h : w.Queued W room t) : ¬ (w.Joining W t ∨ w.Enabled W room t) := by
  obtain ⟨hlocks,holder,hlock,_⟩ := h
  rintro (⟨child,next,hop,_⟩ | ⟨c,s,_,hstep⟩)
  · rw [hop] at hlocks
    cases hlocks
  · obtain ⟨_,p,sh,hexec,_⟩ := step_inversion hstep
    generalize w.system.op W t = op at hlocks hexec
    cases op with
    | subscribe | unsubscribe | publishBegin => simp [exec, hlock] at hexec
    | _ => cases hlocks

/-- Shutdown and the clients, over every run of the process with its clients, once
`main` has requested the shutdown and shut down its queues. Each running thread waits to
join a thread that has not returned or has a step of its own exactly if the transport
thread is not in a `read` or `write` that its client blocks and no thread waits for the
registry mutex; who waits for the mutex waits for a thread that has a step. If no client
blocks the transport thread, some thread has a step, so the process is not stuck. -/
theorem shutdown_progresses_iff (hrun : World.run W room .initial events = some w)
    (hrunning : w.system.Running .main) (hpc : Main.ShuttingDown (w.system.pcs .main)) :
    ((∀ t, w.system.Running t → w.Joining W t ∨ w.Enabled W room t) ↔
      ¬ w.BlockedOnClient W room ∧ ∀ t, w.system.Running t → ¬ w.Queued W room t) ∧
    ((∀ t, w.system.Running t → w.Progresses W room t) ↔ ¬ w.BlockedOnClient W room) ∧
    (¬ w.BlockedOnClient W room → ∃ t, w.system.Running t ∧ w.Enabled W room t) := by
  have h := run_atShutdown hrun hrunning hpc
  have hiff : (∀ t, w.system.Running t → w.Progresses W room t) ↔ ¬ w.BlockedOnClient W room := by
    refine ⟨fun hall hblocked => ?_,fun hfree t => h.all_progress hfree⟩
    exact hblocked.not_progresses (hall .transport hblocked.1)
  refine ⟨⟨fun hall => ⟨?_,fun t ht hqueued => hqueued.not_enabled (hall t ht)⟩,?_⟩,hiff,h.exists_enabled⟩
  · exact hiff.mp fun t ht => (hall t ht).imp_right Or.inl
  · rintro ⟨hfree,hunqueued⟩ t ht
    rcases hiff.mpr hfree t ht with hjoining | henabled | hqueued
    · exact Or.inl hjoining
    · exact Or.inr henabled
    · exact absurd hqueued (hunqueued t ht)

def Op.socketCall {P : Type} : Op P → Option (ℕ × Bool)
  | .sockRead n _ => some (n,true)
  | .sockWrite n _ _ => some (n,false)
  | _ => none

theorem socketCall_read {P : Type} {op : Op P} {n : ℕ} (h : op.socketCall = some (n,true)) :
    ∃ k, op = .sockRead n k := by
  cases op with
  | sockRead m k =>
    cases h
    exact ⟨k,rfl⟩
  | _ => cases h

def servedShutdown : List Event := greeting ++ serve shutDown

theorem shutdown_progresses_iff_served : ∃ w,
    World.run Main.workerPoolDefaultSize 4096 .initial servedShutdown = some w ∧
    Main.ShuttingDown (w.system.pcs .main) ∧ w.system.Running (.listener 0) ∧
    (∀ t, w.system.Running t → w.Joining Main.workerPoolDefaultSize t ∨ w.Enabled Main.workerPoolDefaultSize 4096 t) ∧
    ∃ t, w.system.Running t ∧ w.Enabled Main.workerPoolDefaultSize 4096 t := by
  have hobserved : (World.run Main.workerPoolDefaultSize 4096 .initial servedShutdown).map (fun w =>
      (decide (w.system.Running .main ∧ w.system.Running (.listener 0) ∧ Main.ShuttingDown (w.system.pcs .main) ∧
        w.system.shared.registryLock = none),(w.system.op Main.workerPoolDefaultSize .transport).socketCall)) =
      some (true,none) := by
    decide +kernel
  obtain ⟨w,hrun,hw⟩ := Option.map_eq_some_iff.mp hobserved
  simp only [Prod.mk.injEq, decide_eq_true_eq] at hw
  obtain ⟨⟨hmain,hlistener,hpc,hlock⟩,hop⟩ := hw
  have hfree : ¬ w.BlockedOnClient Main.workerPoolDefaultSize 4096 := by
    rintro ⟨_,n,⟨k,hread,_⟩ | ⟨bytes,k,hwrite,_⟩⟩
    · rw [hread] at hop
      cases hop
    · rw [hwrite] at hop
      cases hop
  have hunqueued : ∀ t, w.system.Running t → ¬ w.Queued Main.workerPoolDefaultSize 4096 t := by
    rintro t _ ⟨_,holder,hholder,_⟩
    rw [hlock] at hholder
    cases hholder
  obtain ⟨hiff,_,henabled⟩ := shutdown_progresses_iff hrun hmain hpc
  exact ⟨w,hrun,hpc,hlistener,hiff.mpr ⟨hfree,hunqueued⟩,henabled hfree⟩

/-- A client connects and says nothing; the signal comes, and all threads that can
return do so. -/
def silentClient : List Event :=
  serve startUp ++ [.connect] ++ serve (connect.take 5 ++ shutDown ++ proceed .producer 2 ++ proceed (.worker 0) 2 ++
    proceed (.worker 1) 2 ++ proceed (.worker 2) 2 ++ proceed .consumer 2 ++ proceed .main 10)

/-- `main` waits for the transport thread, which waits in `read_line` for the client;
no thread has a step. -/
theorem shutdown_blocked : ∃ w, World.run Main.workerPoolDefaultSize 4096 .initial silentClient = some w ∧
    w.system.Running .main ∧ Main.ShuttingDown (w.system.pcs .main) ∧ w.system.Running .transport ∧
    ∀ t, w.system.Running t → ¬ w.Enabled Main.workerPoolDefaultSize 4096 t := by
  have hobserved : (World.run Main.workerPoolDefaultSize 4096 .initial silentClient).map (fun w =>
      (decide ((w.system.Running .main ∧ w.system.Running .transport ∧ w.unread 0 = [] ∧
          (w.clients 0).ended = false) ∧ ∀ t ∈ ([.producer,.worker 0,.worker 1,.worker 2,.consumer] : List Tid),
          w.system.shared.status t = .returned),
        Main.closing (w.system.pcs .main),Transport.stage (w.system.pcs .transport),
        (w.system.op Main.workerPoolDefaultSize .transport).socketCall)) = some (true,3,1,some (0,true)) := by
    decide +kernel
  obtain ⟨w,hrun,hw⟩ := Option.map_eq_some_iff.mp hobserved
  simp only [Prod.mk.injEq, decide_eq_true_eq] at hw
  obtain ⟨⟨⟨hmain,htransport,hunread,hopen⟩,hstatus⟩,hclosing,hstage,hcall⟩ := hw
  have hreach := world_run_system hrun
  have hmpc := Main.joinTransport_of_closing hclosing
  refine ⟨w,hrun,hmain,by rw [hmpc]; exact trivial,htransport,fun t hrunning henabled => ?_⟩
  have hreturned : t ∉ [.producer,.worker 0,.worker 1,.worker 2,.consumer] := by
    intro hmem
    exact absurd ((hstatus t hmem).symm.trans hrunning.2) (by simp)
  cases t with
  | main =>
    obtain ⟨c,s,_,hstep⟩ := henabled
    obtain ⟨_,p,sh,hexec,_⟩ := step_inversion hstep
    rw [show w.system.op Main.workerPoolDefaultSize .main = .join .transport .destroyIngest from
      congrArg (Main.code _) hmpc] at hexec
    simp [exec, htransport.2] at hexec
  | producer | consumer => simp at hreturned
  | worker i =>
    have hi : i < 3 := (run_enlisted hreach).worker i (by simp [hrunning.2])
    interval_cases i <;> simp at hreturned
  | transport =>
    obtain ⟨k,hop⟩ := socketCall_read hcall
    have hblocked : w.BlockedOnClient Main.workerPoolDefaultSize 4096 :=
      ⟨htransport,0,Or.inl ⟨k,hop,hunread,hopen⟩⟩
    exact hblocked.not_progresses (Or.inr (Or.inl henabled))
  | listener n =>
    obtain ⟨_,_,_,_,hserving⟩ := (run_tidy hreach).listening n hrunning.2
    omega

end Blocking

end RadioSim.Process
