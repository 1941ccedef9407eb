import RadioSim.Process.Ownership
import RadioSim.Process.Session
import RadioSim.Process.Staff

/-! # Draining

Whether a queue is empty when it is destroyed. A queue is attended while one of
its readers is still in its loop; it is empty in the end exactly if no item came
in, or was left behind, after that.
-/
namespace RadioSim.Process
open Pubsub Queue

section Readers

def Transport.Departed : Transport.Pc → Prop
  | .release _ _ alive => alive = false
  | .clearPeer _ | .joinListener _ | .endPeer _ | .unsubscribeTelemetry _ | .unsubscribeAlerts _
  | .destroyTelemetry _ | .destroyAlerts _ | .close _ => True
  | _ => False

def Reads : Tid → QueueId → Prop
  | .worker _, .ingest | .consumer, .consumerTelemetry | .consumer, .consumerAlerts
  | .transport, .connTelemetry _ | .transport, .connAlerts _ => True
  | _, _ => False

def Reading : (t : Tid) → Pc t → QueueId → Prop
  | .worker _, pc, .ingest => pc = .dequeue
  | .consumer, pc, .consumerTelemetry | .consumer, pc, .consumerAlerts => pc ≠ .done
  | .transport, pc, .connTelemetry n | .transport, pc, .connAlerts n =>
    Transport.connection pc = some n ∧ ¬ Transport.Departed pc
  | _, _, _ => False

def Making : (t : Tid) → Pc t → QueueId → Prop
  | .main, pc, .ingest => Main.phase pc = 0
  | .main, pc, .consumerTelemetry | .main, pc, .consumerAlerts => Main.phase pc = 1 ∧ Main.stage pc ≤ 1
  | .transport, pc, .connTelemetry n | .transport, pc, .connAlerts n =>
    Transport.connection pc = some n ∧ Transport.stage pc ≤ 3
  | _, _, _ => False

def Disposing : (t : Tid) → Pc t → QueueId → Prop
  | .main, pc, .ingest => pc = .destroyIngest
  | .main, pc, .consumerTelemetry => pc = .destroyTelemetry
  | .main, pc, .consumerAlerts => pc = .destroyAlerts
  | .transport, pc, .connTelemetry n => ∃ c, pc = .destroyTelemetry c ∧ c.n = n
  | .transport, pc, .connAlerts n => ∃ c, pc = .destroyAlerts c ∧ c.n = n
  | _, _, _ => False

/-- Who takes from queues, creates them, destroys them and offers items to them. -/
def Op.Draining (t : Tid) (pc : Pc t) : Op (Pc t) → Prop
  | .dequeue q _ | .tryDequeue q _ => Reading t pc q
  | .queueCreate q _ => Making t pc q
  | .queueDestroy q _ => Disposing t pc q
  | .enqueue q _ _ | .tryEnqueue q _ _ => q = .ingest ∧ (t = .producer ∨ ∃ n, t = .listener n)
  | .deliver q _ _ => ∃ rest, remaining t pc = some (q :: rest)
  | _ => True

theorem code_draining (W : ℕ) (t : Tid) (pc : Pc t) : (code W t pc).Draining t pc := by
  cases t with
  | main =>
    change (Main.code W pc).Draining .main pc
    cases pc with
    | createTelemetry started | createAlerts started telemetry => exact ⟨rfl,Nat.le_of_ble_eq_true rfl⟩
    | _ =>
      simp only [Main.code]
      first | exact rfl | exact trivial | (split <;> exact trivial)
  | producer =>
    change (Producer.code pc).Draining .producer pc
    cases pc with
    | enqueueTelemetry counter a | enqueueAlert counter a => exact ⟨rfl,Or.inl rfl⟩
    | _ =>
      simp only [Producer.code]
      first | exact trivial | (split <;> exact trivial)
  | worker i =>
    change (Worker.code pc).Draining (.worker i) pc
    cases pc with
    | dequeue => exact rfl
    | fanOut raw seq ts subscribers =>
      cases subscribers with
      | nil => exact trivial
      | cons q rest => exact ⟨rest,rfl⟩
    | _ => exact trivial
  | consumer =>
    change (Consumer.code pc).Draining .consumer pc
    cases pc with
    | dequeueTelemetry | tryAlert => exact fun h => by cases h
    | _ => exact trivial
  | transport =>
    change (Transport.code pc).Draining .transport pc
    cases pc with
    | handshake n hs =>
      rcases Transport.handshake_op n hs with ⟨_,hop,_⟩ | ⟨_,_,hop,_⟩ | ⟨_,hop,_⟩ <;> rw [hop] <;> exact trivial
    | createTelemetry n | createAlerts c => exact ⟨rfl,Nat.le_of_ble_eq_true rfl⟩
    | tryTelemetry c | tryAlerts c => exact ⟨rfl,fun h => h⟩
    | destroyTelemetry c | destroyAlerts c =>
      simp only [Transport.code]
      split
      · exact ⟨c,rfl,rfl⟩
      · exact trivial
    | _ =>
      simp only [Transport.code, writeAll]
      first | exact trivial | (split <;> exact trivial)
  | listener n =>
    change (Command.code n pc).Draining (.listener n) pc
    cases pc with
    | enqueueAlert item => exact ⟨rfl,Or.inr ⟨n,rfl⟩⟩
    | _ =>
      simp only [Command.code]
      first | exact trivial | (split <;> exact trivial)

theorem reads_of_reading {t : Tid} {pc : Pc t} {q : QueueId} (h : Reading t pc q) : Reads t q := by
  cases t <;> cases q <;> first | exact trivial | exact h.elim

theorem Transport.Follows.departed {pc p : Transport.Pc} (h : Transport.Follows pc p)
    (hdeparted : Transport.Departed pc) : Transport.Departed p ∨ Transport.connection p = none := by
  cases h with
  | closed n => exact Or.inr rfl
  | released c item => cases hdeparted
  | givenUp | cleared | joined | ended | telemetryUnsubscribed | alertsUnsubscribed | telemetryDestroyed
  | alertsDestroyed => exact Or.inl trivial
  | _ => exact hdeparted.elim

theorem Transport.stage_of_departed {pc : Transport.Pc} (h : Transport.Departed pc) : 9 ≤ Transport.stage pc := by
  cases pc <;> first | exact h.elim | exact Nat.le_of_ble_eq_true rfl

def Main.closing : Main.Pc → ℕ
  | .destroyTelemetry => 1
  | .destroyAlerts => 2
  | .joinTransport => 3
  | .destroyIngest => 4
  | .finish => 5
  | .exited => 6
  | _ => 0

theorem Main.Follows.closing_le {W : ℕ} {pc p : Main.Pc} (h : Main.Follows W pc p) :
    Main.closing pc ≤ Main.closing p := by
  cases h with
  | fails _ hstage => cases pc <;> first | exact Nat.zero_le _ | exact absurd hstage (by simp [Main.stage])
  | exits _ => cases pc <;> exact Nat.le_of_ble_eq_true rfl
  | _ => exact Nat.le_of_ble_eq_true rfl

theorem Main.joinTransport_of_closing {pc : Main.Pc} (h : Main.closing pc = 3) : pc = .joinTransport := by
  cases pc <;> first | rfl | exact absurd h (by simp [Main.closing])

theorem Main.destroyIngest_of_closing {pc : Main.Pc} (h : Main.closing pc = 4) : pc = .destroyIngest := by
  cases pc <;> first | rfl | exact absurd h (by simp [Main.closing])

theorem Main.Follows.stage_le {W : ℕ} {pc p : Main.Pc} (h : Main.Follows W pc p) :
    Main.stage pc ≤ Main.stage p := by
  cases h with
  | fails _ hstage => exact hstage.trans (Nat.le_of_ble_eq_true rfl)
  | exits _ => cases pc <;> exact Nat.le_of_ble_eq_true rfl
  | _ => exact Nat.le_of_ble_eq_true rfl

end Readers

/-- A reader of the queue has not left its loop yet. -/
def Attended (s : System) : QueueId → Prop
  | .ingest => ∃ i, s.shared.status (.worker i) = .running ∧ s.pcs (.worker i) ≠ Worker.Pc.done
  | .consumerTelemetry | .consumerAlerts => s.pcs .consumer ≠ Consumer.Pc.done
  | .connTelemetry n | .connAlerts n => s.shared.accepted ≤ n ∨
      (Transport.connection (s.pcs .transport) = some n ∧ ¬ Transport.Departed (s.pcs .transport))

/-- The queue has been destroyed, and will not be destroyed again. -/
def Disposed (s : System) : QueueId → Prop
  | .ingest => 5 ≤ Main.closing (s.pcs .main)
  | .consumerTelemetry => 2 ≤ Main.closing (s.pcs .main)
  | .consumerAlerts => 3 ≤ Main.closing (s.pcs .main)
  | .connTelemetry n => n < s.shared.accepted ∧
      (Transport.connection (s.pcs .transport) = some n → 14 ≤ Transport.stage (s.pcs .transport))
  | .connAlerts n => n < s.shared.accepted ∧
      (Transport.connection (s.pcs .transport) = some n → 15 ≤ Transport.stage (s.pcs .transport))

section Persistence
variable {W : ℕ} {s s' : System} {t : Tid} {c : Choice} {q : QueueId}

theorem step_accepted (hstep : step W s t c = some s') : s.shared.accepted ≤ s'.shared.accepted := by
  obtain ⟨_,p,sh',hexec,rfl⟩ := step_inversion hstep
  exact (exec_effect hexec).accepted_le

/-- What never goes down along the routine of `main` never goes down in the process. -/
theorem step_main_le {f : Main.Pc → ℕ} (hf : ∀ {pc p}, Main.Follows W pc p → f pc ≤ f p)
    (hstep : step W s t c = some s') : f (s.pcs .main) ≤ f (s'.pcs .main) := by
  obtain ⟨_,p,sh',hexec,rfl⟩ := step_inversion hstep
  by_cases ht : .main = t
  · subst ht
    simp only [Function.update_self]
    exact hf ((exec_effect hexec).all (Main.code_follows W (s.pcs .main)))
  · simp only [Function.update_of_ne ht]
    exact le_rfl

/-- A connection that was accepted before is not begun again. -/
theorem step_connection {n : ℕ} (hstep : step W s t c = some s') (hn : n < s.shared.accepted)
    (hconn : Transport.connection (s'.pcs .transport) = some n) :
    Transport.connection (s.pcs .transport) = some n ∧
    Transport.stage (s.pcs .transport) ≤ Transport.stage (s'.pcs .transport) ∧
    (Transport.Departed (s.pcs .transport) → Transport.Departed (s'.pcs .transport)) := by
  obtain ⟨_,p,sh',hexec,rfl⟩ := step_inversion hstep
  have heff := exec_effect hexec
  by_cases ht : .transport = t
  · subst ht
    simp only [Function.update_self] at hconn ⊢
    change Effect _ _ (Transport.code (s.pcs .transport)) _ _ at heff
    generalize s.pcs .transport = tpc at *
    by_cases haccept : tpc = .accept
    · subst haccept
      cases heff with
      | accepted => exact absurd (Option.some.inj hconn) (by omega)
      | notAccepted => cases hconn
    · obtain ⟨hold,hstage⟩ := heff.follows.advances haccept hconn
      refine ⟨hold,hstage,fun hdeparted => ?_⟩
      rcases heff.follows.departed hdeparted with hd | hnone
      · exact hd
      · rw [hnone] at hconn
        cases hconn
  · simp only [Function.update_of_ne ht] at hconn ⊢
    exact ⟨hconn,le_rfl,fun h => h⟩

theorem step_disposed (h : Disposed s q) (hstep : step W s t c = some s') : Disposed s' q := by
  have hclosing := step_main_le Main.Follows.closing_le hstep
  have haccepted := step_accepted hstep
  cases q with
  | ingest | consumerTelemetry | consumerAlerts => exact le_trans h hclosing
  | connTelemetry n | connAlerts n =>
    refine ⟨h.1.trans_le haccepted,fun hn => ?_⟩
    obtain ⟨hold,hstage,_⟩ := step_connection hstep h.1 hn
    exact (h.2 hold).trans hstage

theorem disposing_of_op {W : ℕ} {next : Pc t} (h : s.op W t = .queueDestroy q next) :
    Disposing t (s.pcs t) q := by
  have hop := code_draining W t (s.pcs t)
  rw [show code W t (s.pcs t) = _ from h] at hop
  exact hop

theorem step_disposes (hsession : ∀ n, Session (s.pcs .transport) (s.pcs (.listener n)) s.shared n) {next : Pc t}
    (hop : s.op W t = .queueDestroy q next) (hstep : step W s t c = some s') : Disposed s' q := by
  have hdisposing := disposing_of_op hop
  obtain ⟨_,p,sh',hexec,rfl⟩ := step_inversion hstep
  have heff := exec_effect hexec
  cases t with
  | main =>
    change Effect .main _ (Main.code W (s.pcs .main)) _ _ at heff
    simp only [Disposing] at hdisposing
    cases q with
    | connTelemetry n | connAlerts n => exact hdisposing.elim
    | _ =>
      rw [show s.pcs .main = _ from hdisposing] at heff
      cases heff
      simp only [Disposed, Function.update_self]
      exact Nat.le_of_ble_eq_true rfl
  | transport =>
    rw [hop] at heff
    change Transport.code (s.pcs .transport) = _ at hop
    have hconn : ∀ client : Transport.Client, Transport.client (s.pcs .transport) = some client →
        client.n < s.shared.accepted := fun client hc =>
      ((hsession client.n).greeted (Transport.connection_client hc)).1
    cases q with
    | connTelemetry n | connAlerts n =>
      obtain ⟨client,hpc,rfl⟩ := hdisposing
      rw [hpc] at hop
      simp only [Transport.code] at hop
      split at hop
      · cases hop
        cases heff
        simp only [Disposed, Function.update_self]
        exact ⟨hconn client (by rw [hpc]; rfl),fun _ => Nat.le_of_ble_eq_true rfl⟩
      · cases hop
    | _ => exact hdisposing.elim
  | _ => exact hdisposing.elim

theorem not_disposed (h : Disposing q.owner (s.pcs q.owner) q) : ¬ Disposed s q := by
  intro hdisposed
  cases q with
  | ingest | consumerTelemetry | consumerAlerts =>
    have hpc : s.pcs .main = _ := h
    simp only [Disposed, hpc, Main.closing] at hdisposed
    omega
  | connTelemetry n | connAlerts n =>
    obtain ⟨client,hpc,rfl⟩ := h
    have hpc : s.pcs .transport = _ := hpc
    simp only [Disposed, hpc] at hdisposed
    exact absurd (hdisposed.2 rfl) (by simp [Transport.stage])

/-- When a queue is destroyed its readers have left. -/
theorem unattended_at_disposal (hstaffed : Staffed s)
    (hsession : ∀ n, Session (s.pcs .transport) (s.pcs (.listener n)) s.shared n)
    (h : Disposing q.owner (s.pcs q.owner) q) : ¬ Attended s q := by
  cases q with
  | ingest =>
    rintro ⟨i,hrunning,_⟩
    have hpc : s.pcs .main = .destroyIngest := h
    have hcrew := hstaffed.crew _ hrunning
    simp [hpc, Main.crew, Main.pool, Main.phase] at hcrew
  | consumerTelemetry | consumerAlerts =>
    have hpc : s.pcs .main = _ := h
    have hborn := hstaffed.hired .consumer (by simp [hpc, Main.hired, Main.phase])
    have hcrew := hstaffed.crew .consumer
    have hended := hstaffed.ended .consumer
    simp only [hpc, Main.crew, Main.phase] at hcrew
    cases hstatus : s.shared.status .consumer with
    | unborn => exact absurd hstatus hborn
    | running => exact absurd (hcrew hstatus) (by omega)
    | returned => exact fun hne => hne (hended hstatus)
  | connTelemetry n | connAlerts n =>
    obtain ⟨client,hpc,rfl⟩ := h
    have hpc : s.pcs .transport = _ := hpc
    have hlt := ((hsession client.n).greeted (by rw [hpc]; rfl)).1
    rintro (hle | ⟨_,hnot⟩)
    · omega
    · rw [hpc] at hnot
      exact hnot trivial

/-- A queue that its readers have left stays so. -/
theorem step_unattended (hsupplied : q = .ingest → 1 ≤ Main.phase (s.pcs .main)) (h : ¬ Attended s q)
    (hstep : step W s t c = some s') : ¬ Attended s' q := by
  have haccepted := step_accepted hstep
  have hconnection := fun n => step_connection (n := n) hstep
  obtain ⟨hrunning,p,sh',hexec,rfl⟩ := step_inversion hstep
  have heff := exec_effect hexec
  have hconn : ∀ n, ¬ (s.shared.accepted ≤ n ∨ (Transport.connection (s.pcs .transport) = some n ∧
      ¬ Transport.Departed (s.pcs .transport))) → ¬ (sh'.accepted ≤ n ∨
      (Transport.connection (Function.update s.pcs t p .transport) = some n ∧
        ¬ Transport.Departed (Function.update s.pcs t p .transport))) := by
    rintro n hnot (hle | ⟨hn,hstay⟩)
    · exact hnot (Or.inl (haccepted.trans hle))
    · have hlt : n < s.shared.accepted := Nat.lt_of_not_le fun hle => hnot (Or.inl hle)
      obtain ⟨hold,_,hdeparted⟩ := hconnection n hlt hn
      exact hnot (Or.inr ⟨hold,fun hd => hstay (hdeparted hd)⟩)
  cases q with
  | ingest =>
    -- a worker that has left does not come back, and by now all have been created
    rintro ⟨i,hstatus,hpc⟩
    rcases heff.started hstatus with hold | ⟨k,hop,_⟩
    · refine h ⟨i,hold,fun hdone => hpc ?_⟩
      dsimp only
      by_cases ht : .worker i = t
      · subst ht
        simp only [Function.update_self]
        change Effect _ _ (Worker.code (s.pcs (.worker i))) _ _ at heff
        rw [hdone] at heff
        cases heff
        rfl
      · rw [Function.update_of_ne ht]
        exact hdone
    · by_cases ht : .main = t
      · subst ht
        have hop : Main.code W (s.pcs .main) = .spawn (.worker i) k := hop
        have hphase := hsupplied rfl
        generalize s.pcs .main = pc at *
        cases pc with
        | workerSpawn control j => exact absurd hphase (by simp [Main.phase])
        | _ =>
          simp only [Main.code] at hop
          first | cases hop | (split at hop <;> cases hop)
      · obtain ⟨n,hn⟩ := code_spawn hop (Ne.symm ht)
        cases hn
  | consumerTelemetry | consumerAlerts =>
    have hdone : s.pcs .consumer = .done := not_not.mp h
    refine not_not.mpr ?_
    dsimp only
    by_cases ht : .consumer = t
    · subst ht
      simp only [Function.update_self]
      change Effect _ _ (Consumer.code (s.pcs .consumer)) _ _ at heff
      rw [hdone] at heff
      cases heff
      rfl
    · rw [Function.update_of_ne ht]
      exact hdone
  | connTelemetry n | connAlerts n => exact hconn n h

theorem attended_of_reading (hrunning : s.shared.status t = .running) (h : Reading t (s.pcs t) q) :
    Attended s q := by
  cases t with
  | worker i =>
    cases q with
    | ingest =>
      refine ⟨i,hrunning,?_⟩
      rw [show s.pcs (.worker i) = .dequeue from h]
      exact Worker.Pc.noConfusion
    | _ => exact False.elim h
  | consumer =>
    cases q with
    | consumerTelemetry | consumerAlerts => exact h
    | _ => exact False.elim h
  | transport =>
    cases q with
    | connTelemetry n | connAlerts n => exact Or.inr h
    | _ => exact False.elim h
  | _ => exact False.elim h

/-- A queue is created before its readers leave. -/
theorem attended_of_making (hstaffed : Staffed s) (hsupplied : q = .ingest → 1 ≤ Main.phase (s.pcs .main))
    (h : Making t (s.pcs t) q) : Attended s q := by
  cases t with
  | main =>
    have hconsumer : Main.phase (s.pcs .main) = 1 → s.pcs .consumer ≠ Consumer.Pc.done := by
      intro hphase hdone
      have hborn : s.shared.status .consumer ≠ .unborn := fun hunborn => by
        rw [hstaffed.fresh .consumer hunborn] at hdone
        cases hdone
      have hle := hstaffed.born .consumer hborn
      simp only [Main.debut] at hle
      omega
    cases q with
    | ingest =>
      have hzero : Main.phase (s.pcs .main) = 0 := h
      have hone := hsupplied rfl
      omega
    | consumerTelemetry | consumerAlerts => exact hconsumer h.1
    | _ => exact False.elim h
  | transport =>
    cases q with
    | connTelemetry n | connAlerts n =>
      refine Or.inr ⟨h.1,fun hdeparted => ?_⟩
      exact absurd (Transport.stage_of_departed hdeparted) (Nat.not_le.mpr (Nat.lt_of_le_of_lt h.2 (by decide)))
    | _ => exact False.elim h
  | _ => exact False.elim h

/-- What is in a queue that its readers have left stays there until the queue is
destroyed. -/
theorem step_left (hstaffed : Staffed s) (hsupplied : q = .ingest → 1 ≤ Main.phase (s.pcs .main))
    (hleft : s.shared.contents q ≠ []) (h : ¬ Attended s q) (hstep : step W s t c = some s') :
    s'.shared.contents q ≠ [] ∨ ∃ next, s.op W t = .queueDestroy q next := by
  obtain ⟨hrunning,p,sh',hexec,rfl⟩ := step_inversion hstep
  have hdrain := code_draining W t (s.pcs t)
  change (s.op W t).Draining t (s.pcs t) at hdrain
  rcases (exec_effect hexec).contents q with ⟨hsame,_⟩ | ⟨_,item,_,hmore,_⟩ | ⟨htakes,_⟩ | ⟨hremakes,_⟩
  · exact Or.inl (hsame ▸ hleft)
  · exact Or.inl (by simp [hmore])
  · have hreading : Reading t (s.pcs t) q := by
      generalize s.op W t = op at htakes hdrain
      cases op <;> cases htakes <;> exact hdrain
    exact absurd (attended_of_reading hrunning.2 hreading) h
  · generalize hop : s.op W t = op at hremakes hdrain
    cases op <;> cases hremakes
    · exact absurd (attended_of_making hstaffed hsupplied hdrain) h
    · exact Or.inr ⟨_,rfl⟩

end Persistence

section Supply
variable {W : ℕ} {s s' : System} {t : Tid} {c : Choice} {q : QueueId}

/-- The queue has been created, and will not be created again. -/
def Supplying (s : System) : QueueId → Prop
  | .ingest => 1 ≤ Main.phase (s.pcs .main)
  | .consumerTelemetry | .consumerAlerts => 2 ≤ Main.stage (s.pcs .main)
  | .connTelemetry n | .connAlerts n => n < s.shared.accepted ∧
      (Transport.connection (s.pcs .transport) = some n → 4 ≤ Transport.stage (s.pcs .transport))

def Supplied (s : System) : Prop := ∀ q, s.shared.contents q ≠ [] → Supplying s q

theorem step_supplying (h : Supplying s q) (hstep : step W s t c = some s') : Supplying s' q := by
  have hphase := step_phase hstep
  have hstage := step_main_le Main.Follows.stage_le hstep
  have haccepted := step_accepted hstep
  cases q with
  | ingest => exact le_trans h hphase
  | consumerTelemetry | consumerAlerts => exact le_trans h hstage
  | connTelemetry n | connAlerts n =>
    refine ⟨h.1.trans_le haccepted,fun hn => ?_⟩
    obtain ⟨hold,hle,_⟩ := step_connection hstep h.1 hn
    exact (h.2 hold).trans hle

theorem not_supplying (h : Making t (s.pcs t) q) : ¬ Supplying s q := by
  intro hsupplying
  cases t with
  | main =>
    cases q with
    | ingest =>
      have hzero : Main.phase (s.pcs .main) = 0 := h
      have hone : 1 ≤ Main.phase (s.pcs .main) := hsupplying
      omega
    | consumerTelemetry | consumerAlerts =>
      have hle : Main.stage (s.pcs .main) ≤ 1 := h.2
      have hge : 2 ≤ Main.stage (s.pcs .main) := hsupplying
      omega
    | _ => exact False.elim h
  | transport =>
    cases q with
    | connTelemetry n | connAlerts n =>
      have hle : Transport.stage (s.pcs .transport) ≤ 3 := h.2
      have hge := hsupplying.2 h.1
      omega
    | _ => exact False.elim h
  | _ => exact False.elim h

theorem supplying_of_mayHold (hsession : ∀ n, Session (s.pcs .transport) (s.pcs (.listener n)) s.shared n)
    (h : MayHold q.owner (s.pcs q.owner) q) : Supplying s q := by
  cases q with
  | ingest => exact h.elim
  | consumerTelemetry | consumerAlerts =>
    simp only [QueueId.owner, MayHold] at h
    simp only [Supplying]
    omega
  | connTelemetry n | connAlerts n =>
    obtain ⟨client,hclient,rfl,_,hstage,_⟩ := h
    refine ⟨((hsession client.n).greeted (Transport.connection_client hclient)).1,fun _ => ?_⟩
    exact le_trans (by decide) hstage

theorem supplying_of_offer (htidy : Tidy s) (hstaffed : Staffed s)
    (hsession : ∀ n, Session (s.pcs .transport) (s.pcs (.listener n)) s.shared n)
    (hrunning : s.shared.status t = .running) {item : Item} (h : (s.op W t).offers = some (q,item)) :
    Supplying s q := by
  have hoffering : Offering t (s.pcs t) q item := code_offering h
  generalize hpc : s.pcs t = pc at hoffering
  cases hoffering with
  | telemetry | alert =>
    have hle := hstaffed.born .producer (by simp [hrunning])
    exact le_trans (by decide) hle
  | triggered n =>
    obtain ⟨client,hclient,_⟩ := htidy.listening n hrunning
    refine hstaffed.born .transport fun hunborn => ?_
    rw [hstaffed.fresh .transport hunborn] at hclient
    cases hclient
  | published i raw seq ts _ rest =>
    have hrest : remaining (.worker i) (s.pcs (.worker i)) = some (q :: rest) := by
      rw [hpc]
      rfl
    have hheld := (htidy.fanOut (.worker i) _ hrest).2 q List.mem_cons_self
    exact supplying_of_mayHold hsession (htidy.held q hheld).2

theorem step_supplied (hreach : Reachable W s) (h : Supplied s) (hstep : step W s t c = some s') : Supplied s' := by
  have hsupplying := fun q (h : Supplying s q) => step_supplying h hstep
  obtain ⟨hrunning,p,sh',hexec,rfl⟩ := step_inversion hstep
  intro q hleft
  refine hsupplying q ?_
  rcases (exec_effect hexec).contents q with ⟨hsame,_⟩ | ⟨_,_,hoffer,_⟩ | ⟨_,htail,_⟩ | ⟨_,hnone,_⟩
  · exact h q (hsame ▸ hleft)
  · exact supplying_of_offer (run_tidy hreach) (run_staffed hreach) (run_session hreach) hrunning.2 hoffer
  · refine h q fun hnil => hleft ?_
    rw [htail, hnil, List.tail_nil]
  · exact absurd hnone hleft

theorem run_supplied (h : Reachable W s) : Supplied s := by
  induction h with
  | refl => exact fun q hne => absurd rfl hne
  | tail hreach hstep ih =>
    obtain ⟨t,c,hstep⟩ := hstep
    exact step_supplied hreach ih hstep

end Supply

section Drained
variable {W : ℕ} {s s' m : System} {t : Tid} {c : Choice} {q : QueueId}

def Accepts (q : QueueId) (s s' : System) : Prop := ∃ item, s'.shared.contents q = s.shared.contents q ++ [item]

/-- The step puts an item into a queue that its readers have left, or its last reader
leaves the queue with something in it. -/
def Loses (q : QueueId) (s s' : System) : Prop :=
  (Accepts q s s' ∧ ¬ Attended s q) ∨ (Attended s q ∧ ¬ Attended s' q ∧ s'.shared.contents q ≠ [])

def Abandoned (s : System) (q : QueueId) : Prop := s.shared.contents q ≠ [] ∧ ¬ Attended s q

theorem step_kept (h : ¬ Abandoned s q) (hstep : step W s t c = some s') (hnot : ¬ Loses q s s') :
    ¬ Abandoned s' q := by
  rintro ⟨hleft,hunattended⟩
  have hattended : Attended s q := by
    by_contra hbefore
    obtain ⟨_,p,sh',hexec,rfl⟩ := step_inversion hstep
    rcases (exec_effect hexec).contents q with ⟨hsame,_⟩ | ⟨_,item,_,hmore,_⟩ | ⟨_,htail,_⟩ | ⟨_,hnone,_⟩
    · exact h ⟨hsame ▸ hleft,hbefore⟩
    · exact hnot (Or.inl ⟨⟨item,hmore⟩,hbefore⟩)
    · refine h ⟨fun hnil => hleft ?_,hbefore⟩
      rw [htail, hnil, List.tail_nil]
    · exact hleft hnone
  exact hnot (Or.inr ⟨hattended,hunattended,hleft⟩)

theorem offers_of_accepts (hstep : step W s t c = some s') (h : Accepts q s s') :
    ∃ item, (s.op W t).offers = some (q,item) := by
  obtain ⟨x,hx⟩ := h
  obtain ⟨_,p,sh',hexec,rfl⟩ := step_inversion hstep
  rcases (exec_effect hexec).contents q with ⟨hsame,_⟩ | ⟨item,_,hoffer,_⟩ | ⟨_,htail,_⟩ | ⟨_,hnone,_⟩
  · simp [hsame] at hx
  · exact ⟨item,hoffer⟩
  · have hlength := congrArg List.length (htail.symm.trans hx)
    simp only [List.length_tail, List.length_append, List.length_singleton] at hlength
    omega
  · simp [hnone] at hx

theorem step_loses (hreach : Reachable W s) (hstep : step W s t c = some s') (h : Loses q s s') : Abandoned s' q := by
  rcases h with ⟨haccepts,hunattended⟩ | ⟨_,hunattended,hleft⟩
  · refine ⟨?_,step_unattended (fun hq => ?_) hunattended hstep⟩
    · obtain ⟨item,hitem⟩ := haccepts
      simp [hitem]
    · subst hq
      obtain ⟨item,hoffer⟩ := offers_of_accepts hstep haccepts
      exact supplying_of_offer (run_tidy hreach) (run_staffed hreach) (run_session hreach)
        (step_inversion hstep).1.2 hoffer
  · exact ⟨hleft,hunattended⟩

theorem step_abandoned (hreach : Reachable W s) (h : Abandoned s q ∨ Disposed s q)
    (hstep : step W s t c = some s') : Abandoned s' q ∨ Disposed s' q := by
  rcases h with ⟨hleft,hunattended⟩ | hdisposed
  · have hphase : q = .ingest → 1 ≤ Main.phase (s.pcs .main) := by
      rintro rfl
      exact run_supplied hreach .ingest hleft
    rcases step_left (run_staffed hreach) hphase hleft hunattended hstep with hleft' | ⟨next,hop⟩
    · exact Or.inl ⟨hleft',step_unattended hphase hunattended hstep⟩
    · exact Or.inr (step_disposes (run_session hreach) hop hstep)
  · exact Or.inr (step_disposed hdisposed hstep)

theorem run_abandoned {schedule : List (Tid × Choice)} (hreach : Reachable W s) (h : Abandoned s q ∨ Disposed s q)
    (hrun : run W s schedule = some s') : Abandoned s' q ∨ Disposed s' q := by
  induction schedule generalizing s with
  | nil =>
    cases hrun
    exact h
  | cons a rest ih =>
    obtain ⟨m,hm,hrest⟩ := Option.bind_eq_some_iff.mp hrun
    exact ih (hreach.tail ⟨a.1,a.2,hm⟩) (step_abandoned hreach h hm) hrest

/-- A queue is empty when it is destroyed exactly if no step of the run puts an item
into it after its readers have left, or lets its last reader leave an item behind. -/
theorem drained_iff {schedule : List (Tid × Choice)} (hrun : run W .initial schedule = some s)
    (hdisposing : Disposing q.owner (s.pcs q.owner) q) :
    s.shared.contents q = [] ↔ ∀ pre t c m m', pre ++ [(t,c)] <+: schedule → run W .initial pre = some m →
      step W m t c = some m' → ¬ Loses q m m' := by
  have hreach : Reachable W s := run_reachable .refl hrun
  have hunattended := unattended_at_disposal (run_staffed hreach) (run_session hreach) hdisposing
  refine ⟨fun hempty pre t c m m' hpre hm hstep hloses => ?_,fun hnot => ?_⟩
  · obtain ⟨rest,rfl⟩ := hpre
    have hmreach : Reachable W m := run_reachable .refl hm
    simp only [run_append, hm, Option.bind_some, run_single, hstep] at hrun
    rcases run_abandoned (hmreach.tail ⟨t,c,hstep⟩) (Or.inl (step_loses hmreach hstep hloses)) hrun with hab | hdis
    · exact hab.1 hempty
    · exact not_disposed hdisposing hdis
  · have hkept := run_induction (I := fun pre m => pre <+: schedule → ¬ Abandoned m q) (fun _ hab => hab.1 rfl)
      (fun pre m t c m' hm hstep ih hpre => step_kept (ih ((List.prefix_append pre _).trans hpre)) hstep
        (hnot pre t c m m' hpre hm hstep)) hrun List.prefix_rfl
    by_contra hleft
    exact hkept ⟨hleft,hunattended⟩

end Drained

section History
variable {W : ℕ} {s s' : System} {t : Tid} {c : Choice} {q : QueueId}

def gained (q : QueueId) (s s' : System) : List Item := (s'.shared.contents q).drop (s.shared.contents q).length

def received (W : ℕ) (q : QueueId) : System → List (Tid × Choice) → List Item :=
  record (fun s _ s' => gained q s s') W

theorem step_history (hreach : Reachable W s) (hstep : step W s t c = some s') (hnot : ¬ Disposed s' q) :
    s'.shared.takenFrom q ++ s'.shared.contents q =
      s.shared.takenFrom q ++ s.shared.contents q ++ gained q s s' := by
  have hdisposes := fun next (hop : s.op W t = .queueDestroy q next) =>
    hnot (step_disposes (run_session hreach) hop hstep)
  have hdrain := code_draining W t (s.pcs t)
  change (s.op W t).Draining t (s.pcs t) at hdrain
  obtain ⟨_,p,sh',hexec,rfl⟩ := step_inversion hstep
  rcases (exec_effect hexec).contents q with ⟨hsame,htaken⟩ | ⟨_,item,_,hmore,htaken,_⟩ | ⟨_,htail,htaken⟩ |
    ⟨hremakes,hnone,htaken⟩
  · simp [gained, hsame, htaken]
  · simp [gained, hmore, htaken]
  · have hgained : (s.shared.contents q).tail.drop (s.shared.contents q).length = [] :=
      List.drop_eq_nil_of_le (by simp)
    simp only [gained, htail, htaken, hgained, List.append_nil, List.append_assoc]
    congr 1
    cases s.shared.contents q <;> rfl
  · have hempty : s.shared.contents q = [] := by
      by_contra hleft
      generalize hop : s.op W t = op at hremakes hdrain
      cases op <;> cases hremakes
      · exact not_supplying hdrain (run_supplied hreach q hleft)
      · exact hdisposes _ hop
    simp [gained, hnone, htaken, hempty]

theorem run_disposed {schedule : List (Tid × Choice)} (h : Disposed s q) (hrun : run W s schedule = some s') :
    Disposed s' q := by
  induction schedule generalizing s with
  | nil =>
    cases hrun
    exact h
  | cons a rest ih =>
    obtain ⟨m,hm,hrest⟩ := Option.bind_eq_some_iff.mp hrun
    exact ih (step_disposed h hm) hrest

/-- As long as a queue is not destroyed, what was taken from it and what is in it are
together what it accepted. -/
theorem run_history {schedule : List (Tid × Choice)} (hreach : Reachable W s) (hrun : run W s schedule = some s')
    (hnot : ¬ Disposed s' q) : s'.shared.takenFrom q ++ s'.shared.contents q =
      s.shared.takenFrom q ++ s.shared.contents q ++ received W q s schedule := by
  induction schedule generalizing s with
  | nil =>
    cases hrun
    exact (List.append_nil _).symm
  | cons a rest ih =>
    obtain ⟨m,hm,hrest⟩ := Option.bind_eq_some_iff.mp hrun
    have hreceived : received W q s (a :: rest) = gained q s m ++ received W q m rest := record_cons hm rest
    rw [ih (hreach.tail ⟨a.1,a.2,hm⟩) hrest,
      step_history hreach hm fun hdisposed => hnot (run_disposed hdisposed hrest), hreceived, List.append_assoc]

theorem drained_iff_taken {schedule : List (Tid × Choice)} (hrun : run W .initial schedule = some s)
    (hdisposing : Disposing q.owner (s.pcs q.owner) q) :
    s.shared.contents q = [] ↔ s.shared.takenFrom q = received W q .initial schedule := by
  have hhistory := run_history .refl hrun (not_disposed hdisposing)
  change _ = [] ++ _ at hhistory
  rw [List.nil_append] at hhistory
  rw [← hhistory]
  exact List.self_eq_append_right.symm

end History

section Ingest
variable {W : ℕ} {s s' : System} {t : Tid} {c : Choice}

theorem code_ret_worker {i : ℕ} {pc p : Worker.Pc} (h : code W (.worker i) pc = .ret p) : pc = .done := by
  change Worker.code pc = .ret p at h
  cases pc with
  | done => rfl
  | fanOut raw seq ts subscribers => cases subscribers <;> cases h
  | _ => cases h

/-- A worker leaves its loop after a dequeue only. -/
theorem Worker.stays {pc : Worker.Pc} (hdequeue : pc ≠ .dequeue) (hdone : pc ≠ .done) :
    (Worker.code pc).All (· ≠ .done) := by
  cases pc with
  | dequeue => exact absurd rfl hdequeue
  | done => exact absurd rfl hdone
  | publish raw seq ts => intro subscribers; cases subscribers <;> exact Worker.Pc.noConfusion
  | fanOut raw seq ts subscribers => cases subscribers <;> exact Worker.Pc.noConfusion
  | sequence raw | time raw seq => exact fun _ => Worker.Pc.noConfusion
  | _ => exact Worker.Pc.noConfusion

/-- The last worker to leave finds the ingest queue empty. -/
theorem ingest_left_empty (h : Attended s .ingest) (hstep : step W s t c = some s') (hleft : ¬ Attended s' .ingest) :
    s'.shared.contents .ingest = [] := by
  obtain ⟨i,hstatus,hpc⟩ := h
  obtain ⟨_,p,sh',hexec,rfl⟩ := step_inversion hstep
  have heff := exec_effect hexec
  have hrunning : sh'.status (.worker i) = .running := by
    cases hnow : sh'.status (.worker i) with
    | running => rfl
    | unborn => exact absurd hnow (heff.born (by simp [hstatus]))
    | returned =>
      rcases heff.returned hnow with hold | ⟨heq,hop⟩
      · rw [hstatus] at hold
        cases hold
      · subst heq
        exact absurd (code_ret_worker hop) hpc
  by_cases ht : .worker i = t
  · subst ht
    change Effect _ _ (Worker.code (s.pcs (.worker i))) _ _ at heff
    have hdone : p = .done := by
      by_contra hp
      refine hleft ⟨i,hrunning,?_⟩
      simpa only [Function.update_self] using hp
    generalize s.pcs (.worker i) = pc at heff hpc
    -- a worker leaves when the queue, shut down, has nothing for it
    by_cases hdequeue : pc = .dequeue
    · subst hdequeue
      cases heff with
      | dequeue _ _ r hr _ =>
        have hnone : r.contents = [] := by
          cases hcontents : r.contents with
          | nil => rfl
          | cons item rest =>
            rw [hcontents] at hdone
            cases hdone
        have hnew : (s.shared.takeFrom .ingest r.tryDequeue).contents .ingest = r.tryDequeue.2.contents :=
          contents_setLive s.shared .ingest _
        rw [hnew, RingQueue.tryDequeue_contents, hnone, List.tail_nil]
    · exact absurd hdone (heff.all (Worker.stays hdequeue hpc))
  · refine absurd ⟨i,hrunning,?_⟩ hleft
    dsimp only
    rwa [Function.update_of_ne ht]

/-- When `main` destroys the ingest queue, the queue is empty, that is, all that it ever
accepted was taken by a worker, exactly if it accepted nothing after the last worker
had left its loop. -/
theorem ingest_drained_iff {schedule : List (Tid × Choice)} (hrun : run W .initial schedule = some s)
    (hpc : s.pcs .main = .destroyIngest) :
    (s.shared.contents .ingest = [] ↔ s.shared.takenFrom .ingest = received W .ingest .initial schedule) ∧
    (s.shared.contents .ingest = [] ↔ ∀ pre t c m m', pre ++ [(t,c)] <+: schedule → run W .initial pre = some m →
      step W m t c = some m' → Accepts .ingest m m' → Attended m .ingest) := by
  have hdisposing : Disposing QueueId.ingest.owner (s.pcs QueueId.ingest.owner) .ingest := hpc
  refine ⟨drained_iff_taken hrun hdisposing,?_⟩
  rw [drained_iff hrun hdisposing]
  constructor
  · intro hnot pre t c m m' hpre hm hstep haccepts
    by_contra hunattended
    exact hnot pre t c m m' hpre hm hstep (Or.inl ⟨haccepts,hunattended⟩)
  · rintro hall pre t c m m' hpre hm hstep (⟨haccepts,hunattended⟩ | ⟨hattended,hleft,hcontents⟩)
    · exact hunattended (hall pre t c m m' hpre hm hstep haccepts)
    · exact hcontents (ingest_left_empty hattended hstep hleft)

/-- The signal, `shutdown_request`, and the shutdown of the three queues. -/
def shutDown : List (Tid × Choice) := proceed .main 5

/-- Three workers find the ingest queue empty, and the consumer and the transport
thread find nothing to do; all of them return. -/
def retire : List (Tid × Choice) :=
  proceed (.worker 0) 2 ++ proceed (.worker 1) 2 ++ proceed (.worker 2) 2 ++ proceed .consumer 2 ++
    proceed .transport 2

/-- One reading goes through a worker to the consumer before the signal comes. -/
def orderly : List (Tid × Choice) :=
  startUp ++ proceed .producer 3 ++ workerTurn 0 1 ++ proceed .consumer 4 ++ shutDown ++ proceed .producer 4 ++
    retire ++ proceed .main 11

theorem ingest_drained_iff_orderly : ∃ s, run Main.workerPoolDefaultSize .initial orderly = some s ∧
    s.pcs .main = .destroyIngest ∧ (s.shared.takenFrom .ingest).length = 1 ∧
    s.shared.takenFrom .ingest = received Main.workerPoolDefaultSize .ingest .initial orderly := by
  have hobserved : (run Main.workerPoolDefaultSize .initial orderly).map (fun s =>
      (Main.closing (s.pcs .main),(s.shared.contents .ingest).length,(s.shared.takenFrom .ingest).length)) =
      some (4,0,1) := by decide +kernel
  obtain ⟨s,hrun,hs⟩ := Option.map_eq_some_iff.mp hobserved
  simp only [Prod.mk.injEq] at hs
  have hpc := Main.destroyIngest_of_closing hs.1
  exact ⟨s,hrun,hpc,hs.2.2,(ingest_drained_iff hrun hpc).1.mp (List.length_eq_zero_iff.mp hs.2.1)⟩

/-- The producer passes its check before the signal and puts its reading into the queue
after the last worker has left. -/
theorem ingest_not_drained : ∃ s, run Main.workerPoolDefaultSize .initial
      (startUp ++ proceed .producer 2 ++ shutDown ++ retire ++ proceed .producer 5 ++ proceed .main 11) = some s ∧
    s.pcs .main = .destroyIngest ∧ (s.shared.contents .ingest).length = 1 ∧ s.shared.taken = [] := by
  have hobserved : (run Main.workerPoolDefaultSize .initial
      (startUp ++ proceed .producer 2 ++ shutDown ++ retire ++ proceed .producer 5 ++ proceed .main 11)).map (fun s =>
        (Main.closing (s.pcs .main),(s.shared.contents .ingest).length,s.shared.taken.length)) =
      some (4,1,0) := by decide +kernel
  obtain ⟨s,hrun,hs⟩ := Option.map_eq_some_iff.mp hobserved
  simp only [Prod.mk.injEq] at hs
  exact ⟨s,hrun,Main.destroyIngest_of_closing hs.1,hs.2.1,List.length_eq_zero_iff.mp hs.2.2⟩

end Ingest

end RadioSim.Process
