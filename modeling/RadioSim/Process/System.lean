import Mathlib.Logic.Relation
import RadioSim.Process.Command
import RadioSim.Process.Main
import RadioSim.Process.Producer
import RadioSim.Process.Transport
import RadioSim.Process.Worker

/-! # The process

All threads over one shared state, for a pool of `W` workers. A step runs one
operation of one running thread.
-/
namespace RadioSim.Process

abbrev Pc : Tid → Type
  | .main => Main.Pc
  | .producer => Producer.Pc
  | .worker _ => Worker.Pc
  | .consumer => Consumer.Pc
  | .transport => Transport.Pc
  | .listener _ => Command.Pc

def entry : (t : Tid) → Pc t
  | .main => Main.Pc.sigmask
  | .producer => Producer.Pc.loop 0
  | .worker _ => Worker.Pc.dequeue
  | .consumer => Consumer.Pc.dequeueTelemetry
  | .transport => Transport.Pc.loop
  | .listener _ => Command.Pc.poll []

def code (W : ℕ) : (t : Tid) → Pc t → Op (Pc t)
  | .main => Main.code W
  | .producer => Producer.code
  | .worker _ => Worker.code
  | .consumer => Consumer.code
  | .transport => Transport.code
  | .listener n => Command.code n

structure System where
  pcs : (t : Tid) → Pc t
  shared : Shared

def System.initial : System := ⟨entry,.initial⟩

def System.op (W : ℕ) (s : System) (t : Tid) : Op (Pc t) := code W t (s.pcs t)

def System.Running (s : System) (t : Tid) : Prop := s.shared.exited = false ∧ s.shared.status t = .running

instance (s : System) (t : Tid) : Decidable (s.Running t) := inferInstanceAs (Decidable (_ ∧ _))

def step (W : ℕ) (s : System) (t : Tid) (c : Choice) : Option System :=
  if s.Running t then
    (exec t c s.shared (s.op W t)).map fun r => ⟨Function.update s.pcs t r.1,r.2⟩
  else none

def run (W : ℕ) (s : System) : List (Tid × Choice) → Option System
  | [] => some s
  | (t,c) :: rest => (step W s t c).bind fun s' => run W s' rest

def Step (W : ℕ) (s s' : System) : Prop := ∃ t c, step W s t c = some s'

def Reachable (W : ℕ) (s : System) : Prop := Relation.ReflTransGen (Step W) .initial s

/-- A step is one operation of a running thread. -/
theorem step_inversion {W : ℕ} {s s' : System} {t : Tid} {c : Choice} (h : step W s t c = some s') :
    s.Running t ∧ ∃ p sh', exec t c s.shared (s.op W t) = some (p,sh') ∧
      s' = ⟨Function.update s.pcs t p,sh'⟩ := by
  unfold step at h
  split at h
  · rename_i hrun
    obtain ⟨⟨p,sh⟩,hexec,hs⟩ := Option.map_eq_some_iff.mp h
    exact ⟨hrun,p,sh,hexec,hs.symm⟩
  · cases h

/-- What holds at the start and is kept by every step holds in every reachable state. -/
theorem Reachable.invariant {W : ℕ} {I : System → Prop} (hinit : I .initial)
    (hstep : ∀ s s' t c, I s → step W s t c = some s' → I s') {s : System} (h : Reachable W s) : I s := by
  induction h with
  | refl => exact hinit
  | tail _ hs ih =>
    obtain ⟨t,c,hs⟩ := hs
    exact hstep _ _ t c ih hs

/-- A schedule whose steps are all of one kind is a path of such steps. -/
theorem run_path {W : ℕ} {R : System → System → Prop} {s s' : System} {schedule : List (Tid × Choice)}
    (hstep : ∀ a ∈ schedule, ∀ s s', step W s a.1 a.2 = some s' → R s s') (h : run W s schedule = some s') :
    Relation.ReflTransGen R s s' := by
  induction schedule generalizing s with
  | nil =>
    cases h
    exact .refl
  | cons a rest ih =>
    obtain ⟨m,hm,hrest⟩ := Option.bind_eq_some_iff.mp h
    exact .head (hstep a List.mem_cons_self s m hm) (ih (fun b hb => hstep b (List.mem_cons_of_mem a hb)) hrest)

theorem run_reachable {W : ℕ} {s s' : System} {schedule : List (Tid × Choice)} (hs : Reachable W s)
    (h : run W s schedule = some s') : Reachable W s' :=
  hs.trans (run_path (fun a _ _ _ hm => ⟨a.1,a.2,hm⟩) h)

theorem run_single {W : ℕ} {s : System} {t : Tid} {c : Choice} : run W s [(t,c)] = step W s t c := by
  simp [run]

theorem run_append {W : ℕ} {s : System} (first second : List (Tid × Choice)) :
    run W s (first ++ second) = (run W s first).bind fun m => run W m second := by
  induction first generalizing s with
  | nil => rfl
  | cons a rest ih =>
    simp only [List.cons_append, run, Option.bind_assoc]
    congr 1
    funext m
    exact ih

/-- What holds at the start and is kept by every step of a run holds at its end; the
property may speak of the schedule so far. -/
theorem run_induction {W : ℕ} {I : List (Tid × Choice) → System → Prop} (hinit : I [] .initial)
    (hstep : ∀ pre s t c s', run W .initial pre = some s → step W s t c = some s' → I pre s → I (pre ++ [(t,c)]) s')
    {schedule : List (Tid × Choice)} {s : System} (h : run W .initial schedule = some s) : I schedule s := by
  induction schedule using List.reverseRecOn generalizing s with
  | nil =>
    cases h
    exact hinit
  | append_singleton pre a ih =>
    rw [run_append] at h
    obtain ⟨m,hm,hs⟩ := Option.bind_eq_some_iff.mp h
    rw [run_single] at hs
    exact hstep pre m a.1 a.2 s hm hs (ih hm)

section Records
variable {α : Type*} {note : System → Tid → System → List α} {W : ℕ} {s m m' : System}

/-- What an observer of the steps notes along a schedule. -/
def record (note : System → Tid → System → List α) (W : ℕ) (s : System) : List (Tid × Choice) → List α
  | [] => []
  | (t,c) :: rest => ((step W s t c).map fun s' => note s t s' ++ record note W s' rest).getD []

theorem record_cons {t : Tid} {c : Choice} (hstep : step W s t c = some m) (rest : List (Tid × Choice)) :
    record note W s ((t,c) :: rest) = note s t m ++ record note W m rest := by
  simp [record, hstep]

theorem record_concat {t : Tid} {c : Choice} {pre : List (Tid × Choice)} (hrun : run W s pre = some m)
    (hstep : step W m t c = some m') : record note W s (pre ++ [(t,c)]) = record note W s pre ++ note m t m' := by
  induction pre generalizing s with
  | nil =>
    cases hrun
    simp [record, hstep]
  | cons a rest ih =>
    obtain ⟨k,hk,hrest⟩ := Option.bind_eq_some_iff.mp hrun
    rw [List.cons_append, record_cons hk, record_cons hk, ih hrest, List.append_assoc]

end Records

section Schedules

/-- `k` steps of one thread in which every call succeeds. -/
def proceed (t : Tid) (k : ℕ) : List (Tid × Choice) := List.replicate k (t,.ok)

/-- The whole start-up of `main` with three workers. -/
def startUp : List (Tid × Choice) := proceed .main 23

/-- A client connects and offers version 1; the handshake succeeds, both queues
are subscribed and the command listener is started. -/
def connect : List (Tid × Choice) :=
  [(.transport,.ok),(.transport,.poll (.ready false)),(.transport,.ok),(.transport,.write (.wrote 24)),
    (.transport,.ok)] ++
  (ascii "HELLO CLIENT_VERSIONS=1\n").map (fun b => (.transport,.read (.byte b))) ++
  [(.transport,.write (.wrote 20))] ++ proceed .transport 9

def command (line : Bytes) : List (Tid × Choice) :=
  line.flatMap (fun b => [(.listener 0,.poll (.ready false)),(.listener 0,.read (.byte b))]) ++
  [(.listener 0,.ok)]

/-- One item of the ingest queue is processed by a worker: dequeue, sequence
number, clock, read, publish to `subscribers` queues, free. -/
def workerTurn (i subscribers : ℕ) : List (Tid × Choice) :=
  [(.worker i,.ok),(.worker i,.ok),(.worker i,.clock 0)] ++ proceed (.worker i) (subscribers + 4)

end Schedules

end RadioSim.Process
