import RadioSim.Process.Sites

/-! # Which threads there are

What the program point of `main` says about the other threads: which of them have
been created, and which of them have been joined.
-/
namespace RadioSim.Process

section Roster

/-- How far `main` is with its threads; 8 is a failed start, or the end. -/
def Main.phase : Main.Pc → ℕ
  | .createTelemetry _ | .createAlerts _ _ | .subscribeTelemetry _ | .subscribeAlerts _ | .spawnProducer _ => 1
  | .spawnConsumer _ => 2
  | .sigwait _ | .requestShutdown _ | .shutdownIngest _ | .shutdownTelemetry _ | .shutdownAlerts _
  | .joinProducer _ => 3
  | .joinWorkers _ _ => 4
  | .joinConsumer => 5
  | .unsubscribeTelemetry | .unsubscribeAlerts | .destroyTelemetry | .destroyAlerts | .joinTransport => 6
  | .destroyIngest | .finish => 7
  | .failed | .exited => 8
  | _ => 0

/-- The workers that `main` has created and not joined, from the first number up to
the second. -/
def Main.pool : Main.Pc → ℕ × ℕ
  | .workerArgs _ k | .workerSpawn _ k | .poolDone _ k | .transportSocket k | .transportSpawn k
  | .createTelemetry k | .createAlerts k _ | .subscribeTelemetry k | .subscribeAlerts k | .spawnProducer k
  | .spawnConsumer k | .sigwait k | .requestShutdown k | .shutdownIngest k | .shutdownTelemetry k
  | .shutdownAlerts k | .joinProducer k => (0,k)
  | .joinWorkers k i => (i,k)
  | _ => (0,0)

/-- The threads that may be running, as far as `main` knows. -/
def Main.crew (pc : Main.Pc) : Tid → Prop
  | .main | .listener _ => True
  | .transport => (1 ≤ Main.phase pc ∧ Main.phase pc ≤ 6) ∨ Main.phase pc = 8
  | .producer => (2 ≤ Main.phase pc ∧ Main.phase pc ≤ 3) ∨ Main.phase pc = 8
  | .consumer => (3 ≤ Main.phase pc ∧ Main.phase pc ≤ 5) ∨ Main.phase pc = 8
  | .worker j => ((Main.pool pc).1 ≤ j ∧ j < (Main.pool pc).2) ∨ Main.phase pc = 8

/-- The threads that have been created, as far as `main` knows. -/
def Main.hired (pc : Main.Pc) : Tid → Prop
  | .main | .listener _ => False
  | .transport => 1 ≤ Main.phase pc ∧ Main.phase pc ≤ 7
  | .producer => 2 ≤ Main.phase pc ∧ Main.phase pc ≤ 7
  | .consumer => 3 ≤ Main.phase pc ∧ Main.phase pc ≤ 7
  | .worker j => j < (Main.pool pc).2 ∧ Main.phase pc ≤ 7

def Main.debut : Tid → ℕ
  | .transport => 1
  | .producer => 2
  | .consumer => 3
  | _ => 0

theorem Main.debut_le {pc : Main.Pc} {t : Tid} (h : Main.crew pc t) : Main.debut t ≤ Main.phase pc := by
  cases t <;> simp only [Main.crew, Main.debut] at h ⊢ <;> omega

/-- How `main` may get from one program point to the next, up to the thread it
creates or joins between them. -/
structure Roster (pc p : Main.Pc) (gained lost : Option Tid) : Prop where
  crew : ∀ t, Main.crew pc t → Main.crew p t ∨ lost = some t
  hired : ∀ t, Main.hired p t → Main.hired pc t ∨ gained = some t
  phase : Main.phase pc ≤ Main.phase p

def Op.Staffing (pc : Main.Pc) : Op Main.Pc → Prop
  | .spawn child k => Main.crew (k true) child ∧ Roster pc (k true) (some child) none ∧ Roster pc (k false) none none
  | .join child next => Roster pc next none (some child)
  | op => op.All fun p => Roster pc p none none

theorem Main.phase_le (pc : Main.Pc) : Main.phase pc ≤ 8 := by
  cases pc <;> exact Nat.le_of_ble_eq_true rfl

theorem Roster.stay {pc p : Main.Pc} (hphase : Main.phase p = Main.phase pc) (hpool : Main.pool p = Main.pool pc) :
    Roster pc p none none := by
  refine ⟨fun t h => Or.inl ?_,fun t h => Or.inl ?_,hphase.ge⟩
  · cases t with
    | main | listener n => exact trivial
    | _ => simpa only [Main.crew, hphase, hpool] using h
  · cases t with
    | main | listener n => exact h.elim
    | _ => simpa only [Main.hired, hphase, hpool] using h

theorem Roster.leave {pc p : Main.Pc} (hphase : Main.phase p = 8) : Roster pc p none none := by
  refine ⟨fun t _ => Or.inl ?_,fun t h => ?_,hphase ▸ Main.phase_le pc⟩
  · cases t <;> simp [Main.crew, hphase]
  · cases t <;> simp [Main.hired, hphase] at h

/-- A step that creates or joins a thread. -/
theorem Roster.shift {pc p : Main.Pc} {gained lost : Option Tid} (i j : ℕ) (hi : Main.phase pc = i)
    (hj : Main.phase p = j) (hij : i ≤ j) (hj' : j ≤ 7)
    (htransport : 1 ≤ i ∧ i ≤ 6 → j ≤ 6 ∨ lost = some .transport)
    (hproducer : 2 ≤ i ∧ i ≤ 3 → j ≤ 3 ∨ lost = some .producer)
    (hconsumer : 3 ≤ i ∧ i ≤ 5 → j ≤ 5 ∨ lost = some .consumer)
    (hworker : ∀ k, (Main.pool pc).1 ≤ k → k < (Main.pool pc).2 →
      ((Main.pool p).1 ≤ k ∧ k < (Main.pool p).2) ∨ lost = some (.worker k))
    (htransport' : 1 ≤ j → 1 ≤ i ∨ gained = some .transport)
    (hproducer' : 2 ≤ j → 2 ≤ i ∨ gained = some .producer)
    (hconsumer' : 3 ≤ j → 3 ≤ i ∨ gained = some .consumer)
    (hworker' : ∀ k, k < (Main.pool p).2 → k < (Main.pool pc).2 ∨ gained = some (.worker k)) :
    Roster pc p gained lost := by
  subst hi hj
  refine ⟨fun t h => ?_,fun t h => ?_,hij⟩
  · cases t with
    | main | listener n => exact Or.inl trivial
    | transport =>
      simp only [Main.crew] at h ⊢
      exact (htransport (by omega)).imp_left fun hnext => by omega
    | producer =>
      simp only [Main.crew] at h ⊢
      exact (hproducer (by omega)).imp_left fun hnext => by omega
    | consumer =>
      simp only [Main.crew] at h ⊢
      exact (hconsumer (by omega)).imp_left fun hnext => by omega
    | worker k =>
      simp only [Main.crew] at h ⊢
      exact (hworker k (by omega) (by omega)).imp_left fun hnext => by omega
  · cases t with
    | main | listener n => exact h.elim
    | transport =>
      simp only [Main.hired] at h ⊢
      exact (htransport' h.1).imp_left fun hnext => by omega
    | producer =>
      simp only [Main.hired] at h ⊢
      exact (hproducer' h.1).imp_left fun hnext => by omega
    | consumer =>
      simp only [Main.hired] at h ⊢
      exact (hconsumer' h.1).imp_left fun hnext => by omega
    | worker k =>
      simp only [Main.hired] at h ⊢
      exact (hworker' k h.1).imp_left fun hnext => by omega

theorem Main.staffing (W : ℕ) (pc : Main.Pc) : (Main.code W pc).Staffing pc := by
  cases pc with
  | sigmask | poolThreads control | transportSocket started =>
    intro b
    cases b
    · exact .leave (by rfl)
    · exact .stay (by rfl) (by rfl)
  | pubsubCreate | createIngest context => exact fun b => .stay (by rfl) (by rfl)
  | createControl context ingest =>
    intro b
    cases b <;> exact .stay (by rfl) (by rfl)
  | poolCreate context ingest control =>
    simp only [Main.code]
    split
    · intro b
      cases b
      · exact .leave (by rfl)
      · exact .stay (by rfl) (by rfl)
    · exact .leave (by rfl)
  | workerArgs control i =>
    simp only [Main.code]
    split
    · intro b
      cases b <;> exact .stay (by rfl) (by rfl)
    · exact .stay (by rfl) (by rfl)
  | workerSpawn control i =>
    refine ⟨Or.inl ⟨Nat.zero_le i,Nat.lt_succ_self i⟩,?_,.stay (by rfl) (by rfl)⟩
    apply Roster.shift 0 0 (by rfl) (by rfl) <;> simp [Main.pool] <;> omega
  | poolDone control started =>
    change Roster _ _ none none
    split
    · exact .leave (by rfl)
    · split
      · exact .stay (by rfl) (by rfl)
      · exact .leave (by rfl)
  | transportSpawn started =>
    refine ⟨Or.inl ⟨Nat.le_of_ble_eq_true rfl,Nat.le_of_ble_eq_true rfl⟩,?_,.leave (by rfl)⟩
    apply Roster.shift 0 1 (by rfl) (by rfl) <;> simp [Main.pool]
  | createTelemetry started => exact fun b => .stay (by rfl) (by rfl)
  | createAlerts started telemetry =>
    intro b
    cases b <;> cases telemetry <;> first | exact .leave (by rfl) | exact .stay (by rfl) (by rfl)
  | subscribeTelemetry started | subscribeAlerts started =>
    intro b
    cases b
    · exact .leave (by rfl)
    · exact .stay (by rfl) (by rfl)
  | spawnProducer started =>
    refine ⟨Or.inl ⟨Nat.le_of_ble_eq_true rfl,Nat.le_of_ble_eq_true rfl⟩,?_,.leave (by rfl)⟩
    apply Roster.shift 1 2 (by rfl) (by rfl) <;> simp [Main.pool]
  | spawnConsumer started =>
    refine ⟨Or.inl ⟨Nat.le_of_ble_eq_true rfl,Nat.le_of_ble_eq_true rfl⟩,?_,.leave (by rfl)⟩
    apply Roster.shift 2 3 (by rfl) (by rfl) <;> simp [Main.pool]
  | joinProducer started => apply Roster.shift 3 4 (by rfl) (by rfl) <;> simp [Main.pool]
  | joinWorkers started i =>
    simp only [Main.code]
    split
    · apply Roster.shift 4 4 (by rfl) (by rfl) <;> simp [Main.pool]
      omega
    · apply Roster.shift 4 5 (by rfl) (by rfl) <;> simp [Main.pool]
      omega
  | joinConsumer => apply Roster.shift 5 6 (by rfl) (by rfl) <;> simp [Main.pool]
  | joinTransport => apply Roster.shift 6 7 (by rfl) (by rfl) <;> simp [Main.pool]
  | finish | failed | exited => exact .leave (by rfl)
  | _ => exact .stay (by rfl) (by rfl)

end Roster

section Endings
variable {W : ℕ} {t : Tid}

def Final : (t : Tid) → Pc t → Prop
  | .main, _ => False
  | .producer, pc => pc = .done
  | .worker _, pc => pc = .done
  | .consumer, pc => pc = .done
  | .transport, pc => pc = .done
  | .listener _, pc => pc = .done

theorem code_ret {pc p : Pc t} (h : code W t pc = .ret p) : Final t p := by
  have hsite := site_of_code h
  cases t <;> exact hsite

/-- Every thread but `main` creates listeners only. -/
theorem code_spawn {pc : Pc t} {u : Tid} {k : Bool → Pc t} (h : code W t pc = .spawn u k) (ht : t ≠ .main) :
    ∃ n, u = .listener n := by
  have hsite := site_of_code h
  cases t with
  | main => exact absurd rfl ht
  | transport => exact hsite
  | _ => exact hsite.elim

end Endings

/-- The invariant: what `main` knows about the threads is true; a thread that does
not exist yet is at its entry, and one that has returned at its end. -/
structure Staffed (s : System) : Prop where
  crew : ∀ t, s.shared.status t = .running → Main.crew (s.pcs .main) t
  hired : ∀ t, Main.hired (s.pcs .main) t → s.shared.status t ≠ .unborn
  born : ∀ t, s.shared.status t ≠ .unborn → Main.debut t ≤ Main.phase (s.pcs .main)
  fresh : ∀ t, s.shared.status t = .unborn → s.pcs t = entry t
  ended : ∀ t, s.shared.status t = .returned → Final t (s.pcs t)

section Steps
variable {W : ℕ} {s s' : System} {t : Tid} {c : Choice}

/-- A step of `main` changes its knowledge by what it creates or joins. -/
theorem Effect.roster {sh sh' : Shared} {pc p : Main.Pc} {op : Op Main.Pc} (h : Effect .main sh op p sh')
    (hop : op.Staffing pc) : ∃ gained lost, Roster pc p gained lost ∧
      (∀ u, gained = some u → sh'.status u = .running) ∧ (∀ u, lost = some u → sh'.status u = .returned) ∧
      ∀ k u, op = .spawn u k → p = k true → Main.crew p u := by
  cases h with
  | spawned child k =>
    refine ⟨_,_,hop.2.1,fun u hu => ?_,fun _ hu => (by cases hu),fun k' u hk _ => ?_⟩
    · cases hu
      simp [Shared.setStatus]
    · cases hk
      exact hop.1
  | notSpawned child k =>
    refine ⟨_,_,hop.2.2,fun _ hu => (by cases hu),fun _ hu => (by cases hu),fun k' u hk hp => ?_⟩
    cases hk
    rw [hp]
    exact hop.1
  | joined child next hret =>
    refine ⟨_,_,hop,fun _ hu => (by cases hu),fun u hu => ?_,fun _ _ hk => (by cases hk)⟩
    cases hu
    exact hret
  | _ =>
    exact ⟨none,none,by first | exact hop | exact hop _,fun _ hu => (by cases hu),fun _ hu => (by cases hu),
      fun _ _ hk => (by cases hk)⟩

theorem step_phase (hstep : step W s t c = some s') : Main.phase (s.pcs .main) ≤ Main.phase (s'.pcs .main) := by
  obtain ⟨_,p,sh',hexec,rfl⟩ := step_inversion hstep
  by_cases ht : .main = t
  · subst ht
    simp only [Function.update_self]
    obtain ⟨_,_,hroster,_⟩ := (exec_effect hexec).roster (Main.staffing W (s.pcs .main))
    exact hroster.phase
  · simp only [Function.update_of_ne ht]
    exact le_rfl

theorem step_staffed (h : Staffed s) (hstep : step W s t c = some s') : Staffed s' := by
  have hphase := step_phase hstep
  obtain ⟨hrunning,p,sh',hexec,rfl⟩ := step_inversion hstep
  have heff := exec_effect hexec
  -- all but the listeners are created and joined by `main`
  have hcrew : ∀ u, sh'.status u = .running → Main.crew (Function.update s.pcs t p .main) u := by
    intro u hu
    by_cases ht : .main = t
    · subst ht
      simp only [Function.update_self]
      obtain ⟨gained,lost,hroster,_,hlost,hspawn⟩ := heff.roster (Main.staffing W (s.pcs .main))
      rcases heff.started hu with hold | ⟨k,hop,hp⟩
      · rcases hroster.crew u (h.crew u hold) with hcrew | hgone
        · exact hcrew
        · rw [hlost u hgone] at hu
          cases hu
      · exact hspawn k u hop hp
    · simp only [Function.update_of_ne ht]
      rcases heff.started hu with hold | ⟨k,hop,_⟩
      · exact h.crew u hold
      · obtain ⟨n,rfl⟩ := code_spawn hop (Ne.symm ht)
        exact trivial
  refine ⟨hcrew,fun u hu => ?_,fun u hu => ?_,fun u hu => ?_,fun u hu => ?_⟩
  · by_cases ht : .main = t
    · subst ht
      simp only [Function.update_self] at hu
      obtain ⟨gained,lost,hroster,hgained,_,_⟩ := heff.roster (Main.staffing W (s.pcs .main))
      rcases hroster.hired u hu with hold | hnew
      · exact heff.born (h.hired u hold)
      · simp [hgained u hnew]
    · simp only [Function.update_of_ne ht] at hu
      exact heff.born (h.hired u hu)
  · cases hstatus : sh'.status u with
    | unborn => exact absurd hstatus hu
    | running => exact Main.debut_le (hcrew u hstatus)
    | returned =>
      refine (h.born u ?_).trans hphase
      rcases heff.returned hstatus with hold | ⟨rfl,_⟩
      · simp [hold]
      · simp [hrunning.2]
  · have hunborn : s.shared.status u = .unborn := by
      by_contra hborn
      exact heff.born hborn hu
    have hne : u ≠ t := by
      rintro rfl
      exact absurd (hunborn.symm.trans hrunning.2) (by simp)
    simp only [Function.update_of_ne hne]
    exact h.fresh u hunborn
  · rcases heff.returned hu with hold | ⟨rfl,hop⟩
    · have hne : u ≠ t := by
        rintro rfl
        exact absurd (hold.symm.trans hrunning.2) (by simp)
      simp only [Function.update_of_ne hne]
      exact h.ended u hold
    · simp only [Function.update_self]
      exact code_ret hop

theorem initial_staffed : Staffed .initial := by
  refine ⟨fun t ht => ?_,fun t ht => ?_,fun t ht => ?_,fun _ _ => rfl,fun t ht => ?_⟩
  · cases t <;> first | exact trivial | cases ht
  · cases t with
    | main | listener n => exact ht.elim
    | _ => simp [Main.hired, Main.phase, Main.pool, System.initial, entry] at ht
  · cases t <;> first | exact Nat.zero_le _ | exact absurd rfl ht
  · cases t <;> cases ht

theorem run_staffed (h : Reachable W s) : Staffed s :=
  h.invariant (I := Staffed) initial_staffed fun _ _ _ _ hs hstep => step_staffed hs hstep

structure Enlisted (W : ℕ) (s : System) : Prop where
  worker : ∀ i, s.shared.status (.worker i) ≠ .unborn → i < W
  next : ∀ control i, s.pcs .main = .workerSpawn control i → i < W

theorem step_enlisted (h : Enlisted W s) (hstep : step W s t c = some s') : Enlisted W s' := by
  obtain ⟨hrunning,p,sh',hexec,rfl⟩ := step_inversion hstep
  have heff := exec_effect hexec
  refine ⟨fun i hi => ?_,fun control i hpc => ?_⟩
  · cases hstatus : sh'.status (.worker i) with
    | unborn => exact absurd hstatus hi
    | running =>
      rcases heff.started hstatus with hold | ⟨k,hop,_⟩
      · exact h.worker i (by simp [hold])
      · by_cases ht : t = .main
        · subst ht
          rcases Main.site_of_code hop with ⟨control,_,hpc,heq⟩ | ⟨_,hother⟩
          · cases heq
            exact h.next control i hpc
          · exact absurd rfl (hother i)
        · obtain ⟨n,hn⟩ := code_spawn hop ht
          cases hn
    | returned =>
      rcases heff.returned hstatus with hold | ⟨rfl,_⟩
      · exact h.worker i (by simp [hold])
      · exact h.worker i (by simp [hrunning.2])
  · by_cases ht : .main = t
    · subst ht
      simp only [Function.update_self] at hpc
      have hfollows := heff.all (Main.code_follows W (s.pcs .main))
      rw [hpc] at hfollows
      generalize s.pcs .main = mpc at hfollows
      cases hfollows with
      | workerArgs _ _ hi => exact hi
    · simp only [Function.update_of_ne ht] at hpc
      exact h.next control i hpc

theorem run_enlisted (h : Reachable W s) : Enlisted W s :=
  h.invariant (I := Enlisted W) ⟨fun _ hi => absurd rfl hi,nofun⟩ fun _ _ _ _ hs hstep => step_enlisted hs hstep

/-- The radio control has an interval before the threads that use it are created. -/
structure Controlled (s : System) : Prop where
  main : Main.controlled (s.pcs .main) = true → s.shared.intervalMs ≠ 0
  born : ∀ t, t ≠ .main → (∀ i, t ≠ .worker i) → s.shared.status t ≠ .unborn → s.shared.intervalMs ≠ 0

theorem Effect.interval_ne {P : Type} {sh sh' : Shared} {op : Op P} {p : P} (h : Effect t sh op p sh')
    (hne : sh.intervalMs ≠ 0) : sh'.intervalMs ≠ 0 := by
  cases h with
  | setInterval ms next =>
    dsimp only
    split <;> assumption
  | _ => exact hne

theorem Main.Follows.controlled {pc p : Main.Pc} (h : Main.Follows W pc p) (hp : Main.controlled p = true) :
    Main.controlled pc = true ∨ ∃ context ingest, pc = .initControl context ingest := by
  cases h with
  | initControl context ingest => exact Or.inr ⟨context,ingest,rfl⟩
  | sigmask | pubsubCreate | createIngest | createControl | noControl | fails | exits => cases hp
  | poolCreate | poolThreads | workerArgs | poolStarted | workerSpawn | workerNotSpawned => exact Or.inl hp
  | _ => exact Or.inl rfl

theorem step_controlled (h : Controlled s) (hstep : step W s t c = some s') : Controlled s' := by
  obtain ⟨hrunning,p,sh',hexec,rfl⟩ := step_inversion hstep
  have heff := exec_effect hexec
  refine ⟨fun hmain => ?_,fun u hu hworker hborn => ?_⟩
  · by_cases ht : .main = t
    · subst ht
      simp only [Function.update_self] at hmain
      change Effect .main s.shared (Main.code W (s.pcs .main)) p sh' at heff
      rcases (heff.all (Main.code_follows W (s.pcs .main))).controlled hmain with hold | ⟨context,ingest,hpc⟩
      · exact heff.interval_ne (h.main hold)
      · rw [hpc] at heff
        cases heff
        have hdefault : Main.radioControlDefaultIntervalMs ≠ 0 := by decide
        simpa only [if_neg hdefault] using hdefault
    · simp only [Function.update_of_ne ht] at hmain
      exact heff.interval_ne (h.main hmain)
  · cases hstatus : sh'.status u with
    | unborn => exact absurd hstatus hborn
    | running =>
      rcases heff.started hstatus with hold | ⟨k,hop,_⟩
      · exact heff.interval_ne (h.born u hu hworker (by simp [hold]))
      · refine heff.interval_ne ?_
        have hsite := site_of_code hop
        cases t with
        | main =>
          rcases hsite with ⟨_,i,_,hi⟩ | ⟨hcontrolled,_⟩
          · exact absurd hi (hworker i)
          · exact h.main hcontrolled
        | transport => exact h.born .transport nofun nofun (by simp [hrunning.2])
        | _ => exact hsite.elim
    | returned =>
      refine heff.interval_ne (h.born u hu hworker ?_)
      rcases heff.returned hstatus with hold | ⟨rfl,_⟩
      · simp [hold]
      · simp [hrunning.2]

theorem run_controlled (h : Reachable W s) : Controlled s := by
  refine h.invariant (I := Controlled) ⟨fun hmain => (by cases hmain),fun u hu _ hborn => ?_⟩
    fun _ _ _ _ hs hstep => step_controlled hs hstep
  cases u <;> first | exact absurd rfl hu | exact absurd rfl hborn

/-- A listener applies its commands to an interval other than 0. -/
theorem listener_interval_ne {n : ℕ} (h : Reachable W s) (hrunning : s.Running (.listener n)) :
    s.shared.intervalMs ≠ 0 :=
  (run_controlled h).born (.listener n) nofun nofun (by simp [hrunning.2])

end Steps

end RadioSim.Process
