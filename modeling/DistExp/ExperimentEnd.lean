import DistExp.ExperimentExits

namespace DistExp.ExperimentEnd

open DistExp.Library.Runs DistExp.Experiment DistExp.ExperimentInvariant DistExp.ExperimentRuns
  DistExp.ExperimentExits

variable {W T : Type} [DecidableEq W] [DecidableEq T] {p : Params W T} {init s s' : State W T}
  {l : Label W} {ops : List (Label W)} {w : W}

def waiting (wk : Worker T) : Bool :=
  match wk.pc with
  | .runExp .waitInit _ _ _ => true
  | .runExp .assertRunning _ _ _ => true
  | _ => false

def setsError (s : State W T) (l : Label W) : Bool :=
  match l, s.manager with
  | .manager _, .setError _ => true
  | _, _ => false

/-- The step sets `EXP_STAT_KEY` to `END` while a worker is in `worker_wait_exp_init`. -/
def endsTooEarly (s : State W T) (l : Label W) : Bool :=
  match l, s.manager with
  | .manager _, .setEnd => s.workerTable.any fun w => waiting (s.worker w)
  | _, _ => false

/-- What holds in every state of a run without `ERROR` whose end waits for the workers. -/
structure Calm (p : Params W T) (s : State W T) : Prop where
  inv : Inv p s
  noError : Active s.manager → s.redis.expStat ≠ some .ERROR
  waiting : ∀ w, waiting (s.worker w) = true → ¬ Ended s.manager
  asserting : ∀ w, atAssertion (s.worker w) = true → s.redis.expStat ≠ some .INIT
  passed : ∀ w, (s.worker w).pc ≠ .terminated .assertionError

section Calm

omit [DecidableEq W] [DecidableEq T]

theorem waiting_of_atAssertion {wk : Worker T} (h : atAssertion wk = true) : waiting wk = true := by
  obtain ⟨t, configFile, rest, hpc⟩ := exists_of_atAssertion h
  rw [waiting, hpc]

theorem waits_of_not_waiting {wk : Worker T} (hn : waiting wk = false) {P Q : Prop} :
    (waiting wk = true → P) ∧ (atAssertion wk = true → Q) := by
  have hne : waiting wk ≠ true := Bool.eq_false_iff.mp hn
  exact ⟨fun h => absurd h hne, fun h => absurd (waiting_of_atAssertion h) hne⟩

theorem mem_of_waiting (h : Inv p s) (hw : waiting (s.worker w) = true) : w ∈ s.workerTable := by
  refine (h.worker w).present fun he => ?_
  rw [waiting, he] at hw
  cases hw

theorem Calm.running (h : Calm p s) (hat : atAssertion (s.worker w) = true) :
    s.redis.expStat = some .RUNNING := by
  have hwait := waiting_of_atAssertion hat
  have hactive := active_of_mem h.inv.table (mem_of_waiting h.inv hwait)
  obtain ⟨stat, hs, he⟩ := h.inv.stat hactive
  cases stat with
  | INIT => exact absurd he (h.asserting w hat)
  | RUNNING => exact he
  | END => exact absurd (ended_of_stat hs) (h.waiting w hwait)
  | ERROR => exact absurd he (h.noError hactive)

theorem calm_initial (hinit : Initial init) : Calm p init := by
  refine ⟨inv_initial hinit, ?_, fun w => ?_, fun w => ?_, fun w => ?_⟩
  · rw [hinit.1]
    exact False.elim
  all_goals
    rw [hinit.2.2.2 w]
    nofun

theorem calm_kept (h : Calm p s) (hinv : Inv p s') (hworker : s'.worker = s.worker)
    (hkept : StatKept s s') : Calm p s' := by
  refine ⟨hinv, fun ha => ?_, fun w hw => ?_, fun w hw => ?_, fun w => ?_⟩
  · rw [hkept.stat]
    exact h.noError (hkept.active ha)
  · rw [hworker] at hw
    exact fun he => h.waiting w hw (hkept.ended he)
  · rw [hworker] at hw
    rw [hkept.stat]
    exact h.asserting w hw
  · rw [hworker]
    exact h.passed w

theorem calm_manager (h : Calm p s) (hinv : Inv p s') (hworker : s'.worker = s.worker)
    (hmove : StatMove s s') (hfails : ∀ phase, s.manager ≠ .setError phase)
    (hends : s.manager = .setEnd → ∀ w ∈ s.workerTable, waiting (s.worker w) = false) :
    Calm p s' := by
  have hpassed : ∀ w, (s'.worker w).pc ≠ .terminated .assertionError := by
    rw [hworker]
    exact h.passed
  cases hmove with
  | kept hkept => exact calm_kept h hinv hworker hkept
  | early inactive stat =>
    -- no worker runs yet
    have hnone : ∀ w, waiting (s'.worker w) ≠ true := by
      intro w hw
      rw [hworker] at hw
      exact inactive (active_of_mem h.inv.table (mem_of_waiting h.inv hw))
    refine ⟨hinv, fun ha => ?_, fun w hw => absurd hw (hnone w),
      fun w hw => absurd (waiting_of_atAssertion hw) (hnone w), hpassed⟩
    rw [stat ha]
    decide
  | running stat ended =>
    refine ⟨hinv, fun _ => ?_, fun _ _ => ended, fun _ _ => ?_, hpassed⟩ <;>
    · rw [stat]
      decide
  | ends pc stat =>
    have hnone : ∀ w, waiting (s'.worker w) ≠ true := by
      intro w hw
      rw [hworker] at hw
      rw [hends pc w (mem_of_waiting h.inv hw)] at hw
      cases hw
    refine ⟨hinv, fun _ => ?_, fun w hw => absurd hw (hnone w),
      fun w hw => absurd (waiting_of_atAssertion hw) (hnone w), hpassed⟩
    rw [stat]
    decide
  | fails phase pc => exact absurd pc (hfails phase)

end Calm

omit [DecidableEq T] in
theorem workerStep_waits {r r' : Redis W T} {wk wk' : Worker T} {now : Int}
    (hat : At p wk.pc (done wk)) (hstep : workerStep w r wk now = some (r', wk')) :
    (waiting wk' = true → waiting wk = true ∨ done wk = 2) ∧
      (atAssertion wk' = true → r.expStat ≠ some .INIT) := by
  have hrule := ExperimentWorker.workerStep_rule hstep
  obtain ⟨pc, trace⟩ := wk
  cases hrule with
  | ackInit => exact ⟨fun _ => Or.inr hat.2.2.2, fun h => absurd h Bool.false_ne_true⟩
  | stillInit h => exact ⟨fun _ => Or.inl rfl, fun h => absurd h Bool.false_ne_true⟩
  | leftInit hne => exact ⟨fun _ => Or.inl rfl, fun _ => hne⟩
  | _ => exact waits_of_not_waiting rfl

theorem calm_worker (h : Calm p s) (hinv : Inv p s') (hmanager : s'.manager = s.manager)
    (hstat : s'.redis.expStat = s.redis.expStat) (hstep : step p s l = some s') : Calm p s' := by
  have hmoves := worker_moves hstep
  refine ⟨hinv, ?_, fun w hw => ?_, fun w hw => ?_, fun w => ?_⟩
  · rw [hmanager, hstat]
    exact h.noError
  · have hmove := hmoves w
    rw [hmanager]
    generalize s'.worker w = wk at hmove hw
    cases hmove with
    | still => exact h.waiting w hw
    | moves label hworker =>
      obtain hw' | htwo := (workerStep_waits (h.inv.worker w).pc hworker).1 hw
      · exact h.waiting w hw'
      · intro he
        have hmem := (ExperimentWorker.inv_worker h.inv hworker).1
        have hthree := h.inv.acked (pastStart_of_ended he) w hmem
        omega
    | spawned => cases hw
    | stopped => cases hw
  · have hmove := hmoves w
    rw [hstat]
    generalize s'.worker w = wk at hmove hw
    cases hmove with
    | still => exact h.asserting w hw
    | moves label hworker => exact (workerStep_waits (h.inv.worker w).pc hworker).2 hw
    | spawned => cases hw
    | stopped => cases hw
  · have hmove := hmoves w
    generalize s'.worker w = wk at hmove
    cases hmove with
    | still => exact h.passed w
    | moves label hworker =>
      intro he
      obtain ⟨-, ⟨hat, hne⟩ | ⟨hexit, -⟩⟩ := exits h.inv hworker he
      · exact hne (h.running hat)
      · cases hexit
    | spawned => nofun
    | stopped => nofun

theorem calm_step (h : Calm p s) (hno : setsError s l = false) (hlate : endsTooEarly s l = false)
    (hstep : step p s l = some s') : Calm p s' := by
  have hinv := inv_step h.inv hstep
  cases l with
  | manager now =>
    obtain ⟨hworker, hmove⟩ := managerStep_moves hstep
    refine calm_manager h hinv hworker hmove (fun phase hpc => ?_) (fun hpc w hw => ?_)
    · simp [setsError, hpc] at hno
    · simp only [endsTooEarly, hpc] at hlate
      exact Bool.eq_false_iff.mpr fun hwait => List.any_eq_false.mp hlate w hw hwait
  | consume w =>
    obtain ⟨hworker, hkept⟩ := consumeStep_moves hstep
    exact calm_kept h hinv hworker hkept
  | interrupt =>
    obtain ⟨hworker, hkept⟩ := interruptStep_moves hstep
    exact calm_kept h hinv hworker hkept
  | spawn w =>
    have hs := hstep
    simp only [step] at hs
    split at hs <;> cases hs
    exact calm_worker h hinv rfl rfl hstep
  | worker w now =>
    have hs := hstep
    simp only [step] at hs
    split at hs <;> cases hs
    next hworker =>
      have hok := (ExperimentWorker.inv_worker h.inv hworker).2
      exact calm_worker h hinv rfl hok.expStat hstep
  | stopped w =>
    have hs := hstep
    simp only [step] at hs
    split at hs
    · cases hs
    · cases hs
    · split at hs <;> cases hs
      exact calm_worker h hinv rfl rfl hstep

/-- In a run that never sets `ERROR`, and sets `END` only once every worker has left
`worker_wait_exp_init`, no worker fails its assertion. -/
theorem no_assertion_fails (hinit : Initial init)
    (hno : EachStep (step p) (fun s l => setsError s l = false) init ops)
    (hlate : EachStep (step p) (fun s l => endsTooEarly s l = false) init ops)
    (hs : Passes (step p) init ops s) (w : W) :
    (s.worker w).pc ≠ .terminated .assertionError ∧
      (atAssertion (s.worker w) = true → s.redis.expStat = some .RUNNING) := by
  have hcalm : Calm p s := by
    refine passes_invariant (C := fun s l => setsError s l = false ∧ endsTooEarly s l = false)
      ?_ (calm_initial hinit) ?_ hs
    · exact fun s l s' h hl hs => calm_step h hl.1 hl.2 hs
    · exact fun pre l s hp hs => ⟨hno pre l s hp hs, hlate pre l s hp hs⟩
  exact ⟨hcalm.passed w, hcalm.running⟩

theorem no_assertion_fails_complete :
    ∃ s, completeRun.foldlM (step sample) sampleInit = some s ∧
      ∀ w, (s.worker w).pc ≠ .terminated .assertionError := by
  obtain ⟨s, hs⟩ : ∃ s, completeRun.foldlM (step sample) sampleInit = some s := ⟨_, rfl⟩
  have hno : EachStep (step sample) (fun s l => setsError s l = false) sampleInit completeRun := by
    decide +kernel
  have hlate : EachStep (step sample) (fun s l => endsTooEarly s l = false) sampleInit
      completeRun := by
    decide +kernel
  refine ⟨s, hs, fun w => ?_⟩
  exact (no_assertion_fails initial_sample hno hlate ⟨_, List.prefix_rfl, hs⟩ w).1

theorem assertion_fails_after_end {now : Int} (hearly : endsTooEarly s (.manager now) = true) :
    ∃ w n s', (.manager now :: List.replicate n (.worker w now)).foldlM (step p) s = some s' ∧
      (s'.worker w).pc = .terminated .assertionError := by
  have hfail : ∀ {s : State W T} {w : W}, atAssertion (s.worker w) = true →
      s.redis.expStat = some .END → ∃ s', step p s (.worker w now) = some s' ∧
        (s'.worker w).pc = .terminated .assertionError := by
    intro s w hat hend
    refine ⟨_, assertion_fails hat (by simp [hend]) now, ?_⟩
    rw [ExperimentWorker.setWorker_same]
  unfold endsTooEarly at hearly
  split at hearly
  · next hpc =>
    obtain ⟨w, -, hwait⟩ := List.any_eq_true.mp hearly
    let s₁ : State W T :=
      { s with redis := { s.redis with expStat := some .END }, manager := .waitAck .finish 0 }
    have h₁ : step p s (.manager now) = some s₁ := by simp only [step, managerStep, hpc, s₁]
    refine ⟨w, ?_⟩
    unfold waiting at hwait
    split at hwait
    · next t configFile rest hwpc =>
      let s₂ : State W T := s₁.setWorker w ⟨.runExp .assertRunning t configFile rest,
        (s.worker w).trace⟩
      have h₂ : step p s₁ (.worker w now) = some s₂ := by
        simp [step, workerStep, runExpStep, s₁, s₂, hwpc]
      have hat : atAssertion (s₂.worker w) = true := by
        rw [ExperimentWorker.setWorker_same]
        rfl
      obtain ⟨s₃, h₃, hexit⟩ := hfail hat rfl
      refine ⟨2, s₃, ?_, hexit⟩
      simp [List.replicate, h₁, h₂, h₃]
    · next t configFile rest hwpc =>
      have hat : atAssertion (s₁.worker w) = true := by
        change atAssertion (s.worker w) = true
        rw [atAssertion, hwpc]
      obtain ⟨s₂, h₂, hexit⟩ := hfail hat rfl
      refine ⟨1, s₂, ?_, hexit⟩
      simp [List.replicate, h₁, h₂]
    · cases hwait
  · cases hearly

/-- The manager is interrupted before worker 1 has seen `RUNNING`. -/
def earlyEndRun : List (Label Nat) :=
  startingRun ++ workerSteps 0 2 ++ [.interrupt] ++ managerSteps 1 ++ workerSteps 1 2

/-- No step of the run sets `ERROR`, and a worker finds `END` in front of its assertion. -/
theorem assertion_fails_at_normal_end :
    EachStep (step sample) (fun s l => setsError s l = false) sampleInit earlyEndRun ∧
    ∃ s, earlyEndRun.foldlM (step sample) sampleInit = some s ∧ s.redis.expStat = some .END ∧
      .ackInit 7 ∈ (s.worker 1).trace ∧ (s.worker 1).pc = .terminated .assertionError := by
  refine ⟨by decide +kernel, ?_⟩
  obtain ⟨s, hs, hstat, hpc, htrace⟩ : ∃ s, earlyEndRun.foldlM (step sample) sampleInit = some s ∧
      s.redis.expStat = some .END ∧ (s.worker 1).pc = .terminated .assertionError ∧
      (s.worker 1).trace = [.enter 7, .launch 7 "configs/config_7.json", .ackInit 7] :=
    ⟨_, rfl, rfl, rfl, rfl⟩
  exact ⟨s, hs, hstat, by simp [htrace], hpc⟩

end DistExp.ExperimentEnd
