import DistExp.ExperimentRuns

namespace DistExp.ExperimentExits

open DistExp.Library.FieldMap DistExp.Library.Runs DistExp.Experiment DistExp.ExperimentInvariant
  DistExp.ExperimentRuns

variable {W T : Type}

/-- The worker has left the loop of `worker_wait_exp_init` and is in front of its assertion. -/
def atAssertion (wk : Worker T) : Bool :=
  match wk.pc with
  | .runExp .assertRunning _ _ _ => true
  | _ => false

variable [DecidableEq W] [DecidableEq T] {p : Params W T} {s s' : State W T} {l : Label W}
  {w : W}

section Moves

/-- A step that leaves `EXP_STAT_KEY`, and does not start or end the experiment. -/
structure StatKept (s s' : State W T) : Prop where
  stat : s'.redis.expStat = s.redis.expStat
  active : Active s'.manager → Active s.manager
  ended : Ended s'.manager → Ended s.manager

/-- How a step of the manager leaves `EXP_STAT_KEY`. -/
inductive StatMove (s s' : State W T) : Prop
  | kept (h : StatKept s s')
  | early (inactive : ¬ Active s.manager) (stat : Active s'.manager → s'.redis.expStat = some .INIT)
  | running (stat : s'.redis.expStat = some .RUNNING) (ended : ¬ Ended s'.manager)
  | ends (pc : s.manager = .setEnd) (stat : s'.redis.expStat = some .END)
  | fails (phase : Phase) (pc : s.manager = .setError phase)

omit [DecidableEq W] [DecidableEq T] in
theorem statKept_goto {pc pc' : ManagerPc W T} (hpc : s.manager = pc) (hpc' : s'.manager = pc')
    (hstat : s'.redis.expStat = s.redis.expStat) (hactive : Active pc' → Active pc)
    (hended : Ended pc' → Ended pc) : StatKept s s' := by
  subst hpc hpc'
  exact ⟨hstat, hactive, hended⟩

omit [DecidableEq T] in
theorem noteReport_moves {w : W} {rest : List W} {ts : Int} {pc : ManagerPc W T}
    (hpc : s.manager = pc) (hactive : Active pc) :
    (noteReport p s w rest ts).worker = s.worker ∧ StatKept s (noteReport p s w rest ts) := by
  rw [noteReport]
  split
  · refine ⟨rfl, statKept_goto hpc rfl rfl (fun _ => hactive) ?_⟩
    dsimp only
    split <;> simp
  · exact ⟨rfl, statKept_goto hpc rfl rfl (fun _ => hactive) (by simp)⟩

theorem managerStep_moves {now : Int} (hstep : managerStep p s now = some s') :
    s'.worker = s.worker ∧ StatMove s s' := by
  generalize hpc : s.manager = pc
  cases ExperimentManager.managerStep_rule hpc hstep with
  | flushall => exact ⟨rfl, .early (by simp [hpc]) False.elim⟩
  | setInit => exact ⟨rfl, .early (by simp [hpc]) fun _ => rfl⟩
  | setRunning => exact ⟨rfl, .running rfl (by simp)⟩
  | setEnd => exact ⟨rfl, .ends hpc rfl⟩
  | setError => exact ⟨rfl, .fails _ hpc⟩
  | report => exact (noteReport_moves hpc trivial).imp_right .kept
  | lateReport => exact (noteReport_moves hpc trivial).imp_right .kept
  | @readAcks barrier | @abortAck barrier | @waitAck barrier | @acksLeft barrier =>
    exact ⟨rfl, .kept (statKept_goto hpc rfl rfl (by simp)
      (by cases barrier <;> simp [Barrier.phase]))⟩
  | @afterAcks barrier =>
    exact ⟨rfl, .kept (statKept_goto hpc rfl rfl (by simp)
      (by cases barrier <;> simp [afterAcks]))⟩
  | getStat | startWorker | setConfig | hdelConfig | noConfig | configLeft | nextRound | noReport
  | reportLost | waitHealth | stopWorker | stopped | raising =>
    exact ⟨rfl, .kept (statKept_goto hpc rfl rfl (by simp) (by simp))⟩

theorem consumeStep_moves (hstep : consumeStep p s w = some s') :
    s'.worker = s.worker ∧ StatKept s s' := by
  unfold consumeStep at hstep
  split at hstep
  · next barrier rest hpc =>
    split at hstep
    · cases hstep
    · split at hstep <;> cases hstep
      · exact ⟨rfl, statKept_goto hpc rfl rfl (by simp) (by cases barrier <;> simp [Barrier.phase])⟩
      · exact ⟨rfl, statKept_goto hpc rfl rfl (by simp) (by cases barrier <;> simp)⟩
  · cases hstep

omit [DecidableEq W] [DecidableEq T] in
theorem interruptStep_moves (hstep : interruptStep s = some s') :
    s'.worker = s.worker ∧ StatKept s s' := by
  unfold interruptStep at hstep
  split at hstep <;> cases hstep <;> rename_i hpc <;>
    exact ⟨rfl, statKept_goto hpc rfl rfl (by simp) (by simp)⟩

inductive WorkerMove (s : State W T) (l : Label W) (w : W) : Redis W T → Worker T → Prop
  | still {r : Redis W T} : WorkerMove s l w r (s.worker w)
  | moves {r : Redis W T} {wk : Worker T} {now : Int} (label : l = .worker w now)
      (step : workerStep w s.redis (s.worker w) now = some (r, wk)) : WorkerMove s l w r wk
  | spawned {r : Redis W T} : WorkerMove s l w r ⟨.hlenConfig, (s.worker w).trace⟩
  | stopped {r : Redis W T} (mem : w ∈ s.stopping) :
      WorkerMove s l w r ⟨.terminated .stopped, (s.worker w).trace⟩

theorem worker_moves (hstep : step p s l = some s') (w : W) :
    WorkerMove s l w s'.redis (s'.worker w) := by
  have hstill : s'.worker = s.worker → WorkerMove s l w s'.redis (s'.worker w) := by
    intro he
    rw [he]
    exact .still
  have hset : ∀ {r : Redis W T} {w' : W} {wk : Worker T}, s' = { s with redis := r }.setWorker w' wk →
      (w' = w → WorkerMove s l w r wk) → WorkerMove s l w s'.redis (s'.worker w) := by
    rintro r w' wk rfl hmove
    by_cases hw : w = w'
    · subst hw
      rw [ExperimentWorker.setWorker_same]
      exact hmove rfl
    · rw [ExperimentWorker.setWorker_other _ hw]
      exact .still
  cases l with
  | manager now => exact hstill (managerStep_moves hstep).1
  | consume w' => exact hstill (consumeStep_moves hstep).1
  | interrupt => exact hstill (interruptStep_moves hstep).1
  | spawn w' =>
    simp only [step] at hstep
    split at hstep <;> cases hstep
    exact hset rfl fun he => he ▸ .spawned
  | worker w' now =>
    simp only [step] at hstep
    split at hstep <;> cases hstep
    next hworker => exact hset rfl fun he => by subst he; exact .moves rfl hworker
  | stopped w' =>
    simp only [step] at hstep
    split at hstep
    · cases hstep
    · cases hstep
    · split at hstep <;> cases hstep
      next hmem => exact hset rfl fun he => he ▸ .stopped hmem

theorem workerStep_exits {r r' : Redis W T} {wk wk' : Worker T} {now : Int} {exit : Exit}
    (hat : At p wk.pc (done wk)) (hstat : r.expStat ≠ none) (hconfig : hlen r.config ≤ 1)
    (hstep : workerStep w r wk now = some (r', wk')) (hexit : wk'.pc = .terminated exit) :
    wk'.trace = wk.trace ∧
      ((atAssertion wk = true ∧ r.expStat ≠ some .RUNNING) ∨ (exit = .exitZero ∧ done wk = 5)) := by
  have hrule := ExperimentWorker.workerStep_rule hstep
  obtain ⟨pc, trace⟩ := wk
  cases hrule with
  | moreConfigs h => omega
  | noStat h => exact absurd h hstat
  | assertionError h => exact ⟨rfl, Or.inl ⟨rfl, h⟩⟩
  | exitZero h =>
    cases hexit
    exact ⟨rfl, Or.inr ⟨rfl, hat.2.2.2⟩⟩
  | _ => cases hexit

end Moves

section Exits

omit [DecidableEq W] [DecidableEq T] in
theorem exists_of_atAssertion {wk : Worker T} (h : atAssertion wk = true) :
    ∃ t configFile rest, wk.pc = .runExp .assertRunning t configFile rest := by
  unfold atAssertion at h
  split at h
  · next hpc => exact ⟨_, _, _, hpc⟩
  · cases h

theorem assertion_fails (hat : atAssertion (s.worker w) = true)
    (hne : s.redis.expStat ≠ some .RUNNING) (now : Int) :
    step p s (.worker w now) =
      some (s.setWorker w ⟨.terminated .assertionError, (s.worker w).trace⟩) := by
  obtain ⟨t, configFile, rest, hpc⟩ := exists_of_atAssertion hat
  have hexit : workerStep w s.redis (s.worker w) now =
      some (s.redis, ⟨.terminated .assertionError, (s.worker w).trace⟩) := by
    rw [workerStep, hpc]
    simp [runExpStep, hne]
  simp only [step, hexit]

theorem exits (h : Inv p s) {now : Int} {r : Redis W T} {wk : Worker T} {exit : Exit}
    (hstep : workerStep w s.redis (s.worker w) now = some (r, wk))
    (hexit : wk.pc = .terminated exit) :
    wk.trace = (s.worker w).trace ∧
      ((atAssertion (s.worker w) = true ∧ s.redis.expStat ≠ some .RUNNING) ∨
        (exit = .exitZero ∧ done (s.worker w) = 5)) := by
  obtain ⟨hmem, -⟩ := ExperimentWorker.inv_worker h hstep
  have hactive := active_of_mem h.table hmem
  obtain ⟨stat, -, hstat⟩ := h.stat hactive
  refine workerStep_exits (h.worker w).pc (by simp [hstat]) ?_ hstep hexit
  rw [h.config (not_stale_of_active hactive)]
  rcases configOf_cases p s.manager with he | he <;> simp [he, hlen]

end Exits

end DistExp.ExperimentExits
