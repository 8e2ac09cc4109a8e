import DistExp.Library.Runs
import DistExp.ExperimentManager
import DistExp.ExperimentWorker

namespace DistExp.ExperimentRuns

open DistExp.Library.FieldMap DistExp.Library.Runs DistExp.Experiment DistExp.ExperimentInvariant

variable {W T : Type}

theorem mem_trace {p : Params W T} {wk : Worker T} (h : wk.trace <+: lifetime p) {n : Nat}
    {a : Action T} (ha : (lifetime p)[n]? = some a) (hn : n < done wk) : a ∈ wk.trace := by
  rw [List.prefix_iff_eq_take.mp h]
  refine List.mem_of_getElem? (i := n) ?_
  rw [List.getElem?_take_of_lt (show n < wk.trace.length from hn)]
  exact ha

variable [DecidableEq W] [DecidableEq T] {p : Params W T} {init s s' : State W T}
  {ops : List (Label W)}

theorem inv_step (h : Inv p s) {l : Label W} (hstep : step p s l = some s') : Inv p s' := by
  cases l with
  | manager now => exact ExperimentManager.inv_managerStep h hstep
  | consume w => exact ExperimentManager.inv_consumeStep h hstep
  | interrupt => exact ExperimentManager.inv_interruptStep h hstep
  | spawn w =>
    simp only [step] at hstep
    split at hstep <;> cases hstep
    next hw =>
      have hat := (h.worker w).pc
      rw [hw.2] at hat
      exact ExperimentWorker.inv_setPc h hw.1 (Or.inl hat) nofun
  | worker w now =>
    simp only [step] at hstep
    split at hstep <;> cases hstep
    next hworker =>
      obtain ⟨hmem, hok⟩ := ExperimentWorker.inv_worker h hworker
      exact ExperimentWorker.inv_setWorker h hmem hok
  | stopped w =>
    simp only [step] at hstep
    split at hstep
    · cases hstep
    · cases hstep
    · next habsent _ =>
      split at hstep <;> cases hstep
      exact ExperimentWorker.inv_setPc h ((h.worker w).present habsent) trivial nofun

theorem inv_run (hinit : Initial init) (hrun : ops.foldlM (step p) init = some s) : Inv p s := by
  have hs : Passes (step p) init ops s := ⟨ops, List.prefix_rfl, hrun⟩
  refine passes_invariant' ?_ (inv_initial hinit) hs
  exact fun _ _ _ h => inv_step h

section Sample

def sample : Params Nat Nat :=
  ⟨[0, 1], by decide, 7, "configs/config_7.json", 3, 1⟩

def sampleInit : State Nat Nat :=
  ⟨.getStat, [], fun _ => ⟨0, 0⟩, ⟨some .ERROR, [(6, "configs/config_6.json")], [(1, 6)], []⟩,
    fun _ => ⟨.absent, []⟩, []⟩

theorem initial_sample : Initial sampleInit := ⟨rfl, rfl, rfl, fun _ => rfl⟩

def managerSteps (n : Nat) : List (Label Nat) := List.replicate n (.manager 0)

def workerSteps (w n : Nat) : List (Label Nat) := List.replicate n (.worker w 5)

/-- The workers launch their servers and ack, and the manager sets `RUNNING`. -/
def startingRun : List (Label Nat) :=
  managerSteps 6 ++ [.spawn 0, .spawn 1] ++ workerSteps 0 5 ++ workerSteps 1 5 ++
    managerSteps 1 ++ [.consume 1, .consume 0] ++ managerSteps 4

def completeRun : List (Label Nat) :=
  startingRun ++ workerSteps 0 4 ++ workerSteps 1 4 ++ managerSteps 2 ++ [.interrupt] ++
    managerSteps 1 ++ workerSteps 1 5 ++ workerSteps 0 8 ++ managerSteps 1 ++
    [.consume 0, .consume 1] ++ managerSteps 4 ++ [.stopped 0]

end Sample

section Barriers

/-- The manager has returned from the `manager_wait_ack` of `manager_exp_end`. -/
def EndBarrierPassed : ManagerPc W T → Prop
  | .stopWorkers _ | .finished => True
  | _ => False

/-- The manager is in the `manager_wait_ack` of `manager_exp_end`. -/
def AtEndBarrier : ManagerPc W T → Prop
  | .waitAck .finish _ | .consumeAcks .finish _ => True
  | _ => False

omit [DecidableEq W] [DecidableEq T] in
theorem pastFinish_of_passed {pc : ManagerPc W T} (h : EndBarrierPassed pc) : PastFinish pc := by
  unfold EndBarrierPassed at h
  split at h <;> trivial

omit [DecidableEq W] [DecidableEq T] in
theorem cleared_of_atEndBarrier {pc : ManagerPc W T} (h : AtEndBarrier pc) : Cleared pc := by
  unfold AtEndBarrier at h
  split at h <;> trivial

omit [DecidableEq W] [DecidableEq T] in
theorem launched_of_running (h : Inv p s) (hrunning : s.redis.expStat = some .RUNNING) {w : W}
    (hw : w ∈ s.workerTable) : .launch p.expStartTime p.configFile ∈ (s.worker w).trace := by
  obtain ⟨stat, hs, he⟩ := h.stat (active_of_mem h.table hw)
  cases he.symm.trans hrunning
  have hthree := h.acked (pastStart_of_stat hs) w hw
  exact mem_trace (n := 1) (h.worker w).trace rfl (by omega)

omit [DecidableEq W] [DecidableEq T] in
theorem mem_of_done (h : Inv p s) {w : W} (hw : done (s.worker w) = 6) {a : Action T}
    (ha : a ∈ lifetime p) : a ∈ (s.worker w).trace := by
  obtain ⟨n, hn, rfl⟩ := List.mem_iff_getElem.mp ha
  exact mem_trace (h.worker w).trace (List.getElem?_eq_getElem hn) (hw ▸ hn)

/-- The two barriers of an experiment, in any interleaving: while `EXP_STAT_KEY` is `RUNNING` every
worker has launched its server, after the end barrier every worker has killed its server and closed
its files, and every ack found at the end barrier is one that its worker wrote at the end. -/
theorem barriers_separate (hinit : Initial init) (hrun : ops.foldlM (step p) init = some s) :
    (s.redis.expStat = some .RUNNING → ∀ w ∈ s.workerTable,
      .launch p.expStartTime p.configFile ∈ (s.worker w).trace) ∧
    (EndBarrierPassed s.manager → ∀ w ∈ s.workerTable,
      .kill p.expStartTime ∈ (s.worker w).trace ∧ .close p.expStartTime ∈ (s.worker w).trace) ∧
    (AtEndBarrier s.manager → ∀ w ∈ keys s.redis.ack,
      .ackEnd p.expStartTime ∈ (s.worker w).trace) := by
  have h := inv_run hinit hrun
  refine ⟨fun hrunning w hw => launched_of_running h hrunning hw, fun hpassed w hw => ?_,
    fun hat w hw => ?_⟩
  · have hsix : done (s.worker w) = 6 := h.ended (pastFinish_of_passed hpassed) w hw
    exact ⟨mem_of_done h hsix (by simp [lifetime]), mem_of_done h hsix (by simp [lifetime])⟩
  · have hsix : done (s.worker w) = 6 := h.cleared (cleared_of_atEndBarrier hat) w hw
    exact mem_of_done h hsix (by simp [lifetime])

/-- The start barrier lets `RUNNING` through, and the end barrier lets the manager finish. -/
theorem barriers_separate_complete :
    (∃ s, startingRun.foldlM (step sample) sampleInit = some s ∧ s.workerTable = [0, 1] ∧
      s.redis.expStat = some .RUNNING ∧
      ∀ w ∈ s.workerTable, .launch 7 "configs/config_7.json" ∈ (s.worker w).trace) ∧
    ∃ s, completeRun.foldlM (step sample) sampleInit = some s ∧ s.workerTable = [0, 1] ∧
      EndBarrierPassed s.manager ∧
      ∀ w ∈ s.workerTable, .kill 7 ∈ (s.worker w).trace ∧ .close 7 ∈ (s.worker w).trace := by
  obtain ⟨s₁, h₁, ht₁, hrunning⟩ : ∃ s, startingRun.foldlM (step sample) sampleInit = some s ∧
      s.workerTable = [0, 1] ∧ s.redis.expStat = some .RUNNING := ⟨_, rfl, rfl, rfl⟩
  obtain ⟨s₂, h₂, ht₂, hpassed⟩ : ∃ s, completeRun.foldlM (step sample) sampleInit = some s ∧
      s.workerTable = [0, 1] ∧ EndBarrierPassed s.manager := ⟨_, rfl, rfl, trivial⟩
  exact ⟨⟨s₁, h₁, ht₁, hrunning, (barriers_separate initial_sample h₁).1 hrunning⟩,
    s₂, h₂, ht₂, hpassed, (barriers_separate initial_sample h₂).2.1 hpassed⟩

end Barriers

section Once

def isEnter : Experiment.Action T → Bool
  | .enter _ => true
  | _ => false

def isLaunch : Experiment.Action T → Bool
  | .launch _ _ => true
  | _ => false

def isAckInit : Experiment.Action T → Bool
  | .ackInit _ => true
  | _ => false

/-- However often a worker polls `EXP_CONFIG_GROUP`, it enters the experiment, launches a server and
acks the start at most once. -/
theorem started_at_most_once (hinit : Initial init) (hrun : ops.foldlM (step p) init = some s)
    (w : W) :
    (s.worker w).trace.countP isEnter ≤ 1 ∧ (s.worker w).trace.countP isLaunch ≤ 1 ∧
      (s.worker w).trace.countP isAckInit ≤ 1 := by
  have hsub := ((inv_run hinit hrun).worker w).trace.sublist
  exact ⟨hsub.countP_le, hsub.countP_le, hsub.countP_le⟩

theorem started_at_most_once_complete :
    ∃ s, completeRun.foldlM (step sample) sampleInit = some s ∧
      (s.worker 0).trace.countP isEnter ≤ 1 ∧ (s.worker 0).trace.countP isLaunch ≤ 1 ∧
        (s.worker 0).trace.countP isAckInit ≤ 1 := by
  obtain ⟨s, hs⟩ : ∃ s, completeRun.foldlM (step sample) sampleInit = some s := ⟨_, rfl⟩
  exact ⟨s, hs, started_at_most_once initial_sample hs 0⟩

end Once

end DistExp.ExperimentRuns
