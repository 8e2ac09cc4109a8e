import DistExp.Experiment

namespace DistExp.ExperimentInvariant

open DistExp.Library.FieldMap DistExp.Experiment

variable {W T : Type}

def lifetime (p : Params W T) : List (Action T) :=
  [.enter p.expStartTime, .launch p.expStartTime p.configFile, .ackInit p.expStartTime,
    .kill p.expStartTime, .close p.expStartTime, .ackEnd p.expStartTime]

def done (wk : Worker T) : Nat := wk.trace.length

/-- How far a worker is at a control point of `worker_run_exp`. -/
def reached : RunPc → Nat
  | .launch => 1
  | .ackInit => 2
  | .waitInit | .assertRunning | .checkRunning | .reportHealth | .kill => 3
  | .close => 4
  | .getStat | .ackEnd => 5

def At (p : Params W T) : WorkerPc T → Nat → Prop
  | .absent, n => n = 0
  | .hlenConfig, n => n = 0 ∨ n = 6
  | .scanConfig, n => n = 0
  | .nextConfig rest, n =>
      (n = 0 ∧ (rest = [] ∨ rest = [(p.expStartTime, p.configFile)])) ∨ (n = 6 ∧ rest = [])
  | .runExp pc t configFile rest, n =>
      t = p.expStartTime ∧ configFile = p.configFile ∧ rest = [] ∧ n = reached pc
  | .terminated _, _ => True

@[simp] def Stale : ManagerPc W T → Prop
  | .getStat | .flushall => True
  | _ => False

@[simp] def PastStart : ManagerPc W T → Prop
  | .consumeAcks _ _ | .hdelConfig | .assertNoConfig | .setRunning | .checkHealth _
  | .waitHealth _ _ _ | .setEnd | .waitAck .finish _ | .stopWorkers _ | .finished => True
  | .setError phase | .raising phase | .dead phase => phase ≠ .starting
  | _ => False

@[simp] def Cleared : ManagerPc W T → Prop
  | .consumeAcks .start _ => False
  | pc => PastStart pc

@[simp] def Ended : ManagerPc W T → Prop
  | .waitAck .finish _ | .consumeAcks .finish _ | .stopWorkers _ | .finished => True
  | .setError phase | .raising phase | .dead phase => phase = .ending
  | _ => False

@[simp] def PastFinish : ManagerPc W T → Prop
  | .consumeAcks .finish _ | .stopWorkers _ | .finished => True
  | _ => False

@[simp] def Active : ManagerPc W T → Prop
  | .getStat | .flushall | .setInit => False
  | _ => True

/-- The values that `EXP_STAT_KEY` can have at a control point of the manager. -/
def statsOf : ManagerPc W T → List Stat
  | .getStat | .flushall | .setInit => []
  | .startWorkers _ | .waitAck .start _ | .consumeAcks .start _ | .hdelConfig | .assertNoConfig
  | .setRunning | .setError .starting => [.INIT]
  | .checkHealth _ | .waitHealth _ _ _ | .setError .running => [.RUNNING]
  | .setEnd => [.RUNNING, .ERROR]
  | .waitAck .finish _ | .consumeAcks .finish _ | .stopWorkers _ | .finished
  | .setError .ending => [.END]
  | .raising _ | .dead _ => [.ERROR]

/-- The contents of `EXP_CONFIG_GROUP` at a control point of the manager. -/
def configOf (p : Params W T) : ManagerPc W T → List (T × String)
  | .waitAck .start _ | .consumeAcks .start _ | .hdelConfig | .setError .starting
  | .raising .starting | .dead .starting => [(p.expStartTime, p.configFile)]
  | _ => []

def TableOk (p : Params W T) : ManagerPc W T → List W → Prop
  | .getStat, table | .flushall, table | .setInit, table => table = []
  | .startWorkers rest, table => table ++ rest = p.workers
  | _, table => table = p.workers

def Leaving (wk : Worker T) : Prop :=
  done wk = 6 ∨ ∃ t configFile rest, wk.pc = .runExp .ackEnd t configFile rest

structure WorkerOk (p : Params W T) (s : State W T) (w : W) : Prop where
  trace : (s.worker w).trace <+: lifetime p
  pc : At p (s.worker w).pc (done (s.worker w))
  present : (s.worker w).pc ≠ .absent → w ∈ s.workerTable
  leaving : Leaving (s.worker w) → Ended s.manager

structure Inv (p : Params W T) (s : State W T) : Prop where
  stat : Active s.manager → ∃ stat ∈ statsOf s.manager, s.redis.expStat = some stat
  config : ¬ Stale s.manager → s.redis.config = configOf p s.manager
  table : TableOk p s.manager s.workerTable
  acked : PastStart s.manager → ∀ w ∈ s.workerTable, 3 ≤ done (s.worker w)
  ended : PastFinish s.manager → ∀ w ∈ s.workerTable, done (s.worker w) = 6
  consuming : ∀ barrier rest, s.manager = .consumeAcks barrier rest →
    keys s.redis.ack ⊆ keys rest
  cleared : Cleared s.manager → ∀ w ∈ keys s.redis.ack, done (s.worker w) = 6
  ackedBy : ¬ Stale s.manager → ∀ w ∈ keys s.redis.ack, 3 ≤ done (s.worker w)
  worker : ∀ w, WorkerOk p s w
  stopping : ∀ w ∈ s.stopping, done (s.worker w) = 6
  toStop : ∀ rest, s.manager = .stopWorkers rest → rest ⊆ s.workerTable

variable {p : Params W T} {s : State W T} {w : W}

theorem inv_initial (h : Initial s) : Inv p s := by
  obtain ⟨hpc, htable, hstop, hworker⟩ := h
  refine ⟨?_, ?_, ?_, ?_, ?_, ?_, ?_, ?_, fun w => ⟨?_, ?_, ?_, ?_⟩, ?_, ?_⟩
  · rw [hpc]; exact False.elim
  · rw [hpc]; exact fun hn => absurd trivial hn
  · rw [hpc, htable]; rfl
  · rw [hpc]; exact False.elim
  · rw [hpc]; exact False.elim
  · intro barrier rest he
    rw [hpc] at he
    cases he
  · rw [hpc]; exact False.elim
  · rw [hpc]; exact fun hn => absurd trivial hn
  · rw [hworker]; exact List.nil_prefix
  · rw [hworker]; rfl
  · rw [hworker]; exact fun hn => absurd rfl hn
  · rw [hworker]
    rintro (hd | ⟨t, configFile, rest, he⟩)
    · cases hd
    · cases he
  · rw [hstop]
    intro w hw
    cases hw
  · intro rest he
    rw [hpc] at he
    cases he

theorem pastStart_of_cleared {pc : ManagerPc W T} (h : Cleared pc) : PastStart pc := by
  cases pc with
  | consumeAcks barrier rest => trivial
  | _ => exact h

section ManagerPc

variable {pc : ManagerPc W T}

theorem active_of_mem {table : List W} (ht : TableOk p pc table) (hw : w ∈ table) : Active pc := by
  cases pc <;> first | trivial | (rw [show table = [] from ht] at hw; cases hw)

theorem not_stale_of_active (ha : Active pc) : ¬ Stale pc := by
  cases pc <;> first | exact id | exact ha.elim

theorem configOf_cases (p : Params W T) (pc : ManagerPc W T) :
    configOf p pc = [] ∨ configOf p pc = [(p.expStartTime, p.configFile)] := by
  unfold configOf
  split <;> simp

theorem configOf_of_ended (he : Ended pc) : configOf p pc = [] := by
  unfold configOf
  split <;> first | rfl | cases he

theorem ended_of_stat (h : Stat.END ∈ statsOf pc) : Ended pc := by
  unfold statsOf at h
  split at h <;> trivial

theorem pastStart_of_stat (h : Stat.RUNNING ∈ statsOf pc) : PastStart pc := by
  unfold statsOf at h
  split at h <;> first | trivial | exact Phase.noConfusion

theorem pastStart_of_ended (h : Ended pc) : PastStart pc := by
  unfold Ended at h
  split at h <;> first | trivial | (subst h; exact Phase.noConfusion)

end ManagerPc

end DistExp.ExperimentInvariant
