import DistExp.Library.FieldMap

namespace DistExp.Experiment

open DistExp.Library.FieldMap

inductive Stat where
  | INIT
  | RUNNING
  | END
  | ERROR
  deriving DecidableEq

/-- What one experiment is run with. `ackTimeoutRound` is `ack_timeout // ack_wait_interval`. -/
structure Params (W T : Type) where
  workers : List W
  distinct : workers.Nodup
  expStartTime : T
  configFile : String
  ackTimeoutRound : Nat
  healthMissToleration : Nat

/-- The keys that the processes share. A health report is kept by its timestamp alone. -/
structure Redis (W T : Type) where
  expStat : Option Stat
  config : List (T × String)
  ack : List (W × T)
  health : List (W × Int)

inductive Barrier where
  | start
  | finish
  deriving DecidableEq

inductive Phase where
  | starting
  | running
  | ending
  deriving DecidableEq

def Barrier.phase : Barrier → Phase
  | .start => .starting
  | .finish => .ending

/-- The control points of the manager, each in front of a Redis command or of a choice. -/
inductive ManagerPc (W T : Type) where
  | getStat
  | flushall
  | setInit
  | startWorkers (rest : List W)
  | waitAck (barrier : Barrier) (round : Nat)
  | consumeAcks (barrier : Barrier) (rest : List (W × T))
  | hdelConfig
  | assertNoConfig
  | setRunning
  | checkHealth (rest : List W)
  | waitHealth (worker : W) (rest : List W) (round : Nat)
  | setEnd
  | stopWorkers (rest : List W)
  | finished
  | setError (phase : Phase)
  | raising (phase : Phase)
  | dead (phase : Phase)

inductive Exit where
  | notImplementedError
  | assertionError
  | runtimeError
  | exitZero
  | stopped
  deriving DecidableEq

/-- The control points of `worker_run_exp`. -/
inductive RunPc where
  | launch
  | ackInit
  | waitInit
  | assertRunning
  | checkRunning
  | reportHealth
  | kill
  | close
  | getStat
  | ackEnd
  deriving DecidableEq

/-- The control points of a worker. The entries are those `hscan_iter` still has to yield. -/
inductive WorkerPc (T : Type) where
  | absent
  | hlenConfig
  | scanConfig
  | nextConfig (rest : List (T × String))
  | runExp (pc : RunPc) (expStartTime : T) (configFile : String) (rest : List (T × String))
  | terminated (exit : Exit)
  deriving DecidableEq

/-- What a worker does besides reading: recorded for the statements only. -/
inductive Action (T : Type) where
  | enter (expStartTime : T)
  | launch (expStartTime : T) (configFile : String)
  | ackInit (expStartTime : T)
  | kill (expStartTime : T)
  | close (expStartTime : T)
  | ackEnd (expStartTime : T)
  deriving DecidableEq

structure Worker (T : Type) where
  pc : WorkerPc T
  trace : List (Action T)

structure HealthInfo where
  missCnt : Nat
  lastReportTs : Int

/-- The manager, its tables, Redis, the workers, and those whose screen is being killed. -/
structure State (W T : Type) where
  manager : ManagerPc W T
  workerTable : List W
  healthInfo : W → HealthInfo
  redis : Redis W T
  worker : W → Worker T
  stopping : List W

/-- A step of a process. `now` is what the process reads off the clock, if it does. -/
inductive Label (W : Type) where
  | manager (now : Int)
  | consume (worker : W)
  | interrupt
  | spawn (worker : W)
  | worker (worker : W) (now : Int)
  | stopped (worker : W)

variable {W T : Type} [DecidableEq W] [DecidableEq T]

def Initial (s : State W T) : Prop :=
  s.manager = .getStat ∧ s.workerTable = [] ∧ s.stopping = [] ∧ ∀ w, s.worker w = ⟨.absent, []⟩

/-- The rest of a round of `manager_check_health` once a report is there. -/
def noteReport (p : Params W T) (s : State W T) (w : W) (rest : List W) (reportTs : Int) :
    State W T :=
  let info := s.healthInfo w
  if reportTs ≤ info.lastReportTs then
    let missCnt := info.missCnt + 1
    { s with
      healthInfo := Function.update s.healthInfo w { info with missCnt := missCnt }
      manager := if missCnt > p.healthMissToleration then .setError .running else .checkHealth rest }
  else
    { s with
      healthInfo := Function.update s.healthInfo w ⟨0, reportTs⟩
      manager := .checkHealth rest }

def afterAcks (s : State W T) : Barrier → ManagerPc W T
  | .start => .hdelConfig
  | .finish => .stopWorkers s.workerTable

def managerStep (p : Params W T) (s : State W T) (now : Int) : Option (State W T) :=
  match s.manager with
  | .getStat => some { s with manager := .flushall }
  | .flushall => some { s with
      redis := ⟨none, [], [], []⟩
      workerTable := []
      manager := .setInit }
  | .setInit => some { s with
      redis := { s.redis with expStat := some .INIT }
      manager := .startWorkers p.workers }
  | .startWorkers (w :: rest) => some { s with
      workerTable := s.workerTable ++ [w]
      healthInfo := Function.update s.healthInfo w ⟨0, now⟩
      manager := .startWorkers rest }
  | .startWorkers [] => some { s with
      redis := { s.redis with config := hset s.redis.config p.expStartTime p.configFile }
      manager := .waitAck .start 0 }
  | .waitAck barrier round =>
      if hlen s.redis.ack = s.workerTable.length then
        if keys s.redis.ack ⊆ s.workerTable ∧ s.workerTable ⊆ keys s.redis.ack then
          some { s with manager := .consumeAcks barrier s.redis.ack }
        else some { s with manager := .setError barrier.phase }
      else if round + 1 > p.ackTimeoutRound then
        some { s with manager := .setError barrier.phase }
      else some { s with manager := .waitAck barrier (round + 1) }
  | .consumeAcks barrier [] =>
      if hlen s.redis.ack = 0 then some { s with manager := afterAcks s barrier }
      else some { s with manager := .dead barrier.phase }
  | .consumeAcks _ (_ :: _) => none
  | .hdelConfig => some { s with
      redis := { s.redis with config := hdel s.redis.config p.expStartTime }
      manager := .assertNoConfig }
  | .assertNoConfig =>
      if hlen s.redis.config = 0 then some { s with manager := .setRunning }
      else some { s with manager := .dead .starting }
  | .setRunning => some { s with
      redis := { s.redis with expStat := some .RUNNING }
      manager := .checkHealth s.workerTable }
  | .checkHealth [] => some { s with manager := .checkHealth s.workerTable }
  | .checkHealth (w :: rest) =>
      match hget s.redis.health w with
      | none => some { s with manager := .waitHealth w rest 0 }
      | some reportTs => some (noteReport p s w rest reportTs)
  | .waitHealth w rest round =>
      if round + 1 > 10 then some { s with manager := .setError .running }
      else
        match hget s.redis.health w with
        | none => some { s with manager := .waitHealth w rest (round + 1) }
        | some reportTs => some (noteReport p s w rest reportTs)
  | .setEnd => some { s with
      redis := { s.redis with expStat := some .END }
      manager := .waitAck .finish 0 }
  | .stopWorkers (w :: rest) => some { s with
      stopping := w :: s.stopping
      manager := .stopWorkers rest }
  | .stopWorkers [] => some { s with manager := .finished }
  | .setError phase => some { s with
      redis := { s.redis with expStat := some .ERROR }
      manager := .raising phase }
  | .raising phase => some { s with manager := .dead phase }
  | .finished => none
  | .dead _ => none

def consumeStep (p : Params W T) (s : State W T) (w : W) : Option (State W T) :=
  match s.manager with
  | .consumeAcks barrier rest =>
    match hget rest w with
    | none => none
    | some ackTimestamp =>
      if ackTimestamp ≠ p.expStartTime then some { s with manager := .setError barrier.phase }
      else some { s with
        redis := { s.redis with ack := hdel s.redis.ack w }
        manager := .consumeAcks barrier (hdel rest w) }
  | _ => none

/-- A `KeyboardInterrupt` anywhere in the health loop, also while it aborts. -/
def interruptStep (s : State W T) : Option (State W T) :=
  match s.manager with
  | .checkHealth _ => some { s with manager := .setEnd }
  | .waitHealth _ _ _ => some { s with manager := .setEnd }
  | .setError .running => some { s with manager := .setEnd }
  | .raising .running => some { s with manager := .setEnd }
  | _ => none

def runExpStep (w : W) (r : Redis W T) (trace : List (Action T)) (now : Int) (pc : RunPc)
    (t : T) (configFile : String) (rest : List (T × String)) : Redis W T × Worker T :=
  match pc with
  | .launch => (r, ⟨.runExp .ackInit t configFile rest, trace ++ [.launch t configFile]⟩)
  | .ackInit =>
      ({ r with ack := hset r.ack w t }, ⟨.runExp .waitInit t configFile rest, trace ++ [.ackInit t]⟩)
  | .waitInit =>
      if r.expStat = some .INIT then (r, ⟨.runExp .waitInit t configFile rest, trace⟩)
      else (r, ⟨.runExp .assertRunning t configFile rest, trace⟩)
  | .assertRunning =>
      if r.expStat = some .RUNNING then (r, ⟨.runExp .checkRunning t configFile rest, trace⟩)
      else (r, ⟨.terminated .assertionError, trace⟩)
  | .checkRunning =>
      match r.expStat with
      | none => (r, ⟨.terminated .runtimeError, trace⟩)
      | some stat =>
        if stat = .RUNNING then (r, ⟨.runExp .reportHealth t configFile rest, trace⟩)
        else (r, ⟨.runExp .kill t configFile rest, trace⟩)
  | .reportHealth =>
      ({ r with health := hset r.health w now }, ⟨.runExp .checkRunning t configFile rest, trace⟩)
  | .kill => (r, ⟨.runExp .close t configFile rest, trace ++ [.kill t]⟩)
  | .close => (r, ⟨.runExp .getStat t configFile rest, trace ++ [.close t]⟩)
  | .getStat =>
      if r.expStat = some .END then (r, ⟨.runExp .ackEnd t configFile rest, trace⟩)
      else (r, ⟨.terminated .exitZero, trace⟩)
  | .ackEnd => ({ r with ack := hset r.ack w t }, ⟨.nextConfig rest, trace ++ [.ackEnd t]⟩)

def workerStep (w : W) (r : Redis W T) (wk : Worker T) (now : Int) :
    Option (Redis W T × Worker T) :=
  match wk.pc with
  | .absent => none
  | .hlenConfig =>
      if hlen r.config = 0 then some (r, wk)
      else if hlen r.config = 1 then some (r, { wk with pc := .scanConfig })
      else some (r, { wk with pc := .terminated .notImplementedError })
  | .scanConfig => some (r, { wk with pc := .nextConfig r.config })
  | .nextConfig [] => some (r, { wk with pc := .hlenConfig })
  | .nextConfig ((t, configFile) :: rest) =>
      some (r, ⟨.runExp .launch t configFile rest, wk.trace ++ [.enter t]⟩)
  | .runExp pc t configFile rest => some (runExpStep w r wk.trace now pc t configFile rest)
  | .terminated _ => none

def State.setWorker (s : State W T) (w : W) (wk : Worker T) : State W T :=
  { s with worker := Function.update s.worker w wk }

def step (p : Params W T) (s : State W T) : Label W → Option (State W T)
  | .manager now => managerStep p s now
  | .consume w => consumeStep p s w
  | .interrupt => interruptStep s
  | .spawn w =>
      if w ∈ s.workerTable ∧ (s.worker w).pc = .absent then
        some (s.setWorker w { s.worker w with pc := .hlenConfig })
      else none
  | .worker w now =>
      match workerStep w s.redis (s.worker w) now with
      | none => none
      | some (r, wk) => some ({ s with redis := r }.setWorker w wk)
  | .stopped w =>
      match (s.worker w).pc with
      | .absent => none
      | .terminated _ => none
      | _ =>
        if w ∈ s.stopping then some (s.setWorker w { s.worker w with pc := .terminated .stopped })
        else none

end DistExp.Experiment
