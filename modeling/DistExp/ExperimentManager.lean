import DistExp.ExperimentInvariant

namespace DistExp.ExperimentManager

open DistExp.Library.FieldMap DistExp.Experiment DistExp.ExperimentInvariant

variable {W T : Type} {p : Params W T} {s : State W T} {pc pc' : ManagerPc W T}

section Rule

variable [DecidableEq W] [DecidableEq T]

/-- The steps of the manager: one rule for each way through `manager_start_exp`,
`manager_check_health` and `manager_exp_end`. -/
inductive ManagerRule (p : Params W T) (s : State W T) (now : Int) :
    ManagerPc W T → State W T → Prop
  | getStat : ManagerRule p s now .getStat { s with manager := .flushall }
  | flushall : ManagerRule p s now .flushall
      { s with redis := ⟨none, [], [], []⟩, workerTable := [], manager := .setInit }
  | setInit : ManagerRule p s now .setInit
      { s with
        redis := { s.redis with expStat := some .INIT }
        manager := .startWorkers p.workers }
  | startWorker {w : W} {rest : List W} : ManagerRule p s now (.startWorkers (w :: rest))
      { s with
        workerTable := s.workerTable ++ [w]
        healthInfo := Function.update s.healthInfo w ⟨0, now⟩
        manager := .startWorkers rest }
  | setConfig : ManagerRule p s now (.startWorkers [])
      { s with
        redis := { s.redis with config := hset s.redis.config p.expStartTime p.configFile }
        manager := .waitAck .start 0 }
  | readAcks {barrier : Barrier} {round : Nat}
      (h : keys s.redis.ack ⊆ s.workerTable ∧ s.workerTable ⊆ keys s.redis.ack) :
      ManagerRule p s now (.waitAck barrier round)
        { s with manager := .consumeAcks barrier s.redis.ack }
  | abortAck {barrier : Barrier} {round : Nat} :
      ManagerRule p s now (.waitAck barrier round) { s with manager := .setError barrier.phase }
  | waitAck {barrier : Barrier} {round : Nat} :
      ManagerRule p s now (.waitAck barrier round) { s with manager := .waitAck barrier (round + 1) }
  | afterAcks {barrier : Barrier} (h : hlen s.redis.ack = 0) :
      ManagerRule p s now (.consumeAcks barrier []) { s with manager := afterAcks s barrier }
  | acksLeft {barrier : Barrier} (h : hlen s.redis.ack ≠ 0) :
      ManagerRule p s now (.consumeAcks barrier []) { s with manager := .dead barrier.phase }
  | hdelConfig : ManagerRule p s now .hdelConfig
      { s with
        redis := { s.redis with config := hdel s.redis.config p.expStartTime }
        manager := .assertNoConfig }
  | noConfig (h : hlen s.redis.config = 0) :
      ManagerRule p s now .assertNoConfig { s with manager := .setRunning }
  | configLeft (h : hlen s.redis.config ≠ 0) :
      ManagerRule p s now .assertNoConfig { s with manager := .dead .starting }
  | setRunning : ManagerRule p s now .setRunning
      { s with
        redis := { s.redis with expStat := some .RUNNING }
        manager := .checkHealth s.workerTable }
  | nextRound : ManagerRule p s now (.checkHealth []) { s with manager := .checkHealth s.workerTable }
  | noReport {w : W} {rest : List W} (h : hget s.redis.health w = none) :
      ManagerRule p s now (.checkHealth (w :: rest)) { s with manager := .waitHealth w rest 0 }
  | report {w : W} {rest : List W} {reportTs : Int} (h : hget s.redis.health w = some reportTs) :
      ManagerRule p s now (.checkHealth (w :: rest)) (noteReport p s w rest reportTs)
  | reportLost {w : W} {rest : List W} {round : Nat} :
      ManagerRule p s now (.waitHealth w rest round) { s with manager := .setError .running }
  | waitHealth {w : W} {rest : List W} {round : Nat} (h : hget s.redis.health w = none) :
      ManagerRule p s now (.waitHealth w rest round)
        { s with manager := .waitHealth w rest (round + 1) }
  | lateReport {w : W} {rest : List W} {round : Nat} {reportTs : Int}
      (h : hget s.redis.health w = some reportTs) :
      ManagerRule p s now (.waitHealth w rest round) (noteReport p s w rest reportTs)
  | setEnd : ManagerRule p s now .setEnd
      { s with
        redis := { s.redis with expStat := some .END }
        manager := .waitAck .finish 0 }
  | stopWorker {w : W} {rest : List W} : ManagerRule p s now (.stopWorkers (w :: rest))
      { s with stopping := w :: s.stopping, manager := .stopWorkers rest }
  | stopped : ManagerRule p s now (.stopWorkers []) { s with manager := .finished }
  | setError {phase : Phase} : ManagerRule p s now (.setError phase)
      { s with
        redis := { s.redis with expStat := some .ERROR }
        manager := .raising phase }
  | raising {phase : Phase} :
      ManagerRule p s now (.raising phase) { s with manager := .dead phase }

theorem managerStep_rule {now : Int} {s' : State W T} (hpc : s.manager = pc)
    (hstep : managerStep p s now = some s') : ManagerRule p s now pc s' := by
  rw [managerStep, hpc] at hstep
  cases pc with
  | getStat => cases hstep; exact .getStat
  | flushall => cases hstep; exact .flushall
  | setInit => cases hstep; exact .setInit
  | startWorkers rest =>
    cases rest with
    | nil => cases hstep; exact .setConfig
    | cons w rest => cases hstep; exact .startWorker
  | waitAck barrier round =>
    dsimp only at hstep
    split at hstep
    · split at hstep <;> cases hstep
      · next h => exact .readAcks h
      · exact .abortAck
    · split at hstep <;> cases hstep
      · exact .abortAck
      · exact .waitAck
  | consumeAcks barrier rest =>
    cases rest with
    | nil =>
      dsimp only at hstep
      split at hstep <;> cases hstep
      · next h => exact .afterAcks h
      · next h => exact .acksLeft h
    | cons ack rest => cases hstep
  | hdelConfig => cases hstep; exact .hdelConfig
  | assertNoConfig =>
    dsimp only at hstep
    split at hstep <;> cases hstep
    · next h => exact .noConfig h
    · next h => exact .configLeft h
  | setRunning => cases hstep; exact .setRunning
  | checkHealth rest =>
    cases rest with
    | nil => cases hstep; exact .nextRound
    | cons w rest =>
      dsimp only at hstep
      split at hstep <;> cases hstep
      · next h => exact .noReport h
      · next h => exact .report h
  | waitHealth w rest round =>
    dsimp only at hstep
    split at hstep
    · cases hstep
      exact .reportLost
    · split at hstep <;> cases hstep
      · next h => exact .waitHealth h
      · next h => exact .lateReport h
  | setEnd => cases hstep; exact .setEnd
  | stopWorkers rest =>
    cases rest with
    | nil => cases hstep; exact .stopped
    | cons w rest => cases hstep; exact .stopWorker
  | setError phase => cases hstep; exact .setError
  | raising phase => cases hstep; exact .raising
  | finished => cases hstep
  | dead phase => cases hstep

end Rule

structure Keeps (pc pc' : ManagerPc W T) : Prop where
  start : PastStart pc' → PastStart pc
  finish : PastFinish pc' → PastFinish pc
  cleared : Cleared pc' → Cleared pc
  ended : Ended pc → Ended pc'
  stale : ¬ Stale pc' → ¬ Stale pc
  consuming : ∀ barrier rest, pc' ≠ .consumeAcks barrier rest
  toStop : ∀ rest, pc' ≠ .stopWorkers rest

theorem inv_move (h : Inv p s) (hpc : s.manager = pc) (hk : Keeps pc pc') {stat : Option Stat}
    {config : List (T × String)} {info : W → HealthInfo}
    (hstat : Active pc' → ∃ st ∈ statsOf pc', stat = some st)
    (hconfig : ¬ Stale pc' → config = configOf p pc') (htable : TableOk p pc' s.workerTable) :
    Inv p { s with
      manager := pc'
      redis := { s.redis with expStat := stat, config := config }
      healthInfo := info } := by
  subst hpc
  refine ⟨hstat, hconfig, htable, fun hp => h.acked (hk.start hp), fun hp => h.ended (hk.finish hp),
    fun barrier rest he => absurd he (hk.consuming barrier rest),
    fun hc => h.cleared (hk.cleared hc), fun hn => h.ackedBy (hk.stale hn), fun w => ?_, h.stopping,
    fun rest he => absurd he (hk.toStop rest)⟩
  have hw := h.worker w
  exact ⟨hw.trace, hw.pc, hw.present, fun hl => hk.ended (hw.leaving hl)⟩

theorem inv_goto (h : Inv p s) (hpc : s.manager = pc) (hk : Keeps pc pc') {info : W → HealthInfo}
    (hactive : Active pc) (hstat : statsOf pc ⊆ statsOf pc')
    (hconfig : configOf p pc = configOf p pc')
    (htable : TableOk p pc s.workerTable → TableOk p pc' s.workerTable) :
    Inv p { s with manager := pc', healthInfo := info } := by
  subst hpc
  refine inv_move h rfl hk (fun _ => ?_)
    (fun _ => ?_) (htable h.table)
  · obtain ⟨stat, hs, he⟩ := h.stat hactive
    exact ⟨stat, hstat hs, he⟩
  · rw [← hconfig]
    exact h.config (not_stale_of_active hactive)

theorem inv_pass (h : Inv p s) (hpc : s.manager = pc) (hactive : Active pc)
    (hstat : statsOf pc ⊆ statsOf pc') (hconfig : configOf p pc = configOf p pc')
    (htable : TableOk p pc s.workerTable → TableOk p pc' s.workerTable)
    (hended : Ended pc → Ended pc') {ack : List (W × T)} (hack : keys ack ⊆ keys s.redis.ack)
    (hstart : ∀ w ∈ s.workerTable, 3 ≤ done (s.worker w))
    (hfinish : PastFinish pc' → ∀ w ∈ s.workerTable, done (s.worker w) = 6)
    (hconsuming : ∀ barrier rest, pc' = .consumeAcks barrier rest → keys ack ⊆ keys rest)
    (hcleared : Cleared pc' → ∀ w ∈ keys ack, done (s.worker w) = 6)
    (htoStop : ∀ rest, pc' = .stopWorkers rest → rest ⊆ s.workerTable) :
    Inv p { s with manager := pc', redis := { s.redis with ack := ack } } := by
  subst hpc
  refine ⟨fun _ => ?_, fun _ => ?_, htable h.table, fun _ => hstart, hfinish, hconsuming, hcleared,
    fun _ w hw => h.ackedBy (not_stale_of_active hactive) w (hack hw), fun w => ?_, h.stopping,
    htoStop⟩
  · obtain ⟨stat, hs, he⟩ := h.stat hactive
    exact ⟨stat, hstat hs, he⟩
  · rw [← hconfig]
    exact h.config (not_stale_of_active hactive)
  · have hw := h.worker w
    exact ⟨hw.trace, hw.pc, hw.present, fun hl => hended (hw.leaving hl)⟩

section Setup

theorem inv_flushall (h : Inv p s) (hpc : s.manager = .flushall) :
    Inv p { s with redis := ⟨none, [], [], []⟩, workerTable := [], manager := .setInit } := by
  have htable : s.workerTable = [] := by
    have ht := h.table
    rw [hpc] at ht
    exact ht
  refine ⟨False.elim, fun _ => rfl, rfl, False.elim, False.elim, nofun, False.elim, nofun,
    fun w => ?_, h.stopping, nofun⟩
  have hw := h.worker w
  refine ⟨hw.trace, hw.pc, ?_, fun hl => ?_⟩
  · rw [← htable]
    exact hw.present
  · have he := hw.leaving hl
    rw [hpc] at he
    exact he

theorem inv_startWorker (h : Inv p s) {w : W} {rest : List W} {info : W → HealthInfo}
    (hpc : s.manager = .startWorkers (w :: rest)) :
    Inv p { s with
      workerTable := s.workerTable ++ [w]
      healthInfo := info
      manager := .startWorkers rest } := by
  obtain ⟨hstat, hconfig, htable, -, -, -, -, hacked, hworker, hstopping, -⟩ := h
  rw [hpc] at hstat hconfig htable hacked
  refine ⟨hstat, hconfig, ?_, False.elim, False.elim, nofun, False.elim, hacked, fun w' => ?_,
    hstopping, nofun⟩
  · exact (List.append_assoc _ _ _).trans htable
  · have hw := hworker w'
    refine ⟨hw.trace, hw.pc, fun hn => List.mem_append_left _ (hw.present hn), fun hl => ?_⟩
    have he := hw.leaving hl
    rw [hpc] at he
    exact he

end Setup

section Barrier

variable {barrier : Barrier}

theorem inv_abortAck (h : Inv p s)
    (hpc : (∃ round, s.manager = .waitAck barrier round) ∨
      ∃ rest, s.manager = .consumeAcks barrier rest) :
    Inv p { s with manager := .setError barrier.phase } := by
  rcases hpc with ⟨round, hpc⟩ | ⟨rest, hpc⟩ <;> cases barrier
  all_goals
    refine inv_goto h hpc ?_ trivial (List.Subset.refl _) rfl id
    constructor <;> simp [Barrier.phase]

theorem inv_readAcks (h : Inv p s) {round : Nat} (hpc : s.manager = .waitAck barrier round)
    (hall : s.workerTable ⊆ keys s.redis.ack) :
    Inv p { s with manager := .consumeAcks barrier s.redis.ack } := by
  have hacked : ∀ w ∈ s.workerTable, 3 ≤ done (s.worker w) := by
    intro w hw
    refine h.ackedBy ?_ w (hall hw)
    rw [hpc]
    exact id
  -- an ack seen at the finish barrier is not one of the start barrier: those are deleted
  have hcleared : barrier = .finish → ∀ w ∈ keys s.redis.ack, done (s.worker w) = 6 := by
    rintro rfl
    exact h.cleared (by rw [hpc]; trivial)
  refine inv_pass h hpc trivial ?_ ?_ ?_ ?_ (List.Subset.refl _) hacked ?_ ?_ ?_ nofun
  · cases barrier <;> exact List.Subset.refl _
  · cases barrier <;> rfl
  · cases barrier <;> exact id
  · cases barrier <;> exact id
  · intro hf w hw
    cases barrier with
    | start => exact hf.elim
    | finish => exact hcleared rfl w (hall hw)
  · rintro _ _ ⟨⟩
    exact List.Subset.refl _
  · intro hc
    cases barrier with
    | start => exact hc.elim
    | finish => exact hcleared rfl

theorem inv_afterAcks (h : Inv p s) (hpc : s.manager = .consumeAcks barrier []) :
    s.redis.ack = [] ∧ Inv p { s with manager := afterAcks s barrier } := by
  have hack : s.redis.ack = [] := by
    have hk := List.subset_nil.mp (h.consuming barrier [] hpc)
    exact List.map_eq_nil_iff.mp hk
  have hacked := h.acked (by rw [hpc]; trivial)
  refine ⟨hack, ?_⟩
  refine inv_pass h hpc trivial ?_ ?_ ?_ ?_ (List.Subset.refl _) hacked ?_ ?_ ?_ ?_
  · cases barrier <;> exact List.Subset.refl _
  · cases barrier <;> rfl
  · cases barrier <;> exact id
  · cases barrier <;> exact id
  · cases barrier with
    | start => exact False.elim
    | finish => exact fun _ => h.ended (by rw [hpc]; trivial)
  · cases barrier <;> nofun
  · rw [hack]
    exact fun _ => nofun
  · cases barrier with
    | start => nofun
    | finish =>
      rintro rest ⟨⟩
      exact List.Subset.refl _

theorem inv_stopWorker (h : Inv p s) {w : W} {rest : List W}
    (hpc : s.manager = .stopWorkers (w :: rest)) :
    Inv p { s with stopping := w :: s.stopping, manager := .stopWorkers rest } := by
  have hall : ∀ w ∈ s.workerTable, done (s.worker w) = 6 := h.ended (by rw [hpc]; trivial)
  have hsub := h.toStop (w :: rest) hpc
  obtain ⟨hstat, hconfig, htable, hacked, -, -, hcleared, hackedBy, hworker, hstopping, -⟩ := h
  rw [hpc] at hstat hconfig htable hacked hcleared hackedBy
  refine ⟨hstat, hconfig, htable, hacked, fun _ => hall, nofun, hcleared, hackedBy, fun w' => ?_, ?_,
    ?_⟩
  · have hw := hworker w'
    exact ⟨hw.trace, hw.pc, hw.present, fun _ => trivial⟩
  · intro w' hw'
    obtain rfl | hw' := List.mem_cons.mp hw'
    · exact hall w' (hsub List.mem_cons_self)
    · exact hstopping w' hw'
  · rintro _ ⟨⟩
    exact fun w' hw' => hsub (List.mem_cons_of_mem w hw')

variable [DecidableEq W]

theorem inv_consumeStep [DecidableEq T] (h : Inv p s) {w : W} {s' : State W T}
    (hstep : consumeStep p s w = some s') : Inv p s' := by
  unfold consumeStep at hstep
  split at hstep
  · next barrier rest hpc =>
    have hacked := h.acked (by rw [hpc]; trivial)
    split at hstep
    · cases hstep
    · next ackTimestamp hget =>
      split at hstep <;> cases hstep
      · exact inv_abortAck h (Or.inr ⟨rest, hpc⟩)
      · have hdown : keys (hdel s.redis.ack w) ⊆ keys s.redis.ack :=
          fun w' hw' => (mem_keys_hdel.mp hw').1
        refine inv_pass h hpc trivial ?_ ?_ ?_ ?_ hdown hacked ?_ ?_ ?_ nofun
        · cases barrier <;> exact List.Subset.refl _
        · cases barrier <;> rfl
        · cases barrier <;> exact id
        · cases barrier <;> exact id
        · cases barrier with
          | start => exact False.elim
          | finish => exact fun _ => h.ended (by rw [hpc]; trivial)
        · rintro _ _ ⟨⟩
          intro w' hw'
          obtain ⟨hm, hne⟩ := mem_keys_hdel.mp hw'
          exact mem_keys_hdel.mpr ⟨h.consuming barrier rest hpc hm, hne⟩
        · cases barrier with
          | start => exact False.elim
          | finish => exact fun _ w' hw' => h.cleared (by rw [hpc]; trivial) w' (hdown hw')
  · cases hstep

end Barrier

section Health

def Checking (pc : ManagerPc W T) : Prop :=
  (∃ rest, pc = .checkHealth rest) ∨ ∃ w rest round, pc = .waitHealth w rest round

theorem inv_checkHealth (h : Inv p s) (hpc : Checking s.manager)
    (hpc' : Checking pc' ∨ pc' = .setError .running) {info : W → HealthInfo} :
    Inv p { s with manager := pc', healthInfo := info } := by
  rcases hpc with ⟨rest, hpc⟩ | ⟨w, rest, round, hpc⟩ <;>
    obtain (⟨rest', rfl⟩ | ⟨w', rest', round', rfl⟩) | rfl := hpc'
  all_goals
    refine inv_goto h hpc ?_ trivial (List.Subset.refl _) rfl id
    constructor <;> simp

theorem inv_interruptStep (h : Inv p s) {s' : State W T} (hstep : interruptStep s = some s') :
    Inv p s' := by
  unfold interruptStep at hstep
  split at hstep <;> cases hstep <;> rename_i hpc
  all_goals
    refine inv_goto h hpc ?_ trivial ?_ rfl id
    · constructor <;> simp
    · simp [statsOf]

variable [DecidableEq W]

theorem inv_noteReport (h : Inv p s) {w : W} {rest : List W} (ts : Int) (hpc : Checking s.manager) :
    Inv p (noteReport p s w rest ts) := by
  have hnext : Checking (.checkHealth rest : ManagerPc W T) := Or.inl ⟨rest, rfl⟩
  rw [noteReport]
  split
  · apply inv_checkHealth h hpc
    split
    · exact Or.inr rfl
    · exact Or.inl hnext
  · exact inv_checkHealth h hpc (Or.inl hnext)

end Health

section Step

variable [DecidableEq W] [DecidableEq T]

theorem inv_managerStep (h : Inv p s) {now : Int} {s' : State W T}
    (hstep : managerStep p s now = some s') : Inv p s' := by
  generalize hpc : s.manager = pc
  have htable := h.table
  have hconfig := h.config
  have hstat := h.stat
  rw [hpc] at htable hconfig hstat
  cases managerStep_rule hpc hstep with
  | getStat =>
    refine inv_move h hpc ?_ False.elim (fun hn => absurd trivial hn) htable
    constructor <;> simp
  | flushall => exact inv_flushall h hpc
  | setInit =>
    have hempty : s.workerTable = [] := htable
    refine inv_move h hpc ?_ (fun _ => ⟨_, List.mem_singleton_self _, rfl⟩) (fun _ => hconfig id) ?_
    · constructor <;> simp
    · rw [hempty]
      rfl
  | startWorker => exact inv_startWorker h hpc
  | setConfig =>
    refine inv_move h hpc ?_ (fun _ => hstat trivial) (fun _ => ?_)
      ((List.append_nil _).symm.trans htable)
    · constructor <;> simp
    · rw [hconfig id]
      rfl
  | readAcks hset => exact inv_readAcks h hpc hset.2
  | abortAck => exact inv_abortAck h (Or.inl ⟨_, hpc⟩)
  | @waitAck barrier round =>
    cases barrier
    all_goals
      refine inv_goto h hpc ?_ trivial (List.Subset.refl _) rfl id
      constructor <;> simp
  | afterAcks => exact (inv_afterAcks h hpc).2
  | acksLeft hleft => exact absurd (congrArg List.length (inv_afterAcks h hpc).1) hleft
  | hdelConfig =>
    refine inv_move h hpc ?_ (fun _ => hstat trivial) (fun _ => ?_) htable
    · constructor <;> simp
    · rw [hconfig id]
      simp [configOf, hdel]
  | noConfig =>
    refine inv_goto h hpc ?_ trivial (List.Subset.refl _) rfl id
    constructor <;> simp
  | configLeft hleft =>
    rw [hconfig id] at hleft
    exact absurd rfl hleft
  | setRunning =>
    refine inv_move h hpc ?_ (fun _ => ⟨_, List.mem_singleton_self _, rfl⟩) (fun _ => hconfig id)
      htable
    constructor <;> simp
  | nextRound => exact inv_checkHealth h (Or.inl ⟨_, hpc⟩) (Or.inl (Or.inl ⟨_, rfl⟩))
  | noReport => exact inv_checkHealth h (Or.inl ⟨_, hpc⟩) (Or.inl (Or.inr ⟨_, _, _, rfl⟩))
  | report => exact inv_noteReport h _ (Or.inl ⟨_, hpc⟩)
  | reportLost => exact inv_checkHealth h (Or.inr ⟨_, _, _, hpc⟩) (Or.inr rfl)
  | waitHealth =>
    exact inv_checkHealth h (Or.inr ⟨_, _, _, hpc⟩) (Or.inl (Or.inr ⟨_, _, _, rfl⟩))
  | lateReport => exact inv_noteReport h _ (Or.inr ⟨_, _, _, hpc⟩)
  | setEnd =>
    refine inv_move h hpc ?_ (fun _ => ⟨_, List.mem_singleton_self _, rfl⟩) (fun _ => hconfig id)
      htable
    constructor <;> simp
  | stopWorker => exact inv_stopWorker h hpc
  | stopped =>
    refine inv_goto h hpc ?_ trivial (List.Subset.refl _) rfl id
    constructor <;> simp
  | @setError phase =>
    refine inv_move h hpc ?_ (fun _ => ⟨_, List.mem_singleton_self _, rfl⟩) (fun _ => ?_) htable
    · constructor <;> simp
    · rw [hconfig id]
      cases phase <;> rfl
  | @raising phase =>
    refine inv_goto h hpc ?_ trivial (List.Subset.refl _) ?_ id
    · constructor <;> simp
    · cases phase <;> rfl

end Step

end DistExp.ExperimentManager
