import DistExp.ExperimentRuns

namespace DistExp.ExperimentHealth

open DistExp.Library.FieldMap DistExp.Library.Runs DistExp.Experiment DistExp.ExperimentInvariant
  DistExp.ExperimentRuns

variable {W T : Type} [DecidableEq W] [DecidableEq T]

def reads (s : State W T) : Label W → Option (W × Option Int)
  | .manager _ =>
    match s.manager with
    | .checkHealth (w :: _) => some (w, hget s.redis.health w)
    | .waitHealth w _ round => if round + 1 > 10 then none else some (w, hget s.redis.health w)
    | _ => none
  | _ => none

/-- A step, with the timestamps of all reports that were read for a worker, in which a report is
there and is newer than the one read before it. -/
def liveStep (p : Params W T) (st : State W T × (W → List Int)) (l : Label W) :
    Option (State W T × (W → List Int)) :=
  match step p st.1 l, reads st.1 l with
  | none, _ => none
  | some s, none => some (s, st.2)
  | some _, some (_, none) => none
  | some s, some (w, some reportTs) =>
    if ∀ prev ∈ (st.2 w).getLast?, prev < reportTs then
      some (s, Function.update st.2 w (st.2 w ++ [reportTs]))
    else none

/-- The last report that may still be older than `time` has been read, or is not. -/
def Outruns (p : Params W T) (time : W → Int) (st : State W T × (W → List Int)) (l : Label W) : Prop :=
  ∀ w reportTs, reads st.1 l = some (w, some reportTs) →
    (st.2 w).length = p.healthMissToleration → time w < reportTs

/-- The manager has not called `manager_abort_exp` in `manager_check_health`. -/
def NotAborted (st : State W T × (W → List Int)) : Prop := st.1.manager ≠ .setError .running

variable {p : Params W T} {s s' : State W T} {st st' : State W T × (W → List Int)} {l : Label W}
  {time : W → Int} {w : W}

instance (p : Params W T) (time : W → Int) (st : State W T × (W → List Int)) (l : Label W) :
    Decidable (Outruns p time st l) :=
  match hreads : reads st.1 l with
  | none => .isTrue fun _ _ h => nomatch hreads.symm.trans h
  | some (_, none) => .isTrue fun _ _ h => nomatch hreads.symm.trans h
  | some (w, some reportTs) =>
    decidable_of_iff ((st.2 w).length = p.healthMissToleration → time w < reportTs)
      ⟨fun h _ _ he => by cases hreads.symm.trans he; exact h, fun h => h w reportTs hreads⟩

theorem liveStep_cases (h : liveStep p st l = some st') : step p st.1 l = some st'.1 ∧
    ((reads st.1 l = none ∧ st'.2 = st.2) ∨ ∃ w reportTs, reads st.1 l = some (w, some reportTs) ∧
      (∀ prev ∈ (st.2 w).getLast?, prev < reportTs) ∧
      st'.2 = Function.update st.2 w (st.2 w ++ [reportTs])) := by
  rw [liveStep] at h
  split at h
  · cases h
  · next s hstep hreads =>
    cases h
    exact ⟨hstep, Or.inl ⟨hreads, rfl⟩⟩
  · cases h
  · next s w reportTs hstep hreads =>
    split at h
    · next hnew =>
      cases h
      exact ⟨hstep, Or.inr ⟨w, reportTs, hreads, hnew, rfl⟩⟩
    · cases h

section Start

@[simp] def Starting : ManagerPc W T → Prop
  | .getStat | .flushall | .setInit | .startWorkers _ | .waitAck .start _ | .consumeAcks .start _
  | .hdelConfig | .assertNoConfig | .setRunning => True
  | _ => False

def Fresh (s : State W T) : Prop :=
  Starting s.manager → ∀ w ∈ s.workerTable, (s.healthInfo w).missCnt = 0

omit [DecidableEq W] [DecidableEq T] in
theorem fresh_goto {pc pc' : ManagerPc W T} (h : Fresh s) (hpc : s.manager = pc)
    (hpc' : s'.manager = pc') (htable : s'.workerTable = s.workerTable)
    (hinfo : s'.healthInfo = s.healthInfo) (hstarting : Starting pc' → Starting pc) : Fresh s' := by
  subst hpc hpc'
  rw [Fresh, htable, hinfo]
  exact fun hs => h (hstarting hs)

omit [DecidableEq T] in
theorem fresh_noteReport {rest : List W} {reportTs : Int} :
    Fresh (noteReport p s w rest reportTs) := by
  rw [noteReport]
  split
  · rw [Fresh]
    dsimp only
    split <;> exact False.elim
  · exact False.elim

theorem fresh_managerStep {now : Int} (h : Fresh s) (hstep : managerStep p s now = some s') :
    Fresh s' := by
  generalize hpc : s.manager = pc
  cases ExperimentManager.managerStep_rule hpc hstep with
  | flushall => exact fun _ => nofun
  | @startWorker w rest =>
    rintro - v hv
    dsimp only at hv ⊢
    by_cases hvw : v = w
    · rw [hvw, Function.update_self]
    · rw [Function.update_of_ne hvw]
      obtain hv | hv := List.mem_append.mp hv
      · exact h (by rw [hpc]; trivial) v hv
      · exact absurd (List.mem_singleton.mp hv) hvw
  | @readAcks barrier | @abortAck barrier | @waitAck barrier | @acksLeft barrier =>
    exact fresh_goto h hpc rfl rfl rfl (by cases barrier <;> simp)
  | @afterAcks barrier =>
    exact fresh_goto h hpc rfl rfl rfl (by cases barrier <;> simp [afterAcks])
  | report | lateReport => exact fresh_noteReport
  | getStat | setInit | setConfig | hdelConfig | noConfig | configLeft =>
    exact fresh_goto h hpc rfl rfl rfl fun _ => trivial
  | setRunning | nextRound | noReport | reportLost | waitHealth | setEnd | stopWorker | stopped
  | setError | raising => exact False.elim

theorem fresh_step (h : Fresh s) (hstep : step p s l = some s') : Fresh s' := by
  cases l with
  | manager now => exact fresh_managerStep h hstep
  | consume w =>
    simp only [step, consumeStep] at hstep
    split at hstep
    · next barrier rest hpc =>
      split at hstep
      · cases hstep
      · split at hstep <;> cases hstep <;>
          exact fresh_goto h hpc rfl rfl rfl (by cases barrier <;> simp)
    · cases hstep
  | interrupt =>
    simp only [step, interruptStep] at hstep
    split at hstep <;> cases hstep <;> exact False.elim
  | spawn w =>
    simp only [step] at hstep
    split at hstep <;> cases hstep
    exact fresh_goto h rfl rfl rfl rfl id
  | worker w now =>
    simp only [step] at hstep
    split at hstep <;> cases hstep
    exact fresh_goto h rfl rfl rfl rfl id
  | stopped w =>
    simp only [step] at hstep
    split at hstep
    · cases hstep
    · cases hstep
    · split at hstep <;> cases hstep
      exact fresh_goto h rfl rfl rfl rfl id

theorem loop_starts_fresh {init : State W T} {ops : List (Label W)} {now : Int} (hinit : Initial init)
    (hrun : ops.foldlM (step p) init = some s) (hpc : s.manager = .setRunning)
    (hstep : step p s (.manager now) = some s') : s'.manager = .checkHealth s'.workerTable ∧
      ∀ w ∈ s'.workerTable, (s'.healthInfo w).missCnt = 0 := by
  have hfresh : Fresh s := by
    refine passes_invariant' (fun _ _ _ h hs => fresh_step h hs) ?_ ⟨ops, List.prefix_rfl, hrun⟩
    rintro - w hw
    rw [hinit.2.1] at hw
    cases hw
  have hnone := hfresh (by rw [hpc]; trivial)
  simp only [step, managerStep, hpc, Option.some.injEq] at hstep
  subst hstep
  exact ⟨rfl, hnone⟩

end Start

section Loop

/-- The manager is in its health loop, or in `manager_exp_end`. -/
def Checking (s : State W T) : Prop :=
  (∃ rest, rest ⊆ s.workerTable ∧ s.manager = .checkHealth rest) ∨ s.manager = .setEnd ∨
    Ended s.manager

/-- A step that reads no report leaves the tables of the health loop, and stays in it or ends it. -/
structure Quiet (s s' : State W T) : Prop where
  table : s'.workerTable = s.workerTable
  info : s'.healthInfo = s.healthInfo
  checking : Checking s'

omit [DecidableEq W] [DecidableEq T] in
theorem quiet_of_same (h : Checking s) (htable : s'.workerTable = s.workerTable)
    (hinfo : s'.healthInfo = s.healthInfo) (hmanager : s'.manager = s.manager) : Quiet s s' := by
  refine ⟨htable, hinfo, ?_⟩
  rw [Checking, htable, hmanager]
  exact h

omit [DecidableEq W] [DecidableEq T] in
theorem quiet_of_ended (htable : s'.workerTable = s.workerTable)
    (hinfo : s'.healthInfo = s.healthInfo) (h : Ended s'.manager) : Quiet s s' :=
  ⟨htable, hinfo, Or.inr (Or.inr h)⟩

theorem managerStep_over {now : Int} (h : s.manager = .setEnd ∨ Ended s.manager)
    (hstep : managerStep p s now = some s') : Quiet s s' := by
  generalize hpc : s.manager = pc
  rw [hpc] at h
  cases ExperimentManager.managerStep_rule hpc hstep with
  | @readAcks barrier | @abortAck barrier | @waitAck barrier | @afterAcks barrier
  | @acksLeft barrier =>
    cases barrier with
    | start => exact absurd h (by simp)
    | finish => exact quiet_of_ended rfl rfl (by simp [Barrier.phase, afterAcks])
  | setEnd | stopWorker | stopped => exact quiet_of_ended rfl rfl trivial
  | setError | raising =>
    simp only [reduceCtorEq, false_or] at h
    exact quiet_of_ended rfl rfl h
  | getStat | flushall | setInit | startWorker | setConfig | hdelConfig | noConfig | configLeft
  | setRunning | nextRound | noReport | report | reportLost | waitHealth | lateReport =>
    exact absurd h (by simp)

theorem consumeStep_checking (h : Checking s) (hstep : consumeStep p s w = some s') :
    Quiet s s' := by
  unfold consumeStep at hstep
  split at hstep
  · next barrier rest hpc =>
    simp only [Checking, hpc, reduceCtorEq, and_false, exists_const, false_or] at h
    cases barrier with
    | start => exact absurd h (by simp)
    | finish =>
      split at hstep
      · cases hstep
      · split at hstep <;> cases hstep <;> exact quiet_of_ended rfl rfl (by simp [Barrier.phase])
  · cases hstep

omit [DecidableEq W] [DecidableEq T] in
theorem interruptStep_quiet (hstep : interruptStep s = some s') : Quiet s s' := by
  unfold interruptStep at hstep
  split at hstep <;> cases hstep <;> rename_i hpc
  · exact ⟨rfl, rfl, Or.inr (Or.inl rfl)⟩
  · exact ⟨rfl, rfl, Or.inr (Or.inl rfl)⟩
  · exact ⟨rfl, rfl, Or.inr (Or.inl rfl)⟩
  · exact ⟨rfl, rfl, Or.inr (Or.inl rfl)⟩

theorem managerStep_loop {now : Int} {rest : List W} (hsub : rest ⊆ s.workerTable)
    (hpc : s.manager = .checkHealth rest) (hstep : managerStep p s now = some s') :
    (reads s (.manager now) = none ∧ Quiet s s') ∨ ∃ w rest', w ∈ s.workerTable ∧
      rest' ⊆ s.workerTable ∧ reads s (.manager now) = some (w, hget s.redis.health w) ∧
      ∀ reportTs, hget s.redis.health w = some reportTs → s' = noteReport p s w rest' reportTs := by
  cases ExperimentManager.managerStep_rule hpc hstep with
  | nextRound =>
    exact Or.inl ⟨by rw [reads, hpc], rfl, rfl, Or.inl ⟨_, List.Subset.refl _, rfl⟩⟩
  | @noReport w rest hnone =>
    refine Or.inr ⟨w, rest, hsub List.mem_cons_self, fun v hv => hsub (List.mem_cons_of_mem w hv),
      by rw [reads, hpc], fun reportTs hts => ?_⟩
    cases hnone.symm.trans hts
  | @report w rest ts hsome =>
    refine Or.inr ⟨w, rest, hsub List.mem_cons_self, fun v hv => hsub (List.mem_cons_of_mem w hv),
      by rw [reads, hpc], fun reportTs hts => ?_⟩
    obtain rfl : ts = reportTs := Option.some.inj (hsome.symm.trans hts)
    rfl

theorem step_checking (h : Checking s) (hstep : step p s l = some s') :
    (reads s l = none ∧ Quiet s s') ∨ ∃ w rest, w ∈ s.workerTable ∧ rest ⊆ s.workerTable ∧
      reads s l = some (w, hget s.redis.health w) ∧
      ∀ reportTs, hget s.redis.health w = some reportTs → s' = noteReport p s w rest reportTs := by
  cases l with
  | manager now =>
    obtain ⟨rest, hsub, hpc⟩ | hover := h
    · exact managerStep_loop hsub hpc hstep
    · refine Or.inl ⟨?_, managerStep_over hover hstep⟩
      rw [reads]
      split <;> rename_i hpc
      · simp [hpc] at hover
      · simp [hpc] at hover
      · rfl
  | consume w => exact Or.inl ⟨rfl, consumeStep_checking h hstep⟩
  | interrupt => exact Or.inl ⟨rfl, interruptStep_quiet hstep⟩
  | spawn w =>
    simp only [step] at hstep
    split at hstep <;> cases hstep
    exact Or.inl ⟨rfl, quiet_of_same h rfl rfl rfl⟩
  | worker w now =>
    simp only [step] at hstep
    split at hstep <;> cases hstep
    exact Or.inl ⟨rfl, quiet_of_same h rfl rfl rfl⟩
  | stopped w =>
    simp only [step] at hstep
    split at hstep
    · cases hstep
    · cases hstep
    · split at hstep <;> cases hstep
      exact Or.inl ⟨rfl, quiet_of_same h rfl rfl rfl⟩

end Loop

section Tracking

/-- What the table of the manager says of a worker, from the time it was started at and the reports
that were read since: either none was newer than that time, and each counts as missed, or the last
one is. -/
def Tracked (toleration : Nat) (time : Int) (reports : List Int) (info : HealthInfo) : Prop :=
  (info = ⟨reports.length, time⟩ ∧ reports.length ≤ toleration) ∨
    (reports.getLast? = some info.lastReportTs ∧ time < info.lastReportTs)

structure Followed (p : Params W T) (time : W → Int) (st : State W T × (W → List Int)) : Prop where
  checking : Checking st.1
  tracked : ∀ w ∈ st.1.workerTable,
    Tracked p.healthMissToleration (time w) (st.2 w) (st.1.healthInfo w)

omit [DecidableEq W] [DecidableEq T] in
theorem Followed.notAborted (h : Followed p time st) : NotAborted st := by
  intro hpc
  obtain ⟨rest, -, hrest⟩ | hover := h.checking
  · cases hrest.symm.trans hpc
  · simp [hpc] at hover

variable {toleration : Nat} {start reportTs : Int} {reports : List Int} {rest : List W}

omit [DecidableEq T] in
theorem noteReport_tracked (h : Tracked p.healthMissToleration start reports (s.healthInfo w))
    (hnew : ∀ prev ∈ reports.getLast?, prev < reportTs)
    (hrun : reports.length = p.healthMissToleration → start < reportTs) :
    (noteReport p s w rest reportTs).manager = .checkHealth rest ∧
      Tracked p.healthMissToleration start (reports ++ [reportTs])
        ((noteReport p s w rest reportTs).healthInfo w) := by
  have hnewer (hgt : ¬ reportTs ≤ (s.healthInfo w).lastReportTs) (hstart : start < reportTs) :
      (noteReport p s w rest reportTs).manager = .checkHealth rest ∧
        Tracked p.healthMissToleration start (reports ++ [reportTs])
          ((noteReport p s w rest reportTs).healthInfo w) := by
    rw [noteReport, if_neg hgt]
    refine ⟨rfl, Or.inr ?_⟩
    dsimp only
    rw [Function.update_self]
    exact ⟨List.getLast?_concat, hstart⟩
  obtain ⟨hinfo, hlen⟩ | ⟨hlast, hlt⟩ := h
  · by_cases hle : reportTs ≤ start
    · have hlen' : reports.length < p.healthMissToleration :=
        lt_of_le_of_ne hlen fun heq => absurd (hrun heq) (not_lt.mpr hle)
      have hle' : reportTs ≤ (s.healthInfo w).lastReportTs := by rwa [hinfo]
      rw [noteReport, if_pos hle', hinfo]
      dsimp only
      have hkept : ¬ reports.length + 1 > p.healthMissToleration := by omega
      refine ⟨if_neg hkept, Or.inl ⟨?_, ?_⟩⟩
      · rw [Function.update_self, List.length_append, List.length_singleton]
      · rw [List.length_append, List.length_singleton]
        omega
    · refine hnewer ?_ (not_le.mp hle)
      rwa [hinfo]
  · have hgt := hnew _ hlast
    exact hnewer (not_le.mpr hgt) (hlt.trans hgt)

omit [DecidableEq T] in
theorem noteReport_aborts (h : Tracked p.healthMissToleration start reports (s.healthInfo w))
    (hnew : ∀ prev ∈ reports.getLast?, prev < reportTs)
    (hlen : reports.length = p.healthMissToleration) (hle : reportTs ≤ start) :
    (noteReport p s w rest reportTs).manager = .setError .running := by
  obtain ⟨hinfo, -⟩ | ⟨hlast, hlt⟩ := h
  · have hle' : reportTs ≤ (s.healthInfo w).lastReportTs := by rwa [hinfo]
    rw [noteReport, if_pos hle', hinfo]
    have hover : reports.length + 1 > p.healthMissToleration := by omega
    exact if_pos hover
  · have hgt := hnew _ hlast
    omega

omit [DecidableEq T] in
theorem noteReport_other {v : W} (hv : v ≠ w) :
    (noteReport p s w rest reportTs).healthInfo v = s.healthInfo v := by
  rw [noteReport]
  split <;> exact Function.update_of_ne hv _ _

omit [DecidableEq T] in
theorem noteReport_table : (noteReport p s w rest reportTs).workerTable = s.workerTable := by
  rw [noteReport]
  split <;> rfl

theorem Followed.step (h : Followed p time st) (hrun : Outruns p time st l)
    (hstep : liveStep p st l = some st') : Followed p time st' := by
  obtain ⟨hs, hread⟩ := liveStep_cases hstep
  obtain ⟨hnone, hquiet⟩ | ⟨w, rest, hw, hsub, hw', hnote⟩ := step_checking h.checking hs
  · obtain ⟨-, hlog⟩ | ⟨v, ts, hsome, -⟩ := hread
    · refine ⟨hquiet.checking, fun v hv => ?_⟩
      rw [hquiet.info, hlog]
      exact h.tracked v (hquiet.table ▸ hv)
    · cases hnone.symm.trans hsome
  · obtain ⟨hnone, -⟩ | ⟨v, ts, hsome, hnew, hlog⟩ := hread
    · cases hnone.symm.trans hw'
    · obtain ⟨rfl, hts⟩ := Prod.mk.inj (Option.some.inj (hw'.symm.trans hsome))
      have hs' := hnote ts hts
      obtain ⟨hmanager, htracked⟩ :
          (noteReport p st.1 w rest ts).manager = .checkHealth rest ∧ _ :=
        noteReport_tracked (h.tracked w hw) hnew (hrun w ts hsome)
      refine ⟨Or.inl ⟨rest, ?_, by rw [hs', hmanager]⟩, fun v hv => ?_⟩
      · rw [hs', noteReport_table]
        exact hsub
      · rw [hs'] at hv ⊢
        rw [noteReport_table] at hv
        rw [hlog]
        by_cases hvw : v = w
        · subst hvw
          rw [Function.update_self]
          exact htracked
        · rw [Function.update_of_ne hvw, noteReport_other hvw]
          exact h.tracked v hv

theorem Followed.aborts (h : Followed p time st) (hrun : ¬ Outruns p time st l)
    (hstep : liveStep p st l = some st') : ¬ NotAborted st' := by
  simp only [Outruns, not_forall, not_lt] at hrun
  obtain ⟨w, ts, hreads, hlen, hle⟩ := hrun
  obtain ⟨hs, hread⟩ := liveStep_cases hstep
  obtain ⟨hnone, -⟩ | ⟨v, rest, hv, -, hv', hnote⟩ := step_checking h.checking hs
  · cases hnone.symm.trans hreads
  · obtain ⟨rfl, hts⟩ := Prod.mk.inj (Option.some.inj (hv'.symm.trans hreads))
    obtain ⟨hnone, -⟩ | ⟨v', ts', hsome, hnew, -⟩ := hread
    · cases hnone.symm.trans hv'
    · cases hsome.symm.trans hreads
      rw [NotAborted, hnote ts hts]
      exact not_not.mpr (noteReport_aborts (h.tracked v hv) hnew hlen hle)

end Tracking

/-- A live worker is not declared dead exactly when its clock overtakes the time at which the manager
started it before its misses exceed what is tolerated. -/
theorem live_workers_kept_iff {s₀ : State W T} (hloop : s₀.manager = .checkHealth s₀.workerTable)
    (hfresh : ∀ w ∈ s₀.workerTable, (s₀.healthInfo w).missCnt = 0) {ops : List (Label W)}
    {last : State W T × (W → List Int)}
    (hrun : ops.foldlM (liveStep p) (s₀, fun _ => []) = some last) :
    (∀ st, Passes (liveStep p) (s₀, fun _ => []) ops st → NotAborted st) ↔
      EachStep (liveStep p) (Outruns p fun w => (s₀.healthInfo w).lastReportTs)
        (s₀, fun _ => []) ops := by
  refine safe_iff_eachStep (fun _ h => Followed.notAborted h)
    (fun st l st' h hl hs => Followed.step h hl hs)
    (fun st l st' h hl hs => Followed.aborts h hl hs) ⟨?_, fun w hw => ?_⟩ hrun
  · exact Or.inl ⟨_, List.Subset.refl _, hloop⟩
  · refine Or.inl ⟨?_, Nat.zero_le _⟩
    have hzero := hfresh w hw
    cases hinfo : s₀.healthInfo w with
    | mk missCnt lastReportTs =>
      rw [hinfo] at hzero
      exact congrArg (HealthInfo.mk · lastReportTs) hzero

def lateRun : List (Label Nat) := List.replicate 6 (.manager 100) ++ startingRun.drop 6

def firstRound : State Nat Nat := (lateRun.foldlM (step sample) sampleInit).getD sampleInit

theorem lateRun_starts : lateRun.foldlM (step sample) sampleInit = some firstRound ∧
    firstRound.manager = .checkHealth [0, 1] ∧ firstRound.workerTable = [0, 1] ∧
    firstRound.healthInfo 0 = ⟨0, 100⟩ ∧ firstRound.healthInfo 1 = ⟨0, 100⟩ := ⟨rfl, rfl, rfl, rfl, rfl⟩

def twoRounds (first second : Int) : List (Label Nat) :=
  workerSteps 0 3 ++ [.worker 0 first] ++ workerSteps 1 3 ++ [.worker 1 101] ++ managerSteps 3 ++
    workerSteps 0 1 ++ [.worker 0 second] ++ workerSteps 1 1 ++ [.worker 1 102] ++ managerSteps 2

theorem live_workers_kept_iff_behind :
    lateRun.foldlM (step sample) sampleInit = some firstRound ∧
    (∃ st, (twoRounds 99 101).foldlM (liveStep sample) (firstRound, fun _ => []) = some st) ∧
    ∀ st, Passes (liveStep sample) (firstRound, fun _ => []) (twoRounds 99 101) st →
      NotAborted st := by
  obtain ⟨hrun, hmanager, htable, hzero, hone⟩ := lateRun_starts
  obtain ⟨last, hlast⟩ :
      ∃ st, (twoRounds 99 101).foldlM (liveStep sample) (firstRound, fun _ => []) = some st :=
    ⟨_, rfl⟩
  refine ⟨hrun, ⟨last, hlast⟩, (live_workers_kept_iff (by rw [htable]; exact hmanager) ?_ hlast).mpr
    (by decide +kernel)⟩
  rw [htable]
  rintro w hw
  obtain rfl | rfl : w = 0 ∨ w = 1 := by simpa using hw
  · rw [hzero]
  · rw [hone]

/-- A worker whose clock is behind reports twice, with a newer timestamp each time, and is declared
dead. -/
theorem live_worker_declared_dead : sample.healthMissToleration = 1 ∧
    lateRun.foldlM (step sample) sampleInit = some firstRound ∧
    ∃ st, ((twoRounds 50 55).dropLast).foldlM (liveStep sample) (firstRound, fun _ => []) = some st ∧
      st.2 0 = [50, 55] ∧ ¬ NotAborted st :=
  ⟨rfl, rfl, _, rfl, rfl, fun h => h rfl⟩

end DistExp.ExperimentHealth
