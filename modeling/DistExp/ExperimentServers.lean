import DistExp.ExperimentExits

namespace DistExp.ExperimentServers

open DistExp.Library.Runs DistExp.Experiment DistExp.ExperimentInvariant DistExp.ExperimentRuns
  DistExp.ExperimentExits

variable {W T : Type} [DecidableEq W] [DecidableEq T] {p : Params W T} {init s s' last : State W T}
  {l : Label W} {ops : List (Label W)} {w : W}

def ServersKilled (wk : Worker T) : Prop :=
  ∀ t configFile, .launch t configFile ∈ wk.trace → [.launch t configFile, .kill t].Sublist wk.trace

def NoServerLeft (s : State W T) : Prop :=
  ∀ w exit, (s.worker w).pc = .terminated exit → ServersKilled (s.worker w)

/-- If the step is the assertion of a worker, the experiment is running. -/
def AssertsRunning (s : State W T) : Label W → Prop
  | .worker w _ => atAssertion (s.worker w) = true → s.redis.expStat = some .RUNNING
  | _ => True

instance (s : State W T) : DecidablePred (AssertsRunning s)
  | .worker w _ => inferInstanceAs (Decidable (atAssertion (s.worker w) = true → _))
  | .manager _ | .consume _ | .interrupt | .spawn _ | .stopped _ => .isTrue trivial

omit [DecidableEq W] [DecidableEq T] in
theorem serversKilled_of_done {wk : Worker T} (h : wk.trace <+: lifetime p)
    (hd : done wk = 0 ∨ 4 ≤ done wk) : ServersKilled wk := by
  intro t configFile hlaunch
  obtain hd | hd := hd
  · rw [List.length_eq_zero_iff.mp hd] at hlaunch
    cases hlaunch
  · obtain ⟨rfl, rfl⟩ : t = p.expStartTime ∧ configFile = p.configFile := by
      simpa [lifetime] using h.subset hlaunch
    have hfour : (lifetime p).take 4 <+: wk.trace :=
      List.prefix_of_prefix_length_le (List.take_prefix 4 _) h hd
    exact .trans (.cons _ (.cons_cons _ (.cons _ (.cons_cons _ .slnil)))) hfour.sublist

omit [DecidableEq W] [DecidableEq T] in
theorem not_serversKilled_of_done {wk : Worker T} (h : wk.trace <+: lifetime p)
    (hd : done wk = 3) : ¬ ServersKilled wk := by
  have htrace : wk.trace = (lifetime p).take 3 := by
    rw [List.prefix_iff_eq_take.mp h]
    exact congrArg ((lifetime p).take ·) hd
  intro hkilled
  have hsub := hkilled p.expStartTime p.configFile (by simp [htrace, lifetime])
  have hkill := hsub.subset (List.mem_cons_of_mem _ List.mem_cons_self)
  rw [htrace] at hkill
  simp [lifetime] at hkill

theorem noServerLeft_step (h : Inv p s) (hsafe : NoServerLeft s) (hl : AssertsRunning s l)
    (hstep : step p s l = some s') : NoServerLeft s' := by
  intro w exit hexit
  have hmove := worker_moves hstep w
  generalize s'.worker w = wk at hmove hexit ⊢
  cases hmove with
  | still => exact hsafe w exit hexit
  | moves label hworker =>
    subst label
    obtain ⟨htrace, ⟨hat, hne⟩ | ⟨-, hfive⟩⟩ := exits h hworker hexit
    · exact absurd (hl hat) hne
    · refine serversKilled_of_done (p := p) ?_ (Or.inr ?_)
      · rw [htrace]
        exact (h.worker w).trace
      · rw [done, htrace]
        exact (by decide : 4 ≤ 5).trans hfive.ge
  | spawned => cases hexit
  | stopped hmem =>
    have hsix := h.stopping w hmem
    exact serversKilled_of_done (h.worker w).trace (Or.inr ((by decide : 4 ≤ 6).trans hsix.ge))

theorem server_left_of_assertion (h : Inv p s) (hl : ¬ AssertsRunning s l)
    (hstep : step p s l = some s') : ¬ NoServerLeft s' := by
  cases l with
  | worker w now =>
    obtain ⟨hat, hne⟩ := Classical.not_imp.mp hl
    rw [assertion_fails hat hne] at hstep
    cases hstep
    obtain ⟨t, configFile, rest, hpc⟩ := exists_of_atAssertion hat
    have hwok := h.worker w
    have hthree := hwok.pc
    rw [hpc] at hthree
    intro hsafe
    have hkilled := hsafe w .assertionError (by rw [ExperimentWorker.setWorker_same])
    rw [ExperimentWorker.setWorker_same] at hkilled
    exact not_serversKilled_of_done hwok.trace hthree.2.2.2 hkilled
  | _ => exact absurd trivial hl

/-- Along a run no worker ends with its server left running exactly when no worker asserts while
`EXP_STAT_KEY` is not `RUNNING`: every other way out of `worker_run_exp` comes after the kill. -/
theorem servers_killed_iff (hinit : Initial init) (hrun : ops.foldlM (step p) init = some last) :
    (∀ s, Passes (step p) init ops s → NoServerLeft s) ↔
      EachStep (step p) AssertsRunning init ops := by
  refine safe_iff_eachStep (I := fun s => Inv p s ∧ NoServerLeft s) (fun _ h => h.2)
    (fun s l s' h hl hs => ⟨inv_step h.1 hs, noServerLeft_step h.1 h.2 hl hs⟩)
    (fun s l s' h hl hs => server_left_of_assertion h.1 hl hs) ⟨inv_initial hinit, ?_⟩ hrun
  intro w exit hexit
  rw [hinit.2.2.2 w] at hexit
  cases hexit

theorem servers_killed_iff_complete :
    EachStep (step sample) AssertsRunning sampleInit completeRun ∧
      ∀ s, Passes (step sample) sampleInit completeRun s → NoServerLeft s := by
  obtain ⟨last, hlast⟩ : ∃ s, completeRun.foldlM (step sample) sampleInit = some s := ⟨_, rfl⟩
  have hruns : EachStep (step sample) AssertsRunning sampleInit completeRun := by decide +kernel
  exact ⟨hruns, (servers_killed_iff initial_sample hlast).mpr hruns⟩

def abortedRun : List (Label Nat) :=
  managerSteps 6 ++ [.spawn 0] ++ workerSteps 0 5 ++ managerSteps 5 ++ workerSteps 0 2

theorem server_left_after_abort :
    ∃ s, abortedRun.foldlM (step sample) sampleInit = some s ∧
      s.redis.expStat = some .ERROR ∧ (s.worker 0).pc = .terminated .assertionError ∧
      .launch 7 "configs/config_7.json" ∈ (s.worker 0).trace ∧ .kill 7 ∉ (s.worker 0).trace ∧
      ¬ NoServerLeft s := by
  obtain ⟨s, hs, hstat, hpc, htrace⟩ : ∃ s, abortedRun.foldlM (step sample) sampleInit = some s ∧
      s.redis.expStat = some .ERROR ∧ (s.worker 0).pc = .terminated .assertionError ∧
      (s.worker 0).trace = [.enter 7, .launch 7 "configs/config_7.json", .ackInit 7] :=
    ⟨_, rfl, rfl, rfl, rfl⟩
  have hlaunch : .launch 7 "configs/config_7.json" ∈ (s.worker 0).trace := by simp [htrace]
  have hkill : .kill 7 ∉ (s.worker 0).trace := by simp [htrace]
  refine ⟨s, hs, hstat, hpc, hlaunch, hkill, fun hsafe => hkill ?_⟩
  exact (hsafe 0 _ hpc 7 _ hlaunch).subset (List.mem_cons_of_mem _ List.mem_cons_self)

end DistExp.ExperimentServers
