import DistExp.ExperimentInvariant

namespace DistExp.ExperimentWorker

open DistExp.Library.FieldMap DistExp.Experiment DistExp.ExperimentInvariant

variable {W T : Type} [DecidableEq W] {p : Params W T} {s : State W T} {w : W}

omit [DecidableEq W] in
theorem trace_snoc {wk : Worker T} (h : wk.trace <+: lifetime p) {a : Action T}
    (ha : (lifetime p)[done wk]? = some a) : wk.trace ++ [a] <+: lifetime p := by
  have ht : wk.trace = (lifetime p).take (done wk) := List.prefix_iff_eq_take.mp h
  have hn : (lifetime p).take (done wk + 1) = wk.trace ++ [a] := by
    rw [List.take_add_one, ha, ← ht]
    rfl
  rw [← hn]
  exact List.take_prefix _ _

/-- The steps of a worker: one rule for each way through `worker_run` and `worker_run_exp`. -/
inductive WorkerRule (w : W) (r : Redis W T) (trace : List (Action T)) (now : Int) :
    WorkerPc T → Redis W T → Worker T → Prop
  | noConfig (h : hlen r.config = 0) : WorkerRule w r trace now .hlenConfig r ⟨.hlenConfig, trace⟩
  | oneConfig (h : hlen r.config = 1) : WorkerRule w r trace now .hlenConfig r ⟨.scanConfig, trace⟩
  | moreConfigs (h : 1 < hlen r.config) :
      WorkerRule w r trace now .hlenConfig r ⟨.terminated .notImplementedError, trace⟩
  | scan : WorkerRule w r trace now .scanConfig r ⟨.nextConfig r.config, trace⟩
  | scanned : WorkerRule w r trace now (.nextConfig []) r ⟨.hlenConfig, trace⟩
  | enter {t : T} {configFile : String} {rest : List (T × String)} :
      WorkerRule w r trace now (.nextConfig ((t, configFile) :: rest)) r
        ⟨.runExp .launch t configFile rest, trace ++ [.enter t]⟩
  | launch {t : T} {configFile : String} {rest : List (T × String)} :
      WorkerRule w r trace now (.runExp .launch t configFile rest) r
        ⟨.runExp .ackInit t configFile rest, trace ++ [.launch t configFile]⟩
  | ackInit {t : T} {configFile : String} {rest : List (T × String)} :
      WorkerRule w r trace now (.runExp .ackInit t configFile rest)
        { r with ack := hset r.ack w t } ⟨.runExp .waitInit t configFile rest, trace ++ [.ackInit t]⟩
  | stillInit {t : T} {configFile : String} {rest : List (T × String)}
      (h : r.expStat = some .INIT) :
      WorkerRule w r trace now (.runExp .waitInit t configFile rest) r
        ⟨.runExp .waitInit t configFile rest, trace⟩
  | leftInit {t : T} {configFile : String} {rest : List (T × String)}
      (h : r.expStat ≠ some .INIT) :
      WorkerRule w r trace now (.runExp .waitInit t configFile rest) r
        ⟨.runExp .assertRunning t configFile rest, trace⟩
  | asserted {t : T} {configFile : String} {rest : List (T × String)}
      (h : r.expStat = some .RUNNING) :
      WorkerRule w r trace now (.runExp .assertRunning t configFile rest) r
        ⟨.runExp .checkRunning t configFile rest, trace⟩
  | assertionError {t : T} {configFile : String} {rest : List (T × String)}
      (h : r.expStat ≠ some .RUNNING) :
      WorkerRule w r trace now (.runExp .assertRunning t configFile rest) r
        ⟨.terminated .assertionError, trace⟩
  | noStat {t : T} {configFile : String} {rest : List (T × String)} (h : r.expStat = none) :
      WorkerRule w r trace now (.runExp .checkRunning t configFile rest) r
        ⟨.terminated .runtimeError, trace⟩
  | running {t : T} {configFile : String} {rest : List (T × String)}
      (h : r.expStat = some .RUNNING) :
      WorkerRule w r trace now (.runExp .checkRunning t configFile rest) r
        ⟨.runExp .reportHealth t configFile rest, trace⟩
  | notRunning {t : T} {configFile : String} {rest : List (T × String)} {stat : Stat}
      (h : r.expStat = some stat) (hne : stat ≠ .RUNNING) :
      WorkerRule w r trace now (.runExp .checkRunning t configFile rest) r
        ⟨.runExp .kill t configFile rest, trace⟩
  | reportHealth {t : T} {configFile : String} {rest : List (T × String)} :
      WorkerRule w r trace now (.runExp .reportHealth t configFile rest)
        { r with health := hset r.health w now } ⟨.runExp .checkRunning t configFile rest, trace⟩
  | kill {t : T} {configFile : String} {rest : List (T × String)} :
      WorkerRule w r trace now (.runExp .kill t configFile rest) r
        ⟨.runExp .close t configFile rest, trace ++ [.kill t]⟩
  | close {t : T} {configFile : String} {rest : List (T × String)} :
      WorkerRule w r trace now (.runExp .close t configFile rest) r
        ⟨.runExp .getStat t configFile rest, trace ++ [.close t]⟩
  | ended {t : T} {configFile : String} {rest : List (T × String)} (h : r.expStat = some .END) :
      WorkerRule w r trace now (.runExp .getStat t configFile rest) r
        ⟨.runExp .ackEnd t configFile rest, trace⟩
  | exitZero {t : T} {configFile : String} {rest : List (T × String)}
      (h : r.expStat ≠ some .END) :
      WorkerRule w r trace now (.runExp .getStat t configFile rest) r ⟨.terminated .exitZero, trace⟩
  | ackEnd {t : T} {configFile : String} {rest : List (T × String)} :
      WorkerRule w r trace now (.runExp .ackEnd t configFile rest)
        { r with ack := hset r.ack w t } ⟨.nextConfig rest, trace ++ [.ackEnd t]⟩

theorem runExpStep_rule {r r' : Redis W T} {trace : List (Action T)} {now : Int} {pc : RunPc} {t : T}
    {configFile : String} {rest : List (T × String)} {wk' : Worker T}
    (hstep : runExpStep w r trace now pc t configFile rest = (r', wk')) :
    WorkerRule w r trace now (.runExp pc t configFile rest) r' wk' := by
  cases pc with
  | launch => cases hstep; exact .launch
  | ackInit => cases hstep; exact .ackInit
  | waitInit =>
    rw [runExpStep] at hstep
    split at hstep <;> cases hstep
    · next h => exact .stillInit h
    · next h => exact .leftInit h
  | assertRunning =>
    rw [runExpStep] at hstep
    split at hstep <;> cases hstep
    · next h => exact .asserted h
    · next h => exact .assertionError h
  | checkRunning =>
    rw [runExpStep] at hstep
    split at hstep
    · next h =>
      cases hstep
      exact .noStat h
    · next stat h =>
      split at hstep <;> cases hstep
      · next he => exact .running (he ▸ h)
      · next hne => exact .notRunning h hne
  | reportHealth => cases hstep; exact .reportHealth
  | kill => cases hstep; exact .kill
  | close => cases hstep; exact .close
  | getStat =>
    rw [runExpStep] at hstep
    split at hstep <;> cases hstep
    · next h => exact .ended h
    · next h => exact .exitZero h
  | ackEnd => cases hstep; exact .ackEnd

theorem workerStep_rule {r r' : Redis W T} {wk wk' : Worker T} {now : Int}
    (hstep : workerStep w r wk now = some (r', wk')) :
    WorkerRule w r wk.trace now wk.pc r' wk' := by
  obtain ⟨pc, trace⟩ := wk
  cases pc with
  | absent => cases hstep
  | hlenConfig =>
    simp only [workerStep] at hstep
    split at hstep
    · next h =>
      cases hstep
      exact .noConfig h
    · next hzero =>
      split at hstep <;> cases hstep
      · next h => exact .oneConfig h
      · next hone => exact .moreConfigs (by omega)
  | scanConfig => cases hstep; exact .scan
  | nextConfig rest =>
    cases rest with
    | nil => cases hstep; exact .scanned
    | cons e rest => cases hstep; exact .enter
  | runExp pc t configFile rest => exact runExpStep_rule (Option.some.inj hstep)
  | terminated exit => cases hstep

/-- How a step of a worker leaves its acks: as they were, with its ack of the start barrier, or
with its ack of the finish barrier. -/
inductive AckStep (w : W) (ack : List (W × T)) (wk : Worker T) : List (W × T) → Worker T → Prop
  | none {wk' : Worker T} : AckStep w ack wk ack wk'
  | start {t : T} {wk' : Worker T} (before : done wk = 2) (after : done wk' = 3) :
      AckStep w ack wk (hset ack w t) wk'
  | finish {t : T} {wk' : Worker T} (before : done wk = 5) (leaving : Leaving wk)
      (after : done wk' = 6) : AckStep w ack wk (hset ack w t) wk'

structure StepOk (p : Params W T) (w : W) (r : Redis W T) (wk : Worker T) (r' : Redis W T)
    (wk' : Worker T) : Prop where
  expStat : r'.expStat = r.expStat
  config : r'.config = r.config
  trace : wk'.trace <+: lifetime p
  pc : At p wk'.pc (done wk')
  grows : done wk ≤ done wk'
  ack : AckStep w r.ack wk r'.ack wk'
  leaving : Leaving wk' → Leaving wk ∨ r.expStat = some .END

omit [DecidableEq W] in
theorem not_leaving {pc : WorkerPc T} {trace : List (Action T)} (hd : trace.length ≠ 6)
    (hpc : ∀ t configFile rest, pc ≠ .runExp .ackEnd t configFile rest) :
    ¬ Leaving (⟨pc, trace⟩ : Worker T) := by
  rintro (h | ⟨t, configFile, rest, h⟩)
  · exact hd h
  · exact hpc t configFile rest h

theorem stepOk_move {r : Redis W T} {wk : Worker T} {health : List (W × Int)}
    (htrace : wk.trace <+: lifetime p) {pc : WorkerPc T} (hpc : At p pc (done wk))
    (hleaving : (∀ t configFile rest, pc ≠ .runExp .ackEnd t configFile rest) ∨
      r.expStat = some .END) :
    StepOk p w r wk { r with health := health } ⟨pc, wk.trace⟩ := by
  refine ⟨rfl, rfl, htrace, hpc, le_rfl, .none, fun hl => ?_⟩
  obtain hne | hend := hleaving
  · by_contra hn
    exact not_leaving (fun hd => hn (Or.inl (Or.inl hd))) hne hl
  · exact Or.inr hend

theorem stepOk_act {r : Redis W T} {wk : Worker T} (htrace : wk.trace <+: lifetime p)
    {a : Action T} (ha : (lifetime p)[done wk]? = some a) {pc : WorkerPc T}
    (hpc : At p pc (done wk + 1)) (hd : done wk < 5)
    (hne : ∀ t configFile rest, pc ≠ .runExp .ackEnd t configFile rest) :
    StepOk p w r wk r ⟨pc, wk.trace ++ [a]⟩ := by
  have hlen : (wk.trace ++ [a]).length = done wk + 1 := List.length_append
  refine ⟨rfl, rfl, trace_snoc htrace ha, ?_, ?_, .none, fun hl => ?_⟩
  · change At p pc (wk.trace ++ [a]).length
    rw [hlen]
    exact hpc
  · exact (Nat.le_succ _).trans hlen.ge
  · exact absurd hl (not_leaving (by omega) hne)

theorem stepOk_ackInit {r : Redis W T} {wk : Worker T} {configFile : String}
    {rest : List (T × String)} (htrace : wk.trace <+: lifetime p)
    (hpc : At p (.runExp .ackInit p.expStartTime configFile rest) (done wk)) :
    StepOk p w r wk { r with ack := hset r.ack w p.expStartTime }
      ⟨.runExp .waitInit p.expStartTime configFile rest, wk.trace ++ [.ackInit p.expStartTime]⟩ := by
  obtain ⟨-, hfile, hrest, hd⟩ := hpc
  have hlen : (wk.trace ++ [Action.ackInit p.expStartTime]).length = 3 := by
    rw [List.length_append]
    exact congrArg (· + 1) hd
  refine ⟨rfl, rfl, trace_snoc htrace (by rw [hd]; rfl), ⟨rfl, hfile, hrest, hlen⟩, ?_,
    .start hd hlen, fun hl => absurd hl (not_leaving ?_ nofun)⟩
  · exact (hd.le.trans (by decide)).trans hlen.ge
  · exact fun h6 => absurd (hlen.symm.trans h6) (by decide)

theorem stepOk_ackEnd {r : Redis W T} {wk : Worker T} {configFile : String}
    {rest : List (T × String)} (htrace : wk.trace <+: lifetime p)
    (hwk : wk.pc = .runExp .ackEnd p.expStartTime configFile rest) (hpc : At p wk.pc (done wk)) :
    StepOk p w r wk { r with ack := hset r.ack w p.expStartTime }
      ⟨.nextConfig rest, wk.trace ++ [.ackEnd p.expStartTime]⟩ := by
  rw [hwk] at hpc
  obtain ⟨-, -, hrest, hd⟩ := hpc
  have hlen : (wk.trace ++ [Action.ackEnd p.expStartTime]).length = 6 := by
    rw [List.length_append]
    exact congrArg (· + 1) hd
  have hleaving : Leaving wk := Or.inr ⟨_, _, _, hwk⟩
  refine ⟨rfl, rfl, trace_snoc htrace (by rw [hd]; rfl), Or.inr ⟨hlen, hrest⟩, ?_,
    .finish hd hleaving hlen, fun _ => Or.inl hleaving⟩
  exact (hd.le.trans (by decide)).trans hlen.ge

theorem workerRule_ok {r : Redis W T} {wk : Worker T} (htrace : wk.trace <+: lifetime p)
    (hat : At p wk.pc (done wk))
    (hconfig : r.config = [] ∨ r.config = [(p.expStartTime, p.configFile)])
    (hgone : done wk = 6 → r.config = []) {now : Int} {r' : Redis W T} {wk' : Worker T}
    (hrule : WorkerRule w r wk.trace now wk.pc r' wk') : StepOk p w r wk r' wk' := by
  obtain ⟨pc, trace⟩ := wk
  cases hrule with
  | noConfig h => exact stepOk_move htrace hat (Or.inl nofun)
  | oneConfig h =>
    refine stepOk_move htrace ?_ (Or.inl nofun)
    refine hat.resolve_right fun h6 => ?_
    rw [hgone h6] at h
    cases h
  | moreConfigs h => exact stepOk_move htrace trivial (Or.inl nofun)
  | scan => exact stepOk_move htrace (Or.inl ⟨hat, hconfig⟩) (Or.inl nofun)
  | scanned => exact stepOk_move htrace (hat.imp And.left And.left) (Or.inl nofun)
  | enter =>
    obtain ⟨hd, he | he⟩ | ⟨-, he⟩ := hat
    · cases he
    · cases he
      exact stepOk_act htrace (by rw [hd]; rfl) ⟨rfl, rfl, rfl, by rw [hd]; rfl⟩
        (by rw [hd]; decide) nofun
    · cases he
  | launch | kill | close =>
    obtain ⟨rfl, rfl, rfl, hd⟩ := hat
    exact stepOk_act htrace (by rw [hd]; rfl) ⟨rfl, rfl, rfl, by rw [hd]; rfl⟩ (by rw [hd]; decide)
      nofun
  | ackInit =>
    have ht := hat.1
    subst ht
    exact stepOk_ackInit htrace hat
  | ackEnd =>
    have ht := hat.1
    subst ht
    exact stepOk_ackEnd htrace rfl hat
  | stillInit | leftInit | asserted | running | notRunning | reportHealth =>
    obtain ⟨rfl, rfl, rfl, hd⟩ := hat
    exact stepOk_move htrace ⟨rfl, rfl, rfl, hd⟩ (Or.inl nofun)
  | ended h =>
    obtain ⟨rfl, rfl, rfl, hd⟩ := hat
    exact stepOk_move htrace ⟨rfl, rfl, rfl, hd⟩ (Or.inr h)
  | assertionError | noStat | exitZero => exact stepOk_move htrace trivial (Or.inl nofun)

omit [DecidableEq W] in
theorem at_le {wk : Worker T} (h : wk.trace <+: lifetime p) : done wk ≤ 6 := h.length_le

theorem setWorker_same (s : State W T) (w : W) (wk : Worker T) :
    (s.setWorker w wk).worker w = wk := by
  simp [State.setWorker]

theorem setWorker_other (s : State W T) {w w' : W} (hw : w' ≠ w) (wk : Worker T) :
    (s.setWorker w wk).worker w' = s.worker w' := by
  simp [State.setWorker, hw]

theorem StepOk.done_le {r : Redis W T} {wk : Worker T}
    (hok : StepOk p w s.redis (s.worker w) r wk) (w' : W) :
    done (s.worker w') ≤ done (({ s with redis := r }.setWorker w wk).worker w') := by
  by_cases hw : w' = w
  · subst hw
    rw [setWorker_same]
    exact hok.grows
  · rw [setWorker_other _ hw]

theorem StepOk.done_eq_six {r : Redis W T} {wk : Worker T}
    (hok : StepOk p w s.redis (s.worker w) r wk) {w' : W} (h6 : done (s.worker w') = 6) :
    done (({ s with redis := r }.setWorker w wk).worker w') = 6 := by
  have hle := hok.done_le w'
  by_cases hw : w' = w
  · subst hw
    rw [setWorker_same] at hle ⊢
    have hle6 := at_le hok.trace
    omega
  · rw [setWorker_other _ hw]
    exact h6

theorem AckStep.mem_keys {ack ack' : List (W × T)} {wk wk' : Worker T}
    (h : AckStep w ack wk ack' wk') {x : W} (hx : x ∈ keys ack') :
    x ∈ keys ack ∨ x = w ∧ (done wk = 2 ∧ done wk' = 3 ∨
      done wk = 5 ∧ Leaving wk ∧ done wk' = 6) := by
  cases h with
  | none => exact Or.inl hx
  | start before after =>
    exact (mem_keys_hset.mp hx).imp_right fun he => ⟨he, Or.inl ⟨before, after⟩⟩
  | finish before leaving after =>
    exact (mem_keys_hset.mp hx).imp_right fun he => ⟨he, Or.inr ⟨before, leaving, after⟩⟩

theorem workerOk_setWorker (h : Inv p s) (hmem : w ∈ s.workerTable) {r : Redis W T} {wk : Worker T}
    (hok : StepOk p w s.redis (s.worker w) r wk) (w' : W) :
    WorkerOk p ({ s with redis := r }.setWorker w wk) w' := by
  by_cases hw : w' = w
  · subst hw
    refine ⟨?_, ?_, fun _ => hmem, ?_⟩
    · rw [setWorker_same]
      exact hok.trace
    · rw [setWorker_same]
      exact hok.pc
    · rw [setWorker_same]
      intro hl
      obtain hl' | hend := hok.leaving hl
      · exact (h.worker w').leaving hl'
      · obtain ⟨stat, hs, he⟩ := h.stat (active_of_mem h.table hmem)
        cases he.symm.trans hend
        exact ended_of_stat hs
  · have hwok := h.worker w'
    refine ⟨?_, ?_, ?_, ?_⟩
    · rw [setWorker_other _ hw]
      exact hwok.trace
    · rw [setWorker_other _ hw]
      exact hwok.pc
    · rw [setWorker_other _ hw]
      exact hwok.present
    · rw [setWorker_other _ hw]
      exact hwok.leaving

theorem inv_setWorker (h : Inv p s) (hmem : w ∈ s.workerTable) {r : Redis W T} {wk : Worker T}
    (hok : StepOk p w s.redis (s.worker w) r wk) : Inv p ({ s with redis := r }.setWorker w wk) := by
  have hsame := setWorker_same { s with redis := r } w wk
  refine ⟨?_, ?_, h.table, ?_, ?_, ?_, ?_, ?_, workerOk_setWorker h hmem hok, ?_, h.toStop⟩
  · intro ha
    obtain ⟨stat, hs, he⟩ := h.stat ha
    exact ⟨stat, hs, hok.expStat.trans he⟩
  · intro hn
    exact hok.config.trans (h.config hn)
  · exact fun hp w' hw' => (h.acked hp w' hw').trans (hok.done_le w')
  · exact fun hp w' hw' => hok.done_eq_six (h.ended hp w' hw')
  · -- while acks are consumed every worker has acked and none has left
    intro barrier rest hpc w' hw'
    have hpc' : s.manager = .consumeAcks barrier rest := hpc
    obtain hold | ⟨rfl, ⟨before, -⟩ | ⟨before, leaving, -⟩⟩ := hok.ack.mem_keys hw'
    · exact h.consuming barrier rest hpc hold
    · have hthree := h.acked (by rw [hpc']; trivial) w' hmem
      omega
    · have hended := (h.worker w').leaving leaving
      rw [hpc'] at hended
      cases barrier with
      | start => exact hended.elim
      | finish =>
        have hsix := h.ended (by rw [hpc']; trivial) w' hmem
        omega
  · intro hc w' hw'
    obtain hold | ⟨rfl, ⟨before, -⟩ | ⟨-, -, after⟩⟩ := hok.ack.mem_keys hw'
    · exact hok.done_eq_six (h.cleared hc w' hold)
    · have hthree := h.acked (pastStart_of_cleared hc) w' hmem
      omega
    · rw [hsame]
      exact after
  · intro hn w' hw'
    obtain hold | ⟨rfl, ⟨-, after⟩ | ⟨-, -, after⟩⟩ := hok.ack.mem_keys hw'
    · exact (h.ackedBy hn w' hold).trans (hok.done_le w')
    · rw [hsame]
      exact after.ge
    · rw [hsame, after]
      decide
  · exact fun w' hw' => hok.done_eq_six (h.stopping w' hw')

theorem inv_worker (h : Inv p s) {now : Int} {r : Redis W T} {wk : Worker T}
    (hstep : workerStep w s.redis (s.worker w) now = some (r, wk)) :
    w ∈ s.workerTable ∧ StepOk p w s.redis (s.worker w) r wk := by
  have hwok := h.worker w
  have hpresent : (s.worker w).pc ≠ .absent := by
    intro he
    rw [workerStep, he] at hstep
    cases hstep
  have hmem := hwok.present hpresent
  have hconfig := h.config (not_stale_of_active (active_of_mem h.table hmem))
  refine ⟨hmem, workerRule_ok hwok.trace hwok.pc ?_ (fun h6 => ?_) (workerStep_rule hstep)⟩
  · rw [hconfig]
    exact configOf_cases p s.manager
  · rw [hconfig]
    exact configOf_of_ended (hwok.leaving (Or.inl h6))

theorem inv_setPc (h : Inv p s) (hmem : w ∈ s.workerTable) {pc : WorkerPc T}
    (hat : At p pc (done (s.worker w)))
    (hne : ∀ t configFile rest, pc ≠ .runExp .ackEnd t configFile rest) :
    Inv p (s.setWorker w { s.worker w with pc := pc }) :=
  inv_setWorker (r := s.redis) h hmem (stepOk_move (h.worker w).trace hat (Or.inl hne))

end DistExp.ExperimentWorker
