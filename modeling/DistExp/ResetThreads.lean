import DistExp.RangeCalls

namespace DistExp.ResetThreads

open DistExp.Library.Runs DistExp.Library.CallTree
open DistExp.PackedTable DistExp.RangeSketch DistExp.RangeCalls

inductive SketchClass where
  | interval
  | gxj

def SketchClass.recordAccess (hash : UInt64 → UInt64 → UInt32) :
    SketchClass → Sketch → UInt64 → UInt64 → UInt64 → Except Fault Sketch
  | .interval => IntervalSketch.recordAccess hash
  | .gxj => GxjSketch.recordAccess hash

inductive Thread where
  | reset
  | clear
  | finished
  deriving DecidableEq

structure State where
  sketch : Sketch
  threads : List Thread

inductive Step where
  | record (unitId t size : UInt64)
  | tryReset
  | runReset (i : Nat)
  | clearFlag (i : Nat)

/-- One step of a caller or of a thread. A call that fails an assertion is not a step. -/
def step (hash : UInt64 → UInt64 → UInt32) (sketchClass : SketchClass) (st : State) :
    Step → Option State
  | .record unitId t size =>
    match sketchClass.recordAccess hash st.sketch unitId t size with
    | .ok s => some { st with sketch := s }
    | .error _ => none
  | .tryReset =>
    let (s, started) := RangeSketch.tryReset st.sketch
    some ⟨s, if started then st.threads ++ [.reset] else st.threads⟩
  | .runReset i =>
    if st.threads[i]? = some .reset then
      some ⟨reset st.sketch, st.threads.set i .clear⟩
    else none
  | .clearFlag i =>
    if st.threads[i]? = some .clear then
      some ⟨clearDoingReset st.sketch, st.threads.set i .finished⟩
    else none

def State.pending (st : State) : Nat := st.threads.countP (· ≠ .finished)

/-- While a thread is pending it is the only one, the flag is up and accesses change nothing. -/
def Safe (hash : UInt64 → UInt64 → UInt32) (sketchClass : SketchClass) (st : State) : Prop :=
  0 < st.pending → st.pending ≤ 1 ∧ st.sketch.doingReset = true ∧
    ∀ unitId t size, step hash sketchClass st (.record unitId t size) = some st

/-- A reset is tried only while none is pending, or before the sketch is due for one. -/
def TriesInTurn (st : State) : Step → Prop
  | .tryReset => st.sketch.doingReset = false ∨ st.sketch.size < samplingSize st.sketch
  | _ => True

instance : (st : State) → (op : Step) → Decidable (TriesInTurn st op)
  | _, .tryReset => inferInstanceAs (Decidable (_ ∨ _))
  | _, .record _ _ _ | _, .runReset _ | _, .clearFlag _ => .isTrue trivial

def FlagCounts (st : State) : Prop := st.pending = if st.sketch.doingReset then 1 else 0

section Flag

variable {hash : UInt64 → UInt64 → UInt32} {s s' : Sketch}

theorem incDyadicCnt_frame {unitId : UInt64} {base start stop value level : Int32}
    (h : incDyadicCnt hash s unitId base start stop value level = .ok s') : frame s' = frame s := by
  obtain ⟨table, -, h⟩ := exists_of_bind_ok h
  obtain ⟨⟨table', added⟩, -, h⟩ := exists_of_bind_ok h
  cases h
  split <;> rfl

theorem incLazyAddCnt_frame {unitId : UInt64} {base start stop level : Int32}
    (h : incLazyAddCnt hash s unitId base start stop level = .ok s') : frame s' = frame s := by
  obtain ⟨table, -, h⟩ := exists_of_bind_ok h
  obtain ⟨⟨table', added⟩, -, h⟩ := exists_of_bind_ok h
  cases h
  split <;> rfl

theorem intervalMark_frame {unitId : UInt64} {base : Int32} {c : Call}
    (h : intervalMark hash unitId base s c = .ok s') : frame s' = frame s := by
  rw [intervalMark] at h
  split at h
  · cases h
  · exact incDyadicCnt_frame h

theorem gxjMark_frame {unitId : UInt64} {base : Int32} {c : Call}
    (h : gxjMark hash unitId base s c = .ok s') : frame s' = frame s := by
  rw [gxjMark] at h
  split at h
  · cases h
  · split at h
    · exact incLazyAddCnt_frame h
    · split at h
      · exact incDyadicCnt_frame h
      · cases h
        rfl

theorem recordAccess_invariant {P : Sketch → Prop}
    (hinterval : ∀ unitId base s c s', P s → intervalMark hash unitId base s c = .ok s' → P s')
    (hgxj : ∀ unitId base s c s', P s → gxjMark hash unitId base s c = .ok s' → P s')
    {sketchClass : SketchClass} {unitId t size : UInt64}
    (hs : P (if s.doingReset then s else { s with refCnt := s.refCnt + 1 }))
    (h : sketchClass.recordAccess hash s unitId t size = .ok s') : P s' := by
  cases sketchClass with
  | interval =>
    rw [SketchClass.recordAccess, interval_recordAccess_eq] at h
    split at h
    · next hflag =>
      cases h
      rwa [if_pos hflag] at hs
    · next hflag =>
      rw [if_neg hflag] at hs
      exact visit_invariant (hinterval unitId (baseOf s t)) hs h
  | gxj =>
    rw [SketchClass.recordAccess, gxj_recordAccess_eq] at h
    split at h
    · next hflag =>
      cases h
      rwa [if_pos hflag] at hs
    · next hflag =>
      rw [if_neg hflag] at hs
      exact visit_invariant (hgxj unitId (baseOf s t)) hs h

theorem recordAccess_frame {sketchClass : SketchClass} {unitId t size : UInt64}
    (h : sketchClass.recordAccess hash s unitId t size = .ok s') :
    frame s' = frame (if s.doingReset then s else { s with refCnt := s.refCnt + 1 }) :=
  recordAccess_invariant
    (P := fun s' => frame s' = frame (if s.doingReset then s else { s with refCnt := s.refCnt + 1 }))
    (fun _ _ _ _ _ h₁ hm => (intervalMark_frame hm).trans h₁)
    (fun _ _ _ _ _ h₁ hm => (gxjMark_frame hm).trans h₁) rfl h

theorem recordAccess_doingReset {sketchClass : SketchClass} {unitId t size : UInt64}
    (h : sketchClass.recordAccess hash s unitId t size = .ok s') :
    s'.doingReset = s.doingReset := by
  have hframe := congrArg Sketch.doingReset (recordAccess_frame h)
  split at hframe <;> exact hframe

theorem recordAccess_refCnt {sketchClass : SketchClass} {unitId t size : UInt64}
    (hflag : s.doingReset = false)
    (h : sketchClass.recordAccess hash s unitId t size = .ok s') : s'.refCnt = s.refCnt + 1 := by
  have hframe := congrArg Sketch.refCnt (recordAccess_frame h)
  rw [if_neg (by simp [hflag])] at hframe
  exact hframe

theorem recordAccess_of_doingReset (hs : s.doingReset = true) (sketchClass : SketchClass)
    (unitId t size : UInt64) : sketchClass.recordAccess hash s unitId t size = .ok s := by
  cases sketchClass with
  | interval => rw [SketchClass.recordAccess, IntervalSketch.recordAccess, if_pos hs]
  | gxj => rw [SketchClass.recordAccess, GxjSketch.recordAccess, if_pos hs]

theorem construct_doingReset {n : Int32} {g u : UInt64} (h : construct n g u = .ok s) :
    s.doingReset = false := by
  rw [construct, changeCapacity] at h
  split at h
  · cases h
  · split at h
    · cases h
    · simp only at h
      split at h
      · cases h
      · obtain ⟨tables, -, h⟩ := exists_of_bind_ok h
        cases h
        rfl

end Flag

variable {hash : UInt64 → UInt64 → UInt32} {sketchClass : SketchClass} {st st' : State}

theorem safe_of_flagCounts (h : FlagCounts st) : Safe hash sketchClass st := by
  intro hpos
  rw [FlagCounts] at h
  have hflag : st.sketch.doingReset = true := by
    by_contra hf
    rw [if_neg hf] at h
    omega
  rw [if_pos hflag] at h
  refine ⟨h.le, hflag, fun unitId t size => ?_⟩
  rw [step, recordAccess_of_doingReset hflag]

theorem pending_set (s : Sketch) {i : Nat} {t : Thread} (t' : Thread) (ht : st.threads[i]? = some t) :
    State.pending ⟨s, st.threads.set i t'⟩ + (if t ≠ .finished then 1 else 0) =
      st.pending + if t' ≠ .finished then 1 else 0 := by
  obtain ⟨hi, hget⟩ := List.getElem?_eq_some_iff.mp ht
  have hle : (if t ≠ .finished then 1 else 0) ≤ st.pending := by
    split
    · next hne => exact List.countP_pos_iff.mpr ⟨t, List.mem_of_getElem? ht, by simpa using hne⟩
    · exact Nat.zero_le _
  rw [State.pending, List.countP_set hi, hget]
  simp only [State.pending, ne_eq, decide_not, Bool.not_eq_true', decide_eq_false_iff_not] at hle ⊢
  omega

theorem step_tryReset_due (hdue : st.sketch.size ≥ samplingSize st.sketch) :
    step hash sketchClass st .tryReset =
      some ⟨{ st.sketch with doingReset := true }, st.threads ++ [.reset]⟩ := by
  rw [step, RangeSketch.tryReset, if_pos hdue]
  rfl

theorem step_tryReset_not_due (hdue : ¬ st.sketch.size ≥ samplingSize st.sketch) :
    step hash sketchClass st .tryReset = some st := by
  rw [step, RangeSketch.tryReset, if_neg hdue]
  rfl

theorem pending_append_reset (s : Sketch) :
    State.pending ⟨s, st.threads ++ [.reset]⟩ = st.pending + 1 := by
  rw [State.pending, List.countP_append]
  rfl

theorem flagCounts_step {op : Step} (h : FlagCounts st) (hop : TriesInTurn st op)
    (hstep : step hash sketchClass st op = some st') : FlagCounts st' := by
  cases op with
  | record unitId t size =>
    rw [step] at hstep
    split at hstep
    · next s hs =>
      cases hstep
      rw [FlagCounts] at h ⊢
      rw [recordAccess_doingReset hs]
      exact h
    · cases hstep
  | tryReset =>
    by_cases hdue : st.sketch.size ≥ samplingSize st.sketch
    · have hflag : st.sketch.doingReset = false :=
        hop.resolve_right fun hlt => Int32.not_lt.mpr hdue hlt
      rw [step_tryReset_due hdue] at hstep
      cases hstep
      rw [FlagCounts, hflag] at h
      rw [FlagCounts, pending_append_reset, h]
      rfl
    · rw [step_tryReset_not_due hdue] at hstep
      cases hstep
      exact h
  | runReset i =>
    rw [step] at hstep
    split at hstep
    · next ht =>
      cases hstep
      have hp := pending_set (reset st.sketch) .clear ht
      simp only [ne_eq, reduceCtorEq, not_false_eq_true, if_true, Nat.add_right_cancel_iff] at hp
      exact hp.trans h
    · cases hstep
  | clearFlag i =>
    rw [step] at hstep
    split at hstep
    · next ht =>
      cases hstep
      have hp := pending_set (clearDoingReset st.sketch) .finished ht
      simp only [ne_eq, reduceCtorEq, not_false_eq_true, if_true, not_true_eq_false, if_false,
        Nat.add_zero] at hp
      have hone : st.pending ≤ 1 := by
        rw [h]
        split <;> decide
      have hzero : State.pending ⟨clearDoingReset st.sketch, st.threads.set i .finished⟩ = 0 := by
        omega
      exact hzero
    · cases hstep

theorem not_safe_of_outOfTurn {op : Step} (h : FlagCounts st) (hop : ¬ TriesInTurn st op)
    (hstep : step hash sketchClass st op = some st') : ¬ Safe hash sketchClass st' := by
  cases op with
  | tryReset =>
    rw [TriesInTurn, not_or, Bool.not_eq_false, Int32.not_lt] at hop
    obtain ⟨hflag, hdue⟩ := hop
    rw [step_tryReset_due hdue] at hstep
    cases hstep
    rw [FlagCounts, if_pos hflag] at h
    intro hsafe
    rw [Safe, pending_append_reset, h] at hsafe
    exact absurd (hsafe (by decide)).1 (by decide)
  | record unitId t size => exact absurd trivial hop
  | runReset i => exact absurd trivial hop
  | clearFlag i => exact absurd trivial hop

/-- At most one halving is in flight, and no access counts while one is pending, all along a run
exactly when every `try_reset` of the run comes while the flag is down or the sketch is not due:
`try_reset` itself does not look at the flag. -/
theorem one_reset_iff_tries_in_turn {n : Int32} {g u : UInt64} {s : Sketch}
    (hs : construct n g u = .ok s) {ops : List Step} {last : State}
    (hrun : ops.foldlM (step hash sketchClass) ⟨s, []⟩ = some last) :
    (∀ st, Passes (step hash sketchClass) ⟨s, []⟩ ops st → Safe hash sketchClass st) ↔
      EachStep (step hash sketchClass) TriesInTurn ⟨s, []⟩ ops := by
  refine safe_iff_eachStep (fun _ => safe_of_flagCounts) (fun _ _ _ => flagCounts_step)
    (fun _ _ _ => not_safe_of_outOfTurn) ?_ hrun
  rw [FlagCounts, construct_doingReset hs]
  rfl

def smallSketch : Sketch := RangeCounters.fresh 2 1 2 1 2

theorem construct_small : construct 2 1 2 = .ok smallSketch := rfl

def twoTries : List Step :=
  [.record 0 0 1, .record 0 0 1, .record 0 0 1, .record 0 0 1, .tryReset, .tryReset]

theorem twoTries_interval :
    ∃ st, twoTries.foldlM (step Detail.hash .interval) ⟨smallSketch, []⟩ = some st ∧
      st.pending = 2 :=
  Option.map_eq_some_iff.mp (by decide +kernel)

theorem twoTries_gxj :
    ∃ st, twoTries.foldlM (step Detail.hash .gxj) ⟨smallSketch, []⟩ = some st ∧ st.pending = 2 :=
  Option.map_eq_some_iff.mp (by decide +kernel)

def triesInTurn : List Step :=
  [.record 0 0 1, .record 0 0 1, .record 0 0 1, .record 0 0 1, .tryReset, .record 0 0 1,
    .runReset 0, .clearFlag 0, .record 0 0 1, .record 0 0 1, .record 0 0 1, .tryReset]

/-- The second run is safe and starts two threads as well, the first one is not. -/
theorem one_reset_iff_tries_in_turn_small :
    (¬ ∀ st, Passes (step Detail.hash .interval) ⟨smallSketch, []⟩ twoTries st →
      Safe Detail.hash .interval st) ∧
    (∃ last, triesInTurn.foldlM (step Detail.hash .interval) ⟨smallSketch, []⟩ = some last ∧
      last.threads = [.finished, .reset]) ∧
    ∀ st, Passes (step Detail.hash .interval) ⟨smallSketch, []⟩ triesInTurn st →
      Safe Detail.hash .interval st := by
  obtain ⟨last, hlast, -⟩ := twoTries_interval
  obtain ⟨last', hlast', hthreads⟩ : ∃ last, triesInTurn.foldlM (step Detail.hash .interval)
      ⟨smallSketch, []⟩ = some last ∧ last.threads = [.finished, .reset] :=
    Option.map_eq_some_iff.mp (by decide +kernel)
  have hturn : ¬ EachStep (step Detail.hash .interval) TriesInTurn ⟨smallSketch, []⟩ twoTries := by
    decide +kernel
  refine ⟨fun hsafe => hturn ((one_reset_iff_tries_in_turn construct_small hlast).mp hsafe),
    ⟨last', hlast', hthreads⟩, ?_⟩
  exact (one_reset_iff_tries_in_turn construct_small hlast').mpr (by decide +kernel)

theorem not_safe_of_two (h : st.pending = 2) : ¬ Safe hash sketchClass st := by
  intro hsafe
  rw [Safe, h] at hsafe
  exact absurd (hsafe (by decide)).1 (by decide)

/-- With both sketches, two attempts in a row leave two threads that will halve the counters. -/
theorem two_tries_start_two_resets :
    (∃ st, twoTries.foldlM (step Detail.hash .interval) ⟨smallSketch, []⟩ = some st ∧
      st.pending = 2 ∧ ¬ Safe Detail.hash .interval st) ∧
    (∃ st, twoTries.foldlM (step Detail.hash .gxj) ⟨smallSketch, []⟩ = some st ∧
      st.pending = 2 ∧ ¬ Safe Detail.hash .gxj st) := by
  obtain ⟨st, hst, htwo⟩ := twoTries_interval
  obtain ⟨st', hst', htwo'⟩ := twoTries_gxj
  exact ⟨⟨st, hst, htwo, not_safe_of_two htwo⟩, st', hst', htwo', not_safe_of_two htwo'⟩

end DistExp.ResetThreads
