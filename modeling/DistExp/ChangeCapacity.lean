import DistExp.IntervalBoundary
import DistExp.GxjMonotone
import DistExp.Averages

namespace DistExp.ChangeCapacity

open DistExp.Library.MachineInt DistExp.Library.AgedCounter DistExp.Library.HalvingTree
open DistExp.Library.CallTree DistExp.Library.Runs
open DistExp.PackedTable DistExp.RangeSketch DistExp.RangeCounters DistExp.RangeGeometry
open DistExp.RangeCalls DistExp.ResetThreads DistExp.RangeRuns DistExp.RangeLevels
open DistExp.GranuleLoop DistExp.Averages

section Calls

variable (hash : UInt64 → UInt64 → UInt32) (sketchClass : SketchClass)

def frequency (s : Sketch) (a : Access) : Except Fault Int32 :=
  match sketchClass with
  | .interval => IntervalSketch.frequency hash s a.unitId a.t a.size
  | .gxj => GxjSketch.frequency hash s a.unitId a.t a.size

def avgFrequency (s : Sketch) (a : Access) : Except Fault Int32 :=
  match sketchClass with
  | .interval => IntervalSketch.avgFrequency hash s a.unitId a.t a.size
  | .gxj => GxjSketch.avgFrequency hash s a.unitId a.t a.size

/-- The calls that users of a sketch make, and the steps of the threads that reset it. -/
inductive Op where
  | record (a : Access)
  | frequency (a : Access)
  | avgFrequency (a : Access)
  | tryReset
  | mustReset
  | runReset (i : Nat)
  | clearFlag (i : Nat)

inductive Answer where
  | done
  | estimate (value : Int32)
  | started (thread : Bool)
  | noThread
  deriving DecidableEq

def threadStep (st : State) (op : Step) : State × Answer :=
  match step hash sketchClass st op with
  | some st' => (st', .done)
  | none => (st, .noThread)

def Op.run (st : State) : Op → Except Fault (State × Answer)
  | .record a => do
    let s ← sketchClass.recordAccess hash st.sketch a.unitId a.t a.size
    return ({ st with sketch := s }, .done)
  | .frequency a => do
    return (st, .estimate (← ChangeCapacity.frequency hash sketchClass st.sketch a))
  | .avgFrequency a => do
    return (st, .estimate (← ChangeCapacity.avgFrequency hash sketchClass st.sketch a))
  | .tryReset =>
    let (s, started) := RangeSketch.tryReset st.sketch
    .ok (⟨s, if started then st.threads ++ [.reset] else st.threads⟩, .started started)
  | .mustReset => .ok ({ st with sketch := RangeSketch.mustReset st.sketch }, .done)
  | .runReset i => .ok (threadStep hash sketchClass st (.runReset i))
  | .clearFlag i => .ok (threadStep hash sketchClass st (.clearFlag i))

def answers (made : Except Fault State) (ops : List Op) : List (Except Fault Answer) :=
  match made with
  | .error e => [.error e]
  | .ok st => outcomes (Op.run hash sketchClass) st ops

/-- The threads that have not finished go on behind the back of `change_capacity`. -/
def changed (st : State) (n : Int32) (g u : UInt64) : Except Fault State := do
  return ⟨← changeCapacity st.sketch n g u, st.threads.filter (· ≠ .finished)⟩

def made (n : Int32) (g u : UInt64) : Except Fault State := do
  return ⟨← construct n g u, []⟩

/-- After `change_capacity`, no sequence of calls tells the sketch from a new one. -/
def AsNew (st : State) (n : Int32) (g u : UInt64) : Prop :=
  ∀ ops, answers hash sketchClass (changed st n g u) ops =
    answers hash sketchClass (made n g u) ops

end Calls

/-- What `change_capacity` does not assign is already what the constructor makes it. -/
structure Unassigned (st : State) (g u : UInt64) : Prop where
  granularity_eq : st.sketch.granularity = g
  unitSize_eq : st.sketch.unitSize = u
  flag : st.sketch.doingReset = false
  threads : st.pending = 0

variable {hash : UInt64 → UInt64 → UInt32} {sketchClass : SketchClass} {g u : UInt64} {N p : Nat}
  {s f : Sketch} {st : State} {n : Int32}

theorem changed_eq_made (h : Unassigned st g u) : changed st n g u = made n g u := by
  have hthreads : st.threads.filter (· ≠ .finished) = [] := by
    rw [← List.length_eq_zero_iff, ← List.countP_eq_length_filter]
    exact h.threads
  rw [changed, made, changeCapacity_eq, h.granularity_eq, h.unitSize_eq, h.flag, hthreads]
  cases hn : construct n g u with
  | error e => rfl
  | ok f =>
    obtain ⟨p, levels, -, rfl⟩ := accepted_of_construct hn
    rfl

theorem units_eq_of_granule_zero {g u g' u' : Nat} (hg' : 0 < g') (hu' : u' = N * g') (hN : 2 ≤ N)
    (hN32 : N < 2 ^ 32) (hu64 : u' < 2 ^ 64) (hu : u < 2 ^ 64)
    (h : ∀ x < 2 ^ 64, x % u / g ≡ 0 [MOD 2 ^ 32] ↔ x % u' / g' = 0) : g = g' ∧ u = u' := by
  have hgu' : g' < u' := by
    rw [hu']
    exact (Nat.lt_mul_iff_one_lt_left hg').mpr hN
  -- the first offset that is not in granule zero
  have hfirst : ¬ g' % u / g ≡ 0 [MOD 2 ^ 32] := by
    rw [h g' (hgu'.trans hu64), Nat.mod_eq_of_lt hgu', Nat.div_self hg']
    decide
  have hg : 0 < g := by
    refine Nat.pos_of_ne_zero fun h0 => hfirst ?_
    rw [h0, Nat.div_zero]
  have hle : g ≤ g' % u := by
    by_contra hlt
    rw [Nat.div_eq_of_lt (not_le.mp hlt)] at hfirst
    exact hfirst rfl
  have hmod : g' % u ≤ g' := Nat.mod_le _ _
  have hgg : g = g' := by
    refine (hle.trans hmod).antisymm (not_lt.mp fun hlt => ?_)
    have hgu : g % u = g := by
      obtain rfl | hpos := Nat.eq_zero_or_pos u
      · exact Nat.mod_zero g
      · exact Nat.mod_eq_of_lt (hle.trans_lt (Nat.mod_lt _ hpos))
    have hzero := (h g ((hlt.trans hgu').trans hu64)).mpr (by
      rw [Nat.mod_eq_of_lt (hlt.trans hgu'), Nat.div_eq_of_lt hlt])
    rw [hgu, Nat.div_self hg] at hzero
    exact absurd hzero (by decide)
  subst hgg
  refine ⟨rfl, ?_⟩
  by_contra hne
  by_cases hsmall : 0 < u ∧ u < u'
  · -- the unit starts over where the other one goes on
    have hzero := (h u hu).mp (by rw [Nat.mod_self, Nat.zero_div])
    rw [Nat.mod_eq_of_lt hsmall.2, Nat.div_eq_zero_iff_lt hg] at hzero
    exact absurd (Nat.mod_lt g hsmall.1) (by omega)
  · have hmod' : u' % u = u' := by
      obtain rfl | hpos := Nat.eq_zero_or_pos u
      · exact Nat.mod_zero u'
      · exact Nat.mod_eq_of_lt (by omega)
    have hzero := (h u' hu64).mpr (by rw [Nat.mod_self, Nat.zero_div])
    rw [hmod', hu', Nat.mul_div_cancel _ hg, Nat.ModEq, Nat.mod_eq_of_lt hN32] at hzero
    omega

section Fresh

theorem ready_tame (hash : UInt64 → UInt64 → UInt32) {level : Nat} (hl : level < Nat.clog 2 N + 1) :
    Tame hash (fun _ => True) (Ready g u N p) (Int32.ofNat level) where
  getLazy s unitId base start stop hs := by
    rw [getLazyAddCnt_eq hs.shape hl]
    exact avoids_ok _ _
  getDyadic s unitId base start stop hs := by
    rw [getDyadicCnt_eq hs.shape hl]
    exact avoids_ok _ _
  incLazy s unitId base start stop hs := by
    obtain ⟨s', hinc, hshape, hframe, -⟩ := incLazyAddCnt_eq hash hs.shape hl unitId base start stop
    rw [hinc]
    exact ⟨avoids_ok _ _, fun s'' he => Except.ok.inj he ▸ hs.of_frame hshape hframe⟩
  incDyadic s unitId base start stop hs := by
    obtain ⟨s', hinc, hshape, hframe, -⟩ := incDyadicCnt_eq hash hs.shape hl unitId base start stop
    rw [hinc]
    exact ⟨avoids_ok _ _, fun s'' he => Except.ok.inj he ▸ hs.of_frame hshape hframe⟩

theorem frequency_succeeds (hash : UInt64 → UInt64 → UInt32) (sketchClass : SketchClass)
    (h : Ready g u N p s) (a : Access) : ∃ v, frequency hash sketchClass s a = .ok v := by
  have hrun (r : Recursion) : ∃ x, r.run hash fuel s a.unitId a.t a.size = .ok x := by
    apply exists_ok_of_avoids
    refine r.run_avoids (ready_rootCall_inTree h a.t a.size) h.levels_le (fun k hk => ?_) h
      (h.setRefCnt _)
    rw [h.shape.level_eq, ofNat_sub_sub_one hk]
    exact ready_tame hash (by omega)
  cases sketchClass with
  | interval =>
    obtain ⟨x, hx⟩ := hrun .intervalFrequency
    obtain ⟨v, hv, -⟩ := exists_of_bind_ok hx
    exact ⟨v, hv⟩
  | gxj =>
    obtain ⟨x, hx⟩ := hrun .gxjFrequency
    obtain ⟨v, hv, -⟩ := exists_of_bind_ok hx
    exact ⟨v, hv⟩

theorem avgFrequency_eq (s : Sketch) (a : Access) : avgFrequency hash sketchClass s a = (do
    let sum ← frequency hash sketchClass s a
    if cntOf s.granularity s.unitSize a.t a.size = 0 then .error .divisionByZero
    else return sum / cntOf s.granularity s.unitSize a.t a.size) := by
  cases sketchClass <;> rfl

end Fresh

def fromStart (size : UInt64) : Access := ⟨0, 0, size⟩

theorem fromStart_left (g u size : UInt64) : (fromStart size).left g u = 0 := by
  rw [Access.left_eq]
  exact (congrArg (· / g.toNat) (Nat.zero_mod u.toNat)).trans (Nat.zero_div _)

theorem fromStart_right (g u size : UInt64) :
    (fromStart size).right g u = size.toNat % u.toNat / g.toNat := by
  rw [Access.right, UInt64.toNat_div, UInt64.toNat_mod, fromStart, UInt64.zero_add]

theorem cntOf_fromStart (g u size : UInt64) :
    cntOf g u (fromStart size).t (fromStart size).size = 0 ↔
      size.toNat % u.toNat / g.toNat ≡ 0 [MOD 2 ^ 32] := by
  rw [cntOf_eq_zero_iff, fromStart_left, fromStart_right]
  exact Nat.ModEq.comm

theorem granularity_lt (hgeo : Geometry g u N) (hN : 2 ≤ N) : g.toNat < u.toNat := by
  rw [hgeo.unitSize_eq]
  exact (Nat.lt_mul_iff_one_lt_left hgeo.granularity_pos).mpr hN

theorem firstGranule_right (hgeo : Geometry g u N) (hN : 2 ≤ N) : (fromStart g).right g u = 1 := by
  rw [fromStart_right, Nat.mod_eq_of_lt (granularity_lt hgeo hN), Nat.div_self hgeo.granularity_pos]

theorem rowMin_of_zero (hcells : sketchCells s = fun _ => 0) (isLazy : Bool) (node : Node) :
    rowMin intMax (sketchCells s) (nodeRows hash p N isLazy node) = 0 := by
  refine Nat.le_zero.mp ((rowMin_le _ _ _ (mem_rowsAt.mpr ⟨0, rfl⟩)).trans ?_)
  rw [hcells]

def FirstAccessSeen (hash : UInt64 → UInt64 → UInt32) (sketchClass : SketchClass) (g : UInt64)
    (f : Sketch) : Prop :=
  frequency hash sketchClass f (fromStart g) = .ok 0 ∧
    ∃ f' v, sketchClass.recordAccess hash f (fromStart g).unitId (fromStart g).t
        (fromStart g).size = .ok f' ∧
      frequency hash sketchClass f' (fromStart g) = .ok v ∧ v ≠ 0

theorem firstAccessSeen_interval (hash : UInt64 → UInt64 → UInt32) {p : Nat}
    (hready : Ready g u N p f) (hflag : f.doingReset = false) (hcells : sketchCells f = fun _ => 0)
    (hN : 2 ≤ N) : FirstAccessSeen hash .interval g f := by
  have hgeo := hready.geometry
  have hl := fromStart_left g u g
  have hr := firstGranule_right hgeo hN
  constructor
  · have hzero : IntervalEstimates.exactSum hash g u N p f (fromStart g) = 0 := by
      apply List.sum_eq_zero
      intro x hx
      obtain ⟨seg, -, rfl⟩ := List.mem_map.mp hx
      rw [rowMin_of_zero hcells, Nat.zero_mul]
    have hq := IntervalEstimates.frequency_eq hash hready (q := fromStart g) (by omega)
    rwa [hzero] at hq
  · have hone : (fromStart g).size.toNat / g.toNat = 1 := Nat.div_self hgeo.granularity_pos
    have hlt := granularity_lt hgeo hN
    have hend := g.toNat_lt
    obtain ⟨f', v, hrec, hv, hle⟩ := IntervalBoundary.counted_of_lt (a := fromStart g) hash hready
      hflag ⟨Nat.dvd_zero _, Nat.dvd_refl _, hgeo.granularity_pos⟩
      (by rwa [fromStart, UInt64.toNat_zero, Nat.zero_add])
      (by rwa [fromStart, UInt64.toNat_zero, Nat.zero_mod, Nat.zero_add]) (by rw [hone]; decide)
    refine ⟨f', v, hrec, hv, ?_⟩
    rintro rfl
    rw [hone] at hle
    exact absurd hle (by decide)

theorem firstAccessSeen_gxj (hash : UInt64 → UInt64 → UInt32) {p : Nat}
    (hm₀ : GxjHistory.Marked hash g u N p f []) (hcells : sketchCells f = fun _ => 0)
    (hN : 2 ≤ N) : FirstAccessSeen hash .gxj g f := by
  have hgeo := hm₀.ready.geometry
  have hl := fromStart_left g u g
  have hr := firstGranule_right hgeo hN
  constructor
  · obtain ⟨level, -, hq⟩ := GxjEstimates.frequency_single hash hm₀.ready (q := fromStart g)
      (by omega)
    rw [GxjEstimates.granuleSum, rowMin_of_zero hcells] at hq
    have hzero : ((GxjEstimates.leafPath N ((fromStart g).left g u)).map fun seg =>
        rowMin intMax (sketchCells f) (nodeRows hash p N true
          ⟨(fromStart g).unitId, (fromStart g).unit u, seg⟩)).sum = 0 := by
      apply List.sum_eq_zero
      intro x hx
      obtain ⟨seg, -, rfl⟩ := List.mem_map.mp hx
      exact rowMin_of_zero hcells _ _
    rwa [hzero] at hq
  · obtain ⟨f', hrec, hm⟩ := hm₀.record (a := fromStart g) (by omega)
    obtain ⟨level, -, hv⟩ := GxjEstimates.frequency_single hash hm.ready (q := fromStart g)
      (by omega)
    have hlt := GxjEstimates.granuleSum_lt hash hm.ready (fromStart g).unitId
      ((fromStart g).unit u) level ((fromStart g).left g u)
    have hcov : (fromStart g).Covers g u (fromStart g).unitId ((fromStart g).unit u)
        ((fromStart g).left g u) := ⟨rfl, rfl, le_rfl, by omega⟩
    have hle := @GxjEstimates.min_covering_le _ _ _ _ _ _ _ _ (fromStart g).unitId
      ((fromStart g).unit u) hm (hgeo.left_lt (fromStart g))
      (by simp only [List.nil_append, List.mem_singleton, forall_eq]; omega)
    rw [GxjEstimates.covering, List.nil_append, List.map_singleton, List.countP_singleton,
      if_pos (decide_eq_true hcov)] at hle
    have hpos : 1 ≤ GxjEstimates.granuleSum hash N p f' (fromStart g).unitId
        ((fromStart g).unit u) level ((fromStart g).left g u) :=
      hle.trans (Nat.le_add_right _ _)
    refine ⟨f', _, hrec, hv, fun h0 => ?_⟩
    have hzero : GxjEstimates.granuleSum hash N p f' _ _ level _ = 0 :=
      (ofNat_inj hlt (by decide)).mp h0
    omega

theorem first_access_seen (hash : UInt64 → UInt64 → UInt32) (sketchClass : SketchClass)
    (hf : construct n g u = .ok f) (hne : ∀ table ∈ f.mixCounters, 0 < table.size)
    (hgeo : Geometry g u N) (hN : 2 ≤ N) (hN31 : N ≤ 2 ^ 31) :
    FirstAccessSeen hash sketchClass g f := by
  obtain ⟨p, hready, -, hflag, hcells⟩ := construct_ready hgeo hf hne hN31
  cases sketchClass with
  | interval => exact firstAccessSeen_interval hash hready hflag hcells hN
  | gxj =>
    obtain ⟨p', hm₀⟩ := GxjHistory.construct_marked hash hgeo hf hne hN31
    exact firstAccessSeen_gxj hash hm₀ hcells hN

section Observed

variable {st' : State}

theorem estimate_inj {x y : Except Fault Int32}
    (h : (do return (st, Answer.estimate (← x))).map Prod.snd =
      (do return (st', Answer.estimate (← y))).map Prod.snd) : x = y := by
  cases x <;> cases y <;> cases h <;> rfl

variable (h : ∀ ops, outcomes (Op.run hash sketchClass) st ops =
  outcomes (Op.run hash sketchClass) st' ops)

include h

theorem frequency_eq_of_outcomes (a : Access) :
    frequency hash sketchClass st.sketch a = frequency hash sketchClass st'.sketch a := by
  have hq := h [.frequency a]
  rw [outcomes_singleton, outcomes_singleton, List.singleton_inj] at hq
  exact estimate_inj hq

theorem avgFrequency_eq_of_outcomes (a : Access) :
    avgFrequency hash sketchClass st.sketch a = avgFrequency hash sketchClass st'.sketch a := by
  have hq := h [.avgFrequency a]
  rw [outcomes_singleton, outcomes_singleton, List.singleton_inj] at hq
  exact estimate_inj hq

theorem cntOf_iff_of_outcomes {a : Access}
    (hok : ∃ v, frequency hash sketchClass st'.sketch a = .ok v) :
    cntOf st.sketch.granularity st.sketch.unitSize a.t a.size = 0 ↔
      cntOf st'.sketch.granularity st'.sketch.unitSize a.t a.size = 0 := by
  obtain ⟨v, hv'⟩ := hok
  have hv := (frequency_eq_of_outcomes h a).trans hv'
  have havg := avgFrequency_eq_of_outcomes h a
  rw [avgFrequency_eq, avgFrequency_eq, hv, hv'] at havg
  change (if _ then _ else _) = (if _ then _ else _) at havg
  split at havg
  · next h0 =>
    refine iff_of_true h0 ?_
    by_contra hne
    rw [if_neg hne] at havg
    cases havg
  · next hne =>
    refine iff_of_false hne fun h0 => ?_
    rw [if_pos h0] at havg
    cases havg

theorem threads_of_outcomes (hnone : st'.threads = []) (hrun : ∀ t ∈ st.threads, t ≠ .finished) :
    st.threads = [] := by
  have hblocked (i : Nat) (thread : Thread) : ¬ st'.threads[i]? = some thread := by
    rw [hnone, List.getElem?_nil]
    nofun
  cases ht : st.threads with
  | nil => rfl
  | cons thread rest =>
    have hfirst : st.threads[0]? = some thread := by rw [ht, List.getElem?_cons_zero]
    cases thread with
    | reset =>
      have hq := h [.runReset 0]
      rw [outcomes_singleton, outcomes_singleton, Op.run, Op.run, threadStep, threadStep,
        ResetThreads.step, ResetThreads.step,
        if_pos hfirst, if_neg (hblocked 0 .reset)] at hq
      cases hq
    | clear =>
      have hq := h [.clearFlag 0]
      rw [outcomes_singleton, outcomes_singleton, Op.run, Op.run, threadStep, threadStep,
        ResetThreads.step, ResetThreads.step,
        if_pos hfirst, if_neg (hblocked 0 .clear)] at hq
      cases hq
    | finished => exact absurd rfl (hrun .finished (by rw [ht]; exact List.mem_cons_self))

theorem flag_of_outcomes {a : Access} {f' : Sketch} {v v' : Int32}
    (hv : frequency hash sketchClass st'.sketch a = .ok v)
    (hrec : sketchClass.recordAccess hash st'.sketch a.unitId a.t a.size = .ok f')
    (hv' : frequency hash sketchClass f' a = .ok v') (hne : v' ≠ v) :
    st.sketch.doingReset = false := by
  by_contra hflag
  have hflag : st.sketch.doingReset = true := Bool.not_eq_false _ ▸ hflag
  have hsame : sketchClass.recordAccess hash st.sketch a.unitId a.t a.size = .ok st.sketch := by
    cases sketchClass with
    | interval => rw [SketchClass.recordAccess, IntervalSketch.recordAccess, if_pos hflag]
    | gxj => rw [SketchClass.recordAccess, GxjSketch.recordAccess, if_pos hflag]
  have hq := frequency_eq_of_outcomes h a
  have hops := h [.record a, .frequency a]
  have hleft : Op.run hash sketchClass st (.record a) = .ok (st, .done) := by
    rw [Op.run, hsame]
    rfl
  have hright : Op.run hash sketchClass st' (.record a) =
      .ok ({ st' with sketch := f' }, .done) := by
    rw [Op.run, hrec]
    rfl
  rw [outcomes_cons hleft, outcomes_cons hright, outcomes_singleton, outcomes_singleton, Op.run,
    Op.run, hq, hv, hv'] at hops
  cases hops
  exact hne rfl

end Observed

/-- With the units, the flag and the threads as they are after construction, `change_capacity` gives
a new sketch. Where a new sketch can hold its units at all, calls tell any other sketch apart. -/
theorem as_new_iff (hash : UInt64 → UInt64 → UInt32) (sketchClass : SketchClass) (st : State)
    (n : Int32) (g u : UInt64) :
    (Unassigned st g u → AsNew hash sketchClass st n g u) ∧
    ∀ f N, construct n g u = .ok f → (∀ table ∈ f.mixCounters, 0 < table.size) → Geometry g u N →
      2 ≤ N → N ≤ 2 ^ 31 → (AsNew hash sketchClass st n g u ↔ Unassigned st g u) := by
  have hnew : Unassigned st g u → AsNew hash sketchClass st n g u := by
    intro hsame ops
    rw [changed_eq_made hsame]
  refine ⟨hnew, fun f N hf hne hgeo hN hN31 => ⟨fun has => ?_, hnew⟩⟩
  obtain ⟨p, hready, -⟩ := construct_ready hgeo hf hne hN31
  obtain ⟨hzero, f', v, hrec, hv, hne0⟩ := first_access_seen hash sketchClass hf hne hgeo hN hN31
  let c : Sketch := { f with
    granularity := st.sketch.granularity
    unitSize := st.sketch.unitSize
    doingReset := st.sketch.doingReset }
  have hops : ∀ ops, outcomes (Op.run hash sketchClass) ⟨c, st.threads.filter (· ≠ .finished)⟩ ops =
      outcomes (Op.run hash sketchClass) ⟨f, []⟩ ops := by
    intro ops
    have hq := has ops
    rw [changed, made, changeCapacity_eq, hf] at hq
    exact hq
  have hunits : st.sketch.granularity.toNat = g.toNat ∧ st.sketch.unitSize.toNat = u.toNat := by
    refine units_eq_of_granule_zero (N := N) hgeo.granularity_pos hgeo.unitSize_eq hN
      (by omega) u.toNat_lt st.sketch.unitSize.toNat_lt fun x hx => ?_
    have hcnt := cntOf_iff_of_outcomes hops
      (frequency_succeeds hash sketchClass hready (fromStart (UInt64.ofNat x)))
    have hx' : (UInt64.ofNat x).toNat = x := UInt64.toNat_ofNat_of_lt' hx
    have hlt := (fromStart_right g u (UInt64.ofNat x)).symm.trans_lt (hgeo.right_lt _)
    have hsmall := hready.small
    rw [cntOf_fromStart, hready.granularity_eq, hready.unitSize_eq, cntOf_fromStart, hx'] at hcnt
    rw [hx'] at hlt
    rw [hcnt, Nat.ModEq, Nat.zero_mod, Nat.mod_eq_of_lt (by omega)]
  have hflag := flag_of_outcomes hops hzero hrec hv hne0
  refine ⟨UInt64.toNat_inj.mp hunits.1, UInt64.toNat_inj.mp hunits.2, hflag, ?_⟩
  · have hthreads := threads_of_outcomes hops rfl fun t ht => by simpa using (List.mem_filter.mp ht).2
    rw [State.pending, List.countP_eq_length_filter]
    exact congrArg List.length hthreads

theorem as_new_iff_three : construct 4 1 3 = .ok (fresh 4 1 3 2 3) ∧
    ∃ s, SketchClass.gxj.recordAccess Detail.hash (fresh 4 1 3 2 3) 0 0 2 = .ok s ∧ s.size ≠ 0 ∧
      AsNew Detail.hash .gxj ⟨s, [.finished]⟩ 8 1 3 := by
  have hrun : (do
      let s ← SketchClass.gxj.recordAccess Detail.hash (fresh 4 1 3 2 3) 0 0 2
      return (s.size != 0, s.granularity, s.unitSize, s.doingReset)) =
        .ok (true, 1, 3, false) := by decide +kernel
  obtain ⟨s, hs, hrun⟩ := exists_of_bind_ok hrun
  obtain ⟨hsize, hg, hu, hflag⟩ : (s.size != 0) = true ∧ s.granularity = 1 ∧ s.unitSize = 3 ∧
      s.doingReset = false := by simpa [pure, Except.pure] using hrun
  exact ⟨construct_three, s, hs, by simpa using hsize,
    (as_new_iff Detail.hash .gxj ⟨s, [.finished]⟩ 8 1 3).1 ⟨hg, hu, hflag, rfl⟩⟩

/-- A sketch that keeps four granules a unit where a new one has two: an access goes down one
level more than there are tables. -/
theorem old_units_kept : construct 4 1 4 = .ok (fresh 4 1 4 2 3) ∧
    changeCapacity (fresh 4 1 4 2 3) 4 2 4 = .ok (fresh 4 1 4 2 2) ∧
    construct 4 2 4 = .ok (fresh 4 2 4 2 2) ∧
    ∀ sketchClass : SketchClass,
      sketchClass.recordAccess Detail.hash (fresh 4 1 4 2 2) 0 0 1 = .error .outOfRange ∧
      (∃ s, sketchClass.recordAccess Detail.hash (fresh 4 2 4 2 2) 0 0 1 = .ok s) ∧
      ¬ AsNew Detail.hash sketchClass ⟨fresh 4 1 4 2 3, []⟩ 4 2 4 := by
  refine ⟨construct_four, rfl, rfl, fun sketchClass => ?_⟩
  have hfault : sketchClass.recordAccess Detail.hash (fresh 4 1 4 2 2) 0 0 1 = .error .outOfRange := by
    apply eq_error_of_faultOf
    cases sketchClass <;> decide +kernel
  have hok : ∃ s, sketchClass.recordAccess Detail.hash (fresh 4 2 4 2 2) 0 0 1 = .ok s := by
    have hnone : faultOf (sketchClass.recordAccess Detail.hash (fresh 4 2 4 2 2) 0 0 1) = none := by
      cases sketchClass <;> decide +kernel
    cases hx : sketchClass.recordAccess Detail.hash (fresh 4 2 4 2 2) 0 0 1 with
    | error e =>
      rw [hx] at hnone
      cases hnone
    | ok s => exact ⟨s, rfl⟩
  refine ⟨hfault, hok, fun has => ?_⟩
  obtain ⟨s, hs⟩ := hok
  have hchanged : changed ⟨fresh 4 1 4 2 3, []⟩ 4 2 4 = .ok ⟨fresh 4 1 4 2 2, []⟩ := rfl
  have hmade : made 4 2 4 = .ok ⟨fresh 4 2 4 2 2, []⟩ := rfl
  have hq := has [.record ⟨0, 0, 1⟩]
  rw [hchanged, hmade, answers, answers] at hq
  rw [outcomes_singleton, outcomes_singleton, Op.run, Op.run, hfault, hs] at hq
  cases hq

end DistExp.ChangeCapacity
