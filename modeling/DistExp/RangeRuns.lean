import DistExp.RangeCalls
import DistExp.RangeGeometry
import DistExp.ResetThreads

namespace DistExp.RangeRuns

open DistExp.Library.MachineInt DistExp.Library.HalvingTree DistExp.Library.CallTree
open DistExp.Library.Runs
open DistExp.PackedTable DistExp.RangeSketch DistExp.RangeCounters DistExp.RangeGeometry
open DistExp.RangeCalls DistExp.ResetThreads

structure SameLayout (s s' : Sketch) : Prop where
  sizes : s'.mixCounters.map Array.size = s.mixCounters.map Array.size
  counterLevel_eq : s'.counterLevel = s.counterLevel
  capacity_eq : s'.capacity = s.capacity
  granularity_eq : s'.granularity = s.granularity
  unitSize_eq : s'.unitSize = s.unitSize

theorem SameLayout.refl (s : Sketch) : SameLayout s s := ⟨rfl, rfl, rfl, rfl, rfl⟩

theorem SameLayout.symm {s s' : Sketch} (h : SameLayout s s') : SameLayout s' s :=
  ⟨h.sizes.symm, h.counterLevel_eq.symm, h.capacity_eq.symm, h.granularity_eq.symm,
    h.unitSize_eq.symm⟩

theorem SameLayout.trans {s s' s'' : Sketch} (h : SameLayout s s') (h' : SameLayout s' s'') :
    SameLayout s s'' where
  sizes := h'.sizes.trans h.sizes
  counterLevel_eq := h'.counterLevel_eq.trans h.counterLevel_eq
  capacity_eq := h'.capacity_eq.trans h.capacity_eq
  granularity_eq := h'.granularity_eq.trans h.granularity_eq
  unitSize_eq := h'.unitSize_eq.trans h.unitSize_eq

theorem tryIncrement_size {table table' : Table} {isLazy added : Bool} {hash : UInt32}
    {counterIndex : Fin 4} {incValue : Int32}
    (h : MixTable.tryIncrementCounterAtWithValue table isLazy hash counterIndex incValue =
      .ok (table', added)) : table'.size = table.size := by
  obtain ⟨word, -, h⟩ := exists_of_bind_ok h
  dsimp only at h
  split at h
  · split at h <;> cases h <;> exact Array.size_setIfInBounds
  · cases h
    rfl

theorem incrementRows_size {table table' : Table} {isLazy added : Bool} {hash : UInt32}
    {value : Int32} (h : MixTable.incrementRows table isLazy hash value = .ok (table', added)) :
    table'.size = table.size := by
  refine foldlM_preserves (I := fun acc : Table × Bool => acc.1.size = table.size)
    (fun acc j _ acc' hacc h' => ?_) rfl h
  obtain ⟨⟨t, b⟩, ht, h'⟩ := exists_of_bind_ok h'
  cases h'
  exact (tryIncrement_size ht).trans hacc

theorem sizes_setAt {v : Array Table} {index : Int32} {table table' : Table}
    (ht : elemAt v index = .ok table) (hs : table'.size = table.size) :
    (setAt v index table').map Array.size = v.map Array.size := by
  rw [elemAt_eq_ok_iff] at ht
  apply Array.ext_getElem?
  intro i
  rw [setAt, Array.getElem?_map, Array.getElem?_map, Array.getElem?_setIfInBounds]
  split
  · next hi =>
    subst hi
    split
    · rw [ht, Option.map_some, Option.map_some, hs]
    · next hlt => rw [Array.getElem?_eq_none (by omega)]
  · rfl

variable {hash : UInt64 → UInt64 → UInt32} {s s' : Sketch}

theorem incDyadicCnt_sameLayout {unitId : UInt64} {base start stop value level : Int32}
    (h : incDyadicCnt hash s unitId base start stop value level = .ok s') : SameLayout s s' := by
  obtain ⟨table, ht, h⟩ := exists_of_bind_ok h
  obtain ⟨⟨table', added⟩, hi, h⟩ := exists_of_bind_ok h
  have hs := sizes_setAt ht (incrementRows_size hi)
  cases h
  split <;> exact ⟨hs, rfl, rfl, rfl, rfl⟩

theorem incLazyAddCnt_sameLayout {unitId : UInt64} {base start stop level : Int32}
    (h : incLazyAddCnt hash s unitId base start stop level = .ok s') : SameLayout s s' := by
  obtain ⟨table, ht, h⟩ := exists_of_bind_ok h
  obtain ⟨⟨table', added⟩, hi, h⟩ := exists_of_bind_ok h
  have hs := sizes_setAt ht (incrementRows_size hi)
  cases h
  split <;> exact ⟨hs, rfl, rfl, rfl, rfl⟩

theorem reset_sameLayout (s : Sketch) : SameLayout s (RangeSketch.reset s) := by
  refine ⟨?_, rfl, rfl, rfl, rfl⟩
  rw [RangeSketch.reset, Array.map_map]
  exact congrArg (s.mixCounters.map ·) (funext fun table => Array.size_map)

theorem intervalMark_sameLayout {unitId : UInt64} {base : Int32} {c : Call}
    (h : intervalMark hash unitId base s c = .ok s') : SameLayout s s' := by
  rw [intervalMark] at h
  split at h
  · cases h
  · exact incDyadicCnt_sameLayout h

theorem gxjMark_sameLayout {unitId : UInt64} {base : Int32} {c : Call}
    (h : gxjMark hash unitId base s c = .ok s') : SameLayout s s' := by
  rw [gxjMark] at h
  split at h
  · cases h
  · split at h
    · exact incLazyAddCnt_sameLayout h
    · split at h
      · exact incDyadicCnt_sameLayout h
      · cases h
        exact SameLayout.refl s

theorem recordAccess_sameLayout {sketchClass : SketchClass} {unitId t size : UInt64}
    (h : sketchClass.recordAccess hash s unitId t size = .ok s') : SameLayout s s' := by
  refine recordAccess_invariant (fun _ _ _ _ _ h₁ hm => h₁.trans (intervalMark_sameLayout hm))
    (fun _ _ _ _ _ h₁ hm => h₁.trans (gxjMark_sameLayout hm)) ?_ h
  split <;> exact ⟨rfl, rfl, rfl, rfl, rfl⟩

/-- The calls that change a sketch, and the steps of the threads that reset it. -/
inductive Op where
  | step (op : Step)
  | mustReset
  | softReset
  | changeCapacity (n : Int32) (granularity unitSize : UInt64)

def Op.run (hash : UInt64 → UInt64 → UInt32) (sketchClass : SketchClass) (st : State) :
    Op → Option State
  | .step op => ResetThreads.step hash sketchClass st op
  | .mustReset => some { st with sketch := RangeSketch.mustReset st.sketch }
  | .softReset => some { st with sketch := RangeSketch.softReset st.sketch }
  | .changeCapacity n granularity unitSize =>
    match RangeSketch.changeCapacity st.sketch n granularity unitSize with
    | .ok s => some { st with sketch := s }
    | .error _ => none

/-- The capacity is only ever changed together with the units that the sketch already has. -/
def Op.KeepsUnits (g u : UInt64) : Op → Prop
  | .changeCapacity _ granularity unitSize => granularity = g ∧ unitSize = u
  | _ => True

/-- The sketches that a run of operations leads to from a newly constructed one. -/
def Reached (hash : UInt64 → UInt64 → UInt32) (sketchClass : SketchClass) (g u : UInt64)
    (s : Sketch) : Prop :=
  ∃ (n : Int32) (s₀ : Sketch) (ops : List Op) (st : State), construct n g u = .ok s₀ ∧
    (∀ op ∈ ops, op.KeepsUnits g u) ∧ ops.foldlM (Op.run hash sketchClass) ⟨s₀, []⟩ = some st ∧
    st.sketch = s

/-- The sketch has the tables and the levels that the constructor gives for some capacity. -/
def Built (g u : UInt64) (s : Sketch) : Prop :=
  ∃ n p levels, Accepted n g u p levels ∧ SameLayout (fresh n g u p levels) s

variable {sketchClass : SketchClass} {g u : UInt64} {st st' : State}

theorem changeCapacity_eq (s : Sketch) (n : Int32) (g u : UInt64) :
    changeCapacity s n g u = (construct n g u).map fun f =>
      { f with granularity := s.granularity, unitSize := s.unitSize, doingReset := s.doingReset } := by
  rw [construct, changeCapacity, changeCapacity]
  split
  · rfl
  · split
    · rfl
    · dsimp only
      split
      · rfl
      · cases levelTables (Nat.log2 (Detail.nearestPowerOfTwo (u / g).toUInt32).toNat + 1)
          (Detail.nearestPowerOfTwo n.toUInt32).toInt32 <;> rfl

theorem Built.of_sameLayout (h : Built g u s) (hl : SameLayout s s') : Built g u s' := by
  obtain ⟨n, p, levels, hacc, hs⟩ := h
  exact ⟨n, p, levels, hacc, hs.trans hl⟩

theorem built_of_construct {n : Int32} (h : construct n g u = .ok s) : Built g u s := by
  obtain ⟨p, levels, hacc, rfl⟩ := accepted_of_construct h
  exact ⟨n, p, levels, hacc, SameLayout.refl _⟩

theorem Built.exists_of_changeCapacity (h : Built g u s) {n : Int32}
    (hc : RangeSketch.changeCapacity s n g u = .ok s') :
    ∃ f, construct n g u = .ok f ∧ s' = { f with doingReset := s.doingReset } := by
  obtain ⟨_, _, _, _, hs⟩ := h
  rw [changeCapacity_eq] at hc
  cases hn : construct n g u with
  | error e =>
    rw [hn] at hc
    cases hc
  | ok f =>
    rw [hn] at hc
    cases hc
    obtain ⟨p, levels, -, rfl⟩ := accepted_of_construct hn
    refine ⟨_, rfl, ?_⟩
    rw [hs.granularity_eq, hs.unitSize_eq]
    rfl

theorem Built.changeCapacity (h : Built g u s) {n : Int32}
    (hc : RangeSketch.changeCapacity s n g u = .ok s') : Built g u s' := by
  obtain ⟨f, hf, rfl⟩ := h.exists_of_changeCapacity hc
  exact (built_of_construct hf).of_sameLayout ⟨rfl, rfl, rfl, rfl, rfl⟩

theorem Op.run_cases {op : Op} (hop : op.KeepsUnits g u)
    (hrun : op.run hash sketchClass st = some st') :
    (∃ unitId t size, sketchClass.recordAccess hash st.sketch unitId t size = .ok st'.sketch) ∨
    st'.sketch = reset st.sketch ∨ (∃ flag, st'.sketch = { st.sketch with doingReset := flag }) ∨
    ∃ n, RangeSketch.changeCapacity st.sketch n g u = .ok st'.sketch := by
  cases op with
  | step op =>
    rw [Op.run] at hrun
    cases op with
    | record unitId t size =>
      rw [ResetThreads.step] at hrun
      split at hrun
      · next s hs =>
        cases hrun
        exact Or.inl ⟨unitId, t, size, hs⟩
      · cases hrun
    | tryReset =>
      by_cases hdue : st.sketch.size ≥ samplingSize st.sketch
      · rw [step_tryReset_due hdue] at hrun
        cases hrun
        exact Or.inr (Or.inr (Or.inl ⟨true, rfl⟩))
      · rw [step_tryReset_not_due hdue] at hrun
        cases hrun
        exact Or.inr (Or.inr (Or.inl ⟨st.sketch.doingReset, rfl⟩))
    | runReset i =>
      rw [ResetThreads.step] at hrun
      split at hrun
      · cases hrun
        exact Or.inr (Or.inl rfl)
      · cases hrun
    | clearFlag i =>
      rw [ResetThreads.step] at hrun
      split at hrun
      · cases hrun
        exact Or.inr (Or.inr (Or.inl ⟨false, rfl⟩))
      · cases hrun
  | mustReset =>
    cases hrun
    exact Or.inr (Or.inl rfl)
  | softReset =>
    cases hrun
    exact Or.inr (Or.inl rfl)
  | changeCapacity n granularity unitSize =>
    obtain ⟨rfl, rfl⟩ := hop
    rw [Op.run] at hrun
    split at hrun
    · next s hs =>
      cases hrun
      exact Or.inr (Or.inr (Or.inr ⟨n, hs⟩))
    · cases hrun

theorem Built.step {op : Op} (h : Built g u st.sketch) (hop : op.KeepsUnits g u)
    (hrun : op.run hash sketchClass st = some st') : Built g u st'.sketch := by
  obtain ⟨unitId, t, size, hs⟩ | hs | ⟨flag, hs⟩ | ⟨n, hs⟩ := Op.run_cases hop hrun
  · exact h.of_sameLayout (recordAccess_sameLayout hs)
  · rw [hs]
    exact h.of_sameLayout (reset_sameLayout _)
  · rw [hs]
    exact h.of_sameLayout ⟨rfl, rfl, rfl, rfl, rfl⟩
  · exact h.changeCapacity hs

theorem Reached.induction {P : Sketch → Prop} (hnew : ∀ n s, construct n g u = .ok s → P s)
    (hrecord : ∀ s s' unitId t size, Built g u s → P s →
      sketchClass.recordAccess hash s unitId t size = .ok s' → P s')
    (hreset : ∀ s, P s → P (reset s)) (hflag : ∀ s flag, P s → P { s with doingReset := flag })
    (h : Reached hash sketchClass g u s) : Built g u s ∧ P s := by
  obtain ⟨n, s₀, ops, st, hs₀, hops, hrun, rfl⟩ := h
  have hpasses : Passes (Op.run hash sketchClass) ⟨s₀, []⟩ ops st := ⟨ops, List.prefix_refl _, hrun⟩
  refine passes_invariant (I := fun st => Built g u st.sketch ∧ P st.sketch)
    (C := fun _ op => op.KeepsUnits g u) (fun st op st' hI hC hstep => ?_)
    ⟨built_of_construct hs₀, hnew n s₀ hs₀⟩ ?_ hpasses
  · obtain ⟨hbuilt, hP⟩ := hI
    refine ⟨hbuilt.step hC hstep, ?_⟩
    obtain ⟨unitId, t, size, hs⟩ | hs | ⟨flag, hs⟩ | ⟨n', hs⟩ := Op.run_cases hC hstep
    · exact hrecord _ _ unitId t size hbuilt hP hs
    · rw [hs]
      exact hreset _ hP
    · rw [hs]
      exact hflag _ flag hP
    · obtain ⟨f, hf, hs⟩ := hbuilt.exists_of_changeCapacity hs
      rw [hs]
      exact hflag _ _ (hnew n' f hf)
  · intro pre op st hp _
    exact hops op (hp.subset (by simp))

theorem Reached.built (h : Reached hash sketchClass g u s) : Built g u s :=
  (Reached.induction (P := fun _ => True) (fun _ _ _ => trivial) (fun _ _ _ _ _ _ _ _ => trivial)
    (fun _ _ => trivial) (fun _ _ _ => trivial) h).1

theorem reached_of_construct {n : Int32} (hash : UInt64 → UInt64 → UInt32)
    (sketchClass : SketchClass) (h : construct n g u = .ok s) : Reached hash sketchClass g u s :=
  ⟨n, s, [], ⟨s, []⟩, h, by simp, rfl, rfl⟩

theorem Reached.record (h : Reached hash sketchClass g u s) {unitId t size : UInt64}
    (hs : sketchClass.recordAccess hash s unitId t size = .ok s') :
    Reached hash sketchClass g u s' := by
  obtain ⟨n, s₀, ops, st, hs₀, hops, hrun, rfl⟩ := h
  have hstep : Op.run hash sketchClass st (.step (.record unitId t size)) =
      some { st with sketch := s' } := by
    rw [Op.run, ResetThreads.step, hs]
  refine ⟨n, s₀, ops ++ [.step (.record unitId t size)], { st with sketch := s' }, hs₀, ?_, ?_, rfl⟩
  · intro op hop
    obtain hop | hop := List.mem_append.mp hop
    · exact hops op hop
    · rw [List.mem_singleton.mp hop]
      trivial
  · rw [List.foldlM_append, hrun]
    exact (bind_pure _).trans hstep

theorem SameLayout.size_levelTable (h : SameLayout s s') (level : Nat) :
    (levelTable s' level).size = (levelTable s level).size := by
  have hsize (s : Sketch) : (levelTable s level).size =
      ((s.mixCounters.map Array.size)[level]?).getD 0 := by
    rw [levelTable, Array.getElem?_map]
    cases s.mixCounters[level]? <;> rfl
  rw [hsize, hsize, h.sizes]

theorem SameLayout.count (h : SameLayout s s') : s'.mixCounters.size = s.mixCounters.size := by
  rw [← Array.size_map, h.sizes, Array.size_map]

theorem shape_of_sameLayout {n : Int32} {p levels : Nat} (hacc : Accepted n g u p levels)
    (h : SameLayout (fresh n g u p levels) s) (hle : levels ≤ p + 1) : Shape p levels s := by
  have hpos : 0 < levels := by
    rw [← hacc.levels_eq]
    exact Nat.succ_pos _
  have hf := shape_fresh hacc.p_le hpos hle (s := fresh n g u p levels) rfl rfl
  refine ⟨h.count.trans hf.count, h.counterLevel_eq, hpos, hle, hacc.p_le, fun k hk => ?_⟩
  obtain ⟨hsize, hp⟩ := hf.sized k hk
  exact ⟨(h.size_levelTable k).trans hsize, hp⟩

theorem SameLayout.nonempty (h : SameLayout s s') (hne : ∀ table ∈ s'.mixCounters, 0 < table.size) :
    ∀ table ∈ s.mixCounters, 0 < table.size := by
  have hall (s : Sketch) : (∀ table ∈ s.mixCounters, 0 < table.size) ↔
      ∀ size ∈ s.mixCounters.map Array.size, 0 < size := by
    simp only [Array.mem_map, forall_exists_index, and_imp, forall_apply_eq_imp_iff₂]
  rw [hall, h.sizes] at hne
  exact (hall s).mpr hne

theorem Built.ready (h : Built g u s) {N : Nat} (hgeo : Geometry g u N) (hN : N < 2 ^ 31)
    (hne : ∀ table ∈ s.mixCounters, 0 < table.size) : ∃ p, Ready g u N p s := by
  obtain ⟨n, p, levels, hacc, hlay⟩ := h
  obtain rfl := hacc.levels_clog hacc.units_pos (by rw [hgeo.div_eq]; exact hN.le)
  have hle := levels_le_of_nonempty (hlay.nonempty hne)
  have hshape := shape_of_sameLayout hacc hlay hle
  rw [hgeo.div_eq] at hshape
  exact ⟨p, hgeo, hshape, hlay.granularity_eq, hlay.unitSize_eq, hN⟩

end DistExp.RangeRuns
