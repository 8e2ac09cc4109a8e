import DistExp.IntervalHistory

namespace DistExp.IntervalEstimates

open DistExp.Library.MachineInt DistExp.Library.AgedCounter DistExp.Library.HalvingTree
open DistExp.PackedTable DistExp.RangeSketch DistExp.RangeCounters DistExp.RangeGeometry
open DistExp.IntervalSketch DistExp.IntervalHistory

variable {hash : UInt64 → UInt64 → UInt32} {g u : UInt64} {N p : Nat} {s : Sketch}

def queryCover (g u : UInt64) (N : Nat) (q : Access) : List Seg :=
  cover (Nat.clog 2 N + 1) (q.left g u) (q.right g u) 0 N

def exactSum (hash : UInt64 → UInt64 → UInt32) (g u : UInt64) (N p : Nat) (s : Sketch)
    (q : Access) : Nat :=
  estimate s (fun seg => nodeRows hash p N false ⟨q.unitId, q.unit u, seg⟩) (queryCover g u N q)

theorem frequency_eq (hash : UInt64 → UInt64 → UInt32)
    (h : Ready g u N p s) {q : Access} (hlr : q.left g u < q.right g u) :
    frequency hash s q.unitId q.t q.size = .ok (Int32.ofNat (exactSum hash g u N p s q)) := by
  have hr := h.geometry.right_lt q
  have hsmall := h.small
  rw [frequency, h.baseOf_eq, h.leftOf_eq, h.rightOf_eq, h.stop_eq, h.shape.level_eq]
  exact innerFrequency_eq h.levels_le h.geometry.fits le_rfl h.shape (Nat.zero_le _) hlr hr.le
    hsmall q.unitId (unitBase N (q.unit u))

theorem exactSum_le (hash : UInt64 → UInt64 → UInt32)
    (h : Ready g u N p s) {q : Access} (hlr : q.left g u < q.right g u) :
    exactSum hash g u N p s q ≤ 15 * (q.right g u - q.left g u) := by
  have hr := h.geometry.right_lt q
  rw [← sum_size_cover h.geometry.fits (Nat.zero_le _) hlr hr.le, exactSum, estimate,
    ← List.sum_map_mul_left]
  apply List.sum_le_sum
  intro seg _
  exact Nat.mul_le_mul_right _ (rowMin_nodeRows_le hash p N s false _)

theorem mem_touchedNodes (hgeo : Geometry g u N) {a : Access} (hlr : a.left g u < a.right g u)
    {node : Node} (hnode : node.seg ∈ nodes (Nat.clog 2 N + 1) 0 N) :
    node ∈ touchedNodes g u N a ↔ a.unitId = node.unitId ∧ a.unit u = node.unit ∧
      node.seg.lo < a.right g u ∧ a.left g u < node.seg.hi := by
  have hm := mem_touched hgeo.fits (Nat.zero_le _) hlr (hgeo.right_lt a).le node.seg
  rw [touchedNodes, List.mem_map]
  constructor
  · rintro ⟨seg, hs, rfl⟩
    exact ⟨rfl, rfl, (hm.mp hs).2⟩
  · rintro ⟨h1, h2, h3⟩
    exact ⟨node.seg, hm.mpr ⟨hnode, h3⟩, by rw [h1, h2]⟩

theorem granuleRef_le_rowMin {ops : List Op} (h : Counts hash g u N p s (ops.map Op.event))
    (node : Node) (hnode : node.seg ∈ nodes (Nat.clog 2 N + 1) 0 N) {c : Nat}
    (hlo : node.seg.lo ≤ c) (hhi : c < node.seg.hi) :
    granuleRef g u ops node.unitId node.unit c ≤
      rowMin intMax (sketchCells s) (nodeRows hash p N false node) := by
  have hn := present_le_rowMin 15 (touchedNodes g u N) (nodeRows hash p N false)
    (show 15 ≤ intMax by decide) (ops.map Op.event) node
  rw [h.sketchCells_eq]
  refine le_trans (aged_mono 15 _ fun a _ => ?_) hn
  by_cases hc : a.Covers g u node.unitId node.unit c
  · have hm : node ∈ touchedNodes g u N a := by
      obtain ⟨h1, h2, h3, h4⟩ := hc
      rw [mem_touchedNodes h.ready.geometry (by omega) hnode]
      exact ⟨h1, h2, by omega, by omega⟩
    rw [if_pos hc, present, if_pos hm]
  · rw [if_neg hc]
    exact Nat.zero_le _

theorem sum_granuleRef_le {ops : List Op} (h : Counts hash g u N p s (ops.map Op.event))
    {q : Access} (hlr : q.left g u < q.right g u) :
    ∑ c ∈ Finset.Ico (q.left g u) (q.right g u), granuleRef g u ops q.unitId (q.unit u) c ≤
      exactSum hash g u N p s q := by
  have hfits := h.ready.geometry.fits
  have hr := (h.ready.geometry.right_lt q).le
  rw [← sum_cover hfits (Nat.zero_le _) hlr hr]
  apply List.sum_le_sum
  intro seg hseg
  obtain ⟨hnode, -, -⟩ := mem_cover hfits (Nat.zero_le _) hlr hr hseg
  calc ∑ c ∈ Finset.Ico seg.lo seg.hi, granuleRef g u ops q.unitId (q.unit u) c
      ≤ (Finset.Ico seg.lo seg.hi).card • rowMin intMax (sketchCells s)
          (nodeRows hash p N false ⟨q.unitId, q.unit u, seg⟩) := by
        apply Finset.sum_le_card_nsmul
        intro c hc
        obtain ⟨hlo, hhi⟩ := Finset.mem_Ico.mp hc
        exact granuleRef_le_rowMin h ⟨q.unitId, q.unit u, seg⟩ hnode hlo hhi
    _ = rowMin intMax (sketchCells s)
          (nodeRows hash p N false ⟨q.unitId, q.unit u, seg⟩) * seg.size := by
        rw [Nat.card_Ico, smul_eq_mul, Nat.mul_comm]
        rfl

/-- `interval_sketch` never underestimates: whatever nodes collide, after any sequence of accesses
and resets a query returns, as an `int`, a sum that is at least the sum of the exact counters of
its granules and at most fifteen a granule. -/
theorem frequency_ge_granuleRefs (hash : UInt64 → UInt64 → UInt32)
    (hgeo : Geometry g u N) {n : Int32} {s₀ : Sketch}
    (hs₀ : construct n g u = .ok s₀) (hne : ∀ table ∈ s₀.mixCounters, 0 < table.size)
    (ops : List Op) {q : Access} (hq : q.InBounds g u) (hlr : q.left g u < q.right g u) :
    ∃ s f sum, ops.foldlM (Op.run hash) s₀ = .ok s ∧
      frequency hash s q.unitId q.t q.size = .ok f ∧ f = Int32.ofNat sum ∧
      ∑ c ∈ Finset.Ico (q.left g u) (q.right g u), granuleRef g u ops q.unitId (q.unit u) c ≤ sum ∧
      sum ≤ 15 * (q.right g u - q.left g u) ∧
      (15 * (q.right g u - q.left g u) < 2 ^ 31 →
        ((∑ c ∈ Finset.Ico (q.left g u) (q.right g u),
          granuleRef g u ops q.unitId (q.unit u) c : Nat) : Int) ≤ f.toInt) := by
  obtain ⟨p, hc₀⟩ := construct_counts hash hgeo hs₀ hne (hgeo.le_of_inBounds hq)
  obtain ⟨s, hrun, hc⟩ := run_counts hc₀ ops
  have hle := sum_granuleRef_le hc hlr
  have hub := exactSum_le hash hc.ready hlr
  refine ⟨s, _, _, hrun, frequency_eq hash hc.ready hlr, rfl, hle, hub, fun hfit => ?_⟩
  rw [Int32.toInt_ofNat_of_lt (by omega)]
  exact Int.ofNat_le.mpr hle

def threeOps : List Op := [.record ⟨0, 3, 2⟩, .record ⟨0, 3, 2⟩, .mustReset, .record ⟨0, 4, 1⟩]

theorem sum_granuleRef_three :
    ∑ c ∈ Finset.Ico (Access.left 1 3 ⟨0, 3, 2⟩) (Access.right 1 3 ⟨0, 3, 2⟩),
      granuleRef 1 3 threeOps 0 (Access.unit 3 ⟨0, 3, 2⟩) c = 3 := by
  decide

theorem frequency_ge_granuleRefs_three :
    ∃ s f, threeOps.foldlM (Op.run Detail.hash) (fresh 4 1 3 2 3) = .ok s ∧
      frequency Detail.hash s 0 3 2 = .ok f ∧ 3 ≤ f.toInt := by
  obtain ⟨s, f, sum, hrun, hf, -, -, -, hle⟩ := frequency_ge_granuleRefs Detail.hash
    (N := 3) ⟨by decide, by decide, rfl, by decide⟩ construct_three
    (nonempty_of_levels_le (by decide)) threeOps (q := ⟨0, 3, 2⟩) (by decide) (by decide)
  refine ⟨s, f, hrun, hf, ?_⟩
  rw [sum_granuleRef_three] at hle
  exact hle (by decide)

/-- A whole unit of `2 ^ 28` granules but the last one. -/
def hugeAccess : Access := ⟨0, 0, 268435455⟩

def hugeSketch : Sketch := fresh 268435456 1 268435456 28 29

theorem hugeGeometry : Geometry 1 268435456 268435456 := ⟨by decide, by decide, rfl, by decide⟩

theorem construct_huge : construct 268435456 1 268435456 = .ok hugeSketch :=
  construct_eq (by decide) (by decide) (by decide) rfl rfl (by decide)

theorem hugeSketch_nonempty : ∀ table ∈ hugeSketch.mixCounters, 0 < table.size :=
  nonempty_of_levels_le (by decide)

theorem hugeAccess_left : hugeAccess.left 1 268435456 = 0 := rfl

theorem hugeAccess_right : hugeAccess.right 1 268435456 = 268435455 := rfl

theorem huge_granuleRef {c : Nat} (hc : c < 268435455) :
    granuleRef 1 268435456 (List.replicate 15 (.record hugeAccess)) 0 0 c = 15 := by
  have he : (List.replicate 15 (Op.record hugeAccess)).map Op.event =
      (List.replicate 15 hugeAccess).map Event.hit := rfl
  have hcov : hugeAccess.Covers 1 268435456 0 0 c := by
    refine ⟨rfl, rfl, ?_, ?_⟩
    · rw [hugeAccess_left]; exact Nat.zero_le c
    · rw [hugeAccess_right]; exact hc
  rw [granuleRef, he, aged_hits, List.map_replicate, if_pos hcov]
  rfl

theorem huge_sum_granuleRef :
    ∑ c ∈ Finset.Ico 0 268435455,
      granuleRef 1 268435456 (List.replicate 15 (.record hugeAccess)) 0 0 c = 4026531825 := by
  rw [Finset.sum_congr rfl fun c hc => huge_granuleRef (Finset.mem_Ico.mp hc).2,
    Finset.sum_const, Nat.card_Ico]
  rfl

theorem huge_frequency (hash : UInt64 → UInt64 → UInt32) :
    ∃ s, (List.replicate 15 (Op.record hugeAccess)).foldlM (Op.run hash) hugeSketch = .ok s ∧
      frequency hash s 0 0 268435455 = .ok (Int32.ofNat 4026531825) := by
  have hlr : hugeAccess.left 1 268435456 < hugeAccess.right 1 268435456 := by decide
  obtain ⟨p, hc₀⟩ := construct_counts hash hugeGeometry construct_huge
    hugeSketch_nonempty (by decide)
  obtain ⟨s, hrun, hc⟩ := run_counts hc₀ (List.replicate 15 (.record hugeAccess))
  have hle := sum_granuleRef_le hc hlr
  have hub := exactSum_le hash hc.ready hlr
  have hf := frequency_eq hash hc.ready hlr
  rw [hugeAccess_left, hugeAccess_right] at hle hub
  have hsum := (huge_sum_granuleRef.symm.le.trans hle)
  rw [le_antisymm hub hsum] at hf
  exact ⟨s, hrun, hf⟩

/-- Two ways to miss the exact count: the number of granules wraps and the first access fails an
assertion, or the sum of a query wraps and comes out negative. -/
theorem frequency_below_granuleRefs :
    (construct 2 0x7fffffffffffffff 0xfffffffffffffffe = .ok wideSketch ∧
      Access.InBounds 0x7fffffffffffffff 0xfffffffffffffffe ⟨0, 0, 0x7fffffffffffffff⟩ ∧
      [Op.record ⟨0, 0, 0x7fffffffffffffff⟩].foldlM (Op.run Detail.hash) wideSketch =
        .error .assertion) ∧
    (construct 268435456 1 268435456 = .ok hugeSketch ∧ hugeAccess.InBounds 1 268435456 ∧
      ∃ s f, (List.replicate 15 (.record hugeAccess)).foldlM (Op.run Detail.hash) hugeSketch =
          .ok s ∧ frequency Detail.hash s 0 0 268435455 = .ok f ∧
        f.toInt < (∑ c ∈ Finset.Ico 0 268435455,
          granuleRef 1 268435456 (List.replicate 15 (.record hugeAccess)) 0 0 c : Nat)) := by
  obtain ⟨s, hrun, hf⟩ := huge_frequency Detail.hash
  refine ⟨⟨construct_wide, by decide, rfl⟩, construct_huge, by decide, s, _, hrun, hf, ?_⟩
  rw [huge_sum_granuleRef]
  decide

end DistExp.IntervalEstimates
