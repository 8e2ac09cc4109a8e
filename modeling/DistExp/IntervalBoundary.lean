import DistExp.IntervalEstimates
import DistExp.RangeRuns

namespace DistExp.IntervalBoundary

open DistExp.Library.MachineInt DistExp.Library.AgedCounter DistExp.Library.HalvingTree
open DistExp.Library.Runs
open DistExp.PackedTable DistExp.RangeSketch DistExp.RangeCounters DistExp.RangeGeometry
open DistExp.RangeRuns DistExp.IntervalSketch DistExp.IntervalHistory DistExp.IntervalEstimates

/-- A query over the access that was just recorded counts each of its granules. -/
def Counted (hash : UInt64 → UInt64 → UInt32) (s : Sketch) (g : UInt64) (a : Access) : Prop :=
  ∃ s' f, recordAccess hash s a.unitId a.t a.size = .ok s' ∧
    frequency hash s' a.unitId a.t a.size = .ok f ∧ ((a.size.toNat / g.toNat : Nat) : Int) ≤ f.toInt

variable {hash : UInt64 → UInt64 → UInt32} {g u : UInt64} {N p : Nat} {s : Sketch} {a : Access}

section Empty

theorem innerFrequency_zero {fuel b : Nat} (hb : b < 2 ^ 31) {unitId : UInt64}
    {base left upperLevel f : Int32}
    (h : innerFrequency hash fuel s unitId base left 0 0 (Int32.ofNat b) upperLevel = .ok f) :
    f = 0 := by
  induction fuel generalizing b left upperLevel f with
  | zero => cases h
  | succ fuel ih =>
    have hmid : (0 : Int32) + (Int32.ofNat b - 0) / 2 = Int32.ofNat (b / 2) := by
      rw [Int32.zero_add, Int32.sub_zero, ofNat_half hb]
    have hhalf : b / 2 < 2 ^ 31 := by omega
    have hlow : min (Int32.ofNat (b / 2)) 0 = 0 := by
      have hmin := min_ofNat hhalf (show 0 < 2 ^ 31 by decide)
      rwa [Nat.min_zero] at hmin
    have hupp : ¬ Int32.ofNat (b / 2) < 0 := by
      rw [Int32.lt_iff_toInt_lt, Int32.toInt_ofNat_of_lt hhalf]
      exact Int.not_lt.mpr (Int.natCast_nonneg _)
    rw [innerFrequency] at h
    split at h
    · cases h
    · split at h
      · next hwhole =>
        obtain ⟨table, -, h⟩ := exists_of_bind_ok h
        obtain ⟨count, -, h⟩ := exists_of_bind_ok h
        cases h
        rw [← hwhole.2, Int32.sub_zero, Int32.mul_zero]
      · rw [hmid] at h
        dsimp only at h
        rw [hlow, if_neg hupp] at h
        obtain ⟨lower, hl, h⟩ := exists_of_bind_ok h
        cases h
        rw [Int32.add_zero]
        split at hl
        · exact ih hhalf hl
        · cases hl
          rfl

theorem frequency_of_end {unitId t size : UInt64} {f : Int32} (hr : rightOf s t size = 0)
    (h : frequency hash s unitId t size = .ok f) : f = 0 := by
  rw [frequency, hr] at h
  by_cases hstop : 0 ≤ toInt (granules s)
  · rw [← Int32.ofNat_toNatClampNeg _ hstop] at h
    exact innerFrequency_zero (Int32.toNatClampNeg_lt _) h
  · rw [fuel, innerFrequency, if_pos fun hin => hstop hin.2] at h
    cases h

end Empty

theorem not_counted_of_end (hgeo : s.granularity = g ∧ s.unitSize = u) (ha : a.Aligned g)
    (hg : 0 < g.toNat) (hr : a.right g u = 0) : ¬ Counted hash s g a := by
  rintro ⟨s', f, hrun, hf, hle⟩
  have hlay := @recordAccess_sameLayout _ _ _ .interval _ _ _ hrun
  have hright : rightOf s' a.t a.size = 0 := by
    have hof : rightOf s' a.t a.size = Int32.ofNat (a.right g u) := by
      rw [rightOf, hlay.granularity_eq, hlay.unitSize_eq, hgeo.1, hgeo.2]
      rfl
    rw [hof, hr]
    rfl
  have hpos := ha.granules_pos hg
  rw [frequency_of_end hright hf, Int32.toInt_zero] at hle
  omega

theorem not_counted_of_wrapped (hgeo : s.granularity = g ∧ s.unitSize = u)
    (hu : u.toNat = N * g.toNat) (hN : N < 2 ^ 31) (hg : 0 < g.toNat)
    (hwrap : 2 ^ 64 < u.toNat + g.toNat) (ha : a.Aligned g)
    (hend : a.t.toNat + a.size.toNat < 2 ^ 64)
    (hin : a.t.toNat % u.toNat + a.size.toNat < u.toNat) : ¬ Counted hash s g a := by
  rintro ⟨s', f, hrun, hf, -⟩
  have hlay := @recordAccess_sameLayout _ _ _ .interval _ _ _ hrun
  have hpos := ha.granules_pos hg
  have heq := ha.right_eq hend hin
  have hbad : ¬ rightOf s' a.t a.size ≤ toInt (granules s') :=
    right_not_le_of_wrapped (hlay.granularity_eq.trans hgeo.1) (hlay.unitSize_eq.trans hgeo.2) hg hu
      hN.le hwrap (by omega)
  rw [frequency, fuel, innerFrequency, if_pos fun hguard => hbad hguard.2] at hf
  cases hf

theorem one_le_rowMin (f : Cell → Nat) (hf : ∀ c, f c ≤ 15) {node : Node}
    (hnode : node ∈ touchedNodes g u N a) :
    1 ≤ rowMin intMax (raiseAll 15 f ((touchedNodes g u N a).flatMap (nodeRows hash p N false)))
      (nodeRows hash p N false node) := by
  apply le_rowMin _ _ (by decide)
  intro c hc
  have hm : c ∈ (touchedNodes g u N a).flatMap (nodeRows hash p N false) :=
    List.mem_flatMap.mpr ⟨node, hnode, hc⟩
  exact raiseAll_pos 15 f (by decide) (hf c) hm

theorem counted_of_lt (hash : UInt64 → UInt64 → UInt32) (h : Ready g u N p s)
    (hflag : s.doingReset = false) (ha : a.Aligned g)
    (hend : a.t.toNat + a.size.toNat < 2 ^ 64)
    (hin : a.t.toNat % u.toNat + a.size.toNat < u.toNat)
    (hfit : 15 * (a.size.toNat / g.toNat) < 2 ^ 31) : Counted hash s g a := by
  have hright := ha.right_eq hend hin
  have hpos := ha.granules_pos h.geometry.granularity_pos
  have hlr : a.left g u < a.right g u := by omega
  have hrN := (h.geometry.right_lt a).le
  obtain ⟨s', hrun, hs', -, hcells⟩ := recordAccess_eq hash h hflag a
  have hub := exactSum_le hash hs' hlr
  have hlb : a.size.toNat / g.toNat ≤ exactSum hash g u N p s' a := by
    have hsize := sum_size_cover h.geometry.fits (Nat.zero_le _) hlr hrN
    calc a.size.toNat / g.toNat
        = (queryCover g u N a |>.map Seg.size).sum := by rw [queryCover, hsize]; omega
      _ ≤ exactSum hash g u N p s' a := by
        apply List.sum_le_sum
        intro seg hseg
        -- a node of the decomposition is one that the access went through
        obtain ⟨hnode, hlo, hhi⟩ := mem_cover h.geometry.fits (Nat.zero_le _) hlr hrN hseg
        obtain ⟨-, hlt, -, -⟩ := mem_nodes_bounds h.geometry.fits hnode
        have hmem : ⟨a.unitId, a.unit u, seg⟩ ∈ touchedNodes g u N a :=
          (mem_touchedNodes h.geometry hlr hnode).mpr
            ⟨rfl, rfl, hlt.trans_le hhi, hlo.trans_lt hlt⟩
        have hone := @one_le_rowMin hash g u N p a _ (sketchCells_le s) _ hmem
        rw [← hcells] at hone
        exact Nat.le_mul_of_pos_left _ hone
  refine ⟨s', _, hrun, frequency_eq hash hs' hlr, ?_⟩
  rw [Int32.toInt_ofNat_of_lt (by omega)]
  exact Int.ofNat_le.mpr hlb

/-- An access that ends with its unit is computed to end where the unit starts, and is not counted.
An access that ends before is counted, as long as no number on the way leaves its type. -/
theorem counted_iff_before_end (hash : UInt64 → UInt64 → UInt32)
    (hreach : Reached hash .interval g u s) (hu : u.toNat = N * g.toNat)
    (hne : ∀ table ∈ s.mixCounters, 0 < table.size) (hflag : s.doingReset = false)
    (ha : a.Aligned g) (hin : a.t.toNat % u.toNat + a.size.toNat ≤ u.toNat) :
    (a.t.toNat + a.size.toNat ≤ 2 ^ 64 → Counted hash s g a →
      a.t.toNat % u.toNat + a.size.toNat < u.toNat) ∧
    (N < 2 ^ 31 → a.t.toNat + a.size.toNat < 2 ^ 64 → 15 * (a.size.toNat / g.toNat) < 2 ^ 31 →
      (Counted hash s g a ↔
        a.t.toNat % u.toNat + a.size.toNat < u.toNat ∧ u.toNat + g.toNat ≤ 2 ^ 64)) := by
  obtain ⟨n, p, levels, hacc, hlay⟩ := hreach.built
  have hg := hacc.granularity_pos
  have hgeo : s.granularity = g ∧ s.unitSize = u := ⟨hlay.granularity_eq, hlay.unitSize_eq⟩
  have hlost (hend : a.t.toNat + a.size.toNat ≤ 2 ^ 64) (hc : Counted hash s g a) :
      a.t.toNat % u.toNat + a.size.toNat < u.toNat := by
    by_contra hlast
    have heq : a.t.toNat % u.toNat + a.size.toNat = u.toNat := le_antisymm hin (not_lt.mp hlast)
    exact not_counted_of_end hgeo ha hg (Access.right_of_end hend heq) hc
  refine ⟨hlost, fun hN hend hfit => ⟨fun hc => ?_, fun ⟨hlt, hroom⟩ => ?_⟩⟩
  · have hlt := hlost hend.le hc
    refine ⟨hlt, ?_⟩
    by_contra hwrap
    exact not_counted_of_wrapped hgeo hu hN hg (not_le.mp hwrap) ha hend hlt hc
  · have hpos : 1 ≤ N := by
      have hunits := hacc.units_pos
      rwa [UInt64.toNat_div, hu, Nat.mul_div_cancel _ hg] at hunits
    obtain ⟨p, hready⟩ := hreach.built.ready ⟨hg, hpos, hu, hroom⟩ hN hne
    exact counted_of_lt hash hready hflag ha hend hlt hfit

theorem counted_iff_before_end_three : construct 4 1 3 = .ok (fresh 4 1 3 2 3) ∧
    Counted Detail.hash (fresh 4 1 3 2 3) 1 ⟨0, 3, 2⟩ := by
  refine ⟨construct_three, ?_⟩
  have hiff := (counted_iff_before_end (N := 3) (a := ⟨0, 3, 2⟩) Detail.hash
    (reached_of_construct Detail.hash .interval construct_three) rfl
    (nonempty_of_levels_le (by decide)) rfl ⟨by decide, by decide, by decide⟩ (by decide)).2
    (by decide) (by decide) (by decide)
  exact hiff.mpr (by decide)

theorem last_granule_lost : construct 4 1 4 = .ok (fresh 4 1 4 2 3) ∧
    (∀ table ∈ (fresh 4 1 4 2 3).mixCounters, 0 < table.size) ∧
    Access.Aligned 1 ⟨0, 3, 1⟩ ∧ (3 % 4 + 1 ≤ 4) ∧
    (∃ s', recordAccess Detail.hash (fresh 4 1 4 2 3) 0 3 1 = .ok s' ∧
      frequency Detail.hash s' 0 3 1 = .ok 0) ∧
    ¬ Counted Detail.hash (fresh 4 1 4 2 3) 1 ⟨0, 3, 1⟩ := by
  have hrun : (recordAccess Detail.hash (fresh 4 1 4 2 3) 0 3 1 >>=
      fun s' => frequency Detail.hash s' 0 3 1) = .ok 0 := by decide +kernel
  have ha : Access.Aligned 1 ⟨0, 3, 1⟩ := ⟨by decide, by decide, by decide⟩
  refine ⟨construct_four, nonempty_of_levels_le (by decide), ha, by decide,
    exists_of_bind_ok hrun, ?_⟩
  exact not_counted_of_end (u := 4) ⟨rfl, rfl⟩ ha (by decide) rfl

end DistExp.IntervalBoundary
