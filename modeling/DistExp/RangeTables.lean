import DistExp.RangeLevels

namespace DistExp.RangeTables

open DistExp.Library.MachineInt DistExp.Library.CallTree
open DistExp.PackedTable DistExp.RangeSketch DistExp.RangeCounters DistExp.RangeCalls
open DistExp.ResetThreads DistExp.RangeRuns DistExp.RangeLevels

/-- Every call that goes on to counters finds a table for its level with at least one word, and
`table_index` points into it. Accesses change no sizes, so the tables are those before the call. -/
def TablesInBounds (hash : UInt64 → UInt64 → UInt32) (sketchClass : SketchClass) (s : Sketch) : Prop :=
  ∀ (r : Recursion) (t size : UInt64) (n : Nat) (c : Call), sketchClassOf r = sketchClass →
    Made r.calls (rootCall s t size) n c → Touches s r c →
      ∃ table, elemAt s.mixCounters (c.upperLevel - 1) = .ok table ∧ 0 < table.size ∧
        ∀ unitId j, (toSize (tableIndex table
          (hash unitId (toSize (baseOf s t + c.start))) j)).toNat < table.size

variable {hash : UInt64 → UInt64 → UInt32} {sketchClass : SketchClass} {g u : UInt64} {N : Nat}
  {s : Sketch}

theorem tablesInBounds_of_layout {n : Int32} {p levels : Nat} (hacc : Accepted n g u p levels)
    (hlay : SameLayout (fresh n g u p levels) s) (hu : u.toNat = N * g.toNat) (hN : N ≤ 2 ^ p) :
    TablesInBounds hash sketchClass s := by
  have hg := hacc.granularity_pos
  have hpow : 2 ^ p ≤ 2 ^ 30 := Nat.pow_le_pow_right (by decide) hacc.p_le
  have hdiv : u.toNat / g.toNat = N := by rw [hu, Nat.mul_div_cancel _ hg]
  have hlevels := hacc.levels_clog hacc.units_pos (by rw [UInt64.toNat_div]; omega)
  rw [UInt64.toNat_div, hdiv] at hlevels
  have hlog : Nat.clog 2 N ≤ p := Nat.clog_le_of_le_pow hN
  have hshape := shape_of_sameLayout hacc hlay (by omega)
  intro r t size d c _ hm _
  obtain ⟨level, hlt, hlevel⟩ := level_of_made hacc hlay (by omega)
    (Or.inl (by rw [hu]; exact Nat.dvd_mul_left _ _)) hm
  have hsized := hshape.sized level hlt
  rw [hlevel]
  refine ⟨levelTable s level, elemAt_level hshape hlt, ?_, fun unitId j => ?_⟩
  · rw [hsized.1]
    exact Nat.two_pow_pos _
  · rw [tableIndex_eq hsized, toSize_index hsized.2 (indexOf_lt _ _ _), hsized.1]
    exact indexOf_lt _ _ _

theorem toInt_zero_mod_div (u g : UInt64) : toInt (0 % u / g) = 0 := by
  rw [toInt, UInt64.toNat_div, UInt64.toNat_mod]
  simp

theorem rootCall_zero_asserted (hg : 0 < s.granularity.toNat)
    (hu : s.unitSize.toNat = N * s.granularity.toNat) (hN : N < 2 ^ 31) :
    (rootCall s 0 0).Asserted := by
  have hleft : leftOf s 0 = 0 := toInt_zero_mod_div _ _
  have hright : rightOf s 0 0 = 0 := toInt_zero_mod_div _ _
  have hcount : (granules s).toNat < 2 ^ 31 := by
    by_cases hroom : s.unitSize.toNat + s.granularity.toNat ≤ 2 ^ 64
    · rw [granules_toNat hg hroom, granuleCount_of_dvd hg (by rw [hu]; exact Nat.dvd_mul_left _ _), hu,
        Nat.mul_div_cancel _ hg]
      exact hN
    · rw [granules, add_sub_one_div_wrapped hg (by omega)]
      decide
  rw [rootCall, Call.Asserted, hleft, hright]
  exact ⟨Int32.le_refl _, (Int32.ofNat_le_iff_le (by decide) hcount).mpr (Nat.zero_le _)⟩

theorem levelTable_of_elemAt {level : Nat} {table : Table} (hl : level < 2 ^ 31)
    (h : elemAt s.mixCounters (Int32.ofNat level) = .ok table) : levelTable s level = table := by
  rw [elemAt_eq_ok_iff, toNat_toSize_ofNat hl] at h
  rw [levelTable, h, Option.getD_some]

/-- The tables halve from level to level, and the root of the tree is on the last one: every table
that an access or a query of any run uses has words exactly when a unit has no more granules than
the first table has words. Units that have more granules than an `int` can count are left out of
the converse. -/
theorem tables_in_bounds_iff (hash : UInt64 → UInt64 → UInt32) (sketchClass : SketchClass)
    {n : Int32} {s₀ : Sketch} (hs₀ : construct n g u = .ok s₀) (hu : u.toNat = N * g.toNat) :
    (N ≤ (Detail.nearestPowerOfTwo n.toUInt32).toNat →
      ∀ s, Reached hash sketchClass g u s → s.capacity = n → TablesInBounds hash sketchClass s) ∧
    (N < 2 ^ 31 →
      (∀ s, Reached hash sketchClass g u s → s.capacity = n → TablesInBounds hash sketchClass s) →
        N ≤ (Detail.nearestPowerOfTwo n.toUInt32).toNat) := by
  constructor
  · intro hN s hreach hcap
    obtain ⟨n', p, levels, hacc, hlay⟩ := hreach.built
    obtain rfl : n' = n := hlay.capacity_eq.symm.trans hcap
    rw [hacc.size_toNat] at hN
    exact tablesInBounds_of_layout hacc hlay hu hN
  · intro hN hall
    obtain ⟨p, levels, hacc, rfl⟩ := accepted_of_construct hs₀
    have hbounds := hall _ (reached_of_construct hash sketchClass hs₀) rfl
    have hg := hacc.granularity_pos
    have hdiv : u.toNat / g.toNat = N := by rw [hu, Nat.mul_div_cancel _ hg]
    have hlevels := hacc.levels_clog hacc.units_pos (by rw [UInt64.toNat_div]; omega)
    have hlog : Nat.clog 2 N ≤ 31 := Nat.clog_le_of_le_pow hN.le
    rw [UInt64.toNat_div, hdiv] at hlevels
    rw [hacc.size_toNat]
    by_contra hgt
    have hdeep : p < Nat.clog 2 N := by
      by_contra hle
      exact hgt ((Nat.le_pow_clog (by decide) N).trans (Nat.pow_le_pow_right (by decide) (by omega)))
    have hassert := rootCall_zero_asserted (s := fresh n g u p levels) hg hu hN
    have hlast : (fresh n g u p levels).counterLevel - 1 = Int32.ofNat (levels - 1) := by
      rw [Int32.ofNat_sub _ 1 (by omega)]
      rfl
    obtain ⟨table, htable, hpos⟩ : ∃ table, elemAt (fresh n g u p levels).mixCounters
        (Int32.ofNat (levels - 1)) = .ok table ∧ 0 < table.size := by
      rw [← hlast]
      cases sketchClass with
      | interval =>
        obtain ⟨table, ht, hpos, -⟩ := hbounds .intervalRecord 0 0 0 _ rfl .root ⟨hassert, rfl⟩
        exact ⟨table, ht, hpos⟩
      | gxj =>
        obtain ⟨table, ht, hpos, -⟩ := hbounds .gxjFrequency 0 0 0 _ rfl .root ⟨hassert, trivial⟩
        exact ⟨table, ht, hpos⟩
    have hsize : table.size = 2 ^ p / 2 ^ (levels - 1) := by
      rw [← levelTable_of_elemAt (by omega) htable, levelTable_fresh rfl, if_pos (by omega),
        Array.size_replicate]
    rw [hsize, Nat.div_eq_of_lt (Nat.pow_lt_pow_right (by decide) (by omega))] at hpos
    exact Nat.lt_irrefl 0 hpos

theorem tables_in_bounds_iff_three : construct 4 1 3 = .ok (fresh 4 1 3 2 3) ∧
    TablesInBounds Detail.hash .interval (fresh 4 1 3 2 3) :=
  ⟨construct_three, (tables_in_bounds_iff (N := 3) Detail.hash .interval construct_three rfl).1
    (by decide) _ (reached_of_construct Detail.hash .interval construct_three) rfl⟩

def cramped : Sketch := fresh 1 1 2 0 2

theorem construct_cramped : construct 1 1 2 = .ok cramped := rfl

/-- The first access of a sketch of capacity one is out of bounds, with both classes. -/
theorem table_missing : construct 1 1 2 = .ok cramped ∧
    ¬ TablesInBounds Detail.hash .interval cramped ∧ ¬ TablesInBounds Detail.hash .gxj cramped ∧
    IntervalSketch.recordAccess Detail.hash cramped 0 0 1 = .error .outOfRange ∧
    GxjSketch.frequency Detail.hash cramped 0 0 1 = .error .outOfRange := by
  have hempty : elemAt cramped.mixCounters ((rootCall cramped 0 1).upperLevel - 1) = .ok #[] := rfl
  refine ⟨construct_cramped, fun h => ?_, fun h => ?_, ?_, ?_⟩
  · obtain ⟨table, ht, hpos, -⟩ := h .intervalRecord 0 1 0 _ rfl .root ⟨by decide, rfl⟩
    cases hempty.symm.trans ht
    exact absurd hpos (by decide)
  · obtain ⟨table, ht, hpos, -⟩ := h .gxjFrequency 0 1 0 _ rfl .root ⟨by decide, trivial⟩
    cases hempty.symm.trans ht
    exact absurd hpos (by decide)
  all_goals exact eq_error_of_faultOf (by decide +kernel)

end DistExp.RangeTables
