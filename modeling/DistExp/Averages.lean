import DistExp.GxjSketch
import DistExp.CountMinSketch
import DistExp.ExactCount

namespace DistExp.Averages

open DistExp.Library.MachineInt
open DistExp.PackedTable DistExp.RangeCounters DistExp.RangeGeometry DistExp.GranuleLoop

/-- The four sketches whose `avg_frequency` divides by a number of granules, in any state. -/
inductive Averaging where
  | interval (s : RangeSketch.Sketch)
  | gxj (s : RangeSketch.Sketch)
  | countMin (s : CountMinSketch.Sketch)
  | exact (s : ExactCount.Sketch)

namespace Averaging

def granularity : Averaging → UInt64
  | .interval s => s.granularity
  | .gxj s => s.granularity
  | .countMin s => s.granularity
  | .exact s => s.granularity

def unitSize : Averaging → UInt64
  | .interval s => s.unitSize
  | .gxj s => s.unitSize
  | .countMin s => s.unitSize
  | .exact s => s.unitSize

variable (hash : UInt64 → UInt64 → UInt32) (hashZero : UInt64 → UInt32)

def avgFrequency (a : Access) : Averaging → Except Fault Int32
  | .interval s => IntervalSketch.avgFrequency hash s a.unitId a.t a.size
  | .gxj s => GxjSketch.avgFrequency hash s a.unitId a.t a.size
  | .countMin s => CountMinSketch.avgFrequency hashZero s a.unitId a.t a.size
  | .exact s => ExactCount.avgFrequency s a.unitId a.t a.size

def sumFrequency (a : Access) : Averaging → Except Fault Int32
  | .interval s => IntervalSketch.frequency hash s a.unitId a.t a.size
  | .gxj s => GxjSketch.frequency hash s a.unitId a.t a.size
  | .countMin s => do
    let ks ← keys s.granularity s.unitSize a.t a.size
    ks.foldlM (fun _ key => CountMinSketch.frequency hashZero s key) 0
  | .exact s => do
    let ks ← keys s.granularity s.unitSize a.t a.size
    ks.foldlM (fun _ key => ExactCount.frequency s key) 0

def cnt (a : Access) (sketch : Averaging) : Int32 :=
  cntOf sketch.granularity sketch.unitSize a.t a.size

theorem avgFrequency_eq (a : Access) (sketch : Averaging) :
    sketch.avgFrequency hash hashZero a = (do
      let sum ← sketch.sumFrequency hash hashZero a
      if sketch.cnt a = 0 then .error .divisionByZero else return sum / sketch.cnt a) := by
  cases sketch with
  | interval s => rfl
  | gxj s => rfl
  | countMin s => exact (bind_assoc _ _ _).symm
  | exact s => exact (bind_assoc _ _ _).symm

end Averaging

/-- The access goes over the end of the granule that it starts in. Up to the end of its unit it is
taken to end where the unit starts, so it has to start behind the first granule. -/
def LeavesGranule (g u : UInt64) (a : Access) : Prop :=
  0 < g.toNat ∧ if a.t.toNat % u.toNat + a.size.toNat < u.toNat
    then g.toNat ≤ a.t.toNat % u.toNat % g.toNat + a.size.toNat
    else g.toNat ≤ a.t.toNat % u.toNat

instance (g u : UInt64) (a : Access) : Decidable (LeavesGranule g u a) :=
  inferInstanceAs (Decidable (_ ∧ _))

variable {g u : UInt64} {a : Access}

theorem cntOf_eq_zero_iff (g u : UInt64) (a : Access) :
    cntOf g u a.t a.size = 0 ↔ a.left g u ≡ a.right g u [MOD 2 ^ 32] := by
  have hcnt : cntOf g u a.t a.size = Int32.ofNat (a.right g u) - Int32.ofNat (a.left g u) := rfl
  rw [hcnt, Int32.sub_eq_iff_eq_add, Int32.zero_add, ofNat_eq_iff_modEq]
  exact ⟨Nat.ModEq.symm, Nat.ModEq.symm⟩

theorem div_ne_add_div_iff {g : Nat} (hg : 0 < g) (x n : Nat) :
    x / g ≠ (x + n) / g ↔ g ≤ x % g + n := by
  have hsum : (x + n) / g = x / g + (x % g + n) / g := by
    conv_lhs => rw [← Nat.div_add_mod x g, Nat.add_assoc, Nat.mul_add_div hg]
  rw [hsum, ne_eq, Nat.left_eq_add, Nat.div_eq_zero_iff_lt hg, not_lt]

theorem left_ne_right_iff (hg : 0 < g.toNat) (hin : a.t.toNat % u.toNat + a.size.toNat ≤ u.toNat)
    (hend : a.t.toNat + a.size.toNat < 2 ^ 64) :
    a.left g u ≠ a.right g u ↔ LeavesGranule g u a := by
  rw [LeavesGranule, and_iff_right hg, Access.left_eq]
  split
  · next hlt =>
    rw [Access.right_of_lt hend hlt]
    exact div_ne_add_div_iff hg _ _
  · next hlast =>
    rw [Access.right_of_end hend.le (le_antisymm hin (not_lt.mp hlast)), ne_eq,
      Nat.div_eq_zero_iff_lt hg, not_lt]

/-- The average of an access is defined exactly when its bounds have different granule numbers, as
`int` values. For units whose granule numbers an `int` tells apart, this is when the access leaves
the granule that it starts in. -/
theorem average_defined_iff (sketch : Averaging) {a : Access}
    (hu : 0 < sketch.unitSize.toNat)
    (hin : a.t.toNat % sketch.unitSize.toNat + a.size.toNat ≤ sketch.unitSize.toNat) :
    (sketch.cnt a ≠ 0 ↔ ¬ a.left sketch.granularity sketch.unitSize ≡
      a.right sketch.granularity sketch.unitSize [MOD 2 ^ 32]) ∧
    (a.t.toNat + a.size.toNat < 2 ^ 64 →
      sketch.unitSize.toNat ≤ 2 ^ 32 * sketch.granularity.toNat →
        (sketch.cnt a ≠ 0 ↔ LeavesGranule sketch.granularity sketch.unitSize a)) ∧
    ∀ hash hashZero sum, sketch.sumFrequency hash hashZero a = .ok sum →
      (sketch.avgFrequency hash hashZero a = .error .divisionByZero ↔ sketch.cnt a = 0) := by
  have hcnt := not_congr (cntOf_eq_zero_iff sketch.granularity sketch.unitSize a)
  refine ⟨hcnt, fun hend hfit => ?_, fun hash hashZero sum hsum => ?_⟩
  · have hg : 0 < sketch.granularity.toNat := by omega
    have hlt (x : Nat) : x % sketch.unitSize.toNat / sketch.granularity.toNat < 2 ^ 32 := by
      rw [Nat.div_lt_iff_lt_mul hg]
      exact (Nat.mod_lt _ hu).trans_le hfit
    have hleft : a.left sketch.granularity sketch.unitSize < 2 ^ 32 := by
      rw [Access.left_eq]
      exact hlt _
    have hright : a.right sketch.granularity sketch.unitSize < 2 ^ 32 := by
      rw [Access.right, UInt64.toNat_div, UInt64.toNat_mod]
      exact hlt _
    rw [← left_ne_right_iff hg hin hend]
    refine hcnt.trans (not_congr ?_)
    rw [Nat.ModEq, Nat.mod_eq_of_lt hleft, Nat.mod_eq_of_lt hright]
  · rw [Averaging.avgFrequency_eq, hsum]
    change (if sketch.cnt a = 0 then Except.error Fault.divisionByZero else _) = _ ↔ _
    split
    · next h0 => exact iff_of_true rfl h0
    · next hne => exact iff_of_false (by intro he; cases he) hne

theorem average_defined_iff_three :
    (Averaging.interval (fresh 4 1 3 2 3)).cnt ⟨0, 3, 2⟩ ≠ 0 :=
  ((average_defined_iff (.interval (fresh 4 1 3 2 3)) (a := ⟨0, 3, 2⟩) (by decide)
    (by decide)).2.1 (by decide) (by decide)).mpr (by decide)

/-- The average over a whole unit is a division by zero, in each of the four sketches. -/
theorem whole_unit_undefined : 0 % 4 + 4 ≤ 4 ∧
    RangeSketch.construct 4 1 4 = .ok (fresh 4 1 4 2 3) ∧
    IntervalSketch.avgFrequency Detail.hash (fresh 4 1 4 2 3) 0 0 4 = .error .divisionByZero ∧
    GxjSketch.avgFrequency Detail.hash (fresh 4 1 4 2 3) 0 0 4 = .error .divisionByZero ∧
    CountMinSketch.construct 2 1 4 = .ok ⟨Array.replicate 2 0, 0, 1, 4⟩ ∧
    CountMinSketch.avgFrequency (Detail.hashInt 0) ⟨Array.replicate 2 0, 0, 1, 4⟩ 0 0 4 =
      .error .divisionByZero ∧
    ExactCount.construct 1 1 4 = .ok ⟨Array.replicate 1 0, 0, 1, 4, 1⟩ ∧
    ExactCount.avgFrequency ⟨Array.replicate 1 0, 0, 1, 4, 1⟩ 0 0 4 = .error .divisionByZero := by
  refine ⟨by decide, construct_four, ?_, ?_, rfl, ?_, rfl, ?_⟩ <;> decide +kernel

end DistExp.Averages
