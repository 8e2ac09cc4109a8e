import DistExp.RangeLevels

namespace DistExp.FlowKeys

open DistExp.Library.MachineInt DistExp.Library.HalvingTree DistExp.Library.CallTree
open DistExp.PackedTable DistExp.RangeSketch DistExp.RangeCounters DistExp.RangeGeometry
open DistExp.RangeCalls DistExp.RangeLevels

def flowKey (s : Sketch) (t : UInt64) (seg : Seg) : UInt64 :=
  toSize (baseOf s t + Int32.ofNat seg.lo)

/-- The nodes of the tree that the recursions go through, whose last granule is an `int`. -/
def treeNodes (s : Sketch) : List Seg :=
  let stop := (toInt (granules s)).toInt.toNat
  nodes (Nat.clog 2 stop + 1) 0 stop

def Overflows (x y : Int32) : Prop := x.toInt + y.toInt < -2 ^ 31 ∨ 2 ^ 31 ≤ x.toInt + y.toInt

instance (x y : Int32) : Decidable (Overflows x y) := inferInstanceAs (Decidable (_ ∨ _))

/-- The keys of two nodes differ unless they are the same interval of the same unit, and neither
needs a sum that is not an `int`. -/
structure KeysApart (s : Sketch) (t t' : UInt64) (seg seg' : Seg) : Prop where
  apart : flowKey s t seg = flowKey s t' seg' → t / s.unitSize = t' / s.unitSize ∧ seg = seg'
  fits : ¬ Overflows (baseOf s t) (Int32.ofNat seg.lo)
  fits' : ¬ Overflows (baseOf s t') (Int32.ofNat seg'.lo)

def unitStart (u : UInt64) (N : Nat) (t : UInt64) : Nat := (t / u).toNat * N

/-- A node begins on the other side of the largest `int` than its unit, modulo `2 ^ 32`. -/
def Straddles (start lo : Nat) : Prop := start % 2 ^ 32 < 2 ^ 31 ∧ 2 ^ 31 ≤ start % 2 ^ 32 + lo

instance (start lo : Nat) : Decidable (Straddles start lo) := inferInstanceAs (Decidable (_ ∧ _))

theorem toSize_inj {x y : Int32} : toSize x = toSize y ↔ x = y := by
  refine ⟨fun h => ?_, congrArg toSize⟩
  have hwide : x.toInt64 = y.toInt64 := congrArg UInt64.toInt64 h
  apply Int32.toInt_inj.mp
  rw [← Int32.toInt_toInt64, hwide, Int32.toInt_toInt64]

theorem overflows_iff {start lo : Nat} (hlo : lo < 2 ^ 31) :
    Overflows (Int32.ofNat start) (Int32.ofNat lo) ↔ Straddles start lo := by
  have hsize : Int32.size = 4294967296 := rfl
  rw [Overflows, Straddles, Int32.toInt_ofNat_of_lt hlo, Int32.toInt_ofNat', hsize, Int.bmod_def]
  omega

variable {s : Sketch} {N : Nat}

section Tree

theorem stop_le (s : Sketch) : (toInt (granules s)).toInt.toNat ≤ (granules s).toNat := by
  have hsize : Int32.size = 4294967296 := rfl
  rw [toInt, Int32.toInt_ofNat', hsize, Int.bmod_def]
  omega

theorem lo_of_mem_treeNodes {seg : Seg} (h : seg ∈ treeNodes s) :
    seg.lo < 2 ^ 31 ∧ (seg.lo = 0 ∨ seg.lo < (granules s).toNat) := by
  have hle := stop_le s
  have hlt := (toInt (granules s)).toInt_lt
  obtain hzero | hpos := Nat.eq_zero_or_pos (toInt (granules s)).toInt.toNat
  · rw [treeNodes, hzero] at h
    cases List.mem_singleton.mp h
    exact ⟨by decide, Or.inl rfl⟩
  · obtain ⟨-, hlo, hhi, -⟩ := mem_nodes_bounds (fits_clog hpos) h
    exact ⟨by omega, Or.inr (by omega)⟩

theorem treeNodes_unique {seg seg' : Seg} (h : seg ∈ treeNodes s) (h' : seg' ∈ treeNodes s)
    (hlevel : seg.level = seg'.level) (hlo : seg.lo = seg'.lo) : seg = seg' := by
  obtain hzero | hpos := Nat.eq_zero_or_pos (toInt (granules s)).toInt.toNat
  · rw [treeNodes, hzero] at h h'
    rw [List.mem_singleton.mp h, List.mem_singleton.mp h']
  · exact nodes_unique_of_level (fits_clog hpos) h h' hlevel hlo

end Tree

section Keys

variable (hg : 0 < s.granularity.toNat) (hN : 1 ≤ N)
  (hu : s.unitSize.toNat = N * s.granularity.toNat)

include hg hN hu

theorem geometry_of_room (hroom : s.unitSize.toNat + s.granularity.toNat ≤ 2 ^ 64) :
    Geometry s.granularity s.unitSize N := ⟨hg, hN, hu, hroom⟩

theorem baseOf_eq_unitStart (hroom : s.unitSize.toNat + s.granularity.toNat ≤ 2 ^ 64) (t : UInt64) :
    baseOf s t = Int32.ofNat (unitStart s.unitSize N t) := by
  have hcount : (granules s).toNat = N := (geometry_of_room hg hN hu hroom).round_up
  have hle : (t / s.unitSize).toNat * N ≤ t.toNat := by
    rw [UInt64.toNat_div, hu]
    calc t.toNat / (N * s.granularity.toNat) * N
        ≤ t.toNat / (N * s.granularity.toNat) * (N * s.granularity.toNat) :=
          Nat.mul_le_mul_left _ (Nat.le_mul_of_pos_right N hg)
      _ ≤ t.toNat := Nat.div_mul_le_self _ _
  have ht := t.toNat_lt
  rw [baseOf, toInt, UInt64.toNat_mul, hcount, Nat.mod_eq_of_lt (by omega)]
  rfl

theorem flowKey_eq (hroom : s.unitSize.toNat + s.granularity.toNat ≤ 2 ^ 64) (t : UInt64)
    (seg : Seg) :
    flowKey s t seg = toSize (Int32.ofNat (unitStart s.unitSize N t + seg.lo)) := by
  rw [flowKey, baseOf_eq_unitStart hg hN hu hroom, ← Int32.ofNat_add]

omit hg hu in
theorem unit_eq_of_number {t t' : UInt64} {lo lo' : Nat} (hlo : lo < N) (hlo' : lo' < N)
    (h : unitStart s.unitSize N t + lo = unitStart s.unitSize N t' + lo') :
    t / s.unitSize = t' / s.unitSize ∧ lo = lo' := by
  have hdiv := congrArg (· / N) h
  have hmod := congrArg (· % N) h
  simp only [unitStart, Nat.mul_comm _ N, Nat.mul_add_div hN, Nat.mul_add_mod,
    Nat.div_eq_of_lt hlo, Nat.div_eq_of_lt hlo', Nat.mod_eq_of_lt hlo, Nat.mod_eq_of_lt hlo',
    Nat.add_zero] at hdiv hmod
  exact ⟨UInt64.toNat_inj.mp hdiv, hmod⟩

theorem flowKey_of_call (hroom : s.unitSize.toNat + s.granularity.toNat ≤ 2 ^ 64) (hN31 : N < 2 ^ 31)
    {r : Recursion} {t size : UInt64} {fuel : Nat} {c : Call}
    (hc : c ∈ trace r.calls fuel (rootCall s t size)) :
    ∃ seg ∈ treeNodes s, toSize (baseOf s t + c.start) = flowKey s t seg := by
  have hgeo := geometry_of_room hg hN hu hroom
  have hcount : (granules s).toNat = N := hgeo.round_up
  have hstop : (toInt (granules s)).toInt.toNat = N := by
    rw [toInt, hcount, Int32.toInt_ofNat_of_lt hN31, Int.toNat_natCast]
  rw [rootCall_eq_callOf hgeo rfl rfl ⟨0, t, size⟩] at hc
  obtain ⟨l, r', level, seg, hseg, rfl, -⟩ := exists_callOf_of_mem_trace hgeo.fits (Nat.zero_le _)
    (hgeo.left_lt _) (hgeo.right_lt _).le hN31 hc
  rw [← hstop] at hseg
  exact ⟨seg, hseg, rfl⟩

end Keys

/-- Where rounding a unit up to granules stays in 64 bits, the keys of two nodes of one level are
apart exactly when no sum is too large and no two numbers are the same modulo `2 ^ 32`. -/
theorem keysApart_iff_of_room (hg : 0 < s.granularity.toNat) (hN : 1 ≤ N)
    (hu : s.unitSize.toNat = N * s.granularity.toNat)
    (hroom : s.unitSize.toNat + s.granularity.toNat ≤ 2 ^ 64) (t t' : UInt64) {seg seg' : Seg}
    (h : seg ∈ treeNodes s) (h' : seg' ∈ treeNodes s) (hlevel : seg.level = seg'.level) :
    KeysApart s t t' seg seg' ↔
      ¬ Straddles (unitStart s.unitSize N t) seg.lo ∧
      ¬ Straddles (unitStart s.unitSize N t') seg'.lo ∧
      (unitStart s.unitSize N t + seg.lo ≡ unitStart s.unitSize N t' + seg'.lo [MOD 2 ^ 32] →
        unitStart s.unitSize N t + seg.lo = unitStart s.unitSize N t' + seg'.lo) := by
  obtain ⟨hlo31, hlo⟩ := lo_of_mem_treeNodes h
  obtain ⟨hlo31', hlo'⟩ := lo_of_mem_treeNodes h'
  have hcount : (granules s).toNat = N := (geometry_of_room hg hN hu hroom).round_up
  rw [hcount] at hlo hlo'
  have hkey : flowKey s t seg = flowKey s t' seg' ↔
      unitStart s.unitSize N t + seg.lo ≡ unitStart s.unitSize N t' + seg'.lo [MOD 2 ^ 32] := by
    rw [flowKey_eq hg hN hu hroom, flowKey_eq hg hN hu hroom, toSize_inj, ofNat_eq_iff_modEq]
  have hover : Overflows (Int32.ofNat (unitStart s.unitSize N t)) (Int32.ofNat seg.lo) ↔
      Straddles (unitStart s.unitSize N t) seg.lo := overflows_iff hlo31
  have hover' : Overflows (Int32.ofNat (unitStart s.unitSize N t')) (Int32.ofNat seg'.lo) ↔
      Straddles (unitStart s.unitSize N t') seg'.lo := overflows_iff hlo31'
  rw [← baseOf_eq_unitStart hg hN hu hroom] at hover hover'
  rw [← hover, ← hover', ← hkey]
  constructor
  · rintro ⟨hapart, hfits, hfits'⟩
    refine ⟨hfits, hfits', fun he => ?_⟩
    obtain ⟨hunit, rfl⟩ := hapart he
    rw [unitStart, unitStart, hunit]
  · rintro ⟨hfits, hfits', hnumber⟩
    refine ⟨fun he => ?_, hfits, hfits'⟩
    have hnum := hnumber he
    obtain ⟨hunit, hstart⟩ := unit_eq_of_number hN (show seg.lo < N by omega)
      (show seg'.lo < N by omega) hnum
    exact ⟨hunit, treeNodes_unique h h' hlevel hstart⟩

/-- The keys of two nodes of one level are apart exactly when neither node lies across the largest
`int` from the start of its unit, their numbers in the volume do not differ by a multiple of
`2 ^ 32` other than zero, and, where rounding a unit up to granules leaves 64 bits, the unit is
the same. -/
theorem flow_keys_apart_iff (hg : 0 < s.granularity.toNat) (hN : 1 ≤ N)
    (hu : s.unitSize.toNat = N * s.granularity.toNat) (t t' : UInt64) {seg seg' : Seg}
    (h : seg ∈ treeNodes s) (h' : seg' ∈ treeNodes s) (hlevel : seg.level = seg'.level) :
    KeysApart s t t' seg seg' ↔
      ¬ Straddles (unitStart s.unitSize N t) seg.lo ∧
      ¬ Straddles (unitStart s.unitSize N t') seg'.lo ∧
      (unitStart s.unitSize N t + seg.lo ≡ unitStart s.unitSize N t' + seg'.lo [MOD 2 ^ 32] →
        unitStart s.unitSize N t + seg.lo = unitStart s.unitSize N t' + seg'.lo) ∧
      (s.unitSize.toNat + s.granularity.toNat ≤ 2 ^ 64 ∨ t / s.unitSize = t' / s.unitSize) := by
  by_cases hroom : s.unitSize.toNat + s.granularity.toNat ≤ 2 ^ 64
  · rw [keysApart_iff_of_room hg hN hu hroom t t' h h' hlevel, iff_true_intro (Or.inl hroom),
      and_true]
  · -- the tree has no granules, and every unit is taken for the first one
    obtain ⟨-, hlo⟩ := lo_of_mem_treeNodes h
    obtain ⟨-, hlo'⟩ := lo_of_mem_treeNodes h'
    have hzero : granules s = 0 := add_sub_one_div_wrapped hg (not_le.mp hroom)
    have hbase (t : UInt64) : baseOf s t = 0 := by
      rw [baseOf, hzero, UInt64.mul_zero]
      rfl
    rw [hzero] at hlo hlo'
    have hlo0 : seg.lo = 0 := hlo.resolve_right (Nat.not_lt_zero _)
    have hlo0' : seg'.lo = 0 := hlo'.resolve_right (Nat.not_lt_zero _)
    have hstraddles (start : Nat) : ¬ Straddles start 0 := fun hs => absurd hs.1 (not_lt.mpr hs.2)
    have hseg := treeNodes_unique h h' hlevel (hlo0.trans hlo0'.symm)
    rw [hlo0, hlo0']
    constructor
    · rintro ⟨hapart, -, -⟩
      obtain ⟨hunit, -⟩ := hapart (by rw [flowKey, flowKey, hbase, hbase, hlo0, hlo0'])
      refine ⟨hstraddles _, hstraddles _, fun _ => ?_, Or.inr hunit⟩
      rw [unitStart, unitStart, hunit]
    · rintro ⟨-, -, -, hunit⟩
      refine ⟨fun _ => ⟨hunit.resolve_left hroom, hseg⟩, ?_, ?_⟩
      · rw [hbase, hlo0]
        decide
      · rw [hbase, hlo0']
        decide

theorem keysApart_of_small (hg : 0 < s.granularity.toNat) (hN : 1 ≤ N)
    (hu : s.unitSize.toNat = N * s.granularity.toNat)
    (hroom : s.unitSize.toNat + s.granularity.toNat ≤ 2 ^ 64) {t t' : UInt64}
    (ht : t.toNat + s.unitSize.toNat ≤ 2 ^ 31 * s.granularity.toNat)
    (ht' : t'.toNat + s.unitSize.toNat ≤ 2 ^ 31 * s.granularity.toNat) {seg seg' : Seg}
    (h : seg ∈ treeNodes s) (h' : seg' ∈ treeNodes s) (hlevel : seg.level = seg'.level) :
    KeysApart s t t' seg seg' := by
  have hcount : (granules s).toNat = N := (geometry_of_room hg hN hu hroom).round_up
  have hsmall (t : UInt64) (ht : t.toNat + s.unitSize.toNat ≤ 2 ^ 31 * s.granularity.toNat)
      {seg : Seg} (h : seg ∈ treeNodes s) : unitStart s.unitSize N t + seg.lo < 2 ^ 31 := by
    obtain ⟨-, hlo⟩ := lo_of_mem_treeNodes h
    rw [hcount] at hlo
    have hend : (unitStart s.unitSize N t + N) * s.granularity.toNat ≤
        2 ^ 31 * s.granularity.toNat := by
      refine le_trans ?_ ht
      rw [Nat.add_mul, ← hu, unitStart, UInt64.toNat_div, Nat.mul_assoc, ← hu]
      exact Nat.add_le_add_right (Nat.div_mul_le_self _ _) _
    have hle := Nat.le_of_mul_le_mul_right hend hg
    omega
  have hn := hsmall t ht h
  have hn' := hsmall t' ht' h'
  have hnot {start lo : Nat} (hsum : start + lo < 2 ^ 31) : ¬ Straddles start lo := by
    rintro ⟨-, hge⟩
    omega
  refine (keysApart_iff_of_room hg hN hu hroom t t' h h' hlevel).mpr
    ⟨hnot hn, hnot hn', fun he => ?_⟩
  rw [Nat.ModEq] at he
  omega

theorem flow_keys_apart_iff_three :
    KeysApart (fresh 4 1 3 2 3) 2 4 ⟨0, 2, 3⟩ ⟨0, 1, 2⟩ := by
  have h : (⟨0, 2, 3⟩ : Seg) ∈ treeNodes (fresh 4 1 3 2 3) := by decide
  have h' : (⟨0, 1, 2⟩ : Seg) ∈ treeNodes (fresh 4 1 3 2 3) := by decide
  exact (flow_keys_apart_iff (N := 3) (by decide) (by decide) (by decide) 2 4 h h' rfl).mpr
    (by decide)

/-- Two units that are `2 ^ 32` granules apart have the same keys, and a unit that begins in front of
the largest `int` and ends behind it needs sums that are not `int` values. -/
theorem far_keys_meet :
    (construct 4 1 4 = .ok (fresh 4 1 4 2 3) ∧
      flowKey (fresh 4 1 4 2 3) 0 ⟨2, 0, 4⟩ = flowKey (fresh 4 1 4 2 3) 4294967296 ⟨2, 0, 4⟩ ∧
      ¬ KeysApart (fresh 4 1 4 2 3) 0 4294967296 ⟨2, 0, 4⟩ ⟨2, 0, 4⟩) ∧
    (construct 8 1 5 = .ok (fresh 8 1 5 3 4) ∧ ⟨0, 3, 4⟩ ∈ treeNodes (fresh 8 1 5 3 4) ∧
      Overflows (baseOf (fresh 8 1 5 3 4) 2147483648) 3 ∧
      ¬ KeysApart (fresh 8 1 5 3 4) 2147483648 0 ⟨0, 3, 4⟩ ⟨0, 3, 4⟩) := by
  have hkey : flowKey (fresh 4 1 4 2 3) 0 ⟨2, 0, 4⟩ =
      flowKey (fresh 4 1 4 2 3) 4294967296 ⟨2, 0, 4⟩ := by decide
  have hover : Overflows (baseOf (fresh 8 1 5 3 4) 2147483648) 3 := by decide
  refine ⟨⟨construct_four, hkey, fun h => ?_⟩, rfl, by decide, hover, fun h => ?_⟩
  · exact absurd (h.apart hkey).1 (by decide)
  · exact h.fits hover

end DistExp.FlowKeys
