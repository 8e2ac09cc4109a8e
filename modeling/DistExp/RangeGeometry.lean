import DistExp.RangeCounters

namespace DistExp.RangeGeometry

open DistExp.Library.MachineInt DistExp.Library.AgedCounter DistExp.Library.HalvingTree
open DistExp.PackedTable DistExp.RangeSketch DistExp.RangeCounters

/-- The arguments of a `record_access` or a `frequency` call. -/
structure Access where
  unitId : UInt64
  t : UInt64
  size : UInt64
  deriving DecidableEq

def Access.unit (u : UInt64) (a : Access) : UInt64 := a.t / u

def Access.left (g u : UInt64) (a : Access) : Nat := (a.t % u / g).toNat

def Access.right (g u : UInt64) (a : Access) : Nat := ((a.t + a.size) % u / g).toNat

/-- The access stays inside its unit, and the unit inside the offsets whose granule number is an
`int`. -/
def Access.InBounds (g u : UInt64) (a : Access) : Prop :=
  a.t.toNat % u.toNat + a.size.toNat < u.toNat ∧ a.t.toNat + u.toNat ≤ 2 ^ 31 * g.toNat

instance (g u : UInt64) (a : Access) : Decidable (a.InBounds g u) :=
  inferInstanceAs (Decidable (_ ∧ _))

/-- The granule range of the access contains granule `c` of the given unit. -/
def Access.Covers (g u unitId unit : UInt64) (c : Nat) (a : Access) : Prop :=
  a.unitId = unitId ∧ a.unit u = unit ∧ a.left g u ≤ c ∧ c < a.right g u

instance (g u unitId unit : UInt64) (c : Nat) (a : Access) :
    Decidable (a.Covers g u unitId unit c) := inferInstanceAs (Decidable (_ ∧ _))

structure Access.Aligned (g : UInt64) (a : Access) : Prop where
  offset : g.toNat ∣ a.t.toNat
  length : g.toNat ∣ a.size.toNat
  nonempty : 0 < a.size.toNat

/-- A unit is `N` whole granules, and rounding it up to granules stays in 64 bits. -/
structure Geometry (g u : UInt64) (N : Nat) : Prop where
  granularity_pos : 0 < g.toNat
  granules_pos : 1 ≤ N
  unitSize_eq : u.toNat = N * g.toNat
  room : u.toNat + g.toNat ≤ 2 ^ 64

/-- A sketch whose tree over `N` granules fits its level tables, at any point of its life. -/
structure Ready (g u : UInt64) (N p : Nat) (s : Sketch) : Prop where
  geometry : Geometry g u N
  shape : Shape p (Nat.clog 2 N + 1) s
  granularity_eq : s.granularity = g
  unitSize_eq : s.unitSize = u
  small : N < 2 ^ 31

section Arithmetic

variable {g u : UInt64} {N : Nat} (h : Geometry g u N)

include h

theorem Geometry.unitSize_pos : 0 < u.toNat := by
  rw [h.unitSize_eq]
  exact Nat.mul_pos h.granules_pos h.granularity_pos

theorem Geometry.div_eq : (u / g).toNat = N := by
  rw [UInt64.toNat_div, h.unitSize_eq, Nat.mul_div_cancel _ h.granularity_pos]

theorem Geometry.div_lt {x : Nat} (hx : x < u.toNat) : x / g.toNat < N := by
  rw [Nat.div_lt_iff_lt_mul h.granularity_pos, ← h.unitSize_eq]
  exact hx

theorem Geometry.left_lt (a : Access) : a.left g u < N := by
  rw [Access.left, UInt64.toNat_div, UInt64.toNat_mod]
  exact h.div_lt (Nat.mod_lt _ h.unitSize_pos)

theorem Geometry.right_lt (a : Access) : a.right g u < N := by
  rw [Access.right, UInt64.toNat_div, UInt64.toNat_mod]
  exact h.div_lt (Nat.mod_lt _ h.unitSize_pos)

theorem Geometry.round_up : ((u + g - 1) / g).toNat = N := by
  have hg := h.granularity_pos
  rw [UInt64.toNat_div, toNat_add_sub_one hg h.room, h.unitSize_eq, Nat.add_sub_assoc hg,
    Nat.mul_comm, Nat.mul_add_div hg, Nat.div_eq_of_lt (by omega), Nat.add_zero]

theorem Geometry.fits : Fits (Nat.clog 2 N + 1) 0 N := fits_clog h.granules_pos

theorem Geometry.le_of_inBounds {a : Access} (ha : a.InBounds g u) : N ≤ 2 ^ 31 := by
  have hle : N * g.toNat ≤ 2 ^ 31 * g.toNat := by
    rw [← h.unitSize_eq]
    exact (Nat.le_add_left _ _).trans ha.2
  exact Nat.le_of_mul_le_mul_right hle h.granularity_pos

end Arithmetic

section Bounds

variable {g u : UInt64} {a : Access}

theorem Access.left_eq (g u : UInt64) (a : Access) :
    a.left g u = a.t.toNat % u.toNat / g.toNat := by
  rw [Access.left, UInt64.toNat_div, UInt64.toNat_mod]

theorem Access.right_of_lt (hend : a.t.toNat + a.size.toNat < 2 ^ 64)
    (hin : a.t.toNat % u.toNat + a.size.toNat < u.toNat) :
    a.right g u = (a.t.toNat % u.toNat + a.size.toNat) / g.toNat := by
  rw [Access.right, UInt64.toNat_div, UInt64.toNat_mod, UInt64.toNat_add, Nat.mod_eq_of_lt hend,
    ← Nat.mod_add_mod, Nat.mod_eq_of_lt hin]

theorem Access.right_of_end (hend : a.t.toNat + a.size.toNat ≤ 2 ^ 64)
    (hin : a.t.toNat % u.toNat + a.size.toNat = u.toNat) : a.right g u = 0 := by
  rw [Access.right, UInt64.toNat_div, UInt64.toNat_mod, UInt64.toNat_add]
  obtain hlt | heq := Nat.lt_or_eq_of_le hend
  · rw [Nat.mod_eq_of_lt hlt, ← Nat.mod_add_mod, hin, Nat.mod_self, Nat.zero_div]
  · rw [heq, Nat.mod_self, Nat.zero_mod, Nat.zero_div]

theorem Access.Aligned.right_eq (ha : a.Aligned g)
    (hend : a.t.toNat + a.size.toNat < 2 ^ 64) (hin : a.t.toNat % u.toNat + a.size.toNat < u.toNat) :
    a.right g u = a.left g u + a.size.toNat / g.toNat := by
  rw [Access.right_of_lt hend hin, Access.left_eq, Nat.add_div_of_dvd_left ha.length]

theorem Access.Aligned.granules_pos (ha : a.Aligned g) (hg : 0 < g.toNat) :
    0 < a.size.toNat / g.toNat :=
  Nat.div_pos (Nat.le_of_dvd ha.nonempty ha.length) hg

end Bounds

section Sketch

variable {g u : UInt64} {N p : Nat} {s : Sketch}

theorem Ready.granules_eq (h : Ready g u N p s) : (granules s).toNat = N := by
  rw [granules, h.granularity_eq, h.unitSize_eq]
  exact h.geometry.round_up

theorem Ready.stop_eq (h : Ready g u N p s) : toInt (granules s) = Int32.ofNat N := by
  rw [toInt, h.granules_eq]

theorem Ready.leftOf_eq (h : Ready g u N p s) (a : Access) :
    leftOf s a.t = Int32.ofNat (a.left g u) := by
  rw [leftOf, h.granularity_eq, h.unitSize_eq]
  rfl

theorem Ready.rightOf_eq (h : Ready g u N p s) (a : Access) :
    rightOf s a.t a.size = Int32.ofNat (a.right g u) := by
  rw [rightOf, h.granularity_eq, h.unitSize_eq]
  rfl

def unitBase (N : Nat) (unit : UInt64) : Int32 := toInt (unit * UInt64.ofNat N)

theorem Ready.baseOf_eq (h : Ready g u N p s) (a : Access) :
    baseOf s a.t = unitBase N (a.unit u) := by
  have hg : granules s = UInt64.ofNat N := by
    rw [← h.granules_eq, UInt64.ofNat_toNat]
  rw [baseOf, hg, h.unitSize_eq]
  rfl

theorem Ready.levels_le (h : Ready g u N p s) : Nat.clog 2 N + 1 ≤ fuel := by
  have h1 := h.shape.levels_le
  have h2 := h.shape.p_le
  unfold fuel
  omega

theorem Ready.of_frame (h : Ready g u N p s) {s' : Sketch}
    (hs : Shape p (Nat.clog 2 N + 1) s') (hf : frame s' = frame s) : Ready g u N p s' where
  geometry := h.geometry
  shape := hs
  granularity_eq := (congrArg Sketch.granularity hf).trans h.granularity_eq
  unitSize_eq := (congrArg Sketch.unitSize hf).trans h.unitSize_eq
  small := h.small

theorem Ready.setRefCnt (h : Ready g u N p s) (refCnt : Int32) :
    Ready g u N p { s with refCnt := refCnt } where
  geometry := h.geometry
  shape := ⟨h.shape.count, h.shape.level_eq, h.shape.pos, h.shape.levels_le, h.shape.p_le,
    h.shape.sized⟩
  granularity_eq := h.granularity_eq
  unitSize_eq := h.unitSize_eq
  small := h.small

theorem Ready.reset (h : Ready g u N p s) : Ready g u N p (RangeSketch.reset s) where
  geometry := h.geometry
  shape := h.shape.reset
  granularity_eq := h.granularity_eq
  unitSize_eq := h.unitSize_eq
  small := h.small

theorem construct_ready (hgeo : Geometry g u N) {n : Int32} (hs : construct n g u = .ok s)
    (hne : ∀ table ∈ s.mixCounters, 0 < table.size) (hN : N ≤ 2 ^ 31) :
    ∃ p, Ready g u N p s ∧ s.refCnt = 0 ∧ s.doingReset = false ∧ sketchCells s = fun _ => 0 := by
  obtain ⟨p, hshape, hg, hu, href, hflag, hcells⟩ := construct_shape hs hne
    (by rw [hgeo.div_eq]; exact hgeo.granules_pos) (by rw [hgeo.div_eq]; exact hN)
  rw [hgeo.div_eq] at hshape
  have hlog : Nat.clog 2 N ≤ 30 := by
    have h1 := hshape.levels_le
    have h2 := hshape.p_le
    omega
  have hsmall : N < 2 ^ 31 :=
    calc N ≤ 2 ^ Nat.clog 2 N := Nat.le_pow_clog (by decide) N
      _ ≤ 2 ^ 30 := Nat.pow_le_pow_right (by decide) hlog
      _ < 2 ^ 31 := by decide
  exact ⟨p, ⟨hgeo, hshape, hg, hu, hsmall⟩, href, hflag, hcells⟩

theorem granules_of_wrapped (hgran : s.granularity = g) (hunit : s.unitSize = u) (hg : 0 < g.toNat)
    (hwrap : 2 ^ 64 < u.toNat + g.toNat) : granules s = 0 := by
  rw [granules, hgran, hunit]
  exact add_sub_one_div_wrapped hg hwrap

theorem right_not_le_of_wrapped (hgran : s.granularity = g) (hunit : s.unitSize = u)
    (hg : 0 < g.toNat) (hu : u.toNat = N * g.toNat) (hN : N ≤ 2 ^ 31)
    (hwrap : 2 ^ 64 < u.toNat + g.toNat) {a : Access} (hpos : 0 < a.right g u) :
    ¬ rightOf s a.t a.size ≤ toInt (granules s) := by
  have hupos : 0 < u.toNat := by
    have := g.toNat_lt
    omega
  have hlt : a.right g u < N := by
    rw [Access.right, UInt64.toNat_div, UInt64.toNat_mod, Nat.div_lt_iff_lt_mul hg, ← hu]
    exact Nat.mod_lt _ hupos
  have hright : rightOf s a.t a.size = Int32.ofNat (a.right g u) := by
    rw [rightOf, hgran, hunit]
    rfl
  intro hle
  rw [hright, granules_of_wrapped hgran hunit hg hwrap] at hle
  have hle0 := (Int32.ofNat_le_iff_le (by omega) (by decide)).mp hle
  exact absurd hle0 (not_le.mpr hpos)

end Sketch

structure Node where
  unitId : UInt64
  unit : UInt64
  seg : Seg
  deriving DecidableEq

def nodeRows (hash : UInt64 → UInt64 → UInt32) (p N : Nat) (isLazy : Bool) (node : Node) :
    List Cell :=
  rowsAt p node.seg.level
    (hash node.unitId (toSize (unitBase N node.unit + Int32.ofNat node.seg.lo))) isLazy

theorem nodeRows_nodup (hash : UInt64 → UInt64 → UInt32) (p N : Nat) (isLazy : Bool) (node : Node) :
    (nodeRows hash p N isLazy node).Nodup := rowsAt_nodup _ _ _ _

theorem rowMin_nodeRows_le (hash : UInt64 → UInt64 → UInt32) (p N : Nat) (s : Sketch)
    (isLazy : Bool) (node : Node) :
    rowMin intMax (sketchCells s) (nodeRows hash p N isLazy node) ≤ 15 :=
  (rowMin_le _ _ _ (mem_rowsAt.mpr ⟨0, rfl⟩)).trans (sketchCells_le s _)

end DistExp.RangeGeometry
