import DistExp.HierarchicalEstimates
import DistExp.RangeFrequencyAging

namespace DistExp.GranuleSets

open DistExp.Library.MachineInt DistExp.Library.Runs
open DistExp.PackedTable

section Numbers

variable {g start size k : Nat}

def Meets (g start size k : Nat) : Prop :=
  ∃ byte, start ≤ byte ∧ byte < start + size ∧ k * g ≤ byte ∧ byte < (k + 1) * g

theorem meets_iff (hg : 0 < g) (hsize : 0 < size) :
    Meets g start size k ↔ start / g ≤ k ∧ k ≤ (start + size - 1) / g := by
  have hlo : start / g ≤ k ↔ start < (k + 1) * g := by
    rw [← Nat.lt_succ_iff, Nat.div_lt_iff_lt_mul hg]
  rw [hlo, Nat.le_div_iff_mul_le hg]
  constructor
  · rintro ⟨byte, hlo, hhi, hk, hk'⟩
    exact ⟨by omega, by omega⟩
  · rintro ⟨hlo, hhi⟩
    exact ⟨max start (k * g), by omega, by omega, by omega, max_lt hlo (by rw [Nat.add_mul]; omega)⟩

theorem last_granule (start : Nat) (hg : 0 < g) (hsize : 0 < size) :
    (start + size - 1) / g = start / g + ((size + g - 1) / g - 1) +
      if g ≤ start % g + (size - 1) % g then 1 else 0 := by
  have hcnt : (size + g - 1) / g = (size - 1) / g + 1 := by
    rw [← Nat.add_div_right _ hg]
    congr 1
    omega
  rw [hcnt, Nat.add_sub_cancel, Nat.add_sub_assoc hsize, Nat.add_div hg]

theorem exists_cnt (size : UInt64) {g : UInt64} (hg : 0 < g.toNat) :
    ∃ n, toInt ((size + g - 1) / g) = Int32.ofNat n ∧
      n = if size.toNat + g.toNat ≤ 2 ^ 64 then RangeCalls.granuleCount g size else 0 := by
  refine ⟨_, rfl, ?_⟩
  split
  · next hroom =>
    rw [UInt64.toNat_div, toNat_add_sub_one hg hroom]
    rfl
  · next hroom =>
    rw [add_sub_one_div_wrapped hg (not_le.mp hroom)]
    rfl

end Numbers

section Hierarchical

open DistExp.HierarchicalSketch DistExp.HierarchicalEstimates

variable {s : Sketch} {a : Access}

/-- The granules that the loops of `record_access` and of `frequency` go over. -/
def starts (s : Sketch) (a : Access) : List UInt64 :=
  granuleStarts s.granularity (cntOf s a.size).toInt.toNat (startOf s a.t)

/-- `record_access` raises, and `frequency` reads, the counters of the listed granules. -/
structure GoesOver (s : Sketch) (a : Access) (granules : List UInt64) : Prop where
  record_eq : ∀ hash, recordAccess hash s a.flowId a.t a.size = do
    let (table, _) ← granules.foldlM
      (fun acc start => FlatTable.incrementRows false acc (hash a.flowId start)) (s.table, false)
    return { s with table := table, size := s.size + cntOf s a.size }
  frequency_eq : ∀ hash, frequency hash s a.flowId a.t a.size = do
    let sum ← granules.foldlM
      (fun sum start => do return sum + (← FlatTable.blockFrequency s.table (hash a.flowId start))) 0
    if cntOf s a.size = 0 then .error .divisionByZero else return sum / cntOf s a.size

theorem addGranules_eq_foldlM (hash : UInt64 → UInt64 → UInt32) (g flowId : UInt64) (n : Nat)
    (startT : UInt64) (acc : Table × Bool) :
    addGranules hash g flowId n startT acc = (granuleStarts g n startT).foldlM
      (fun acc start => FlatTable.incrementRows false acc (hash flowId start)) acc := by
  induction n generalizing startT acc with
  | zero => rfl
  | succ n ih => simp only [addGranules, granuleStarts, List.foldlM_cons, ih]

theorem sumFrequency_eq_foldlM (hash : UInt64 → UInt64 → UInt32) (s : Sketch) (flowId : UInt64)
    (n : Nat) (startT : UInt64) (sum : Int32) :
    sumFrequency hash s flowId n startT sum = (granuleStarts s.granularity n startT).foldlM
      (fun sum start => do return sum + (← FlatTable.blockFrequency s.table (hash flowId start)))
      sum := by
  induction n generalizing startT sum with
  | zero => rfl
  | succ n ih => simp only [sumFrequency, granuleStarts, List.foldlM_cons, ih, bind_assoc, pure_bind]

theorem starts_goesOver (hg : s.granularity ≠ 0) (a : Access) : GoesOver s a (starts s a) where
  record_eq := by
    intro hash
    rw [recordAccess, if_neg hg]
    simp only [addGranules_eq_foldlM]
    rfl
  frequency_eq := by
    intro hash
    rw [frequency, if_neg hg]
    simp only [sumFrequency_eq_foldlM]
    rfl

def AllTouched (s : Sketch) (a : Access) (granules : List UInt64) : Prop :=
  ∀ x : Nat, x ∈ granules.map UInt64.toNat ↔
    ∃ k, x = k * s.granularity.toNat ∧ Meets s.granularity.toNat a.t.toNat a.size.toNat k

/-- The access does not reach into one granule more than its size takes up, and no number on the
way leaves its type. -/
structure Fits (g : UInt64) (a : Access) : Prop where
  remainders : a.t.toNat % g.toNat + (a.size.toNat - 1) % g.toNat < g.toNat
  room : a.size.toNat + g.toNat ≤ 2 ^ 64
  cnt_lt : a.cnt g < 2 ^ 31
  last_lt : (a.t.toNat + a.size.toNat - 1) / g.toNat * g.toNat < 2 ^ 64

theorem toNat_toInt_ofNat_le (n : Nat) :
    (Int32.ofNat n).toInt.toNat ≤ n ∧ (Int32.ofNat n).toInt.toNat < 2 ^ 31 := by
  have hlt := (Int32.ofNat n).toInt_lt
  have hmod : (Int32.ofNat n).toInt = (n : Int).bmod (2 ^ 32) := Int32.toInt_ofNat'
  rw [Int.bmod_def] at hmod
  omega

theorem mem_starts {x : Nat} :
    x ∈ (starts s a).map UInt64.toNat ↔ ∃ i < (cntOf s a.size).toInt.toNat,
      x = (a.t.toNat / s.granularity.toNat + i) * s.granularity.toNat % 2 ^ 64 := by
  have hstart := Nat.div_mul_le_self a.t.toNat s.granularity.toNat
  have ht := a.t.toNat_lt
  have hlt := (cntOf s a.size).toInt_lt
  rw [starts, granuleStarts_eq, List.map_map, List.mem_map]
  refine exists_congr fun i => ?_
  rw [List.mem_range]
  refine and_congr_right fun hi => ?_
  rw [Function.comp_apply, UInt64.toNat_add, UInt64.toNat_mul, startOf, UInt64.toNat_mul,
    UInt64.toNat_div, UInt64.toNat_ofNat_of_lt' (show i < 2 ^ 64 by omega), Nat.mod_add_mod,
    Nat.add_mod_mod, Nat.add_mul, eq_comm]

theorem starts_touched_iff (hg : 0 < s.granularity.toNat) (hsize : 0 < a.size.toNat) :
    AllTouched s a (starts s a) ↔ Fits s.granularity a := by
  obtain ⟨n, hn, hcnt⟩ := exists_cnt a.size hg
  change cntOf s a.size = _ at hn
  change n = if _ then a.cnt s.granularity else 0 at hcnt
  obtain ⟨hle, hlt⟩ := toNat_toInt_ofNat_le n
  have hlast := last_granule a.t.toNat hg hsize
  rw [← Access.cnt] at hlast
  have hpos : 0 < a.cnt s.granularity := Nat.div_pos (by omega) hg
  simp only [AllTouched, mem_starts, meets_iff hg hsize, hn]
  constructor
  · intro h
    -- the last granule alone tells how far the loop goes
    obtain ⟨i, hi, hx⟩ := (h _).mpr ⟨_, rfl, by rw [hlast]; omega, le_rfl⟩
    have hlast64 : (a.t.toNat + a.size.toNat - 1) / s.granularity.toNat * s.granularity.toNat <
        2 ^ 64 :=
      hx ▸ Nat.mod_lt _ (by decide)
    split at hcnt
    · next hroom =>
      have hile : a.t.toNat / s.granularity.toNat + i ≤
          (a.t.toNat + a.size.toNat - 1) / s.granularity.toNat := by omega
      rw [Nat.mod_eq_of_lt ((Nat.mul_le_mul_right _ hile).trans_lt hlast64)] at hx
      have heq := Nat.eq_of_mul_eq_mul_right hg hx
      refine ⟨?_, hroom, by omega, hlast64⟩
      by_contra hover
      rw [if_pos (not_lt.mp hover)] at hlast
      omega
    · omega
  · intro h x
    rw [if_pos h.room] at hcnt
    rw [if_neg (not_le.mpr h.remainders)] at hlast
    have hc : (Int32.ofNat n).toInt.toNat = a.cnt s.granularity := by
      rw [hcnt, Int32.toInt_ofNat_of_lt h.cnt_lt, Int.toNat_natCast]
    rw [hc]
    constructor
    · rintro ⟨i, hi, rfl⟩
      refine ⟨_, Nat.mod_eq_of_lt (lt_of_le_of_lt (Nat.mul_le_mul_right _ ?_) h.last_lt), ?_, ?_⟩ <;>
        omega
    · rintro ⟨k, rfl, hlo, hhi⟩
      refine ⟨k - a.t.toNat / s.granularity.toNat, by omega, ?_⟩
      rw [Nat.add_sub_cancel' hlo]
      exact (Nat.mod_eq_of_lt ((Nat.mul_le_mul_right _ hhi).trans_lt h.last_lt)).symm

end Hierarchical

section Range

open DistExp.RangeGeometry DistExp.RangeFrequencySketch DistExp.RangeFrequencyAging
open DistExp.Library.FieldMap

variable {s : Sketch} {a : Access}

/-- The indices that the loops of `record_access` and of `frequency` go over. -/
def indicesOf (s : Sketch) (a : Access) : Except Fault (List Int32) := do
  let (start, stop) ← bounds s a.t a.size
  indices rounds start stop

/-- `record_access` increments, and `frequency` adds up, the listed counters of the unit. -/
structure GoesThrough (s : Sketch) (a : Access) (is : List Int32) : Prop where
  record_eq : recordAccess s a.unitId a.t a.size =
    is.foldlM (increment a.unitId) (emplace s a.unitId)
  frequency_eq : ∀ vector, hget s.unitAccFreq a.unitId = some vector →
    frequency s a.unitId a.t a.size = is.foldlM
      (fun sum i => do return sum + Int32.ofNat (← elemAt vector i).toNat) 0

theorem goesThrough_of_indicesOf {is : List Int32} (his : indicesOf s a = .ok is) :
    GoesThrough s a is := by
  obtain ⟨⟨start, stop⟩, hb, his⟩ := exists_of_bind_ok his
  change indices rounds start stop = .ok is at his
  constructor
  · rw [recordAccess, hb]
    change (indices rounds start stop >>= fun is => _) = _
    rw [his]
    rfl
  · intro vector hv
    simp only [frequency, hb, hv]
    change (indices rounds start stop >>= fun is => _) = _
    rw [his]
    rfl

theorem exists_indices (fuel : Nat) {c : Nat} (hc : c < 2 ^ 32) (hf : 2 ^ 32 ≤ c + fuel)
    (stop : UInt64) : ∃ is, indices fuel (Int32.ofNat c) stop = .ok is := by
  induction fuel generalizing c with
  | zero => omega
  | succ fuel ih =>
    rw [indices]
    split
    · next hlt =>
      have hnext := succ_lt_of_place_lt hc (UInt64.lt_iff_toNat_lt.mp hlt)
      obtain ⟨is, his⟩ := ih hnext (by omega)
      rw [show Int32.ofNat c + 1 = Int32.ofNat (c + 1) from (Int32.ofNat_add c 1).symm, his]
      exact ⟨_, rfl⟩
    · exact ⟨[], rfl⟩

variable {g u : UInt64}

/-- The granules of the access fit an `int`, it does not reach into one more than its size takes up,
and rounding its size up to granules stays in 64 bits. -/
structure FitsUnit (g u : UInt64) (a : Access) : Prop where
  remainders : a.t.toNat % u.toNat % g.toNat + (a.size.toNat - 1) % g.toNat < g.toNat
  room : a.size.toNat + g.toNat ≤ 2 ^ 64
  numbered : ∀ k, a.left g u ≤ k → k < a.left g u + RangeCalls.granuleCount g a.size →
    ∃ i : Int32, place i = k

/-- The listed counters are those of the granules of the unit in which the access has bytes. -/
def AllTouchedInUnit (s : Sketch) (a : Access) (is : List Int32) : Prop :=
  ∀ k, k ∈ is.map place ↔
    Meets s.granularity.toNat (a.t.toNat % s.unitSize.toNat) a.size.toNat k

theorem exists_indicesOf (hg : 0 < s.granularity.toNat) (ha : Inside s.unitSize a) :
    ∃ is n, indicesOf s a = .ok is ∧
      (n = if a.size.toNat + s.granularity.toNat ≤ 2 ^ 64 then
        RangeCalls.granuleCount s.granularity a.size else 0) ∧
      ∀ k, k ∈ is.map place ↔ place (Int32.ofNat (a.left s.granularity s.unitSize)) ≤ k ∧
        k < (place (Int32.ofNat n) + a.left s.granularity s.unitSize) % 2 ^ 64 ∧
        ∃ i : Int32, place i = k := by
  have hu : 0 < s.unitSize.toNat := by
    obtain ⟨hpos, hin⟩ := ha
    omega
  have hne : ¬ (s.granularity = 0 ∨ s.unitSize = 0) := by
    rintro (h | h)
    · rw [h] at hg
      exact absurd hg (by decide)
    · rw [h] at hu
      exact absurd hu (by decide)
  obtain ⟨n, hn, hcnt⟩ := exists_cnt a.size hg
  obtain ⟨c, hc, hleft⟩ : ∃ c < 2 ^ 32,
      Int32.ofNat (a.left s.granularity s.unitSize) = Int32.ofNat c :=
    ⟨_, Nat.mod_lt _ (by decide), ofNat_eq_iff_modEq.mpr (Nat.mod_modEq _ _).symm⟩
  obtain ⟨is, his⟩ := exists_indices rounds hc (show 2 ^ 32 ≤ c + (2 ^ 32 + 1) by omega)
    (toSize (Int32.ofNat n) + a.t % s.unitSize / s.granularity)
  refine ⟨is, n, ?_, hcnt, fun k => ?_⟩
  · rw [indicesOf, bounds, if_neg hne, hn]
    change indices rounds (Int32.ofNat (a.left s.granularity s.unitSize)) _ = _
    rw [hleft]
    exact his
  · rw [mem_indices hc his, hleft, UInt64.toNat_add]
    rfl

theorem last_in_unit (hg : 0 < s.granularity.toNat) (ha : Inside s.unitSize a) :
    (a.t.toNat % s.unitSize.toNat + a.size.toNat - 1) / s.granularity.toNat =
        a.left s.granularity s.unitSize + (RangeCalls.granuleCount s.granularity a.size - 1) +
          (if s.granularity.toNat ≤ a.t.toNat % s.unitSize.toNat % s.granularity.toNat +
            (a.size.toNat - 1) % s.granularity.toNat then 1 else 0) ∧
      (a.t.toNat % s.unitSize.toNat + a.size.toNat - 1) / s.granularity.toNat < 2 ^ 64 - 1 := by
  constructor
  · rw [last_granule (a.t.toNat % s.unitSize.toNat) hg ha.1, Access.left_eq]
    rfl
  · have hu := s.unitSize.toNat_lt
    have hsize := ha.1
    have hin := ha.2
    exact (Nat.div_le_self _ _).trans_lt (by omega)

section Touched

variable (hg : 0 < s.granularity.toNat) (ha : Inside s.unitSize a) {is : List Int32} {n : Nat}
  (hcnt : n = if a.size.toNat + s.granularity.toNat ≤ 2 ^ 64 then
    RangeCalls.granuleCount s.granularity a.size else 0)
  (hmem : ∀ k, k ∈ is.map place ↔ place (Int32.ofNat (a.left s.granularity s.unitSize)) ≤ k ∧
    k < (place (Int32.ofNat n) + a.left s.granularity s.unitSize) % 2 ^ 64 ∧
    ∃ i : Int32, place i = k)

include hg ha hcnt hmem

theorem fitsUnit_of_touched (h : AllTouchedInUnit s a is) :
    FitsUnit s.granularity s.unitSize a := by
  have hsize := ha.1
  have hpos : 0 < RangeCalls.granuleCount s.granularity a.size := Nat.div_pos (by omega) hg
  obtain ⟨hlast, hend⟩ := last_in_unit hg ha
  simp only [AllTouchedInUnit, hmem, meets_iff hg hsize, ← Access.left_eq, exists_place_iff] at h
  have hroom : a.size.toNat + s.granularity.toNat ≤ 2 ^ 64 := by
    by_contra hover
    rw [if_neg hover] at hcnt
    subst hcnt
    have hfirst := (h _).mpr ⟨le_rfl, by omega⟩
    have hzero : place (Int32.ofNat 0) = 0 := rfl
    rw [hzero, Nat.zero_add] at hfirst
    omega
  rw [if_pos hroom] at hcnt
  refine ⟨?_, hroom, fun k hlo hhi => exists_place_iff.mpr ((h k).mpr ⟨hlo, by omega⟩).2.2⟩
  by_contra hover
  rw [if_pos (not_lt.mp hover)] at hlast
  have hfirst := ((h _).mpr ⟨le_rfl, by omega⟩).2.2
  have hcnt31 : RangeCalls.granuleCount s.granularity a.size < 2 ^ 31 := by
    by_contra hge
    obtain hlt | hhigh := hfirst
    · have hmid := ((h (2 ^ 31)).mpr ⟨by omega, by omega⟩).2.2
      omega
    · omega
  have hstop := ((h _).mpr ⟨by omega, le_rfl⟩).2.1
  rw [hcnt, place_ofNat hcnt31] at hstop
  omega

theorem touched_of_fitsUnit (h : FitsUnit s.granularity s.unitSize a) :
    AllTouchedInUnit s a is := by
  have hsize := ha.1
  have hpos : 0 < RangeCalls.granuleCount s.granularity a.size := Nat.div_pos (by omega) hg
  obtain ⟨hlast, hend⟩ := last_in_unit hg ha
  simp only [AllTouchedInUnit, hmem, meets_iff hg hsize, ← Access.left_eq, exists_place_iff]
  intro k
  rw [if_pos h.room] at hcnt
  rw [if_neg (not_le.mpr h.remainders)] at hlast
  have hnum (k : Nat) (hlo : a.left s.granularity s.unitSize ≤ k)
      (hhi : k < a.left s.granularity s.unitSize + RangeCalls.granuleCount s.granularity a.size) :=
    exists_place_iff.mp (h.numbered k hlo hhi)
  have hfirst := hnum _ le_rfl (by omega)
  rw [place_of_numbered (h.numbered _ le_rfl (by omega)), hcnt]
  by_cases hcnt31 : RangeCalls.granuleCount s.granularity a.size < 2 ^ 31
  · rw [place_ofNat hcnt31]
    constructor
    · rintro ⟨hlo, hstop, -⟩
      exact ⟨hlo, by omega⟩
    · rintro ⟨hlo, hhi⟩
      exact ⟨hlo, by omega, hnum k hlo (by omega)⟩
  · -- half of all indices, so all of those from zero on
    have hall : a.left s.granularity s.unitSize = 0 ∧
        RangeCalls.granuleCount s.granularity a.size = 2 ^ 31 := by
      by_contra hn
      have hmid := hnum (2 ^ 31)
      omega
    have hplace : place (Int32.ofNat (2 ^ 31)) = 2 ^ 64 - 2 ^ 31 := place_eq (by decide)
    rw [hall.2, hplace]
    omega

end Touched

theorem indices_touched_iff (hg : 0 < s.granularity.toNat) (ha : Inside s.unitSize a) :
    (∃ is, indicesOf s a = .ok is ∧ AllTouchedInUnit s a is) ↔
      FitsUnit s.granularity s.unitSize a := by
  obtain ⟨is, n, his, hcnt, hmem⟩ := exists_indicesOf hg ha
  constructor
  · rintro ⟨is', his', h⟩
    cases his.symm.trans his'
    exact fitsUnit_of_touched hg ha hcnt hmem h
  · exact fun h => ⟨is, his, touched_of_fitsUnit hg ha hcnt hmem h⟩

/-- An access counts, and reads, exactly the granules in which it has bytes when it does not reach
into one granule more than its size takes up, and no number on the way leaves its type. -/
theorem counts_touched_iff (hg : 0 < g.toNat) :
    (∀ (s : HierarchicalSketch.Sketch) (a : HierarchicalEstimates.Access), s.granularity = g →
      0 < a.size.toNat → GoesOver s a (starts s a) ∧ (AllTouched s a (starts s a) ↔ Fits g a)) ∧
    ∀ (s : Sketch) (a : Access), s.granularity = g → Inside s.unitSize a →
      (∃ is, indicesOf s a = .ok is ∧ GoesThrough s a is) ∧
      ((∃ is, indicesOf s a = .ok is ∧ AllTouchedInUnit s a is) ↔ FitsUnit g s.unitSize a) := by
  constructor
  · rintro s a rfl hsize
    refine ⟨starts_goesOver (fun h => ?_) a, starts_touched_iff hg hsize⟩
    rw [h] at hg
    exact absurd hg (by decide)
  · rintro s a rfl ha
    obtain ⟨is, -, his, -⟩ := exists_indicesOf hg ha
    exact ⟨⟨is, his, goesThrough_of_indicesOf his⟩, indices_touched_iff hg ha⟩

theorem counts_touched_iff_eight :
    AllTouched ⟨#[0], 0, 8⟩ ⟨7, 12, 9⟩ (starts ⟨#[0], 0, 8⟩ ⟨7, 12, 9⟩) ∧
      ∃ is, indicesOf ⟨#[0], [], 0, 8, 20⟩ ⟨7, 16, 4⟩ = .ok is ∧
        AllTouchedInUnit ⟨#[0], [], 0, 8, 20⟩ ⟨7, 16, 4⟩ is := by
  obtain ⟨hhier, hrange⟩ := counts_touched_iff (g := 8) (by decide)
  refine ⟨(hhier ⟨#[0], 0, 8⟩ ⟨7, 12, 9⟩ rfl (by decide)).2.mpr ⟨by decide, by decide, by decide,
    by decide⟩, (hrange ⟨#[0], [], 0, 8, 20⟩ ⟨7, 16, 4⟩ rfl (by decide)).2.mpr ⟨by decide, by decide,
    fun k hlo hhi => exists_place_iff.mpr (Or.inl ?_)⟩⟩
  have hhi : k < 2 + 1 := hhi
  omega

/-- An access to the last byte of one granule and the first one of the next counts the first granule
alone. -/
theorem second_granule_missed : Inside 16 ⟨7, 7, 2⟩ ∧
    ¬ AllTouched ⟨#[0], 0, 8⟩ ⟨7, 7, 2⟩ (starts ⟨#[0], 0, 8⟩ ⟨7, 7, 2⟩) ∧
    ¬ ∃ is, indicesOf ⟨#[0], [], 0, 8, 16⟩ ⟨7, 7, 2⟩ = .ok is ∧
      AllTouchedInUnit ⟨#[0], [], 0, 8, 16⟩ ⟨7, 7, 2⟩ is := by
  have htouched : Meets 8 7 2 1 := ⟨8, by decide, by decide, by decide, by decide⟩
  have hstarts : starts ⟨#[0], 0, 8⟩ ⟨7, 7, 2⟩ = [0] := by decide +kernel
  have hindices : indicesOf ⟨#[0], [], 0, 8, 16⟩ ⟨7, 7, 2⟩ = .ok [0] := by decide +kernel
  refine ⟨by decide, fun h => ?_, ?_⟩
  · rw [hstarts] at h
    exact absurd ((h 8).mpr ⟨1, rfl, htouched⟩) (by decide)
  · rintro ⟨is, his, h⟩
    cases hindices.symm.trans his
    exact absurd ((h 1).mpr htouched) (by decide)

end Range

end DistExp.GranuleSets
