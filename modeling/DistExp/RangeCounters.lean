import DistExp.RangeSketch

namespace DistExp.RangeCounters

open DistExp.Library.MachineInt DistExp.Library.AgedCounter DistExp.Library.HalvingTree
open DistExp.PackedTable DistExp.RangeSketch

theorem levelTables_eq (levels : Nat) {m : Nat} (hm : m < 2 ^ 31) :
    levelTables levels (Int32.ofNat m) =
      .ok ((List.range levels).map fun i => Array.replicate (m / 2 ^ i) 0) := by
  induction levels generalizing m with
  | zero => rfl
  | succ levels ih =>
    have hn : ¬ Int32.ofNat m < 0 := by
      rw [Int32.lt_iff_toInt_lt, Int32.toInt_ofNat_of_lt hm]
      exact Int.not_lt.mpr (Int.natCast_nonneg m)
    have ht : (Int32.ofNat m).toInt.toNat = m := by
      rw [Int32.toInt_ofNat_of_lt hm, Int.toNat_natCast]
    rw [levelTables, if_neg hn, ofNat_half hm, ih (by omega), ht, List.range_succ_eq_map,
      List.map_cons, List.map_map]
    simp only [bind, Except.bind, pure, Except.pure, pow_zero, Nat.div_one, Function.comp_def,
      Nat.pow_succ, Nat.mul_comm _ 2, Nat.div_div_eq_div_mul]

theorem levelTables_neg {levels : Nat} (hl : 0 < levels) {tableSize : Int32} (h : tableSize < 0) :
    levelTables levels tableSize = .error .lengthError := by
  cases levels with
  | zero => exact absurd hl (Nat.lt_irrefl 0)
  | succ levels => rw [levelTables, if_pos h]

theorem tableSize_eq {n : Int32} (hn : ¬ n ≤ 0) :
    (Detail.nearestPowerOfTwo n.toUInt32).toInt32 =
      Int32.ofNat (2 ^ Nat.clog 2 n.toUInt32.toNat) := by
  rw [← (Detail.nearestPowerOfTwo_of_pos hn).1]
  exact (congrArg UInt32.toInt32 UInt32.ofNat_toNat).symm

def freshTables (p levels : Nat) : List Table :=
  (List.range levels).map fun i => Array.replicate (2 ^ p / 2 ^ i) 0

theorem levelTable_fresh {p levels : Nat} {s : Sketch}
    (hs : s.mixCounters = (freshTables p levels).toArray) (k : Nat) :
    levelTable s k = if k < levels then Array.replicate (2 ^ p / 2 ^ k) 0 else #[] := by
  rw [levelTable, hs, List.getElem?_toArray, freshTables, List.getElem?_map]
  by_cases hk : k < levels
  · rw [List.getElem?_range hk, if_pos hk]
    rfl
  · rw [List.getElem?_eq_none (by simpa using hk), if_neg hk]
    rfl

theorem shape_fresh {p levels : Nat} (hp : p ≤ 30) (hpos : 0 < levels) (hle : levels ≤ p + 1)
    {s : Sketch} (hc : s.counterLevel = Int32.ofNat levels)
    (hs : s.mixCounters = (freshTables p levels).toArray) : Shape p levels s where
  count := by rw [hs, List.size_toArray, freshTables, List.length_map, List.length_range]
  level_eq := hc
  pos := hpos
  levels_le := hle
  p_le := hp
  sized := by
    intro k hk
    rw [levelTable_fresh hs, if_pos hk, Nat.pow_div (by omega) (by decide)]
    exact PowSized.replicate (by omega)

theorem sketchCells_fresh {p levels : Nat} {s : Sketch}
    (hs : s.mixCounters = (freshTables p levels).toArray) : sketchCells s = fun _ => 0 := by
  funext c
  rw [sketchCells, levelTable_fresh hs]
  split
  · exact cells_replicate _ c.2
  · exact cells_replicate 0 c.2

theorem levels_le_of_nonempty {p levels : Nat}
    (hne : ∀ table ∈ (freshTables p levels).toArray, 0 < table.size) : levels ≤ p + 1 := by
  by_contra hgt
  have hm : Array.replicate (2 ^ p / 2 ^ (p + 1)) 0 ∈ (freshTables p levels).toArray := by
    simp only [freshTables, List.mem_toArray, List.mem_map, List.mem_range]
    exact ⟨p + 1, by omega, rfl⟩
  have hpos := hne _ hm
  rw [Array.size_replicate, Nat.div_eq_of_lt (Nat.pow_lt_pow_right (by decide) (by omega))] at hpos
  exact Nat.lt_irrefl 0 hpos

theorem nonempty_of_levels_le {p levels : Nat} (hle : levels ≤ p + 1) :
    ∀ table ∈ (freshTables p levels).toArray, 0 < table.size := by
  intro table ht
  simp only [freshTables, List.mem_toArray, List.mem_map, List.mem_range] at ht
  obtain ⟨i, hi, rfl⟩ := ht
  rw [Array.size_replicate, Nat.pow_div (by omega) (by decide)]
  exact Nat.two_pow_pos _

def fresh (n : Int32) (g u : UInt64) (p levels : Nat) : Sketch where
  mixCounters := (freshTables p levels).toArray
  counterLevel := Int32.ofNat levels
  size := 0
  refCnt := 0
  capacity := n
  softResetIdx := 0
  doingReset := false
  granularity := g
  unitSize := u

theorem construct_eq {n : Int32} {g u : UInt64} {p levels : Nat} (hn : ¬ n ≤ 0) (hg : g ≠ 0)
    (hz : Detail.nearestPowerOfTwo (u / g).toUInt32 ≠ 0)
    (hlog : Nat.log2 (Detail.nearestPowerOfTwo (u / g).toUInt32).toNat + 1 = levels)
    (hsize : (Detail.nearestPowerOfTwo n.toUInt32).toInt32 = Int32.ofNat (2 ^ p)) (hp : p ≤ 30) :
    construct n g u = .ok (fresh n g u p levels) := by
  have hpow : 2 ^ p ≤ 2 ^ 30 := Nat.pow_le_pow_right (by decide) hp
  simp only [construct, changeCapacity, if_neg hn, if_neg hg, if_neg hz, hlog, hsize]
  rw [levelTables_eq _ (by omega)]
  rfl

theorem construct_three : construct 4 1 3 = .ok (fresh 4 1 3 2 3) := rfl

theorem construct_four : construct 4 1 4 = .ok (fresh 4 1 4 2 3) := rfl

def wideSketch : Sketch := fresh 2 0x7fffffffffffffff 0xfffffffffffffffe 1 2

theorem construct_wide : construct 2 0x7fffffffffffffff 0xfffffffffffffffe = .ok wideSketch :=
  construct_eq (by decide) (by decide) (by decide) rfl rfl (by decide)

/-- The arguments that the constructor accepts, with the number of levels and the size of the
largest table. -/
structure Accepted (n : Int32) (g u : UInt64) (p levels : Nat) : Prop where
  capacity_pos : ¬ n ≤ 0
  granularity_ne : g ≠ 0
  units_ne : Detail.nearestPowerOfTwo (u / g).toUInt32 ≠ 0
  levels_eq : Nat.log2 (Detail.nearestPowerOfTwo (u / g).toUInt32).toNat + 1 = levels
  size_eq : (Detail.nearestPowerOfTwo n.toUInt32).toInt32 = Int32.ofNat (2 ^ p)
  p_le : p ≤ 30

theorem Accepted.construct {n : Int32} {g u : UInt64} {p levels : Nat} (h : Accepted n g u p levels) :
    construct n g u = .ok (fresh n g u p levels) :=
  construct_eq h.capacity_pos h.granularity_ne h.units_ne h.levels_eq h.size_eq h.p_le

theorem accepted_of_construct {n : Int32} {g u : UInt64} {s : Sketch} (hs : construct n g u = .ok s) :
    ∃ p levels, Accepted n g u p levels ∧ s = fresh n g u p levels := by
  have hn : ¬ n ≤ 0 := by
    intro hn
    rw [RangeSketch.construct, changeCapacity, if_pos hn] at hs
    cases hs
  have hg : g ≠ 0 := by
    intro hg
    rw [RangeSketch.construct, changeCapacity, if_neg hn, if_pos hg] at hs
    cases hs
  have hz : Detail.nearestPowerOfTwo (u / g).toUInt32 ≠ 0 := by
    intro hz
    rw [RangeSketch.construct, changeCapacity, if_neg hn, if_neg hg] at hs
    simp only [hz, if_true] at hs
    cases hs
  have hp := (Detail.nearestPowerOfTwo_of_pos hn).2
  have hsize := tableSize_eq hn
  generalize Nat.clog 2 n.toUInt32.toNat = p at hp hsize
  have hp30 : p ≤ 30 := by
    by_contra hgt
    have hp31 : p = 31 := by omega
    simp only [RangeSketch.construct, changeCapacity, if_neg hn, if_neg hg, if_neg hz, hsize,
      hp31] at hs
    rw [levelTables_neg (Nat.succ_pos _) (by decide)] at hs
    cases hs
  have hacc : Accepted n g u p _ := ⟨hn, hg, hz, rfl, hsize, hp30⟩
  rw [hacc.construct, Except.ok.injEq] at hs
  exact ⟨p, _, hacc, hs.symm⟩

theorem Accepted.size_toNat {n : Int32} {g u : UInt64} {p levels : Nat}
    (h : Accepted n g u p levels) : (Detail.nearestPowerOfTwo n.toUInt32).toNat = 2 ^ p := by
  have hpow : 2 ^ p ≤ 2 ^ 30 := Nat.pow_le_pow_right (by decide) h.p_le
  have hsize : Detail.nearestPowerOfTwo n.toUInt32 = UInt32.ofNat (2 ^ p) :=
    congrArg Int32.toUInt32 h.size_eq
  rw [hsize]
  exact UInt32.toNat_ofNat_of_lt' (show _ < 2 ^ 32 by omega)

theorem Accepted.granularity_pos {n : Int32} {g u : UInt64} {p levels : Nat}
    (h : Accepted n g u p levels) : 0 < g.toNat :=
  Nat.pos_of_ne_zero fun h0 => h.granularity_ne (UInt64.toNat_inj.mp h0)

theorem Accepted.units_pos {n : Int32} {g u : UInt64} {p levels : Nat}
    (h : Accepted n g u p levels) : 1 ≤ (u / g).toNat := by
  refine Nat.pos_of_ne_zero fun h0 => h.units_ne ?_
  rw [show u / g = 0 from UInt64.toNat_inj.mp h0]
  rfl

theorem Accepted.levels_clog {n : Int32} {g u : UInt64} {p levels : Nat}
    (h : Accepted n g u p levels) (h1 : 1 ≤ (u / g).toNat) (h31 : (u / g).toNat ≤ 2 ^ 31) :
    levels = Nat.clog 2 (u / g).toNat + 1 := by
  have hu : (u / g).toUInt32.toNat = (u / g).toNat := by
    rw [UInt64.toNat_toUInt32]
    exact Nat.mod_eq_of_lt (by omega)
  have hnp := Detail.nearestPowerOfTwo_toNat (u / g).toUInt32 (by omega) (by omega)
  rw [← h.levels_eq, hnp, hu, Nat.log2_two_pow]

theorem construct_shape {n : Int32} {g u : UInt64} {s : Sketch} (hs : construct n g u = .ok s)
    (hne : ∀ table ∈ s.mixCounters, 0 < table.size) (h1 : 1 ≤ (u / g).toNat)
    (h31 : (u / g).toNat ≤ 2 ^ 31) :
    ∃ p, Shape p (Nat.clog 2 (u / g).toNat + 1) s ∧ s.granularity = g ∧ s.unitSize = u ∧
      s.refCnt = 0 ∧ s.doingReset = false ∧ sketchCells s = fun _ => 0 := by
  obtain ⟨p, levels, hacc, rfl⟩ := accepted_of_construct hs
  obtain rfl := hacc.levels_clog h1 h31
  have hle := levels_le_of_nonempty (p := p) hne
  exact ⟨p, shape_fresh hacc.p_le (Nat.succ_pos _) hle rfl rfl, rfl, rfl, rfl, rfl,
    sketchCells_fresh rfl⟩

def rowsAt (p level : Nat) (hash : UInt32) (isLazy : Bool) : List Cell :=
  (MixTable.rowCells (p - level) hash isLazy).map fun c => (level, c)

theorem mem_rowsAt {p level : Nat} {hash : UInt32} {isLazy : Bool} {c : Cell} :
    c ∈ rowsAt p level hash isLazy ↔
      ∃ j, c = (level, MixTable.cellOf (p - level) hash isLazy j) := by
  simp only [rowsAt, List.mem_map, MixTable.mem_rowCells]
  constructor
  · rintro ⟨_, ⟨j, rfl⟩, rfl⟩; exact ⟨j, rfl⟩
  · rintro ⟨j, rfl⟩; exact ⟨_, ⟨j, rfl⟩, rfl⟩

theorem rowsAt_nodup (p level : Nat) (hash : UInt32) (isLazy : Bool) :
    (rowsAt p level hash isLazy).Nodup :=
  (MixTable.rowCells_nodup _ hash isLazy).map (Prod.mk_right_injective level)

theorem rowMin_rowsAt (s : Sketch) (p level : Nat) (hash : UInt32) (isLazy : Bool) (top : Nat) :
    rowMin top (sketchCells s) (rowsAt p level hash isLazy) =
      rowMin top (cells (levelTable s level)) (MixTable.rowCells (p - level) hash isLazy) := by
  simp only [rowMin, rowsAt, List.foldl_map]
  rfl

variable {hash : UInt64 → UInt64 → UInt32} {p levels level : Nat} {s : Sketch}

theorem getDyadicCnt_eq (h : Shape p levels s) (hl : level < levels) (unitId : UInt64)
    (base start stop : Int32) :
    getDyadicCnt hash s unitId base start stop (Int32.ofNat level) =
      .ok (Int32.ofNat (rowMin intMax (sketchCells s)
        (rowsAt p level (hash unitId (toSize (base + start))) false)) * (stop - start)) := by
  simp only [getDyadicCnt, elemAt_level h hl, bind, Except.bind,
    MixTable.blockFrequency_eq (h.sized level hl), rowMin_rowsAt]
  rfl

theorem getLazyAddCnt_eq (h : Shape p levels s) (hl : level < levels) (unitId : UInt64)
    (base start stop : Int32) :
    getLazyAddCnt hash s unitId base start stop (Int32.ofNat level) =
      .ok (Int32.ofNat (rowMin intMax (sketchCells s)
        (rowsAt p level (hash unitId (toSize (base + start))) true))) := by
  simp only [getLazyAddCnt, elemAt_level h hl, bind, Except.bind,
    MixTable.blockFrequency_eq (h.sized level hl), rowMin_rowsAt]

theorem incDyadicCnt_eq (hash : UInt64 → UInt64 → UInt32)
    (h : Shape p levels s) (hl : level < levels) (unitId : UInt64)
    (base start stop : Int32) :
    ∃ s', incDyadicCnt hash s unitId base start stop 1 (Int32.ofNat level) = .ok s' ∧
      Shape p levels s' ∧ frame s' = frame s ∧
      sketchCells s' = raiseAll 15 (sketchCells s)
        (rowsAt p level (hash unitId (toSize (base + start))) false) := by
  obtain ⟨t, added, ht, hp, hc⟩ := MixTable.incrementRows_eq (h.sized level hl) false
    (hash unitId (toSize (base + start)))
  let size := if added then s.size + 1 else s.size
  refine ⟨_, ?_, h.setAt hl hp size, rfl, sketchCells_setAt h hl size hc⟩
  simp only [incDyadicCnt, elemAt_level h hl, bind, Except.bind, ht]
  cases added <;> rfl

theorem incLazyAddCnt_eq (hash : UInt64 → UInt64 → UInt32)
    (h : Shape p levels s) (hl : level < levels) (unitId : UInt64)
    (base start stop : Int32) :
    ∃ s', incLazyAddCnt hash s unitId base start stop (Int32.ofNat level) = .ok s' ∧
      Shape p levels s' ∧ frame s' = frame s ∧
      sketchCells s' = raiseAll 15 (sketchCells s)
        (rowsAt p level (hash unitId (toSize (base + start))) true) := by
  obtain ⟨t, added, ht, hp, hc⟩ := MixTable.incrementRows_eq (h.sized level hl) true
    (hash unitId (toSize (base + start)))
  let size := if added then s.size + (stop - start) else s.size
  refine ⟨_, ?_, h.setAt hl hp size, rfl, sketchCells_setAt h hl size hc⟩
  simp only [incLazyAddCnt, elemAt_level h hl, bind, Except.bind, ht]
  cases added <;> rfl

/-- What the `int` arithmetic of one step of a recursion over `[a, b)` comes to. -/
structure HalvingStep (l r a b : Nat) : Prop where
  guard : ¬ ¬ (Int32.ofNat a ≤ Int32.ofNat l ∧ Int32.ofNat r ≤ Int32.ofNat b)
  whole : (Int32.ofNat l = Int32.ofNat a ∧ Int32.ofNat r = Int32.ofNat b) ↔ l = a ∧ r = b
  middle : Int32.ofNat a + (Int32.ofNat b - Int32.ofNat a) / 2 = Int32.ofNat (mid a b)
  lowStop : min (Int32.ofNat (mid a b)) (Int32.ofNat r) = Int32.ofNat (min (mid a b) r)
  highStart : max (Int32.ofNat l) (Int32.ofNat (mid a b)) = Int32.ofNat (max l (mid a b))
  low : Int32.ofNat (mid a b) > Int32.ofNat l ↔ l < mid a b
  high : Int32.ofNat (mid a b) < Int32.ofNat r ↔ mid a b < r

theorem halvingStep {l r a b : Nat} (hab : a < b) (hal : a ≤ l) (hrb : r ≤ b) (hl : l < 2 ^ 31)
    (hb : b < 2 ^ 31) : HalvingStep l r a b := by
  have ha : a < 2 ^ 31 := hab.trans hb
  have hr : r < 2 ^ 31 := hrb.trans_lt hb
  have hm : mid a b < 2 ^ 31 := by
    unfold mid
    omega
  refine ⟨?_, ?_, ofNat_mid hab.le hb, min_ofNat hm hr, max_ofNat hl hm,
    Int32.ofNat_lt_iff_lt hl hm, Int32.ofNat_lt_iff_lt hm hr⟩
  · rw [Int32.ofNat_le_iff_le ha hl, Int32.ofNat_le_iff_le hr hb]
    exact not_not_intro ⟨hal, hrb⟩
  · rw [ofNat_inj hl ha, ofNat_inj hr hb]

end DistExp.RangeCounters
