import DistExp.RangeRuns

namespace DistExp.TableSizing

open DistExp.Library.MachineInt
open DistExp.PackedTable DistExp.RangeSketch DistExp.RangeCounters DistExp.RangeRuns

def seeded (hash : UInt32) (counterIndex : Fin 4) : Nat :=
  (seeds counterIndex).toNat * hash.toNat % 2 ^ 64

/-- The index of a hash in a table, before it becomes an `int`. -/
def masked (table : Table) (hash : UInt32) (counterIndex : Fin 4) : UInt64 :=
  spread hash counterIndex &&& (UInt64.ofNat table.size - 1)

/-- The mask is a modulus, and the index is an `int` that points into the table. -/
structure Indexed (table : Table) (hash : UInt32) (counterIndex : Fin 4) (h : Nat) : Prop where
  masked_eq : (masked table hash counterIndex).toNat = (h + h / 2 ^ 32) % table.size
  lt : (h + h / 2 ^ 32) % table.size < table.size
  index_eq : (tableIndex table hash counterIndex).toInt =
    ((masked table hash counterIndex).toNat : Int)

/-- A sketch has a table for each level, the first of the least power of two that is not below the
capacity, and every one half as long as the one before. -/
structure Sized (n : Int32) (g u : UInt64) (s : Sketch) : Prop where
  levels_eq : s.mixCounters.size = Nat.log2 (Detail.nearestPowerOfTwo (u / g).toUInt32).toNat + 1
  counterLevel_eq : s.counterLevel.toInt = s.mixCounters.size
  size_eq : ∀ level < s.mixCounters.size,
    (levelTable s level).size = (Detail.nearestPowerOfTwo n.toUInt32).toNat / 2 ^ level

variable {n : Int32} {g u : UInt64} {s s' : Sketch} {table : Table}

theorem nearestPowerOfTwo_isLeast {x : UInt32} (h1 : 1 ≤ x.toNat) (h31 : x.toNat ≤ 2 ^ 31) :
    IsLeast {y | x.toNat ≤ y ∧ ∃ k, y = 2 ^ k} (Detail.nearestPowerOfTwo x).toNat := by
  rw [Detail.nearestPowerOfTwo_toNat x h1 h31]
  refine ⟨⟨Nat.le_pow_clog (by decide) _, _, rfl⟩, ?_⟩
  rintro _ ⟨hle, k, rfl⟩
  exact Nat.pow_le_pow_right (by decide) (Nat.clog_le_of_le_pow hle)

theorem spread_toNat (hash : UInt32) (counterIndex : Fin 4) :
    (spread hash counterIndex).toNat =
      (seeded hash counterIndex + seeded hash counterIndex / 2 ^ 32) % 2 ^ 64 := by
  rw [spread, UInt64.toNat_add, UInt64.toNat_shiftRight, Nat.shiftRight_eq_div_pow]
  rfl

theorem indexOf_eq {p : Nat} (hp : p ≤ 31) (hash : UInt32) (counterIndex : Fin 4) :
    indexOf p hash counterIndex =
      (seeded hash counterIndex + seeded hash counterIndex / 2 ^ 32) % 2 ^ p := by
  have hdvd : 2 ^ p ∣ 2 ^ 64 := Nat.pow_dvd_pow 2 (by omega)
  rw [indexOf, spread_toNat, Nat.mod_mod_of_dvd _ hdvd]

theorem indexed_of_powSized {p : Nat} (h : PowSized p table) (hash : UInt32)
    (counterIndex : Fin 4) : Indexed table hash counterIndex (seeded hash counterIndex) := by
  have hindex := indexOf_eq h.2 hash counterIndex
  have hpow := two_pow_le_of_le h.2
  have hlt := indexOf_lt p hash counterIndex
  have hmask : (masked table hash counterIndex).toNat = indexOf p hash counterIndex :=
    mask_toNat h hash counterIndex
  refine ⟨?_, ?_, ?_⟩
  · rw [hmask, hindex, h.1]
  · rw [h.1]
    exact Nat.mod_lt _ (Nat.two_pow_pos p)
  · rw [hmask, tableIndex_eq h]
    exact Int32.toInt_ofNat_of_lt (by omega)

theorem powSized_of_fresh {p levels : Nat} (hp : p ≤ 30)
    (ht : table ∈ (freshTables p levels).toArray) (hpos : 0 < table.size) :
    ∃ k, PowSized k table := by
  simp only [freshTables, List.mem_toArray, List.mem_map, List.mem_range] at ht
  obtain ⟨i, -, rfl⟩ := ht
  rw [Array.size_replicate] at hpos
  have hi : i ≤ p := by
    by_contra hgt
    rw [Nat.div_eq_of_lt (Nat.pow_lt_pow_right (by decide) (by omega))] at hpos
    exact Nat.lt_irrefl 0 hpos
  rw [Nat.pow_div hi (by decide)]
  exact ⟨p - i, PowSized.replicate (by omega)⟩

theorem tableSize_of_le (hn : ¬ n ≤ 0) (hn30 : n.toInt ≤ 2 ^ 30) :
    ∃ p ≤ 30, (Detail.nearestPowerOfTwo n.toUInt32).toInt32 = Int32.ofNat (2 ^ p) := by
  obtain ⟨m, hm, hpos, hlt⟩ := toUInt32_toNat_of_pos hn
  have hint : n.toInt = n.toBitVec.toInt := rfl
  have hnat : n.toUInt32.toNat = n.toBitVec.toNat := rfl
  rw [BitVec.toInt_eq_toNat_of_lt (by omega)] at hint
  exact ⟨_, Nat.clog_le_of_le_pow (by omega), tableSize_eq hn⟩

theorem changeCapacity_ok (s : Sketch) (hn : ¬ n ≤ 0) (hn30 : n.toInt ≤ 2 ^ 30) (hg : g ≠ 0)
    (hu : Detail.nearestPowerOfTwo (u / g).toUInt32 ≠ 0) :
    ∃ s', changeCapacity s n g u = .ok s' := by
  obtain ⟨p, hp, hsize⟩ := tableSize_of_le hn hn30
  have hacc : Accepted n g u p _ := ⟨hn, hg, hu, rfl, hsize, hp⟩
  rw [changeCapacity_eq, hacc.construct]
  exact ⟨_, rfl⟩

theorem fresh_of_changeCapacity (hs : changeCapacity s n g u = .ok s') :
    ∃ p levels, Accepted n g u p levels ∧ s'.mixCounters = (freshTables p levels).toArray ∧
      s'.counterLevel = Int32.ofNat levels := by
  rw [changeCapacity_eq] at hs
  cases hnew : construct n g u with
  | error e =>
    rw [hnew] at hs
    cases hs
  | ok f =>
    rw [hnew] at hs
    cases hs
    obtain ⟨p, levels, hacc, rfl⟩ := accepted_of_construct hnew
    exact ⟨p, levels, hacc, rfl, rfl⟩

theorem sized_of_changeCapacity (hs : changeCapacity s n g u = .ok s') : Sized n g u s' := by
  obtain ⟨p, levels, hacc, htables, hlevel⟩ := fresh_of_changeCapacity hs
  have hcount : s'.mixCounters.size = levels := by
    rw [htables, List.size_toArray, freshTables, List.length_map, List.length_range]
  -- the number of levels is at most that of the bits of a `uint32_t`
  have hlog : levels ≤ 32 := by
    rw [← hacc.levels_eq]
    refine (Nat.log2_lt fun h0 => hacc.units_ne (UInt32.toNat_inj.mp h0)).mpr ?_
    exact UInt32.toNat_lt _
  refine ⟨hcount.trans hacc.levels_eq.symm, ?_, fun level hl => ?_⟩
  · rw [hlevel, hcount, Int32.toInt_ofNat_of_lt (by omega)]
  · rw [levelTable_fresh htables, if_pos (hcount ▸ hl), Array.size_replicate, hacc.size_toNat]

theorem powSized_of_changeCapacity (hs : changeCapacity s n g u = .ok s')
    (ht : table ∈ s'.mixCounters) (hpos : 0 < table.size) : ∃ k, PowSized k table := by
  obtain ⟨p, levels, hacc, htables, -⟩ := fresh_of_changeCapacity hs
  exact powSized_of_fresh hacc.p_le (htables ▸ ht) hpos

/-- Table lengths are least powers of two, halved from level to level, so that the mask of
`table_index` is a modulus on every level that has words. -/
theorem table_sizing_sound :
    (∀ x : UInt32, 1 ≤ x.toNat → x.toNat ≤ 2 ^ 31 →
      IsLeast {y | x.toNat ≤ y ∧ ∃ k, y = 2 ^ k} (Detail.nearestPowerOfTwo x).toNat) ∧
    ∀ (n : Int32) (g u : UInt64) (s : Sketch), 0 < n → n.toInt ≤ 2 ^ 30 →
      (g ≠ 0 → Detail.nearestPowerOfTwo (u / g).toUInt32 ≠ 0 →
        ∃ s', changeCapacity s n g u = .ok s') ∧
      ∀ s', changeCapacity s n g u = .ok s' → Sized n g u s' ∧
        ∀ table ∈ s'.mixCounters, 0 < table.size → ∀ hash counterIndex,
          Indexed table hash counterIndex (seeded hash counterIndex) := by
  refine ⟨fun x => nearestPowerOfTwo_isLeast, fun n g u s hn hn30 => ⟨fun hg hu => ?_, ?_⟩⟩
  · exact changeCapacity_ok s (Int32.not_le.mpr hn) hn30 hg hu
  · refine fun s' hs => ⟨sized_of_changeCapacity hs, fun table ht hpos hash counterIndex => ?_⟩
    obtain ⟨k, hk⟩ := powSized_of_changeCapacity hs ht hpos
    exact indexed_of_powSized hk hash counterIndex

/-- Three levels of four words, two and one, and the second of them under any hash. -/
theorem table_sizing_sound_four :
    IsLeast {y | 5 ≤ y ∧ ∃ k, y = 2 ^ k} 8 ∧
      ∃ s', changeCapacity (fresh 4 1 3 2 3) 4 1 3 = .ok s' ∧
        (s'.mixCounters.size = 3 ∧ (levelTable s' 0).size = 4 ∧ (levelTable s' 1).size = 2 ∧
          (levelTable s' 2).size = 1) ∧
        ∀ hash j, (masked (levelTable s' 1) hash j).toNat =
            (seeded hash j + seeded hash j / 2 ^ 32) % 2 ∧
          (tableIndex (levelTable s' 1) hash j).toInt =
            ((masked (levelTable s' 1) hash j).toNat : Int) := by
  obtain ⟨hleast, hcap⟩ := table_sizing_sound
  obtain ⟨hsome, hall⟩ := hcap 4 1 3 (fresh 4 1 3 2 3) (by decide) (by decide)
  obtain ⟨s', hs⟩ := hsome (by decide) (by decide)
  obtain ⟨hsized, hindexed⟩ := hall s' hs
  have hcount : s'.mixCounters.size = 3 := hsized.levels_eq
  have hsize : ∀ level < 3, (levelTable s' level).size = 4 / 2 ^ level :=
    fun level hl => hsized.size_eq level (hcount ▸ hl)
  have hsecond : (levelTable s' 1).size = 2 := hsize 1 (by decide)
  have hmem : levelTable s' 1 ∈ s'.mixCounters := by
    rw [levelTable, Array.getElem?_eq_getElem (by omega)]
    exact Array.getElem_mem _
  refine ⟨hleast 5 (by decide) (by decide), s', hs,
    ⟨hcount, hsize 0 (by decide), hsecond, hsize 2 (by decide)⟩, fun hash j => ?_⟩
  have hind := hindexed _ hmem (hsecond ▸ Nat.two_pos) hash j
  refine ⟨?_, hind.index_eq⟩
  rw [hind.masked_eq, hsecond]

end DistExp.TableSizing
