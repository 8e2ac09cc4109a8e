import DistExp.PackedTable

namespace DistExp.MixTable

open DistExp.Library.MachineInt DistExp.Library.NibbleWord DistExp.Library.AgedCounter
open DistExp.PackedTable

def offsetMultiplier (hash : UInt32) : UInt32 := (hash &&& 1) <<< 2

/-- The low eight counters of a word are dyadic counters, the high eight are lazy ones. -/
def counterOffset (hash : UInt32) (counterIndex : Fin 4) (isLazy : Bool) : UInt32 :=
  let offset := (offsetMultiplier hash + UInt32.ofNat counterIndex.val) <<< 2
  if isLazy then offset + 32 else offset

def getCount (table : Table) (isLazy : Bool) (hash : UInt32) (counterIndex : Fin 4) :
    Except Fault Int32 := do
  let index := tableIndex table hash counterIndex
  let offset := counterOffset hash counterIndex isLazy
  let word ← elemAt table index
  return toInt ((word >>> offset.toUInt64) &&& 0xf)

def tryIncrementCounterAtWithValue (table : Table) (isLazy : Bool) (hash : UInt32)
    (counterIndex : Fin 4) (incValue : Int32) : Except Fault (Table × Bool) := do
  let index := tableIndex table hash counterIndex
  let offset := counterOffset hash counterIndex isLazy
  let word ← elemAt table index
  let nowValue := toInt ((word >>> offset.toUInt64) &&& 0xf)
  if nowValue < 0xf then
    -- the sum is an `int`; past its range it wraps to a negative value
    let nowValue := nowValue + incValue
    if nowValue ≥ 0xf then
      return (setAt table index (word ||| (0xf <<< offset.toUInt64)), true)
    else
      return (setAt table index (word + (toSize incValue <<< offset.toUInt64)), true)
  else
    return (table, true)

/-- The field of a word that holds row `counterIndex` of a hash. -/
def fieldOf (hash : UInt32) (counterIndex : Fin 4) (isLazy : Bool) : Fin 16 :=
  ⟨4 * (hash.toNat % 2) + counterIndex.val + if isLazy then 8 else 0, by split <;> omega⟩

def cellOf (p : Nat) (hash : UInt32) (isLazy : Bool) (counterIndex : Fin 4) : Nat × Fin 16 :=
  (indexOf p hash counterIndex, fieldOf hash counterIndex isLazy)

theorem counterOffset_eq (hash : UInt32) (counterIndex : Fin 4) (isLazy : Bool) :
    (counterOffset hash counterIndex isLazy).toUInt64 = shift (fieldOf hash counterIndex isLazy) := by
  have hb : (hash &&& 1).toNat = hash.toNat % 2 := by
    rw [UInt32.toNat_and]
    exact Nat.and_one_is_mod _
  have hc : (hash &&& 1 = 0 ∧ hash.toNat % 2 = 0) ∨ (hash &&& 1 = 1 ∧ hash.toNat % 2 = 1) := by
    obtain h | h := Nat.mod_two_eq_zero_or_one hash.toNat
    · exact Or.inl ⟨UInt32.toNat_inj.mp (by rw [hb, h]; rfl), h⟩
    · exact Or.inr ⟨UInt32.toNat_inj.mp (by rw [hb, h]; rfl), h⟩
  rcases hc with ⟨hw, hn⟩ | ⟨hw, hn⟩ <;>
    simp only [counterOffset, offsetMultiplier, fieldOf, hw, hn, shift] <;>
    revert counterIndex isLazy <;> decide

theorem getCount_eq {p : Nat} {table : Table} (h : PowSized p table) (isLazy : Bool)
    (hash : UInt32) (counterIndex : Fin 4) :
    getCount table isLazy hash counterIndex =
      .ok (Int32.ofNat (cells table (cellOf p hash isLazy counterIndex))) := by
  simp only [getCount, tableIndex_eq h, elemAt_index h (indexOf_lt p hash counterIndex),
    counterOffset_eq, nibble_toInt]
  rfl

theorem tryIncrementCounterAtWithValue_eq {p : Nat} {table : Table} (h : PowSized p table)
    (isLazy : Bool) (hash : UInt32) (counterIndex : Fin 4) (incValue : Int32)
    (h0 : 0 ≤ incValue.toInt)
    (hv : cells table (cellOf p hash isLazy counterIndex) = 15 ∨
      cells table (cellOf p hash isLazy counterIndex) + incValue.toInt < 2 ^ 31) :
    ∃ table', tryIncrementCounterAtWithValue table isLazy hash counterIndex incValue =
        .ok (table', true) ∧ PowSized p table' ∧
      cells table' = raise 15 incValue.toInt.toNat (cells table)
        (cellOf p hash isLazy counterIndex) := by
  have hi := indexOf_lt p hash counterIndex
  have hle := cells_le table (cellOf p hash isLazy counterIndex)
  let c := cells table (cellOf p hash isLazy counterIndex)
  have hnow : toInt ((table[indexOf p hash counterIndex]?.getD 0 >>>
      shift (fieldOf hash counterIndex isLazy)) &&& 0xf) = Int32.ofNat c := nibble_toInt _ _
  obtain ⟨v, hvv⟩ := Int.eq_ofNat_of_zero_le h0
  have hv31 : v < 2 ^ 31 := by have := incValue.toInt_lt; omega
  have hiv : incValue = Int32.ofNat v := by
    rw [← Int32.toInt_inj, hvv, Int32.toInt_ofNat_of_lt hv31]
  simp only [tryIncrementCounterAtWithValue, tableIndex_eq h, elemAt_index h hi, counterOffset_eq,
    bind, Except.bind, pure, Except.pure, hnow]
  have hlt : Int32.ofNat c < 0xf ↔ c < 15 := Int32.ofNat_lt_iff_lt (by omega) (by decide)
  by_cases hc : c < 15
  · rw [if_pos (hlt.mpr hc), hiv, ← Int32.ofNat_add]
    have hsum : c + v < 2 ^ 31 := by
      obtain h15 | hs := hv
      · exact absurd h15 hc.ne
      · have : (c : Int) + incValue.toInt < 2 ^ 31 := hs
        omega
    have hge : Int32.ofNat (c + v) ≥ 0xf ↔ 15 ≤ c + v := Int32.ofNat_le_iff_le (by decide) hsum
    have hnat : (Int32.ofNat v).toInt.toNat = v := by
      rw [Int32.toInt_ofNat_of_lt hv31, Int.toNat_natCast]
    rw [hnat]
    by_cases hcap : 15 ≤ c + v
    · rw [if_pos (hge.mpr hcap)]
      exact ⟨_, rfl, h.setAt _ _, cells_saturate h hi _ hcap⟩
    · rw [if_neg (fun hg => hcap (hge.mp hg))]
      have hts : (toSize (Int32.ofNat v)).toNat = v := toNat_toSize_ofNat hv31
      have ha := cells_add h hi (fieldOf hash counterIndex isLazy) (v := toSize (Int32.ofNat v))
        (by rw [hts]; exact (Nat.lt_of_not_le hcap).le)
      rw [hts] at ha
      exact ⟨_, rfl, h.setAt _ _, ha⟩
  · rw [if_neg (fun hg => hc (hlt.mp hg))]
    have hc15 : c = 15 := Nat.le_antisymm hle (Nat.le_of_not_lt hc)
    exact ⟨table, rfl, h, (raise_full hc15 _).symm⟩

def rowCells (p : Nat) (hash : UInt32) (isLazy : Bool) : List (Nat × Fin 16) :=
  (List.finRange 4).map (cellOf p hash isLazy)

theorem mem_rowCells {p : Nat} {hash : UInt32} {isLazy : Bool} {c : Nat × Fin 16} :
    c ∈ rowCells p hash isLazy ↔ ∃ j, c = cellOf p hash isLazy j := by
  simp [rowCells, eq_comm]

theorem fieldOf_injective (hash : UInt32) (isLazy : Bool) :
    Function.Injective fun j => fieldOf hash j isLazy := by
  intro i j h
  have hv := congrArg Fin.val h
  simp only [fieldOf] at hv
  exact Fin.ext (by omega)

theorem fieldOf_lazy_ne (hash hash' : UInt32) (i j : Fin 4) :
    fieldOf hash i false ≠ fieldOf hash' j true := by
  intro h
  have hv := congrArg Fin.val h
  simp only [fieldOf, Bool.false_eq_true, if_false, if_true] at hv
  omega

theorem rowCells_nodup (p : Nat) (hash : UInt32) (isLazy : Bool) : (rowCells p hash isLazy).Nodup := by
  refine (List.nodup_finRange 4).map fun i j h => ?_
  exact fieldOf_injective hash isLazy (congrArg Prod.snd h)

/-- The loop of `get_lazy_add_cnt` and `get_dyadic_cnt`. -/
def blockFrequency (table : Table) (isLazy : Bool) (hash : UInt32) : Except Fault Int32 :=
  minRows (getCount table isLazy hash)

/-- The loop of `inc_lazy_add_cnt` and `inc_dyadic_cnt`. -/
def incrementRows (table : Table) (isLazy : Bool) (hash : UInt32) (value : Int32) :
    Except Fault (Table × Bool) :=
  addRows (fun table counterIndex =>
    tryIncrementCounterAtWithValue table isLazy hash counterIndex value) (table, false)

theorem blockFrequency_eq {p : Nat} {table : Table} (h : PowSized p table) (isLazy : Bool)
    (hash : UInt32) :
    blockFrequency table isLazy hash =
      .ok (Int32.ofNat (rowMin intMax (cells table) (rowCells p hash isLazy))) :=
  minRows_eq fun j => getCount_eq h isLazy hash j

theorem incrementRows_eq {p : Nat} {table : Table} (h : PowSized p table) (isLazy : Bool)
    (hash : UInt32) :
    ∃ table' added, incrementRows table isLazy hash 1 = .ok (table', added) ∧ PowSized p table' ∧
      cells table' = raiseAll 15 (cells table) (rowCells p hash isLazy) := by
  refine addRows_eq (fun t j ht => ?_) h false
  have hle := cells_le t (cellOf p hash isLazy j)
  have h1 : (1 : Int32).toInt = 1 := rfl
  obtain ⟨t', hrun, hp, hc⟩ := tryIncrementCounterAtWithValue_eq ht isLazy hash j 1
    (by rw [h1]; decide) (Or.inr (by rw [h1]; omega))
  exact ⟨t', true, hrun, hp, hc⟩

end DistExp.MixTable
