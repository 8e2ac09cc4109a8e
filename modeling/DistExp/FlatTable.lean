import DistExp.PackedTable

namespace DistExp.FlatTable

open DistExp.Library.MachineInt DistExp.Library.NibbleWord DistExp.Library.AgedCounter
open DistExp.PackedTable

def offsetMultiplier (hash : UInt32) : UInt32 := (hash &&& 3) <<< 2

def counterOffset (hash : UInt32) (counterIndex : Fin 4) : UInt32 :=
  (offsetMultiplier hash + UInt32.ofNat counterIndex.val) <<< 2

def getCount (table : Table) (hash : UInt32) (counterIndex : Fin 4) : Except Fault Int32 := do
  let index := tableIndex table hash counterIndex
  let offset := counterOffset hash counterIndex
  let word ← elemAt table index
  return toInt ((word >>> offset.toUInt64) &&& 0xf)

def canIncrementCounterAt (table : Table) (index : Int32) (offset : UInt32) :
    Except Fault Bool := do
  let mask : UInt64 := 0xf <<< offset.toUInt64
  let word ← elemAt table index
  return (word &&& mask) != mask

def tryIncrementCounterAt (whenFull : Bool) (table : Table) (hash : UInt32)
    (counterIndex : Fin 4) : Except Fault (Table × Bool) := do
  let index := tableIndex table hash counterIndex
  let offset := counterOffset hash counterIndex
  if ← canIncrementCounterAt table index offset then
    let word ← elemAt table index
    return (setAt table index (word + (1 <<< offset.toUInt64)), true)
  return (table, whenFull)

/-- The field of a word that holds row `counterIndex` of a hash. -/
def fieldOf (hash : UInt32) (counterIndex : Fin 4) : Fin 16 :=
  ⟨4 * (hash.toNat % 4) + counterIndex.val, by omega⟩

def cellOf (p : Nat) (hash : UInt32) (counterIndex : Fin 4) : Nat × Fin 16 :=
  (indexOf p hash counterIndex, fieldOf hash counterIndex)

theorem counterOffset_eq (hash : UInt32) (counterIndex : Fin 4) :
    (counterOffset hash counterIndex).toUInt64 = shift (fieldOf hash counterIndex) := by
  have hb : (hash &&& 3).toNat = hash.toNat % 4 := by
    rw [UInt32.toNat_and]
    exact Nat.and_two_pow_sub_one_eq_mod _ 2
  obtain ⟨r, hr⟩ : ∃ r : Fin 4, hash.toNat % 4 = r.val := ⟨⟨hash.toNat % 4, by omega⟩, rfl⟩
  have hw : hash &&& 3 = UInt32.ofNat r.val := by
    apply UInt32.toNat_inj.mp
    rw [hb, hr, UInt32.toNat_ofNat']
    omega
  simp only [counterOffset, offsetMultiplier, fieldOf, hw, hr, shift]
  clear hr hw hb
  revert r counterIndex
  decide

theorem getCount_eq {p : Nat} {table : Table} (h : PowSized p table) (hash : UInt32)
    (counterIndex : Fin 4) :
    getCount table hash counterIndex =
      .ok (Int32.ofNat (cells table (cellOf p hash counterIndex))) := by
  simp only [getCount, tableIndex_eq h, elemAt_index h (indexOf_lt p hash counterIndex),
    counterOffset_eq, nibble_toInt]
  rfl

theorem canIncrementCounterAt_eq {p : Nat} {table : Table} (h : PowSized p table)
    (hash : UInt32) (counterIndex : Fin 4) :
    canIncrementCounterAt table (tableIndex table hash counterIndex)
      (counterOffset hash counterIndex) =
      .ok (decide (cells table (cellOf p hash counterIndex) ≠ 15)) := by
  have hf := and_ones_eq (table[indexOf p hash counterIndex]?.getD 0)
    (fieldOf hash counterIndex).isLt
  simp only [canIncrementCounterAt, tableIndex_eq h,
    elemAt_index h (indexOf_lt p hash counterIndex), counterOffset_eq, bind, Except.bind, pure,
    Except.pure, Except.ok.injEq]
  rw [Bool.eq_iff_iff, bne_iff_ne, decide_eq_true_eq]
  exact not_congr hf

theorem tryIncrementCounterAt_eq {p : Nat} {table : Table} (h : PowSized p table)
    (whenFull : Bool) (hash : UInt32) (counterIndex : Fin 4) :
    ∃ table' added, tryIncrementCounterAt whenFull table hash counterIndex =
        .ok (table', added) ∧ PowSized p table' ∧
      cells table' = raise 15 1 (cells table) (cellOf p hash counterIndex) := by
  have hi := indexOf_lt p hash counterIndex
  have hle := cells_le table (cellOf p hash counterIndex)
  by_cases hc : cells table (cellOf p hash counterIndex) = 15
  · refine ⟨table, whenFull, ?_, h, (raise_full hc 1).symm⟩
    simp [tryIncrementCounterAt, canIncrementCounterAt_eq h, hc, bind, Except.bind, pure,
      Except.pure]
  · have ha := cells_add h hi (fieldOf hash counterIndex) (v := 1)
      (Nat.lt_of_le_of_ne hle hc)
    refine ⟨_, true, ?_, h.setAt _ _, ha⟩
    simp only [tryIncrementCounterAt, canIncrementCounterAt_eq h, bind, Except.bind, pure,
      Except.pure]
    rw [if_pos (decide_eq_true hc), tableIndex_eq h, elemAt_index h hi, counterOffset_eq]

def rowCells (p : Nat) (hash : UInt32) : List (Nat × Fin 16) :=
  (List.finRange 4).map (cellOf p hash)

theorem mem_rowCells {p : Nat} {hash : UInt32} {c : Nat × Fin 16} :
    c ∈ rowCells p hash ↔ ∃ j, c = cellOf p hash j := by
  simp [rowCells, eq_comm]

theorem fieldOf_injective (hash : UInt32) : Function.Injective (fieldOf hash) := by
  intro i j h
  have hv := congrArg Fin.val h
  simp only [fieldOf] at hv
  exact Fin.ext (by omega)

theorem rowCells_nodup (p : Nat) (hash : UInt32) : (rowCells p hash).Nodup := by
  refine (List.nodup_finRange 4).map fun i j h => ?_
  exact fieldOf_injective hash (congrArg Prod.snd h)

/-- The loop of `frequency` over the rows of one hash. -/
def blockFrequency (table : Table) (hash : UInt32) : Except Fault Int32 :=
  minRows (getCount table hash)

/-- The loop of `record_access` over the rows of one hash. -/
def incrementRows (whenFull : Bool) (acc : Table × Bool) (hash : UInt32) :
    Except Fault (Table × Bool) :=
  addRows (fun table counterIndex => tryIncrementCounterAt whenFull table hash counterIndex) acc

theorem blockFrequency_eq {p : Nat} {table : Table} (h : PowSized p table) (hash : UInt32) :
    blockFrequency table hash =
      .ok (Int32.ofNat (rowMin intMax (cells table) (rowCells p hash))) :=
  minRows_eq fun j => getCount_eq h hash j

theorem incrementRows_eq {p : Nat} {table : Table} (h : PowSized p table) (whenFull wasAdded : Bool)
    (hash : UInt32) :
    ∃ table' added, incrementRows whenFull (table, wasAdded) hash = .ok (table', added) ∧
      PowSized p table' ∧ cells table' = raiseAll 15 (cells table) (rowCells p hash) :=
  addRows_eq (fun _ j ht => tryIncrementCounterAt_eq ht whenFull hash j) h wasAdded

end DistExp.FlatTable
