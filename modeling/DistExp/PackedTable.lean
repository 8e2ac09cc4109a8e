import DistExp.Library.NibbleWord
import DistExp.Library.AgedCounter
import DistExp.Detail

namespace DistExp.PackedTable

open DistExp.Library.MachineInt DistExp.Library.NibbleWord DistExp.Library.AgedCounter

/-- The ways in which a call does not come back with a value: a failed `assert`, an index past
the end of a vector, a division by zero, the exceptions of the constructors, `log2(0)` turned
into an `int`, and a recursion or a loop longer than the model follows. -/
inductive Fault where
  | assertion
  | outOfRange
  | divisionByZero
  | invalidArgument
  | lengthError
  | logOfZero
  | depth
  deriving DecidableEq

def faultOf {α : Type} : Except Fault α → Option Fault
  | .error f => some f
  | .ok _ => none

theorem eq_error_of_faultOf {α : Type} {x : Except Fault α} {f : Fault} (h : faultOf x = some f) :
    x = .error f := by
  cases x with
  | error f' => exact congrArg Except.error (Option.some.inj h)
  | ok a => cases h

abbrev Table := Array UInt64

/-- `v[i]` for an `int` index: the index is widened to `size_t` first. -/
def elemAt {α : Type} (v : Array α) (index : Int32) : Except Fault α :=
  match v[(toSize index).toNat]? with
  | some x => .ok x
  | none => .error .outOfRange

theorem elemAt_eq_ok_iff {α : Type} {v : Array α} {index : Int32} {x : α} :
    elemAt v index = .ok x ↔ v[(toSize index).toNat]? = some x := by
  rw [elemAt]
  cases v[(toSize index).toNat]? with
  | none => exact iff_of_false nofun nofun
  | some y => rw [Except.ok.injEq, Option.some.injEq]

def setAt {α : Type} (v : Array α) (index : Int32) (x : α) : Array α :=
  v.setIfInBounds (toSize index).toNat x

theorem elemAt_setAt {α : Type} {v : Array α} {index : Int32} {x : α} (h : elemAt v index = .ok x)
    (y : α) (index' : Int32) :
    elemAt (setAt v index y) index' =
      if (toSize index).toNat = (toSize index').toNat then .ok y else elemAt v index' := by
  have hlt : (toSize index).toNat < v.size := by
    by_contra hge
    rw [elemAt, Array.getElem?_eq_none (not_lt.mp hge)] at h
    cases h
  rw [elemAt, elemAt, setAt, Array.getElem?_setIfInBounds]
  by_cases hi : (toSize index).toNat = (toSize index').toNat
  · rw [if_pos hi, if_pos hlt, if_pos hi]
  · rw [if_neg hi, if_neg hi]

def seeds : Fin 4 → UInt64
  | 0 => 0xc3a5c85c97cb3127
  | 1 => 0xb492b66fbe98f273
  | 2 => 0x9ae16a3b2f90404f
  | 3 => 0xcbf29ce484222325

def spread (hash : UInt32) (counterIndex : Fin 4) : UInt64 :=
  let h := seeds counterIndex * hash.toUInt64
  h + (h >>> 32)

def tableIndex (table : Table) (hash : UInt32) (counterIndex : Fin 4) : Int32 :=
  toInt (spread hash counterIndex &&& (UInt64.ofNat table.size - 1))

/-- Halve the sixteen counters of one word. -/
def halveWord (counters : UInt64) : UInt64 := (counters >>> 1) &&& 0x7777777777777777

def reset (table : Table) : Table := table.map halveWord

/-- `std::vector::resize`. -/
def resize (table : Table) (n : Nat) : Table := table.take n ++ Array.replicate (n - table.size) 0

/-- The value of one counter: word `c.1`, field `c.2`. -/
def cells (table : Table) (c : Nat × Fin 16) : Nat := nibble (table[c.1]?.getD 0) c.2

theorem cells_le (table : Table) (c : Nat × Fin 16) : cells table c ≤ 15 :=
  Nat.le_of_lt_succ (nibble_lt _ _)

theorem cells_replicate (n : Nat) (c : Nat × Fin 16) : cells (Array.replicate n 0) c = 0 := by
  have hz : ((Array.replicate n (0 : UInt64))[c.1]?.getD 0) = 0 := by
    rw [Array.getElem?_replicate]
    split <;> rfl
  rw [cells, hz, nibble_zero]

theorem cells_reset (table : Table) : cells (reset table) = halveAll (cells table) := by
  funext c
  have hm : (reset table)[c.1]?.getD 0 = halveWord (table[c.1]?.getD 0) := by
    rw [reset, Array.getElem?_map]
    cases table[c.1]? <;> rfl
  rw [cells, hm, halveWord, nibble_halve _ c.2.isLt]
  rfl

/-- A table the constructors can make: its length is a power of two that fits its `uint32_t`. -/
def PowSized (p : Nat) (table : Table) : Prop := table.size = 2 ^ p ∧ p ≤ 31

theorem PowSized.reset {p : Nat} {table : Table} (h : PowSized p table) :
    PowSized p (reset table) := ⟨by rw [PackedTable.reset, Array.size_map, h.1], h.2⟩

theorem PowSized.replicate {p : Nat} (h : p ≤ 31) : PowSized p (Array.replicate (2 ^ p) 0) :=
  ⟨by rw [Array.size_replicate], h⟩

theorem resize_of_capacity {n : Int32} (hn : ¬ n ≤ 0) :
    ∃ p ≤ 31, resize #[] (Detail.nearestPowerOfTwo n.toUInt32).toNat = Array.replicate (2 ^ p) 0 := by
  obtain ⟨hwords, hlog⟩ := Detail.nearestPowerOfTwo_of_pos hn
  refine ⟨Nat.clog 2 n.toUInt32.toNat, hlog, ?_⟩
  rw [hwords]
  simp [resize]

theorem size_resize (table : Table) (n : Nat) : (resize table n).size = n := by
  have htake : (table.take n).size = min n table.size := by simp
  rw [resize, Array.size_append, htake, Array.size_replicate]
  omega

theorem getElem?_resize (table : Table) (n i : Nat) :
    (resize table n)[i]? = if i < n then some (table[i]?.getD 0) else none := by
  have htake : (table.take n).size = min n table.size := by simp
  rw [resize, Array.getElem?_append, htake, Array.getElem?_replicate]
  by_cases hi : i < table.size
  · by_cases hn : i < n
    · rw [if_pos (by omega), if_pos hn, Array.take_eq_extract, Array.getElem?_extract]
      simp [hn, hi]
    · rw [if_neg (by omega), if_neg (by omega), if_neg hn]
  · rw [if_neg (by omega), Array.getElem?_eq_none (not_lt.mp hi)]
    exact if_congr (by omega) rfl rfl

theorem words_of_capacity {n : Nat} (hpos : 0 < n) (hlt : n < 2 ^ 31) :
    (Detail.nearestPowerOfTwo (Int32.ofNat n).toUInt32).toNat = 2 ^ Nat.clog 2 n := by
  have hn : (Int32.ofNat n).toUInt32.toNat = n := by
    rw [Int32.toUInt32_ofNat']
    exact UInt32.toNat_ofNat_of_lt' (show _ < 2 ^ 32 by omega)
  rw [Detail.nearestPowerOfTwo_toNat _ (by omega) (by omega), hn]

/-- The word in which row `counterIndex` of a hash lives. -/
def indexOf (p : Nat) (hash : UInt32) (counterIndex : Fin 4) : Nat :=
  (spread hash counterIndex).toNat % 2 ^ p

theorem indexOf_lt (p : Nat) (hash : UInt32) (counterIndex : Fin 4) :
    indexOf p hash counterIndex < 2 ^ p := Nat.mod_lt _ (Nat.two_pow_pos p)

theorem two_pow_le_of_le {p : Nat} (h : p ≤ 31) : 2 ^ p ≤ 2 ^ 31 :=
  Nat.pow_le_pow_right (by decide) h

theorem mask_toNat {p : Nat} {table : Table} (h : PowSized p table) (hash : UInt32)
    (counterIndex : Fin 4) :
    (spread hash counterIndex &&& (UInt64.ofNat table.size - 1)).toNat =
      indexOf p hash counterIndex := by
  have hp := two_pow_le_of_le h.2
  have hs : (UInt64.ofNat table.size).toNat = 2 ^ p := by
    rw [h.1]
    exact UInt64.toNat_ofNat_of_lt' (show _ < 2 ^ 64 by omega)
  have hle : (1 : UInt64) ≤ UInt64.ofNat table.size := by
    rw [UInt64.le_iff_toNat_le, hs]
    exact Nat.two_pow_pos p
  rw [UInt64.toNat_and, UInt64.toNat_sub_of_le _ _ hle, hs]
  exact Nat.and_two_pow_sub_one_eq_mod _ p

theorem tableIndex_eq {p : Nat} {table : Table} (h : PowSized p table) (hash : UInt32)
    (counterIndex : Fin 4) :
    tableIndex table hash counterIndex = Int32.ofNat (indexOf p hash counterIndex) := by
  rw [tableIndex, toInt, mask_toNat h]

theorem toSize_index {p i : Nat} (hp : p ≤ 31) (hi : i < 2 ^ p) :
    (toSize (Int32.ofNat i)).toNat = i := by
  have hle := two_pow_le_of_le hp
  exact toNat_toSize_ofNat (by omega)

theorem elemAt_index {p i : Nat} {table : Table} (h : PowSized p table) (hi : i < 2 ^ p) :
    elemAt table (Int32.ofNat i) = .ok (table[i]?.getD 0) := by
  have hlt : i < table.size := by rw [h.1]; exact hi
  rw [elemAt, toSize_index h.2 hi, Array.getElem?_eq_getElem hlt]
  rfl

theorem PowSized.setAt {p : Nat} {table : Table} (h : PowSized p table) (index : Int32) (w : UInt64) :
    PowSized p (setAt table index w) := ⟨by rw [PackedTable.setAt, Array.size_setIfInBounds, h.1], h.2⟩

theorem cells_setAt {p i : Nat} {table : Table} (h : PowSized p table) (hi : i < 2 ^ p)
    (k : Fin 16) {w : UInt64} {x : Nat}
    (hw : ∀ m : Fin 16, nibble w m = if m = k then x else nibble (table[i]?.getD 0) m) :
    cells (setAt table (Int32.ofNat i) w) = Function.update (cells table) (i, k) x := by
  have hlt : i < table.size := by rw [h.1]; exact hi
  funext c
  obtain ⟨a, m⟩ := c
  rw [cells, PackedTable.setAt, toSize_index h.2 hi, Array.getElem?_setIfInBounds]
  by_cases ha : i = a
  · subst ha
    rw [if_pos rfl, if_pos hlt, Option.getD_some, hw m]
    by_cases hm : m = k
    · subst hm; simp
    · rw [if_neg hm, Function.update_of_ne (by simp [hm])]
      rfl
  · rw [if_neg ha, Function.update_of_ne (by simp [Ne.symm ha])]
    rfl

theorem nibble_toInt (w : UInt64) (k : Fin 16) :
    toInt ((w >>> shift k) &&& 0xf) = Int32.ofNat (nibble w k) := by
  rw [toInt, shiftRight_and w k.isLt]

theorem cells_saturate {p i : Nat} {table : Table} (h : PowSized p table) (hi : i < 2 ^ p)
    (k : Fin 16) {v : Nat} (hv : 15 ≤ cells table (i, k) + v) :
    cells (setAt table (Int32.ofNat i) (table[i]?.getD 0 ||| (0xf <<< shift k))) =
      raise 15 v (cells table) (i, k) := by
  rw [raise, Nat.min_eq_left hv]
  apply cells_setAt h hi k
  intro m
  have ho := nibble_or_ones (table[i]?.getD 0) (i := m.val) k.isLt
  simp only [← Fin.ext_iff] at ho
  exact ho

theorem cells_add {p i : Nat} {table : Table} (h : PowSized p table) (hi : i < 2 ^ p)
    (k : Fin 16) {v : UInt64} (hv : cells table (i, k) + v.toNat ≤ 15) :
    cells (setAt table (Int32.ofNat i) (table[i]?.getD 0 + (v <<< shift k))) =
      raise 15 v.toNat (cells table) (i, k) := by
  rw [raise, Nat.min_eq_right hv]
  apply cells_setAt h hi k
  intro m
  have ha := nibble_add_shift (table[i]?.getD 0) (i := m.val) (v := v) k.isLt (Nat.lt_succ_of_le hv)
  simp only [← Fin.ext_iff] at ha
  exact ha

theorem raise_full {f : Nat × Fin 16 → Nat} {c : Nat × Fin 16} (hf : f c = 15) (v : Nat) :
    raise 15 v f c = f := by
  rw [raise, hf, Nat.min_eq_left (Nat.le_add_right 15 v), ← hf, Function.update_eq_self]

def intMax : Nat := 2147483647

def minRow (getCount : Fin 4 → Except Fault Int32) (blockFrequency : Int32) (counterIndex : Fin 4) :
    Except Fault Int32 := do
  return min blockFrequency (← getCount counterIndex)

def minRows (getCount : Fin 4 → Except Fault Int32) : Except Fault Int32 :=
  (List.finRange 4).foldlM (minRow getCount) (Int32.ofNat intMax)

def addRow (tryIncrement : Table → Fin 4 → Except Fault (Table × Bool)) (acc : Table × Bool)
    (counterIndex : Fin 4) : Except Fault (Table × Bool) := do
  let (table, added) ← tryIncrement acc.1 counterIndex
  return (table, acc.2 || added)

/-- The loop over the four rows of a hash that increments them, with the `was_added` it gathers. -/
def addRows (tryIncrement : Table → Fin 4 → Except Fault (Table × Bool)) (acc : Table × Bool) :
    Except Fault (Table × Bool) :=
  (List.finRange 4).foldlM (addRow tryIncrement) acc

theorem minRow_foldlM {getCount : Fin 4 → Except Fault Int32} {table : Table}
    {cell : Fin 4 → Nat × Fin 16}
    (hget : ∀ j, getCount j = .ok (Int32.ofNat (cells table (cell j)))) (js : List (Fin 4)) {m : Nat}
    (hm : m ≤ intMax) :
    js.foldlM (minRow getCount) (Int32.ofNat m) =
      .ok (Int32.ofNat (rowMin m (cells table) (js.map cell))) := by
  induction js generalizing m with
  | nil => rfl
  | cons j js ih =>
    have hle := cells_le table (cell j)
    have hmax : intMax = 2147483647 := rfl
    have hj : minRow getCount (Int32.ofNat m) j =
        .ok (Int32.ofNat (min m (cells table (cell j)))) := by
      rw [minRow, hget, ← min_ofNat (by omega) (by omega)]
      rfl
    rw [List.foldlM_cons, hj]
    exact ih ((Nat.min_le_left _ _).trans hm)

theorem minRows_eq {getCount : Fin 4 → Except Fault Int32} {table : Table}
    {cell : Fin 4 → Nat × Fin 16}
    (hget : ∀ j, getCount j = .ok (Int32.ofNat (cells table (cell j)))) :
    minRows getCount =
      .ok (Int32.ofNat (rowMin intMax (cells table) ((List.finRange 4).map cell))) :=
  minRow_foldlM hget (List.finRange 4) le_rfl

theorem addRow_foldlM {p : Nat} {tryIncrement : Table → Fin 4 → Except Fault (Table × Bool)}
    {cell : Fin 4 → Nat × Fin 16}
    (hinc : ∀ table j, PowSized p table → ∃ table' added, tryIncrement table j = .ok (table', added) ∧
      PowSized p table' ∧ cells table' = raise 15 1 (cells table) (cell j))
    (js : List (Fin 4)) {table : Table} (h : PowSized p table) (wasAdded : Bool) :
    ∃ table' added, js.foldlM (addRow tryIncrement) (table, wasAdded) = .ok (table', added) ∧
      PowSized p table' ∧ cells table' = raiseAll 15 (cells table) (js.map cell) := by
  induction js generalizing table wasAdded with
  | nil => exact ⟨table, wasAdded, rfl, h, rfl⟩
  | cons j js ih =>
    obtain ⟨t, added, ht, hp, hc⟩ := hinc table j h
    obtain ⟨t', added', ht', hp', hc'⟩ := ih hp (wasAdded || added)
    refine ⟨t', added', ?_, hp', ?_⟩
    · rw [List.foldlM_cons, addRow, ht]
      exact ht'
    · rw [hc', hc]
      rfl

theorem addRows_eq {p : Nat} {tryIncrement : Table → Fin 4 → Except Fault (Table × Bool)}
    {cell : Fin 4 → Nat × Fin 16}
    (hinc : ∀ table j, PowSized p table → ∃ table' added, tryIncrement table j = .ok (table', added) ∧
      PowSized p table' ∧ cells table' = raise 15 1 (cells table) (cell j))
    {table : Table} (h : PowSized p table) (wasAdded : Bool) :
    ∃ table' added, addRows tryIncrement (table, wasAdded) = .ok (table', added) ∧
      PowSized p table' ∧
      cells table' = raiseAll 15 (cells table) ((List.finRange 4).map cell) :=
  addRow_foldlM hinc (List.finRange 4) h wasAdded

end DistExp.PackedTable
