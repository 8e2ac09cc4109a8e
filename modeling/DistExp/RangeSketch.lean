import DistExp.Library.HalvingTree
import DistExp.MixTable

namespace DistExp.RangeSketch

open DistExp.Library.MachineInt DistExp.Library.AgedCounter DistExp.PackedTable

/-- The members that `interval_sketch` and `gxj_range_frequency_sketch` share, for
`T = uint64_t`. Arithmetic on `int` members wraps. -/
structure Sketch where
  mixCounters : Array Table
  counterLevel : Int32
  size : Int32
  refCnt : Int32
  capacity : Int32
  softResetIdx : Int32
  doingReset : Bool
  granularity : UInt64
  unitSize : UInt64

/-- One table for each level, every one half as long as the one before. -/
def levelTables : Nat → Int32 → Except Fault (List Table)
  | 0, _ => .ok []
  | level + 1, tableSize =>
    if tableSize < 0 then .error .lengthError
    else do
      let tables ← levelTables level (tableSize / 2)
      return Array.replicate tableSize.toInt.toNat 0 :: tables

/-- The parameters hide the members `granularity` and `unit_size`, which are not assigned. -/
def changeCapacity (s : Sketch) (n : Int32) (granularity unitSize : UInt64) :
    Except Fault Sketch :=
  if n ≤ 0 then .error .invalidArgument
  else if granularity = 0 then .error .divisionByZero
  else
    let units := Detail.nearestPowerOfTwo (unitSize / granularity).toUInt32
    if units = 0 then .error .logOfZero
    else do
      let counterLevel := Nat.log2 units.toNat + 1
      let tableSize := (Detail.nearestPowerOfTwo n.toUInt32).toInt32
      let tables ← levelTables counterLevel tableSize
      return { s with
        mixCounters := tables.toArray
        counterLevel := Int32.ofNat counterLevel
        softResetIdx := 0
        size := 0
        refCnt := 0
        capacity := n }

def construct (capacity : Int32) (granularity unitSize : UInt64) : Except Fault Sketch :=
  changeCapacity
    { mixCounters := #[], counterLevel := 0, size := 0, refCnt := 0, capacity := 0,
      softResetIdx := 0, doingReset := false, granularity := granularity, unitSize := unitSize }
    capacity granularity unitSize

section Counters

variable (hash : UInt64 → UInt64 → UInt32)

def getLazyAddCnt (s : Sketch) (unitId : UInt64) (base start _stop level : Int32) :
    Except Fault Int32 := do
  let table ← elemAt s.mixCounters level
  MixTable.blockFrequency table true (hash unitId (toSize (base + start)))

def getDyadicCnt (s : Sketch) (unitId : UInt64) (base start stop level : Int32) :
    Except Fault Int32 := do
  let range := stop - start
  let table ← elemAt s.mixCounters level
  let blockFrequency ← MixTable.blockFrequency table false (hash unitId (toSize (base + start)))
  return blockFrequency * range

def incLazyAddCnt (s : Sketch) (unitId : UInt64) (base start stop level : Int32) :
    Except Fault Sketch := do
  let range := stop - start
  let table ← elemAt s.mixCounters level
  let (table, wasAdded) ←
    MixTable.incrementRows table true (hash unitId (toSize (base + start))) 1
  let s := { s with mixCounters := setAt s.mixCounters level table }
  return if wasAdded then { s with size := s.size + range } else s

def incDyadicCnt (s : Sketch) (unitId : UInt64) (base start _stop value level : Int32) :
    Except Fault Sketch := do
  let table ← elemAt s.mixCounters level
  let (table, wasAdded) ←
    MixTable.incrementRows table false (hash unitId (toSize (base + start))) value
  let s := { s with mixCounters := setAt s.mixCounters level table }
  return if wasAdded then { s with size := s.size + value } else s

end Counters

def reset (s : Sketch) : Sketch :=
  { s with
    mixCounters := s.mixCounters.map PackedTable.reset
    size := s.size / 2
    refCnt := s.refCnt / 2 }

def softReset (s : Sketch) : Sketch :=
  { s with
    mixCounters := s.mixCounters.map PackedTable.reset
    size := s.size / 2
    refCnt := s.refCnt / 2 }

def mustReset (s : Sketch) : Sketch := reset s

def samplingSize (s : Sketch) : Int32 := s.capacity * 2

/-- Raises the flag and tells whether a detached thread was started; the thread runs `reset` and
then `clearDoingReset`. -/
def tryReset (s : Sketch) : Sketch × Bool :=
  if s.size ≥ samplingSize s then ({ s with doingReset := true }, true) else (s, false)

def clearDoingReset (s : Sketch) : Sketch := { s with doingReset := false }

/-- The first granule of an access inside its unit. -/
def leftOf (s : Sketch) (t : UInt64) : Int32 := toInt (t % s.unitSize / s.granularity)

/-- The granule at which an access ends inside its unit. -/
def rightOf (s : Sketch) (t size : UInt64) : Int32 := toInt ((t + size) % s.unitSize / s.granularity)

def granules (s : Sketch) : UInt64 := (s.unitSize + s.granularity - 1) / s.granularity

def baseOf (s : Sketch) (t : UInt64) : Int32 := toInt (t / s.unitSize * granules s)

/-- Calls nest at most this deep in the model; the trees that fit the level tables are shallower. -/
def fuel : Nat := 64

abbrev Cell := Nat × Nat × Fin 16

def levelTable (s : Sketch) (level : Nat) : Table := s.mixCounters[level]?.getD #[]

def sketchCells (s : Sketch) (c : Cell) : Nat := cells (levelTable s c.1) c.2

def frame (s : Sketch) : Sketch := { s with mixCounters := #[], size := 0 }

theorem refCnt_of_frame {s s' : Sketch} (h : frame s' = frame s) : s'.refCnt = s.refCnt := by
  have hr : (frame s').refCnt = (frame s).refCnt := by rw [h]
  exact hr

/-- The level tables exist, none of them is empty, and each has half the words of the one
before. -/
structure Shape (p levels : Nat) (s : Sketch) : Prop where
  count : s.mixCounters.size = levels
  level_eq : s.counterLevel = Int32.ofNat levels
  pos : 0 < levels
  levels_le : levels ≤ p + 1
  p_le : p ≤ 30
  sized : ∀ level < levels, PowSized (p - level) (levelTable s level)

theorem sketchCells_le (s : Sketch) (c : Cell) : sketchCells s c ≤ 15 := cells_le _ _

theorem elemAt_level {p levels level : Nat} {s : Sketch} (h : Shape p levels s)
    (hl : level < levels) : elemAt s.mixCounters (Int32.ofNat level) = .ok (levelTable s level) := by
  have hs : level < s.mixCounters.size := by rw [h.count]; exact hl
  have hp := h.levels_le
  have hp30 := h.p_le
  have hi : (toSize (Int32.ofNat level)).toNat = level := toNat_toSize_ofNat (by omega)
  rw [elemAt, hi, levelTable, Array.getElem?_eq_getElem hs]
  rfl

theorem levelTable_setAt {p levels level : Nat} {s : Sketch} (h : Shape p levels s)
    (hl : level < levels) (table : Table) (size : Int32) (k : Nat) :
    levelTable { s with
      mixCounters := setAt s.mixCounters (Int32.ofNat level) table, size := size } k =
        if k = level then table else levelTable s k := by
  have hs : level < s.mixCounters.size := by rw [h.count]; exact hl
  have hp := h.levels_le
  have hp30 := h.p_le
  have hi : (toSize (Int32.ofNat level)).toNat = level := toNat_toSize_ofNat (by omega)
  simp only [levelTable, setAt, hi, Array.getElem?_setIfInBounds]
  by_cases hk : level = k
  · rw [if_pos hk, if_pos hs, if_pos hk.symm, Option.getD_some]
  · rw [if_neg hk, if_neg (Ne.symm hk)]

theorem Shape.setAt {p levels level : Nat} {s : Sketch} (h : Shape p levels s)
    (hl : level < levels) {table : Table} (ht : PowSized (p - level) table) (size : Int32) :
    Shape p levels { s with
      mixCounters := PackedTable.setAt s.mixCounters (Int32.ofNat level) table, size := size } where
  count := by rw [PackedTable.setAt, Array.size_setIfInBounds, h.count]
  level_eq := h.level_eq
  pos := h.pos
  levels_le := h.levels_le
  p_le := h.p_le
  sized := by
    intro k hk
    rw [levelTable_setAt h hl]
    by_cases hkl : k = level
    · subst hkl; simpa using ht
    · rw [if_neg hkl]; exact h.sized k hk

theorem sketchCells_setAt {p levels level : Nat} {s : Sketch} (h : Shape p levels s)
    (hl : level < levels) {table : Table} {cs : List (Nat × Fin 16)} (size : Int32)
    (ht : cells table = raiseAll 15 (cells (levelTable s level)) cs) :
    sketchCells { s with
      mixCounters := PackedTable.setAt s.mixCounters (Int32.ofNat level) table, size := size } =
        raiseAll 15 (sketchCells s) (cs.map fun c => (level, c)) := by
  funext c
  obtain ⟨k, c⟩ := c
  rw [sketchCells, levelTable_setAt h hl]
  by_cases hk : k = level
  · subst hk
    have hm := raiseAll_map 15 (sketchCells s) cs (Prod.mk_right_injective k) c
      (sketchCells_le s (k, c))
    rw [if_pos rfl, ht, hm]
    rfl
  · have hn : (k, c) ∉ cs.map fun c => (level, c) := by
      simp only [List.mem_map, Prod.mk.injEq, not_exists, not_and]
      exact fun _ _ he => absurd he.symm hk
    rw [if_neg hk, raiseAll_of_not_mem _ _ _ (sketchCells_le s (k, c)) hn]
    rfl

theorem Shape.reset {p levels : Nat} {s : Sketch} (h : Shape p levels s) :
    Shape p levels (reset s) where
  count := by rw [RangeSketch.reset, Array.size_map, h.count]
  level_eq := h.level_eq
  pos := h.pos
  levels_le := h.levels_le
  p_le := h.p_le
  sized := by
    intro k hk
    have hs : k < s.mixCounters.size := by rw [h.count]; exact hk
    have hr := (h.sized k hk).reset
    simpa [levelTable, RangeSketch.reset, Array.getElem?_map, Array.getElem?_eq_getElem hs] using hr

theorem sketchCells_reset (s : Sketch) : sketchCells (reset s) = halveAll (sketchCells s) := by
  funext c
  have hm : levelTable (reset s) c.1 = PackedTable.reset (levelTable s c.1) := by
    rw [levelTable, RangeSketch.reset, Array.getElem?_map, levelTable]
    cases s.mixCounters[c.1]? <;> simp [PackedTable.reset]
  rw [sketchCells, hm, cells_reset]
  rfl

end DistExp.RangeSketch
