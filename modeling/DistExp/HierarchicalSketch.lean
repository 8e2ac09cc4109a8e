import DistExp.FlatTable

namespace DistExp.HierarchicalSketch

open DistExp.Library.MachineInt DistExp.Library.AgedCounter
open DistExp.PackedTable

/-- `hierarchical_frequency_sketch<uint64_t>`. -/
structure Sketch where
  table : Table
  size : Int32
  granularity : UInt64

def changeCapacity (s : Sketch) (n : Int32) : Except Fault Sketch :=
  if n ≤ 0 then .error .invalidArgument
  else .ok { s with
    table := resize s.table (Detail.nearestPowerOfTwo n.toUInt32).toNat
    size := 0 }

def construct (capacity : Int32) (granularity : UInt64) : Except Fault Sketch :=
  changeCapacity { table := #[], size := 0, granularity := granularity } capacity

def cntOf (s : Sketch) (size : UInt64) : Int32 := toInt ((size + s.granularity - 1) / s.granularity)

def startOf (s : Sketch) (t : UInt64) : UInt64 := t / s.granularity * s.granularity

section Source

variable (hash : UInt64 → UInt64 → UInt32)

/-- The loop of `frequency`, with the number of granules that are left. -/
def sumFrequency (s : Sketch) (flowId : UInt64) : Nat → UInt64 → Int32 → Except Fault Int32
  | 0, _, sum => .ok sum
  | n + 1, startT, sum => do
    let blockFrequency ← FlatTable.blockFrequency s.table (hash flowId startT)
    sumFrequency s flowId n (startT + s.granularity) (sum + blockFrequency)

def frequency (s : Sketch) (flowId t size : UInt64) : Except Fault Int32 :=
  if s.granularity = 0 then .error .divisionByZero
  else do
    let cnt := cntOf s size
    let sum ← sumFrequency hash s flowId cnt.toInt.toNat (startOf s t) 0
    if cnt = 0 then .error .divisionByZero
    else return sum / cnt

def addGranules (granularity flowId : UInt64) : Nat → UInt64 → Table × Bool →
    Except Fault (Table × Bool)
  | 0, _, acc => .ok acc
  | n + 1, startT, acc => do
    let acc ← FlatTable.incrementRows false acc (hash flowId startT)
    addGranules granularity flowId n (startT + granularity) acc

def recordAccess (s : Sketch) (flowId t size : UInt64) : Except Fault Sketch :=
  if s.granularity = 0 then .error .divisionByZero
  else do
    let cnt := cntOf s size
    let (table, _) ← addGranules hash s.granularity flowId cnt.toInt.toNat (startOf s t)
      (s.table, false)
    return { s with table := table, size := s.size + cnt }

end Source

def reset (s : Sketch) : Sketch :=
  { s with table := PackedTable.reset s.table, size := s.size / 2 }

def samplingSize (s : Sketch) : Int32 := toInt (UInt64.ofNat s.table.size * 20)

def doReset (s : Sketch) : Sketch × Bool :=
  if s.size ≥ samplingSize s then (reset s, true) else (s, false)

def granuleStarts (granularity : UInt64) : Nat → UInt64 → List UInt64
  | 0, _ => []
  | n + 1, startT => startT :: granuleStarts granularity n (startT + granularity)

theorem granuleStarts_eq (g : UInt64) (n : Nat) (startT : UInt64) :
    granuleStarts g n startT = (List.range n).map fun i => startT + UInt64.ofNat i * g := by
  induction n generalizing startT with
  | zero => rfl
  | succ n ih =>
    rw [granuleStarts, ih, List.range_succ_eq_map, List.map_cons, List.map_map]
    have h0 : startT = startT + UInt64.ofNat 0 * g := by
      have hz : UInt64.ofNat 0 = 0 := rfl
      rw [hz, UInt64.zero_mul, UInt64.add_zero]
    rw [← h0]
    congr 1
    apply List.map_congr_left
    intro i _
    have h1 : UInt64.ofNat 1 = 1 := rfl
    rw [Function.comp_apply, Nat.succ_eq_add_one, UInt64.ofNat_add, h1, UInt64.add_mul,
      UInt64.one_mul, UInt64.add_assoc, UInt64.add_comm g]

variable {hash : UInt64 → UInt64 → UInt32} {p : Nat} {s : Sketch}

def granuleMin (hash : UInt64 → UInt64 → UInt32) (p : Nat) (s : Sketch) (flowId startT : UInt64) :
    Nat :=
  rowMin intMax (cells s.table) (FlatTable.rowCells p (hash flowId startT))

theorem granuleMin_le (flowId startT : UInt64) : granuleMin hash p s flowId startT ≤ 15 :=
  (rowMin_le _ _ _ (FlatTable.mem_rowCells.mpr ⟨0, rfl⟩)).trans (cells_le s.table _)

theorem sumFrequency_eq (hash : UInt64 → UInt64 → UInt32)
    (h : PowSized p s.table) (flowId : UInt64) (n : Nat) (startT : UInt64)
    (sum : Nat) :
    sumFrequency hash s flowId n startT (Int32.ofNat sum) = .ok (Int32.ofNat
      (sum + ((granuleStarts s.granularity n startT).map (granuleMin hash p s flowId)).sum)) := by
  induction n generalizing startT sum with
  | zero => rfl
  | succ n ih =>
    rw [sumFrequency, FlatTable.blockFrequency_eq h]
    simp only [bind, Except.bind, ← Int32.ofNat_add]
    rw [ih, granuleStarts, List.map_cons, List.sum_cons, Nat.add_assoc]
    rfl

theorem addGranules_eq (hash : UInt64 → UInt64 → UInt32)
    (g flowId : UInt64) (n : Nat) (startT : UInt64) {table : Table}
    (h : PowSized p table) (wasAdded : Bool) :
    ∃ table' added, addGranules hash g flowId n startT (table, wasAdded) = .ok (table', added) ∧
      PowSized p table' ∧ cells table' = raiseAll 15 (cells table)
        ((granuleStarts g n startT).flatMap fun x => FlatTable.rowCells p (hash flowId x)) := by
  induction n generalizing startT table wasAdded with
  | zero => exact ⟨table, wasAdded, rfl, h, rfl⟩
  | succ n ih =>
    obtain ⟨t, added, ht, hp, hc⟩ :=
      FlatTable.incrementRows_eq h false wasAdded (hash flowId startT)
    obtain ⟨t', added', ht', hp', hc'⟩ := ih (startT + g) hp added
    refine ⟨t', added', ?_, hp', ?_⟩
    · rw [addGranules, ht]
      exact ht'
    · rw [hc', hc, granuleStarts, List.flatMap_cons, raiseAll_append]

end DistExp.HierarchicalSketch
