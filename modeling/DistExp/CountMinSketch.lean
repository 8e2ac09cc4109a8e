import DistExp.FlatTable
import DistExp.GranuleLoop
import DistExp.Library.Runs

namespace DistExp.CountMinSketch

open DistExp.Library.MachineInt DistExp.Library.AgedCounter
open DistExp.PackedTable DistExp.RangeGeometry DistExp.GranuleLoop

/-- `count_min_sketch<uint64_t>`. No call counts in `size`. -/
structure Sketch where
  table : Table
  size : Int32
  granularity : UInt64
  unitSize : UInt64

def changeCapacity (s : Sketch) (n : Int32) : Except Fault Sketch :=
  if n ≤ 0 then .error .invalidArgument
  else .ok { s with
    table := resize s.table (Detail.nearestPowerOfTwo n.toUInt32).toNat
    size := 0 }

def construct (capacity : Int32) (granularity unitSize : UInt64) : Except Fault Sketch :=
  changeCapacity { table := #[], size := 0, granularity := granularity, unitSize := unitSize }
    capacity

section Source

-- `sketchdetail::hash(0, t)` as a function of `t`
variable (hash : UInt64 → UInt32)

def frequency (s : Sketch) (t : UInt64) : Except Fault Int32 :=
  FlatTable.blockFrequency s.table (hash t)

def innerRecordAccess (s : Sketch) (t : UInt64) : Except Fault Sketch := do
  let (table, _) ← FlatTable.incrementRows true (s.table, false) (hash t)
  return { s with table := table }

def recordAccess (s : Sketch) (_unitId t size : UInt64) : Except Fault Sketch := do
  let ks ← keys s.granularity s.unitSize t size
  ks.foldlM (innerRecordAccess hash) s

/-- Every round of the loop assigns to the sum. -/
def avgFrequency (s : Sketch) (_unitId t size : UInt64) : Except Fault Int32 := do
  let ks ← keys s.granularity s.unitSize t size
  let sum ← ks.foldlM (fun _ key => frequency hash s key) 0
  let cnt := cntOf s.granularity s.unitSize t size
  if cnt = 0 then .error .divisionByZero else return sum / cnt

end Source

def keyRows (hash : UInt64 → UInt32) (p : Nat) (k : UInt64) : List (Nat × Fin 16) :=
  FlatTable.rowCells p (hash k)

structure Counts (hash : UInt64 → UInt32) (g u : UInt64) (p : Nat) (s : Sketch)
    (ks : List UInt64) : Prop where
  sized : PowSized p s.table
  granularity_eq : s.granularity = g
  unitSize_eq : s.unitSize = u
  counters : ∀ c, cells s.table c =
    aged 15 (load (fun k => [k]) (keyRows hash p) c) (ks.map Event.hit)

variable {hash : UInt64 → UInt32} {g u : UInt64} {p : Nat} {s : Sketch} {ks : List UInt64}

theorem foldlM_innerRecordAccess (hash : UInt64 → UInt32) (h : PowSized p s.table)
    (ks : List UInt64) :
    ∃ table, ks.foldlM (innerRecordAccess hash) s = .ok { s with table := table } ∧
      PowSized p table ∧
      cells table = raiseAll 15 (cells s.table) (ks.flatMap (keyRows hash p)) := by
  induction ks generalizing s with
  | nil => exact ⟨s.table, rfl, h, rfl⟩
  | cons k ks ih =>
    obtain ⟨table, added, ht, hp, hc⟩ := FlatTable.incrementRows_eq h true false (hash k)
    obtain ⟨table', hrun, hp', hc'⟩ := ih (s := { s with table := table }) hp
    refine ⟨table', ?_, hp', ?_⟩
    · rw [List.foldlM_cons, innerRecordAccess, ht]
      exact hrun
    · rw [hc', hc, List.flatMap_cons, raiseAll_append]
      rfl

theorem run_eq (hash : UInt64 → UInt32) (h : PowSized p s.table) (ops : List Access)
    (ks : List UInt64) :
    (∃ ks' table, ops.foldlM (fun ks a => do return ks ++ (← keys s.granularity s.unitSize a.t a.size))
        ks = .ok (ks ++ ks') ∧
      ops.foldlM (fun s a => recordAccess hash s a.unitId a.t a.size) s =
        .ok { s with table := table } ∧
      PowSized p table ∧
      cells table = raiseAll 15 (cells s.table) (ks'.flatMap (keyRows hash p))) ∨
    ∃ e, ops.foldlM (fun ks a => do return ks ++ (← keys s.granularity s.unitSize a.t a.size))
        ks = .error e ∧
      ops.foldlM (fun s a => recordAccess hash s a.unitId a.t a.size) s = .error e := by
  induction ops generalizing s ks with
  | nil => exact Or.inl ⟨[], s.table, congrArg Except.ok (List.append_nil ks).symm, rfl, h, rfl⟩
  | cons a ops ih =>
    rw [List.foldlM_cons, List.foldlM_cons, recordAccess]
    cases hks : keys s.granularity s.unitSize a.t a.size with
    | error e => exact Or.inr ⟨e, rfl, rfl⟩
    | ok ks₁ =>
      obtain ⟨table, hrun, hp, hc⟩ := foldlM_innerRecordAccess hash h ks₁
      simp only [bind, Except.bind, hrun]
      obtain ⟨ks', table', hks', hrun', hp', hc'⟩ | herr :=
        ih (s := { s with table := table }) hp (ks ++ ks₁)
      · refine Or.inl ⟨ks₁ ++ ks', table', ?_, hrun', hp', ?_⟩
        · rw [← List.append_assoc]
          exact hks'
        · rw [hc', hc, List.flatMap_append, raiseAll_append]
      · exact Or.inr herr

theorem Counts.of_raised (h : Counts hash g u p s ks) {table : Table} {ks' : List UInt64}
    (hp : PowSized p table)
    (hc : cells table = raiseAll 15 (cells s.table) (ks'.flatMap (keyRows hash p))) :
    Counts hash g u p { s with table := table } (ks ++ ks') where
  sized := hp
  granularity_eq := h.granularity_eq
  unitSize_eq := h.unitSize_eq
  counters := by
    intro c
    rw [hc]
    exact raiseAll_hits 15 (keyRows hash p) h.counters ks' c

theorem Counts.run (h : Counts hash g u p s ks) (ops : List Access) :
    (∃ ks' s', ops.foldlM (fun ks a => do return ks ++ (← keys g u a.t a.size)) ks = .ok ks' ∧
      ops.foldlM (fun s a => recordAccess hash s a.unitId a.t a.size) s = .ok s' ∧
      Counts hash g u p s' ks') ∨
    ∃ e, ops.foldlM (fun ks a => do return ks ++ (← keys g u a.t a.size)) ks = .error e ∧
      ops.foldlM (fun s a => recordAccess hash s a.unitId a.t a.size) s = .error e := by
  obtain rfl := h.granularity_eq
  obtain rfl := h.unitSize_eq
  obtain ⟨ks', table, hks, hrun, hp, hc⟩ | herr := run_eq hash h.sized ops ks
  · exact Or.inl ⟨ks ++ ks', _, hks, hrun, h.of_raised hp hc⟩
  · exact Or.inr herr

end DistExp.CountMinSketch
