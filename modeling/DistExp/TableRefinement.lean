import DistExp.MixTable
import DistExp.FlatTable
import DistExp.Library.Runs

namespace DistExp.TableRefinement

open DistExp.Library.MachineInt DistExp.Library.AgedCounter
open DistExp.PackedTable

/-- What can happen to one level of `mix_counters_`. -/
inductive MixOp where
  | increment (isLazy : Bool) (hash : UInt32) (counterIndex : Fin 4) (incValue : Int32)
  | reset

def MixOp.run (table : Table) : MixOp → Except Fault Table
  | .increment isLazy hash counterIndex incValue => do
    let (table, _) ← MixTable.tryIncrementCounterAtWithValue table isLazy hash counterIndex incValue
    return table
  | .reset => .ok (PackedTable.reset table)

def MixOp.spec (p : Nat) (f : Nat × Fin 16 → Nat) : MixOp → Nat × Fin 16 → Nat
  | .increment isLazy hash counterIndex incValue =>
    raise 15 incValue.toInt.toNat f (MixTable.cellOf p hash isLazy counterIndex)
  | .reset => halveAll f

/-- The increment is not negative, and the sum with a counter below the cap is still an `int`. -/
def MixOp.Fits (p : Nat) (f : Nat × Fin 16 → Nat) : MixOp → Prop
  | .increment isLazy hash counterIndex incValue => 0 ≤ incValue.toInt ∧
    (f (MixTable.cellOf p hash isLazy counterIndex) = 15 ∨
      f (MixTable.cellOf p hash isLazy counterIndex) + incValue.toInt < 2 ^ 31)
  | .reset => True

def AllFit (p : Nat) : (Nat × Fin 16 → Nat) → List MixOp → Prop
  | _, [] => True
  | f, op :: ops => op.Fits p f ∧ AllFit p (op.spec p f) ops

theorem MixOp.run_spec {p : Nat} {table : Table} (h : PowSized p table) (op : MixOp)
    (hop : op.Fits p (cells table)) :
    ∃ table', op.run table = .ok table' ∧ PowSized p table' ∧
      cells table' = op.spec p (cells table) := by
  cases op with
  | increment isLazy hash counterIndex incValue =>
    obtain ⟨t, ht, hp, hc⟩ := MixTable.tryIncrementCounterAtWithValue_eq h isLazy hash counterIndex _
      hop.1 hop.2
    exact ⟨t, by simp [MixOp.run, ht, bind, Except.bind, pure, Except.pure], hp, hc⟩
  | reset => exact ⟨_, rfl, h.reset, cells_reset table⟩

theorem mix_run_spec {p : Nat} {table : Table} (h : PowSized p table) (ops : List MixOp)
    (hops : AllFit p (cells table) ops) :
    ∃ table', ops.foldlM MixOp.run table = .ok table' ∧ PowSized p table' ∧
      cells table' = ops.foldl (MixOp.spec p) (cells table) := by
  induction ops generalizing table with
  | nil => exact ⟨table, rfl, h, rfl⟩
  | cons op ops ih =>
    obtain ⟨t, ht, hp, hc⟩ := op.run_spec h hops.1
    have hrest := hops.2
    rw [← hc] at hrest
    obtain ⟨t', ht', hp', hc'⟩ := ih hp hrest
    refine ⟨t', ?_, hp', ?_⟩
    · rw [List.foldlM_cons, ht]
      exact ht'
    · rw [hc', hc, List.foldl_cons]

inductive FlatOp where
  | increment (hash : UInt32) (counterIndex : Fin 4)
  | reset

def FlatOp.run (whenFull : Bool) (table : Table) : FlatOp → Except Fault Table
  | .increment hash counterIndex => do
    let (table, _) ← FlatTable.tryIncrementCounterAt whenFull table hash counterIndex
    return table
  | .reset => .ok (PackedTable.reset table)

def FlatOp.spec (p : Nat) (f : Nat × Fin 16 → Nat) : FlatOp → Nat × Fin 16 → Nat
  | .increment hash counterIndex => raise 15 1 f (FlatTable.cellOf p hash counterIndex)
  | .reset => halveAll f

theorem FlatOp.run_spec {p : Nat} {table : Table} (h : PowSized p table) (whenFull : Bool)
    (op : FlatOp) :
    ∃ table', op.run whenFull table = .ok table' ∧ PowSized p table' ∧
      cells table' = op.spec p (cells table) := by
  cases op with
  | increment hash counterIndex =>
    obtain ⟨t, added, ht, hp, hc⟩ :=
      FlatTable.tryIncrementCounterAt_eq h whenFull hash counterIndex
    exact ⟨t, by simp [FlatOp.run, ht, bind, Except.bind, pure, Except.pure], hp, hc⟩
  | reset => exact ⟨_, rfl, h.reset, cells_reset table⟩

theorem flat_run_spec {p : Nat} {table : Table} (h : PowSized p table) (whenFull : Bool)
    (ops : List FlatOp) :
    ∃ table', ops.foldlM (FlatOp.run whenFull) table = .ok table' ∧ PowSized p table' ∧
      cells table' = ops.foldl (FlatOp.spec p) (cells table) := by
  refine Library.Runs.foldlM_simulates (FlatOp.run whenFull) (FlatOp.spec p)
    (fun table f => PowSized p table ∧ cells table = f) ops ?_ ⟨h, rfl⟩
  rintro t f op - ⟨ht, rfl⟩
  exact op.run_spec ht whenFull

theorem cells_fresh (p : Nat) : cells (Array.replicate (2 ^ p) 0) = fun _ => 0 :=
  funext fun c => cells_replicate (2 ^ p) c

theorem mix_cellOf_eq {p : Nat} {table : Table} (h : PowSized p table) (isLazy : Bool)
    (hash : UInt32) (counterIndex : Fin 4) :
    MixTable.cellOf p hash isLazy counterIndex =
      ((toSize (tableIndex table hash counterIndex)).toNat,
        Fin.ofNat 16 ((MixTable.counterOffset hash counterIndex isLazy).toNat / 4)) := by
  rw [tableIndex_eq h, toSize_index h.2 (indexOf_lt _ _ _)]
  have ho := congrArg UInt64.toNat (MixTable.counterOffset_eq hash counterIndex isLazy)
  have hk := (MixTable.fieldOf hash counterIndex isLazy).isLt
  rw [UInt32.toNat_toUInt64, Library.NibbleWord.shift, UInt64.toNat_ofNat',
    Nat.mod_eq_of_lt (by omega)] at ho
  rw [ho, Nat.mul_div_cancel_left _ (by decide)]
  refine Prod.ext rfl (Fin.ext ?_)
  exact (Nat.mod_eq_of_lt hk).symm

theorem flat_cellOf_eq {p : Nat} {table : Table} (h : PowSized p table) (hash : UInt32)
    (counterIndex : Fin 4) :
    FlatTable.cellOf p hash counterIndex =
      ((toSize (tableIndex table hash counterIndex)).toNat,
        Fin.ofNat 16 ((FlatTable.counterOffset hash counterIndex).toNat / 4)) := by
  rw [tableIndex_eq h, toSize_index h.2 (indexOf_lt _ _ _)]
  have ho := congrArg UInt64.toNat (FlatTable.counterOffset_eq hash counterIndex)
  have hk := (FlatTable.fieldOf hash counterIndex).isLt
  rw [UInt32.toNat_toUInt64, Library.NibbleWord.shift, UInt64.toNat_ofNat',
    Nat.mod_eq_of_lt (by omega)] at ho
  rw [ho, Nat.mul_div_cancel_left _ (by decide)]
  refine Prod.ext rfl (Fin.ext ?_)
  exact (Nat.mod_eq_of_lt hk).symm

theorem mix_cellOf_injective (p : Nat) (isLazy : Bool) (hash : UInt32) :
    Function.Injective (MixTable.cellOf p hash isLazy) := fun _ _ h =>
  MixTable.fieldOf_injective hash isLazy (congrArg Prod.snd h)

theorem flat_cellOf_injective (p : Nat) (hash : UInt32) :
    Function.Injective (FlatTable.cellOf p hash) := fun _ _ h =>
  FlatTable.fieldOf_injective hash (congrArg Prod.snd h)

/-- A packed table behaves like an array of independent saturating counters, for the two kinds of
tables the sketches keep, as long as the table has at most `2 ^ 31` words and no increment
overflows the `int` it is summed in. -/
theorem packed_table_refines_counters :
    (∀ p ≤ 31, ∀ ops : List MixOp, AllFit p (fun _ => 0) ops →
      ∃ table, ops.foldlM MixOp.run (Array.replicate (2 ^ p) 0) = .ok table ∧
        cells table = ops.foldl (MixOp.spec p) (fun _ => 0) ∧
        ∀ isLazy hash counterIndex,
          MixTable.getCount table isLazy hash counterIndex = .ok (Int32.ofNat
            (ops.foldl (MixOp.spec p) (fun _ => 0) (MixTable.cellOf p hash isLazy counterIndex))) ∧
          MixTable.cellOf p hash isLazy counterIndex =
            ((toSize (tableIndex table hash counterIndex)).toNat,
              Fin.ofNat 16 ((MixTable.counterOffset hash counterIndex isLazy).toNat / 4))) ∧
    (∀ p ≤ 31, ∀ (whenFull : Bool) (ops : List FlatOp),
      ∃ table, ops.foldlM (FlatOp.run whenFull) (Array.replicate (2 ^ p) 0) = .ok table ∧
        cells table = ops.foldl (FlatOp.spec p) (fun _ => 0) ∧
        ∀ hash counterIndex,
          FlatTable.getCount table hash counterIndex = .ok (Int32.ofNat
            (ops.foldl (FlatOp.spec p) (fun _ => 0) (FlatTable.cellOf p hash counterIndex))) ∧
          FlatTable.cellOf p hash counterIndex =
            ((toSize (tableIndex table hash counterIndex)).toNat,
              Fin.ofNat 16 ((FlatTable.counterOffset hash counterIndex).toNat / 4))) ∧
    (∀ p hash hash' i j, MixTable.cellOf p hash false i ≠ MixTable.cellOf p hash' true j) ∧
    (∀ p hash isLazy, Function.Injective (MixTable.cellOf p hash isLazy)) ∧
    (∀ p hash, Function.Injective (FlatTable.cellOf p hash)) := by
  refine ⟨?_, ?_, ?_, ?_, ?_⟩
  · intro p hp ops hops
    rw [← cells_fresh p] at hops
    obtain ⟨table, hrun, hsize, hcells⟩ := mix_run_spec (PowSized.replicate hp) ops hops
    rw [cells_fresh] at hcells
    refine ⟨table, hrun, hcells, fun isLazy hash j => ⟨?_, mix_cellOf_eq hsize isLazy hash j⟩⟩
    rw [MixTable.getCount_eq hsize, hcells]
  · intro p hp whenFull ops
    obtain ⟨table, hrun, hsize, hcells⟩ := flat_run_spec (PowSized.replicate hp) whenFull ops
    rw [cells_fresh] at hcells
    refine ⟨table, hrun, hcells, fun hash j => ⟨?_, flat_cellOf_eq hsize hash j⟩⟩
    rw [FlatTable.getCount_eq hsize, hcells]
  · exact fun p hash hash' i j h =>
      MixTable.fieldOf_lazy_ne hash hash' i j (congrArg Prod.snd h)
  · exact fun p hash isLazy => mix_cellOf_injective p isLazy hash
  · exact flat_cellOf_injective

def fourWordOps : List MixOp :=
  [.increment false 5 1 9, .increment true 5 1 3, .increment false 5 1 9, .reset]

theorem packed_table_refines_counters_four :
    (∃ table, fourWordOps.foldlM MixOp.run (Array.replicate (2 ^ 2) 0) = .ok table ∧
      MixTable.getCount table false 5 1 = .ok 7 ∧ MixTable.getCount table true 5 1 = .ok 1) ∧
    ∃ table, [FlatOp.increment 5 1, .increment 5 1, .reset].foldlM (FlatOp.run true)
        (Array.replicate (2 ^ 2) 0) = .ok table ∧ FlatTable.getCount table 5 1 = .ok 1 := by
  obtain ⟨hmix, hflat, -⟩ := packed_table_refines_counters
  constructor
  · obtain ⟨table, hrun, -, hget⟩ := hmix 2 (by decide) fourWordOps
      ⟨⟨by decide, .inr (by decide)⟩, ⟨by decide, .inr (by decide)⟩,
        ⟨by decide, .inr (by decide)⟩, trivial, trivial⟩
    exact ⟨table, hrun, (hget false 5 1).1, (hget true 5 1).1⟩
  · obtain ⟨table, hrun, -, hget⟩ := hflat 2 (by decide) true
      [.increment 5 1, .increment 5 1, .reset]
    exact ⟨table, hrun, (hget 5 1).1⟩

/-- An increment by `INT_MAX` of a counter that holds 1 makes the sum negative: the counter is not
saturated but cleared, and its neighbours receive the rest. A table of `2 ^ 32` words is indexed
out of its bounds. -/
theorem increment_overflow_corrupts :
    (do
      let table ← [MixOp.increment false 0 0 1, .increment false 0 0 2147483647].foldlM MixOp.run
        (Array.replicate (2 ^ 0) 0)
      return (← MixTable.getCount table false 0 0, ← MixTable.getCount table false 1 3)) =
        .ok ((0 : Int32), (8 : Int32)) ∧
    ([MixOp.increment false 0 0 1, .increment false 0 0 2147483647].foldl (MixOp.spec 0)
      (fun _ => 0) (MixTable.cellOf 0 0 false 0) = 15 ∧
    [MixOp.increment false 0 0 1, .increment false 0 0 2147483647].foldl (MixOp.spec 0)
      (fun _ => 0) (MixTable.cellOf 0 1 false 3) = 0) ∧
    MixTable.getCount (Array.replicate (2 ^ 32) 0) false 1 2 = .error .outOfRange := by
  refine ⟨rfl, by decide, ?_⟩
  have hi : tableIndex (Array.replicate (2 ^ 32) 0) 1 2 = -898520438 := by
    rw [tableIndex, Array.size_replicate]
    rfl
  have hs : (toSize (-898520438)).toNat = 18446744072811031178 := rfl
  have he : elemAt (Array.replicate (2 ^ 32) (0 : UInt64)) (-898520438) = .error .outOfRange := by
    rw [elemAt, hs, Array.getElem?_replicate, if_neg (by decide)]
  simp only [MixTable.getCount, hi, he]
  rfl

end DistExp.TableRefinement
