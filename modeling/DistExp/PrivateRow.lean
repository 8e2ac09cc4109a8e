import DistExp.RangeGeometry

namespace DistExp.PrivateRow

open DistExp.Library.MachineInt DistExp.Library.AgedCounter DistExp.Library.HalvingTree
open DistExp.PackedTable DistExp.RangeSketch DistExp.RangeCounters DistExp.RangeGeometry

def nodeHash (hash : UInt64 → UInt64 → UInt32) (N : Nat) (node : Node) : UInt32 :=
  hash node.unitId (toSize (unitBase N node.unit + Int32.ofNat node.seg.lo))

/-- Where the source keeps row `counterIndex` of a node: the level, the index of the word and the
offset in it. -/
def counterOf (hash : UInt64 → UInt64 → UInt32) (N : Nat) (s : Sketch) (isLazy : Bool) (node : Node)
    (counterIndex : Fin 4) : Nat × Int32 × UInt32 :=
  (node.seg.level,
    tableIndex (levelTable s node.seg.level) (nodeHash hash N node) counterIndex,
    MixTable.counterOffset (nodeHash hash N node) counterIndex isLazy)

/-- At least one row of the node has a counter that no other visited node uses. -/
def HasPrivateRow (hash : UInt64 → UInt64 → UInt32) (N : Nat) (s : Sketch) (isLazy : Bool)
    (visited : List Node) (node : Node) : Prop :=
  ∃ j, ∀ other ∈ visited, other ≠ node →
    ∀ i, counterOf hash N s isLazy other i ≠ counterOf hash N s isLazy node j

instance (hash : UInt64 → UInt64 → UInt32) (N : Nat) (s : Sketch) (isLazy : Bool)
    (visited : List Node) (node : Node) : Decidable (HasPrivateRow hash N s isLazy visited node) :=
  inferInstanceAs (Decidable (∃ _, _))

variable {hash : UInt64 → UInt64 → UInt32} {N p levels : Nat} {s : Sketch}

theorem counterOffset_inj {h h' : UInt32} {i j : Fin 4} {isLazy : Bool}
    (hf : MixTable.fieldOf h i isLazy = MixTable.fieldOf h' j isLazy) :
    MixTable.counterOffset h i isLazy = MixTable.counterOffset h' j isLazy := by
  apply UInt32.toUInt64_inj.mp
  rw [MixTable.counterOffset_eq, MixTable.counterOffset_eq, hf]

theorem counterOf_lazy_iff (node other : Node) (i j : Fin 4) :
    counterOf hash N s true other i = counterOf hash N s true node j ↔
      counterOf hash N s false other i = counterOf hash N s false node j := by
  simp only [counterOf, MixTable.counterOffset, if_true, Bool.false_eq_true, if_false,
    Prod.mk.injEq, UInt32.add_left_inj]

theorem HasPrivateRow.dyadic {visited : List Node} {node : Node}
    (h : HasPrivateRow hash N s true visited node) : HasPrivateRow hash N s false visited node := by
  obtain ⟨j, hj⟩ := h
  exact ⟨j, fun other hv hne i he => hj other hv hne i ((counterOf_lazy_iff node other i j).mpr he)⟩

theorem not_mem_nodeRows (h : Shape p levels s) {isLazy : Bool} {node other : Node}
    (hl : node.seg.level < levels) {j : Fin 4}
    (hj : ∀ i, counterOf hash N s isLazy other i ≠ counterOf hash N s isLazy node j) :
    (node.seg.level, MixTable.cellOf (p - node.seg.level) (nodeHash hash N node) isLazy j) ∉
      nodeRows hash p N isLazy other := by
  intro hm
  obtain ⟨i, hi⟩ := mem_rowsAt.mp hm
  rw [Prod.mk.injEq] at hi
  obtain ⟨hlevel, hcell⟩ := hi
  have hsized := h.sized _ hl
  apply hj i
  rw [← hlevel] at hcell
  obtain ⟨hindex, hfield⟩ := Prod.mk.inj hcell
  rw [counterOf, counterOf, ← hlevel, tableIndex_eq hsized, tableIndex_eq hsized,
    counterOffset_inj hfield]
  exact congrArg (fun x => (_, Int32.ofNat x, _)) hindex.symm

theorem HasPrivateRow.exists_cell (h : Shape p levels s) {isLazy : Bool} {visited : List Node}
    {node : Node} (hp : HasPrivateRow hash N s isLazy visited node)
    (hl : node.seg.level < levels) :
    ∃ c ∈ nodeRows hash p N isLazy node, ∀ other ∈ visited, other ≠ node →
      c ∉ nodeRows hash p N isLazy other := by
  obtain ⟨j, hj⟩ := hp
  exact ⟨_, mem_rowsAt.mpr ⟨j, rfl⟩, fun other hv hne => not_mem_nodeRows h hl (hj other hv hne)⟩

end DistExp.PrivateRow
