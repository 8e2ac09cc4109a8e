import DistExp.RangeCalls

namespace DistExp.RangeTermination

open DistExp.Library.CallTree
open DistExp.PackedTable DistExp.RangeSketch DistExp.RangeCounters DistExp.RangeCalls

section OutOfRange

variable {bad : Fault → Prop} (hbad : ¬ bad .outOfRange)

include hbad

theorem elemAt_avoids {α : Type} (v : Array α) (index : Int32) : Avoids bad (elemAt v index) := by
  rw [elemAt]
  split
  · exact avoids_ok bad _
  · intro e he
    cases he
    exact hbad

theorem blockFrequency_avoids (table : Table) (isLazy : Bool) (hash : UInt32) :
    Avoids bad (MixTable.blockFrequency table isLazy hash) := by
  refine (avoids_foldlM (P := fun _ => True) (fun j _ m _ => ⟨?_, fun _ _ => trivial⟩) trivial).1
  refine Avoids.bind ?_ fun _ _ => avoids_ok bad _
  exact (elemAt_avoids hbad _ _).bind fun _ _ => avoids_ok bad _

theorem tryIncrementCounterAtWithValue_avoids (table : Table) (isLazy : Bool) (hash : UInt32)
    (counterIndex : Fin 4) (incValue : Int32) : Avoids bad
      (MixTable.tryIncrementCounterAtWithValue table isLazy hash counterIndex incValue) := by
  refine (elemAt_avoids hbad _ _).bind fun word _ => ?_
  dsimp only
  split
  · split <;> exact avoids_ok bad _
  · exact avoids_ok bad _

theorem incrementRows_avoids (table : Table) (isLazy : Bool) (hash : UInt32) (value : Int32) :
    Avoids bad (MixTable.incrementRows table isLazy hash value) := by
  refine (avoids_foldlM (P := fun _ => True) (fun j _ acc _ => ⟨?_, fun _ _ => trivial⟩) trivial).1
  exact (tryIncrementCounterAtWithValue_avoids hbad _ _ _ _ _).bind fun _ _ => avoids_ok bad _

theorem tame_of_outOfRange (hash : UInt64 → UInt64 → UInt32) (level : Int32) :
    Tame hash bad (fun _ => True) level where
  getLazy s _ _ _ _ _ := (elemAt_avoids hbad _ _).bind fun _ _ => blockFrequency_avoids hbad _ _ _
  getDyadic s _ _ _ _ _ := (elemAt_avoids hbad _ _).bind fun _ _ =>
    (blockFrequency_avoids hbad _ _ _).bind fun _ _ => avoids_ok bad _
  incLazy s _ _ _ _ _ := by
    refine ⟨(elemAt_avoids hbad _ _).bind fun _ _ => ?_, fun _ _ => trivial⟩
    exact (incrementRows_avoids hbad _ _ _ _).bind fun _ _ => avoids_ok bad _
  incDyadic s _ _ _ _ _ := by
    refine ⟨(elemAt_avoids hbad _ _).bind fun _ _ => ?_, fun _ _ => trivial⟩
    exact (incrementRows_avoids hbad _ _ _ _).bind fun _ _ => avoids_ok bad _

end OutOfRange

/-- The four recursions come to an end for every access, empty and inverted ranges included: the
calls nest no deeper than the tree over the granules of a unit, there is a last one, every call
meets its assertion, and the functions themselves need no more fuel than that. -/
theorem recursions_end (hash : UInt64 → UInt64 → UInt32) (s : Sketch) (unitId t size : UInt64)
    (hg : 1 ≤ s.granularity.toNat) (hu : 1 ≤ s.unitSize.toNat)
    (hroom : s.unitSize.toNat + s.granularity.toNat < 2 ^ 64)
    (hcount : granuleCount s.granularity s.unitSize < 2 ^ 31) (r : Recursion) :
    (∀ n c, Made r.calls (rootCall s t size) n c →
      n + 1 ≤ 1 + Nat.clog 2 (granuleCount s.granularity s.unitSize) ∧ c.Asserted) ∧
    (∃ calls, ∀ fuel ≥ 1 + Nat.clog 2 (granuleCount s.granularity s.unitSize),
      trace r.calls fuel (rootCall s t size) = calls) ∧
    ∀ fuel ≥ 1 + Nat.clog 2 (granuleCount s.granularity s.unitSize),
      Avoids (fun f => f = .assertion ∨ f = .depth) (r.run hash fuel s unitId t size) := by
  have hroot := rootCall_inTree hg hu hroom.le hcount t size
  rw [Nat.add_comm 1]
  refine ⟨fun n c hm => ?_, ⟨_, fun fuel hf => hroot.within.trace_eq hf⟩, fun fuel hf => ?_⟩
  · obtain ⟨hn, ht, -⟩ := hroot.made hm
    exact ⟨hn, ht.asserted⟩
  · exact r.run_avoids hroot hf (fun n _ => tame_of_outOfRange (by decide) hash _) trivial trivial

/-- An access of a unit of three granules that ends in the next unit: its range is inverted. -/
theorem recursions_end_three :
    (rootCall (fresh 4 1 3 2 3) 2 2).Asserted ∧ rightOf (fresh 4 1 3 2 3) 2 2 = 1 ∧
      Avoids (fun f => f = .assertion ∨ f = .depth)
        (Recursion.gxjRecord.run Detail.hash 3 (fresh 4 1 3 2 3) 0 2 2) := by
  obtain ⟨hmade, -, hrun⟩ := recursions_end Detail.hash (fresh 4 1 3 2 3) 0 2 2 (by decide) (by decide)
    (by decide) (by decide) .gxjRecord
  exact ⟨(hmade 0 _ .root).2, by decide, hrun 3 (by decide)⟩

end DistExp.RangeTermination
