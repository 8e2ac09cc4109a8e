import DistExp.CountMinSketch
import DistExp.ExactCount
import DistExp.HierarchicalSketch

namespace DistExp.FlatRuns

open DistExp.Library.MachineInt DistExp.Library.Runs
open DistExp.PackedTable DistExp.GranuleLoop

theorem powSized_resize {n : Int32} (hn : ¬ n ≤ 0) (table : Table) :
    ∃ p, PowSized p (resize table (Detail.nearestPowerOfTwo n.toUInt32).toNat) := by
  obtain ⟨hwords, hlog⟩ := Detail.nearestPowerOfTwo_of_pos hn
  exact ⟨_, (size_resize table _).trans hwords, hlog⟩

section CountMin

open DistExp.CountMinSketch

/-- The states of a `count_min_sketch` that some calls lead to. -/
inductive CountMinReached (hash : UInt64 → UInt32) (g u : UInt64) : Sketch → Prop where
  | construct {n : Int32} {s : Sketch} (h : construct n g u = .ok s) : CountMinReached hash g u s
  | changeCapacity {n : Int32} {s s' : Sketch} (hs : CountMinReached hash g u s)
      (h : changeCapacity s n = .ok s') : CountMinReached hash g u s'
  | recordAccess (unitId t size : UInt64) {s s' : Sketch} (hs : CountMinReached hash g u s)
      (h : recordAccess hash s unitId t size = .ok s') : CountMinReached hash g u s'

variable {hash : UInt64 → UInt32} {g u : UInt64} {s s' : Sketch}

structure CountMinShape (g u : UInt64) (s : Sketch) : Prop where
  sized : ∃ p, PowSized p s.table
  granularity_eq : s.granularity = g
  unitSize_eq : s.unitSize = u

theorem CountMinShape.changeCapacity {n : Int32} (hg : s.granularity = g) (hu : s.unitSize = u)
    (h : changeCapacity s n = .ok s') : CountMinShape g u s' := by
  rw [CountMinSketch.changeCapacity] at h
  split at h
  · cases h
  · next hn =>
    cases h
    exact ⟨powSized_resize hn s.table, hg, hu⟩

theorem CountMinShape.innerRecordAccess (h : CountMinShape g u s) (hash : UInt64 → UInt32)
    (k : UInt64) :
    ∃ s', innerRecordAccess hash s k = .ok s' ∧ CountMinShape g u s' := by
  obtain ⟨p, hp⟩ := h.sized
  obtain ⟨table, added, ht, hp', -⟩ := FlatTable.incrementRows_eq hp true false (hash k)
  refine ⟨{ s with table := table }, ?_, ⟨p, hp'⟩, h.granularity_eq, h.unitSize_eq⟩
  rw [CountMinSketch.innerRecordAccess, ht]
  rfl

theorem CountMinReached.shape (h : CountMinReached hash g u s) : CountMinShape g u s := by
  induction h with
  | construct h => exact CountMinShape.changeCapacity rfl rfl h
  | changeCapacity _ h ih => exact .changeCapacity ih.granularity_eq ih.unitSize_eq h
  | recordAccess _ _ _ _ h ih =>
    obtain ⟨ks, -, h⟩ := exists_of_bind_ok h
    refine foldlM_preserves (fun s k _ s' hs hrec => ?_) ih h
    obtain ⟨s₁, hrec', h₁⟩ := hs.innerRecordAccess hash k
    cases hrec.symm.trans hrec'
    exact h₁

end CountMin

section Exact

open DistExp.ExactCount

/-- The states of an `exact_count` that some calls lead to. -/
inductive ExactReached (g u : UInt64) : Sketch → Prop where
  | construct {n : Int32} {s : Sketch} (h : construct n g u = .ok s) : ExactReached g u s
  | changeCapacity {n : Int32} {s s' : Sketch} (hs : ExactReached g u s)
      (h : changeCapacity s n = .ok s') : ExactReached g u s'
  | recordAccess (unitId t size : UInt64) {s s' : Sketch} (hs : ExactReached g u s)
      (h : recordAccess s unitId t size = .ok s') : ExactReached g u s'

variable {g u : UInt64} {s s' : Sketch}

theorem SameUnits.changeCapacity {n : Int32} (hs : SameUnits g u s)
    (h : changeCapacity s n = .ok s') : SameUnits g u s' := by
  rw [ExactCount.changeCapacity] at h
  split at h
  · cases h
  · cases h
    exact hs

theorem ExactReached.sameUnits (h : ExactReached g u s) : SameUnits g u s := by
  induction h with
  | construct h => exact SameUnits.changeCapacity ⟨rfl, rfl⟩ h
  | changeCapacity _ h ih => exact SameUnits.changeCapacity ih h
  | recordAccess _ _ _ _ h ih =>
    obtain ⟨ks, -, h⟩ := exists_of_bind_ok h
    exact foldlM_preserves (fun _ _ _ _ hs hrec => hs.innerRecordAccess hrec) ih h

theorem ExactReached.oneBit (h : ExactReached g u s) : OneBit s := by
  induction h with
  | construct h => exact OneBit.changeCapacity (fun i word hword => by cases hword) h
  | changeCapacity _ h ih => exact OneBit.changeCapacity ih h
  | recordAccess _ _ _ _ h ih =>
    obtain ⟨ks, -, h⟩ := exists_of_bind_ok h
    exact foldlM_preserves (fun _ _ _ _ hs hrec => OneBit.innerRecordAccess hs hrec) ih h

end Exact

end DistExp.FlatRuns
