import DistExp.IntervalSketch
import DistExp.RangeGeometry
import DistExp.Library.Runs

namespace DistExp.IntervalHistory

open DistExp.Library.MachineInt DistExp.Library.AgedCounter DistExp.Library.HalvingTree
open DistExp.PackedTable DistExp.RangeSketch DistExp.RangeCounters DistExp.RangeGeometry
open DistExp.IntervalSketch

/-- The calls that change the counters of an `interval_sketch` without starting a thread. -/
inductive Op where
  | record (a : Access)
  | mustReset
  | softReset

def Op.run (hash : UInt64 → UInt64 → UInt32) (s : Sketch) : Op → Except Fault Sketch
  | .record a => recordAccess hash s a.unitId a.t a.size
  | .mustReset => .ok (RangeSketch.mustReset s)
  | .softReset => .ok (RangeSketch.softReset s)

def Op.event : Op → Event Access
  | .record a => .hit a
  | .mustReset => .halve
  | .softReset => .halve

/-- The exact counter of one granule: recorded accesses that contain it, capped and aged. -/
def granuleRef (g u : UInt64) (ops : List Op) (unitId unit : UInt64) (c : Nat) : Nat :=
  aged 15 (fun a => if a.Covers g u unitId unit c then 1 else 0) (ops.map Op.event)

/-- The exact counter of one node: recorded accesses of its unit that overlap it. -/
def nodeRef (g u : UInt64) (ops : List Op) (node : Node) : Nat :=
  aged 15 (fun a => if a.unitId = node.unitId ∧ a.unit u = node.unit ∧
    node.seg.lo < a.right g u ∧ a.left g u < node.seg.hi then 1 else 0) (ops.map Op.event)

def touchedNodes (g u : UInt64) (N : Nat) (a : Access) : List Node :=
  (touched (Nat.clog 2 N + 1) (a.left g u) (a.right g u) 0 N).map (Node.mk a.unitId (a.unit u))

theorem recordAccess_eq (hash : UInt64 → UInt64 → UInt32) {g u : UInt64} {N p : Nat} {s : Sketch}
    (h : Ready g u N p s) (hflag : s.doingReset = false) (a : Access) :
    ∃ s', recordAccess hash s a.unitId a.t a.size = .ok s' ∧ Ready g u N p s' ∧
      s'.doingReset = false ∧ sketchCells s' = raiseAll 15 (sketchCells s)
        ((touchedNodes g u N a).flatMap (nodeRows hash p N false)) := by
  have hl := h.geometry.left_lt a
  have hrt := h.geometry.right_lt a
  have hsmall := h.small
  have h₀ := h.setRefCnt (s.refCnt + 1)
  obtain ⟨s', hrun, hs', hf', hc'⟩ := innerRecordAccess_eq hash h.levels_le h.geometry.fits le_rfl
    h₀.shape (Nat.zero_le _) hrt.le (show a.left g u < 2 ^ 31 by omega) hsmall a.unitId
    (unitBase N (a.unit u))
  refine ⟨s', ?_, h₀.of_frame hs' hf', (congrArg Sketch.doingReset hf').trans hflag, ?_⟩
  · rw [← h.shape.level_eq] at hrun
    rw [recordAccess, if_neg (by simp [hflag]), h.baseOf_eq, h.leftOf_eq, h.rightOf_eq, h.stop_eq]
    exact hrun
  · rw [hc', touchedNodes, List.flatMap_map]
    rfl

/-- Every counter of the sketch has the value its share of the history gives it. -/
structure Counts (hash : UInt64 → UInt64 → UInt32) (g u : UInt64) (N p : Nat) (s : Sketch)
    (evs : List (Event Access)) : Prop where
  ready : Ready g u N p s
  flag : s.doingReset = false
  counters : ∀ c, sketchCells s c =
    aged 15 (load (touchedNodes g u N) (nodeRows hash p N false) c) evs

variable {hash : UInt64 → UInt64 → UInt32} {g u : UInt64} {N p : Nat} {s : Sketch}
  {evs : List (Event Access)}

theorem Counts.sketchCells_eq (h : Counts hash g u N p s evs) :
    sketchCells s = fun c => aged 15 (load (touchedNodes g u N) (nodeRows hash p N false) c) evs :=
  funext h.counters

theorem Counts.record (h : Counts hash g u N p s evs) (a : Access) :
    ∃ s', recordAccess hash s a.unitId a.t a.size = .ok s' ∧
      Counts hash g u N p s' (evs ++ [.hit a]) := by
  obtain ⟨s', hrun, hready, hflag, hcells⟩ := recordAccess_eq hash h.ready h.flag a
  refine ⟨s', hrun, hready, hflag, fun c => ?_⟩
  rw [hcells]
  exact raiseAll_tracks 15 _ _ h.counters a c

theorem Counts.halve (h : Counts hash g u N p s evs) :
    Counts hash g u N p (reset s) (evs ++ [.halve]) where
  ready := h.ready.reset
  flag := h.flag
  counters := by
    intro c
    rw [sketchCells_reset]
    exact halveAll_tracks 15 _ _ h.counters c

theorem run_counts (h : Counts hash g u N p s []) (ops : List Op) :
    ∃ s', ops.foldlM (Op.run hash) s = .ok s' ∧ Counts hash g u N p s' (ops.map Op.event) := by
  obtain ⟨s', hrun, hc⟩ := Library.Runs.foldlM_simulates (Op.run hash)
    (fun evs op => evs ++ [op.event]) (Counts hash g u N p) ops (by
      intro s evs op _ hs
      cases op with
      | record a => exact hs.record a
      | mustReset => exact ⟨_, rfl, hs.halve⟩
      | softReset => exact ⟨_, rfl, hs.halve⟩) h
  rw [Library.Runs.foldl_snoc, List.nil_append] at hc
  exact ⟨s', hrun, hc⟩

theorem construct_counts (hash : UInt64 → UInt64 → UInt32)
    (hgeo : Geometry g u N) {n : Int32} (hs : construct n g u = .ok s)
    (hne : ∀ table ∈ s.mixCounters, 0 < table.size) (hN : N ≤ 2 ^ 31) :
    ∃ p, Counts hash g u N p s [] := by
  obtain ⟨p, hready, _, hflag, hcells⟩ := construct_ready hgeo hs hne hN
  exact ⟨p, hready, hflag, fun c => by rw [hcells]; rfl⟩

end DistExp.IntervalHistory
