import DistExp.GxjSketch
import DistExp.RangeGeometry
import DistExp.Library.Runs

namespace DistExp.GxjHistory

open DistExp.Library.MachineInt DistExp.Library.AgedCounter DistExp.Library.HalvingTree
open DistExp.PackedTable DistExp.RangeSketch DistExp.RangeCounters DistExp.RangeGeometry
open DistExp.GxjSketch

/-- The marks of an access, which set the number of accesses to `a.2`: the nodes, and whether the
lazy or the dyadic counter counts. -/
def nodeMarks (g u : UInt64) (N : Nat) (a : Access × Int32) : List (Node × Bool) :=
  (marks (addsAt a.2) (Nat.clog 2 N + 1) (a.1.left g u) (a.1.right g u) 0 N).map fun m =>
    (⟨a.1.unitId, a.1.unit u, m.1⟩, m.2)

def keyRows (hash : UInt64 → UInt64 → UInt32) (p N : Nat) (key : Node × Bool) : List Cell :=
  nodeRows hash p N key.2 key.1

structure Marked (hash : UInt64 → UInt64 → UInt32) (g u : UInt64) (N p : Nat) (s : Sketch)
    (as : List (Access × Int32)) : Prop where
  ready : Ready g u N p s
  flag : s.doingReset = false
  counters : ∀ c, sketchCells s c =
    aged 15 (load (nodeMarks g u N) (keyRows hash p N) c) (as.map Event.hit)

variable {hash : UInt64 → UInt64 → UInt32} {g u : UInt64} {N p : Nat} {s : Sketch}
  {as : List (Access × Int32)}

theorem Marked.sketchCells_eq (h : Marked hash g u N p s as) : sketchCells s = fun c =>
    aged 15 (load (nodeMarks g u N) (keyRows hash p N) c) (as.map Event.hit) := funext h.counters

theorem Marked.record (h : Marked hash g u N p s as) {a : Access}
    (hlr : a.left g u < a.right g u) :
    ∃ s', recordAccess hash s a.unitId a.t a.size = .ok s' ∧
      Marked hash g u N p s' (as ++ [(a, s.refCnt + 1)]) := by
  have hr := h.ready
  have hrt := hr.geometry.right_lt a
  have hr₀ := hr.setRefCnt (s.refCnt + 1)
  obtain ⟨s', hrun, hs', hf', hc'⟩ := innerRecordAccess_eq hash hr.levels_le
    hr.geometry.fits le_rfl hr₀.shape (Nat.zero_le _) hlr hrt.le hr.small a.unitId
    (unitBase N (a.unit u))
  refine ⟨s', ?_, hr₀.of_frame hs' hf', (congrArg Sketch.doingReset hf').trans h.flag, ?_⟩
  · rw [← hr.shape.level_eq] at hrun
    rw [recordAccess, if_neg (by simp [h.flag]), hr.baseOf_eq, hr.leftOf_eq, hr.rightOf_eq,
      hr.stop_eq]
    exact hrun
  · intro c
    have hrows : (marks (addsAt (s.refCnt + 1)) (Nat.clog 2 N + 1) (a.left g u) (a.right g u) 0
        N).flatMap (markRows hash p a.unitId (unitBase N (a.unit u))) =
        (nodeMarks g u N (a, s.refCnt + 1)).flatMap (keyRows hash p N) := by
      rw [nodeMarks, List.flatMap_map]
      rfl
    rw [hc', hrows, List.map_append]
    exact raiseAll_tracks 15 _ _ h.counters (a, s.refCnt + 1) c

theorem run_marked (h : Marked hash g u N p s []) (ops : List Access)
    (hops : ∀ a ∈ ops, a.left g u < a.right g u) :
    ∃ s', ops.foldlM (fun s a => recordAccess hash s a.unitId a.t a.size) s = .ok s' ∧
      ∃ as, as.map Prod.fst = ops ∧ Marked hash g u N p s' as := by
  obtain ⟨s', hrun, hm⟩ := Library.Runs.foldlM_simulates
    (fun s (a : Access) => recordAccess hash s a.unitId a.t a.size) (fun t a => t ++ [id a])
    (fun s t => ∃ as, as.map Prod.fst = t ∧ Marked hash g u N p s as) ops (by
      rintro s t a ha ⟨as, rfl, hs⟩
      obtain ⟨s', hrun, hs'⟩ := hs.record (hops a ha)
      exact ⟨s', hrun, _, by rw [List.map_append]; rfl, hs'⟩) ⟨[], rfl, h⟩
  rw [Library.Runs.foldl_snoc, List.map_nil, List.nil_append, List.map_id] at hm
  exact ⟨s', hrun, hm⟩

theorem construct_marked (hash : UInt64 → UInt64 → UInt32)
    (hgeo : Geometry g u N) {n : Int32} (hs : construct n g u = .ok s)
    (hne : ∀ table ∈ s.mixCounters, 0 < table.size) (hN : N ≤ 2 ^ 31) :
    ∃ p, Marked hash g u N p s [] := by
  obtain ⟨p, hready, _, hflag, hcells⟩ := construct_ready hgeo hs hne hN
  exact ⟨p, hready, hflag, fun c => by rw [hcells]; rfl⟩

end DistExp.GxjHistory
