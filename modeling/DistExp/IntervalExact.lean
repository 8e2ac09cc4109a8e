import DistExp.IntervalEstimates
import DistExp.PrivateRow

namespace DistExp.IntervalExact

open DistExp.Library.MachineInt DistExp.Library.AgedCounter DistExp.Library.HalvingTree
open DistExp.PackedTable DistExp.RangeSketch DistExp.RangeCounters DistExp.RangeGeometry
open DistExp.IntervalSketch DistExp.IntervalHistory DistExp.IntervalEstimates DistExp.PrivateRow

variable {hash : UInt64 → UInt64 → UInt32} {g u : UInt64} {N p : Nat} {s : Sketch}

def visited (g u : UInt64) (N : Nat) (ops : List Op) : List Node :=
  ops.flatMap fun
    | .record a => touchedNodes g u N a
    | .mustReset => []
    | .softReset => []

/-- Every access of the history is in bounds and covers at least one granule. -/
def Recordable (g u : UInt64) (ops : List Op) : Prop :=
  ∀ a, Op.record a ∈ ops → a.InBounds g u ∧ a.left g u < a.right g u

theorem record_mem_of_hit {ops : List Op} {a : Access} (ha : Event.hit a ∈ ops.map Op.event) :
    Op.record a ∈ ops := by
  obtain ⟨op, hop, he⟩ := List.mem_map.mp ha
  cases op with
  | record b =>
    cases he
    exact hop
  | mustReset => cases he
  | softReset => cases he

theorem touchedNodes_nodup (hgeo : Geometry g u N) {a : Access} (hlr : a.left g u < a.right g u) :
    (touchedNodes g u N a).Nodup := by
  refine (touched_nodup hgeo.fits (Nat.zero_le _) hlr (hgeo.right_lt a).le).map fun x y h => ?_
  exact (Node.mk.inj h).2.2

theorem present_eq_nodeRef (hgeo : Geometry g u N) {ops : List Op} (hops : Recordable g u ops)
    {node : Node} (hnode : node.seg ∈ nodes (Nat.clog 2 N + 1) 0 N) :
    aged 15 (present (touchedNodes g u N) node) (ops.map Op.event) = nodeRef g u ops node := by
  apply aged_congr
  intro a ha
  have hlr := (hops a (record_mem_of_hit ha)).2
  rw [present]
  exact if_congr (mem_touchedNodes hgeo hlr hnode) rfl rfl

theorem rowMin_eq_nodeRef {ops : List Op} (h : Counts hash g u N p s (ops.map Op.event))
    (hops : Recordable g u ops) {node : Node} (hnode : node.seg ∈ nodes (Nat.clog 2 N + 1) 0 N)
    {c : Cell} (hc : c ∈ nodeRows hash p N false node)
    (hp : ∀ other ∈ visited g u N ops, other ≠ node → c ∉ nodeRows hash p N false other) :
    rowMin intMax (sketchCells s) (nodeRows hash p N false node) =
      nodeRef g u ops node := by
  have hgeo := h.ready.geometry
  rw [h.sketchCells_eq, rowMin_eq_present 15 (touchedNodes g u N) (nodeRows hash p N false)
    (by decide) (ops.map Op.event) node (nodeRows_nodup hash p N false node) hc, present_eq_nodeRef
    hgeo hops hnode]
  · exact fun a ha => touchedNodes_nodup hgeo (hops a (record_mem_of_hit ha)).2
  · exact fun a ha other ho hne => hp other (List.mem_flatMap.mpr ⟨_, record_mem_of_hit ha, ho⟩) hne

theorem getDyadicCnt_eq_nodeRef {ops : List Op} (h : Counts hash g u N p s (ops.map Op.event))
    (hops : Recordable g u ops) {s₀ : Sketch} (hs₀ : Shape p (Nat.clog 2 N + 1) s₀) {node : Node}
    (hnode : node.seg ∈ nodes (Nat.clog 2 N + 1) 0 N)
    (hpriv : HasPrivateRow hash N s₀ false (visited g u N ops) node) {t : UInt64}
    (ht : node.unit = t / u) :
    getDyadicCnt hash s node.unitId (baseOf s t) (Int32.ofNat node.seg.lo)
      (Int32.ofNat node.seg.hi) (Int32.ofNat node.seg.level) =
        .ok (Int32.ofNat (nodeRef g u ops node * node.seg.size)) := by
  obtain ⟨-, hlo, -, hlevel⟩ := mem_nodes_bounds h.ready.geometry.fits hnode
  have hbase : baseOf s t = unitBase N node.unit := by
    rw [ht]
    exact h.ready.baseOf_eq ⟨0, t, 0⟩
  obtain ⟨c, hc, hp⟩ := hpriv.exists_cell hs₀ hlevel
  have hmin := rowMin_eq_nodeRef h hops hnode hc hp
  rw [getDyadicCnt_eq h.ready.shape hlevel, hbase, ← Int32.ofNat_sub _ _ hlo.le]
  rw [nodeRows] at hmin
  rw [hmin, ← Int32.ofNat_mul]
  rfl

theorem nodeRef_leaf (ops : List Op) (unitId unit : UInt64) (level k : Nat) :
    nodeRef g u ops ⟨unitId, unit, ⟨level, k, k + 1⟩⟩ = granuleRef g u ops unitId unit k := by
  apply aged_congr
  intro a _
  apply if_congr _ rfl rfl
  constructor
  · rintro ⟨h1, h2, h3, h4⟩
    exact ⟨h1, h2, Nat.le_of_lt_succ h4, h3⟩
  · rintro ⟨h1, h2, h3, h4⟩
    exact ⟨h1, h2, h4, Nat.lt_succ_of_le h3⟩

/-- `interval_sketch` is exact where hashing does not collide: a node with a private row reports
its exact counter times its length, as an `int`, and a leaf its exact counter. -/
theorem private_nodes_exact (hash : UInt64 → UInt64 → UInt32)
    (hgeo : Geometry g u N) {n : Int32} {s₀ : Sketch}
    (hs₀ : construct n g u = .ok s₀) (hne : ∀ table ∈ s₀.mixCounters, 0 < table.size)
    (ops : List Op) (hops : Recordable g u ops) {t : UInt64}
    (ht : t.toNat + u.toNat ≤ 2 ^ 31 * g.toNat) :
    ∃ s, ops.foldlM (Op.run hash) s₀ = .ok s ∧
      (∀ node : Node, node.unit = t / u → node.seg ∈ nodes (Nat.clog 2 N + 1) 0 N →
        HasPrivateRow hash N s₀ false (visited g u N ops) node →
        ∃ cnt, getDyadicCnt hash s node.unitId (baseOf s t) (Int32.ofNat node.seg.lo)
            (Int32.ofNat node.seg.hi) (Int32.ofNat node.seg.level) = .ok cnt ∧
          cnt = Int32.ofNat (nodeRef g u ops node * node.seg.size) ∧
          (nodeRef g u ops node * node.seg.size < 2 ^ 31 →
            cnt / (Int32.ofNat node.seg.hi - Int32.ofNat node.seg.lo) =
              Int32.ofNat (nodeRef g u ops node))) ∧
      (∀ q : Access, q.t = t → q.InBounds g u → q.right g u = q.left g u + 1 →
        ∀ level, ⟨level, q.left g u, q.right g u⟩ ∈ nodes (Nat.clog 2 N + 1) 0 N →
        HasPrivateRow hash N s₀ false (visited g u N ops)
          ⟨q.unitId, t / u, ⟨level, q.left g u, q.right g u⟩⟩ →
        frequency hash s q.unitId t q.size =
          .ok (Int32.ofNat (granuleRef g u ops q.unitId (t / u) (q.left g u)))) := by
  have hN : N ≤ 2 ^ 31 := by
    have hle : N * g.toNat ≤ 2 ^ 31 * g.toNat := by
      rw [← hgeo.unitSize_eq]
      exact (Nat.le_add_left _ _).trans ht
    exact Nat.le_of_mul_le_mul_right hle hgeo.granularity_pos
  obtain ⟨p, hc₀⟩ := construct_counts hash hgeo hs₀ hne hN
  obtain ⟨s, hrun, hc⟩ := run_counts hc₀ ops
  have hshape := hc₀.ready.shape
  refine ⟨s, hrun, ?_, ?_⟩
  · intro node hunit hnode hpriv
    obtain ⟨-, hlo, hhi, -⟩ := mem_nodes_bounds hgeo.fits hnode
    refine ⟨_, getDyadicCnt_eq_nodeRef hc hops hshape hnode hpriv hunit, rfl, fun hfit => ?_⟩
    have hsmall := hc.ready.small
    have hsize : node.seg.size ≤ node.seg.hi := Nat.sub_le _ _
    rw [← Int32.ofNat_sub _ _ hlo.le]
    refine (Int32.ofNat_div hfit (show node.seg.size < 2 ^ 31 by omega)).symm.trans ?_
    rw [Nat.mul_div_cancel _ (show 0 < node.seg.size from Nat.sub_pos_of_lt hlo)]
  · rintro q rfl - hsingle level hnode hpriv
    have hlr : q.left g u < q.right g u := by omega
    obtain ⟨level', hnode', hcover⟩ := cover_single hgeo.fits (Nat.zero_le _) (hgeo.left_lt q)
    rw [← hsingle] at hnode' hcover
    cases nodes_unique hgeo.fits hnode hnode' rfl rfl
    obtain ⟨c, hcm, hcp⟩ := hpriv.exists_cell hshape (mem_nodes_bounds hgeo.fits hnode).2.2.2
    have hmin := rowMin_eq_nodeRef hc hops hnode hcm hcp
    rw [frequency_eq hash hc.ready hlr, exactSum, queryCover, hcover, estimate, List.map_singleton,
      List.sum_singleton]
    have hsize : Seg.size ⟨level, q.left g u, q.right g u⟩ = 1 :=
      (congrArg (· - q.left g u) hsingle).trans (Nat.add_sub_cancel_left _ _)
    rw [hsize, Nat.mul_one]
    refine congrArg (fun x => Except.ok (Int32.ofNat x)) (hmin.trans ?_)
    rw [hsingle]
    exact nodeRef_leaf ops q.unitId (q.t / u) level (q.left g u)

theorem recordable_three : Recordable 1 3 threeOps := by
  intro a ha
  simp only [threeOps, List.mem_cons, Op.record.injEq, reduceCtorEq, List.not_mem_nil, or_false,
    false_or] at ha
  rcases ha with rfl | rfl | rfl <;> decide

theorem private_nodes_exact_three :
    ∃ s cnt, threeOps.foldlM (Op.run Detail.hash) (fresh 4 1 3 2 3) = .ok s ∧
      getDyadicCnt Detail.hash s 0 (baseOf s 3) 0 3 2 = .ok cnt ∧ cnt / (3 - 0) = 2 ∧
      frequency Detail.hash s 0 3 1 = .ok 1 := by
  obtain ⟨s, hrun, hnode, hleaf⟩ := private_nodes_exact Detail.hash (N := 3)
    ⟨by decide, by decide, rfl, by decide⟩ construct_three (nonempty_of_levels_le (by decide))
    threeOps recordable_three (t := 3) (by decide)
  obtain ⟨cnt, hcnt, -, hdiv⟩ := hnode ⟨0, 1, ⟨2, 0, 3⟩⟩ rfl (by decide) (by decide)
  have hfreq := hleaf ⟨0, 3, 1⟩ rfl (by decide) (by decide) 1 (by decide) (by decide +kernel)
  exact ⟨s, cnt, hrun, hcnt, hdiv (by decide), hfreq⟩

theorem huge_root_private :
    HasPrivateRow Detail.hash 268435456 hugeSketch false
      (visited 1 268435456 268435456 (List.replicate 15 (.record hugeAccess)))
      ⟨0, 0, ⟨28, 0, 268435456⟩⟩ := by
  refine ⟨0, fun other ho hne i he => hne ?_⟩
  obtain ⟨op, hop, hm⟩ := List.mem_flatMap.mp ho
  rw [(List.mem_replicate.mp hop).2] at hm
  obtain ⟨seg, hs, rfl⟩ := List.mem_map.mp hm
  have hlevel : seg.level = 28 := (Prod.mk.inj he).1
  have hclog : Nat.clog 2 268435456 = 28 := Nat.clog_pow 2 28 (by decide)
  have hfits := hugeGeometry.fits
  have hlr : hugeAccess.left 1 268435456 < hugeAccess.right 1 268435456 := by decide
  have hr := (hugeGeometry.right_lt hugeAccess).le
  have hn := ((mem_touched hfits (Nat.zero_le _) hlr hr seg).mp hs).1
  rw [hclog] at hfits hn
  rw [eq_root_of_level hfits hn hlevel]
  rfl

theorem huge_root_mem :
    (⟨28, 0, 268435456⟩ : Seg) ∈ nodes (Nat.clog 2 268435456 + 1) 0 268435456 := by
  have hclog : Nat.clog 2 268435456 = 28 := Nat.clog_pow 2 28 (by decide)
  rw [hclog, nodes]
  exact List.mem_cons_self

theorem huge_recordable : Recordable 1 268435456 (List.replicate 15 (.record hugeAccess)) := by
  intro a ha
  cases (List.mem_replicate.mp ha).2
  decide

theorem huge_nodeRef :
    nodeRef 1 268435456 (List.replicate 15 (.record hugeAccess)) ⟨0, 0, ⟨28, 0, 268435456⟩⟩ =
      15 := by
  have he : (List.replicate 15 (Op.record hugeAccess)).map Op.event =
      (List.replicate 15 hugeAccess).map Event.hit := rfl
  rw [nodeRef, he, aged_hits, List.map_replicate, if_pos (by decide)]
  rfl

theorem huge_getDyadicCnt :
    ∃ s, (List.replicate 15 (Op.record hugeAccess)).foldlM (Op.run Detail.hash) hugeSketch =
        .ok s ∧ getDyadicCnt Detail.hash s 0 (baseOf s 0) 0 268435456 28 =
          .ok (Int32.ofNat (15 * 268435456)) := by
  obtain ⟨p, hc₀⟩ := construct_counts Detail.hash hugeGeometry construct_huge
    hugeSketch_nonempty (by decide)
  obtain ⟨s, hrun, hc⟩ := run_counts hc₀ (List.replicate 15 (.record hugeAccess))
  have hcnt := getDyadicCnt_eq_nodeRef hc huge_recordable hc₀.ready.shape huge_root_mem
    huge_root_private (t := 0) rfl
  rw [huge_nodeRef] at hcnt
  exact ⟨s, hrun, hcnt⟩

/-- The two ways in which a node with a private row misses its exact counter: the number of
granules wraps and an access fails an assertion, or counter times length wraps. -/
theorem private_node_not_exact :
    (construct 2 0x7fffffffffffffff 0xfffffffffffffffe = .ok wideSketch ∧
      Recordable 0x7fffffffffffffff 0xfffffffffffffffe [.record ⟨0, 0, 0x7fffffffffffffff⟩] ∧
      [Op.record ⟨0, 0, 0x7fffffffffffffff⟩].foldlM (Op.run Detail.hash) wideSketch =
        .error .assertion) ∧
    (construct 268435456 1 268435456 = .ok hugeSketch ∧
      Recordable 1 268435456 (List.replicate 15 (.record hugeAccess)) ∧
      HasPrivateRow Detail.hash 268435456 hugeSketch false
        (visited 1 268435456 268435456 (List.replicate 15 (.record hugeAccess)))
        ⟨0, 0, ⟨28, 0, 268435456⟩⟩ ∧
      ∃ s cnt, (List.replicate 15 (.record hugeAccess)).foldlM (Op.run Detail.hash) hugeSketch =
          .ok s ∧ getDyadicCnt Detail.hash s 0 (baseOf s 0) 0 268435456 28 = .ok cnt ∧
        cnt / (268435456 - 0) = -1 ∧
        nodeRef 1 268435456 (List.replicate 15 (.record hugeAccess))
          ⟨0, 0, ⟨28, 0, 268435456⟩⟩ = 15) := by
  obtain ⟨s, hrun, hcnt⟩ := huge_getDyadicCnt
  refine ⟨⟨construct_wide, ?_, rfl⟩, construct_huge, huge_recordable, huge_root_private, s, _, hrun,
    hcnt, by decide, huge_nodeRef⟩
  intro a ha
  cases List.mem_singleton.mp ha
  decide

end DistExp.IntervalExact

