import DistExp.GxjHistory
import DistExp.PrivateRow

namespace DistExp.GxjEstimates

open DistExp.Library.MachineInt DistExp.Library.AgedCounter DistExp.Library.HalvingTree
open DistExp.PackedTable DistExp.RangeSketch DistExp.RangeCounters DistExp.RangeGeometry
open DistExp.IntervalSketch (segRows estimate)
open DistExp.GxjSketch DistExp.GxjHistory DistExp.PrivateRow

variable {hash : UInt64 → UInt64 → UInt32} {g u : UInt64} {N p k : Nat} {s : Sketch}
  {as : List (Access × Int32)} {unitId unit : UInt64}

def covering (g u unitId unit : UInt64) (k : Nat) (ops : List Access) : Nat :=
  ops.countP fun a => decide (a.Covers g u unitId unit k)

def leafPath (N k : Nat) : List Seg := path (Nat.clog 2 N + 1) k 0 N

def visited (g u : UInt64) (N : Nat) (ops : List Access) : List Node :=
  ops.flatMap fun a =>
    (descent (Nat.clog 2 N + 1) (a.left g u) (a.right g u) 0 N).map fun part =>
      ⟨a.unitId, a.unit u, part.1⟩

theorem mem_nodeMarks (a : Access × Int32) (node : Node) (isLazy : Bool) :
    (node, isLazy) ∈ nodeMarks g u N a ↔ a.1.unitId = node.unitId ∧ a.1.unit u = node.unit ∧
      (node.seg, isLazy) ∈
        marks (addsAt a.2) (Nat.clog 2 N + 1) (a.1.left g u) (a.1.right g u) 0 N := by
  rw [nodeMarks, List.mem_map]
  constructor
  · rintro ⟨⟨seg, m⟩, hm, he⟩
    cases he
    exact ⟨rfl, rfl, hm⟩
  · rintro ⟨h1, h2, hm⟩
    exact ⟨(node.seg, isLazy), hm, by rw [h1, h2]⟩

theorem nodeMarks_nodup (hgeo : Geometry g u N) {a : Access × Int32}
    (hlr : a.1.left g u < a.1.right g u) : (nodeMarks g u N a).Nodup := by
  refine (marks_nodup hgeo.fits (Nat.zero_le _) hlr (hgeo.right_lt a.1).le).map ?_
  rintro ⟨seg, m⟩ ⟨seg', m'⟩ he
  cases he
  rfl

theorem sum_path_present (hgeo : Geometry g u N) (hk : k < N) {a : Access × Int32}
    (hlr : a.1.left g u < a.1.right g u) :
    ((leafPath N k).map fun seg =>
      present (nodeMarks g u N) (⟨unitId, unit, seg⟩, true) a).sum =
        if a.1.Covers g u unitId unit k then 1 else 0 := by
  have hsum := sum_path_cover hgeo.fits (Nat.zero_le _) hlr (hgeo.right_lt a.1).le
    (Nat.zero_le k) hk
  by_cases hu : a.1.unitId = unitId ∧ a.1.unit u = unit
  · obtain ⟨h1, h2⟩ := hu
    have hcov : a.1.Covers g u unitId unit k ↔ a.1.left g u ≤ k ∧ k < a.1.right g u :=
      ⟨fun h => h.2.2, fun h => ⟨h1, h2, h⟩⟩
    rw [if_congr hcov rfl rfl, ← hsum]
    refine congrArg List.sum (List.map_congr_left fun seg _ => present_eq_ite _ ?_)
    rw [mem_nodeMarks, mem_marks_true]
    exact ⟨fun h => h.2.2, fun h => ⟨h1, h2, h⟩⟩
  · rw [if_neg fun h => hu ⟨h.1, h.2.1⟩, List.map_congr_left (g := fun _ => 0)]
    · simp
    · intro seg _
      refine (present_eq_ite _ (iff_false_intro ?_)).trans (if_neg not_false)
      rw [mem_nodeMarks]
      exact fun h => hu ⟨h.1, h.2.1⟩

theorem sum_path_marks (unitId unit : UInt64) (hgeo : Geometry g u N) (hk : k < N)
    (has : ∀ a ∈ as, a.1.left g u < a.1.right g u) :
    ((leafPath N k).map fun seg =>
      (as.map (present (nodeMarks g u N) (⟨unitId, unit, seg⟩, true))).sum).sum =
        covering g u unitId unit k (as.map Prod.fst) := by
  rw [sum_sum_comm, List.map_congr_left fun a ha => sum_path_present hgeo hk (has a ha), covering,
    List.countP_map]
  induction as with
  | nil => rfl
  | cons a as ih =>
    rw [List.map_cons, List.sum_cons, ih fun b hb => has b (List.mem_cons_of_mem a hb),
      List.countP_cons, Nat.add_comm]
    simp

theorem min_covering_le (h : Marked hash g u N p s as) (hk : k < N)
    (has : ∀ a ∈ as, a.1.left g u < a.1.right g u) :
    min 15 (covering g u unitId unit k (as.map Prod.fst)) ≤
      ((leafPath N k).map fun seg => rowMin intMax (sketchCells s)
        (nodeRows hash p N true ⟨unitId, unit, seg⟩)).sum := by
  rw [← sum_path_marks unitId unit h.ready.geometry hk has]
  refine (min_sum_le 15 _).trans ?_
  rw [List.map_map]
  apply List.sum_le_sum
  intro seg _
  have hle := present_le_rowMin 15 (nodeMarks g u N) (keyRows hash p N)
    (show 15 ≤ intMax by decide) (as.map Event.hit) (⟨unitId, unit, seg⟩, true)
  rw [aged_hits] at hle
  rw [h.sketchCells_eq]
  exact hle

/-- What a query adds up: the lazy marks on the way down, each times the part of the range in its
node, and the dyadic counters where the way ends, each times the length of its node. -/
def querySum (hash : UInt64 → UInt64 → UInt32) (g u : UInt64) (N p : Nat) (s : Sketch)
    (q : Access) : Nat :=
  lazyEstimate s (fun seg => nodeRows hash p N true ⟨q.unitId, q.unit u, seg⟩)
    (descent (Nat.clog 2 N + 1) (q.left g u) (q.right g u) 0 N) +
  estimate s (fun seg => nodeRows hash p N false ⟨q.unitId, q.unit u, seg⟩)
    (cover (Nat.clog 2 N + 1) (q.left g u) (q.right g u) 0 N)

theorem frequency_eq (hash : UInt64 → UInt64 → UInt32) (h : Ready g u N p s) {q : Access}
    (hlr : q.left g u < q.right g u) :
    frequency hash s q.unitId q.t q.size = .ok (Int32.ofNat (querySum hash g u N p s q)) := by
  have hr := h.geometry.right_lt q
  rw [frequency, h.baseOf_eq, h.leftOf_eq, h.rightOf_eq, h.stop_eq, h.shape.level_eq]
  exact innerFrequency_eq h.levels_le h.geometry.fits le_rfl h.shape (Nat.zero_le _) hlr hr.le
    h.small q.unitId (unitBase N (q.unit u))

def granuleSum (hash : UInt64 → UInt64 → UInt32) (N p : Nat) (s : Sketch) (unitId unit : UInt64)
    (level k : Nat) : Nat :=
  ((leafPath N k).map fun seg => rowMin intMax (sketchCells s)
    (nodeRows hash p N true ⟨unitId, unit, seg⟩)).sum +
  rowMin intMax (sketchCells s)
    (nodeRows hash p N false ⟨unitId, unit, ⟨level, k, k + 1⟩⟩)

theorem frequency_single (hash : UInt64 → UInt64 → UInt32) (h : Ready g u N p s) {q : Access}
    (hsingle : q.right g u = q.left g u + 1) :
    ∃ level, ⟨level, q.left g u, q.left g u + 1⟩ ∈ leafPath N (q.left g u) ∧
      frequency hash s q.unitId q.t q.size =
        .ok (Int32.ofNat (granuleSum hash N p s q.unitId (q.unit u) level (q.left g u))) := by
  have hfits := h.geometry.fits
  have hk := h.geometry.left_lt q
  have hr := h.geometry.right_lt q
  obtain ⟨level, hnode, hcover⟩ := cover_single hfits (Nat.zero_le _) hk
  refine ⟨level, (mem_path hfits (Nat.zero_le _) hk _).mpr
    ⟨hnode, Nat.le_refl _, Nat.lt_succ_self _⟩, ?_⟩
  rw [frequency_eq hash h (by omega), querySum, hsingle, descent_single hfits (Nat.zero_le _) hk,
    hcover, lazyEstimate, estimate, List.map_map, List.map_singleton, List.sum_singleton]
  simp only [Function.comp_def, Nat.mul_one, Seg.size, Nat.add_sub_cancel_left]
  rfl

theorem mem_visited {a : Access × Int32} (ha : a ∈ as) {node : Node} {isLazy : Bool}
    (hm : (node, isLazy) ∈ nodeMarks g u N a) : node ∈ visited g u N (as.map Prod.fst) := by
  obtain ⟨h1, h2, hseg⟩ := (mem_nodeMarks a node isLazy).mp hm
  obtain ⟨part, hp, he⟩ := List.mem_map.mp (mem_descent_of_marks hseg)
  refine List.mem_flatMap.mpr ⟨a.1, List.mem_map_of_mem ha, List.mem_map.mpr ⟨part, hp, ?_⟩⟩
  rw [h1, h2, he]

theorem lazy_not_mem_dyadic {c : Cell} {node other : Node} (hc : c ∈ nodeRows hash p N true node) :
    c ∉ nodeRows hash p N false other := by
  intro hd
  obtain ⟨j, rfl⟩ := mem_rowsAt.mp hc
  obtain ⟨i, hi⟩ := mem_rowsAt.mp hd
  exact MixTable.fieldOf_lazy_ne _ _ i j (congrArg (fun c : Cell => c.2.2) hi).symm

theorem rowMin_eq_marks (h : Marked hash g u N p s as)
    (has : ∀ a ∈ as, a.1.left g u < a.1.right g u) {s₀ : Sketch}
    (hs₀ : Shape p (Nat.clog 2 N + 1) s₀) {node : Node}
    (hlevel : node.seg.level < Nat.clog 2 N + 1) {isLazy : Bool}
    (hpriv : HasPrivateRow hash N s₀ isLazy (visited g u N (as.map Prod.fst)) node) :
    rowMin intMax (sketchCells s) (nodeRows hash p N isLazy node) =
      min 15 (as.map (present (nodeMarks g u N) (node, isLazy))).sum := by
  obtain ⟨c, hc, hother⟩ := hpriv.exists_cell hs₀ hlevel
  have hmem : ∀ {a}, Event.hit a ∈ as.map Event.hit → a ∈ as := fun ha => by simpa using ha
  rw [h.sketchCells_eq, ← aged_hits]
  refine rowMin_eq_present 15 (nodeMarks g u N) (keyRows hash p N) (by decide) (as.map Event.hit)
    (node, isLazy) (nodeRows_nodup hash p N isLazy node) hc ?_ ?_
  · exact fun a ha => nodeMarks_nodup h.ready.geometry (has a (hmem ha))
  · rintro a ha ⟨other, m⟩ hm hne
    by_cases hml : m = isLazy
    · subst hml
      exact hother other (mem_visited (hmem ha) hm) fun he => hne (by rw [he])
    · cases m <;> cases isLazy
      · exact absurd rfl hml
      · exact lazy_not_mem_dyadic hc
      · exact fun hc' => lazy_not_mem_dyadic hc' hc
      · exact absurd rfl hml

theorem sum_leaf_dyadic (hgeo : Geometry g u N) (has : ∀ a ∈ as, a.1.left g u < a.1.right g u)
    (level : Nat) :
    (as.map (present (nodeMarks g u N) (⟨unitId, unit, ⟨level, k, k + 1⟩⟩, false))).sum = 0 := by
  rw [List.map_congr_left (g := fun _ => 0)]
  · simp
  · intro a ha
    refine (present_eq_ite _ (iff_false_intro fun hm => ?_)).trans (if_neg not_false)
    have hseg := ((mem_nodeMarks _ _ _).mp hm).2.2
    exact size_of_mem_marks_false hgeo.fits (Nat.zero_le _) (has a ha) (hgeo.right_lt a.1).le hseg rfl

theorem granuleSum_eq (h : Marked hash g u N p s as) (hk : k < N)
    (has : ∀ a ∈ as, a.1.left g u < a.1.right g u) {s₀ : Sketch}
    (hs₀ : Shape p (Nat.clog 2 N + 1) s₀) {level : Nat} (hleaf : ⟨level, k, k + 1⟩ ∈ leafPath N k)
    (hpriv : ∀ seg ∈ leafPath N k,
      HasPrivateRow hash N s₀ true (visited g u N (as.map Prod.fst)) ⟨unitId, unit, seg⟩)
    (h15 : covering g u unitId unit k (as.map Prod.fst) ≤ 15) :
    granuleSum hash N p s unitId unit level k =
      covering g u unitId unit k (as.map Prod.fst) := by
  have hgeo := h.ready.geometry
  have hlevel : ∀ seg ∈ leafPath N k, seg.level < Nat.clog 2 N + 1 := fun seg hseg =>
    (mem_nodes_bounds hgeo.fits ((mem_path hgeo.fits (Nat.zero_le _) hk seg).mp hseg).1).2.2.2
  have hdyadic := rowMin_eq_marks h has hs₀ (hlevel _ hleaf) (hpriv _ hleaf).dyadic
  rw [sum_leaf_dyadic hgeo has, Nat.min_zero] at hdyadic
  have hsum := sum_path_marks unitId unit hgeo hk has
  rw [granuleSum, hdyadic, Nat.add_zero, ← hsum]
  refine congrArg List.sum (List.map_congr_left fun seg hseg => ?_)
  rw [rowMin_eq_marks h has hs₀ (hlevel _ hseg) (hpriv _ hseg)]
  apply Nat.min_eq_right
  rw [← hsum] at h15
  exact (List.single_le_sum (fun _ _ => Nat.zero_le _) _ (List.mem_map_of_mem hseg)).trans h15

theorem granuleSum_lt (hash : UInt64 → UInt64 → UInt32)
    (h : Ready g u N p s) (unitId unit : UInt64) (level k : Nat) :
    granuleSum hash N p s unitId unit level k < 2 ^ 31 := by
  have hrow := rowMin_nodeRows_le hash p N s
  have hpath := List.sum_le_card_nsmul ((leafPath N k).map fun seg => rowMin intMax
    (sketchCells s) (nodeRows hash p N true ⟨unitId, unit, seg⟩)) 15 (by
      intro x hx
      obtain ⟨seg, -, rfl⟩ := List.mem_map.mp hx
      exact hrow true _)
  have hlen : (leafPath N k).length ≤ Nat.clog 2 N + 1 := path_length_le
  have hlevels := h.levels_le
  have hleaf := hrow false ⟨unitId, unit, ⟨level, k, k + 1⟩⟩
  rw [List.length_map, smul_eq_mul] at hpath
  unfold fuel at hlevels
  rw [granuleSum]
  omega

/-- `gxj_range_frequency_sketch` is correct on single granules: whatever collides, the frequency
of one granule is at least the accesses that contain it, as far as one counter can count, and it
is exactly their number where the nodes on its path have private rows. -/
theorem single_granule_correct (hash : UInt64 → UInt64 → UInt32)
    (hgeo : Geometry g u N) {n : Int32} {s₀ : Sketch}
    (hs₀ : construct n g u = .ok s₀) (hne : ∀ table ∈ s₀.mixCounters, 0 < table.size)
    (ops : List Access) (hops : ∀ a ∈ ops, a.InBounds g u ∧ a.left g u < a.right g u) {q : Access}
    (hq : q.InBounds g u) (hsingle : q.right g u = q.left g u + 1) :
    ∃ s f, ops.foldlM (fun s a => recordAccess hash s a.unitId a.t a.size) s₀ = .ok s ∧
      frequency hash s q.unitId q.t q.size = .ok f ∧
      ((min 15 (covering g u q.unitId (q.unit u) (q.left g u) ops) : Nat) : Int) ≤ f.toInt ∧
      ((∀ seg ∈ leafPath N (q.left g u),
          HasPrivateRow hash N s₀ true (visited g u N ops) ⟨q.unitId, q.unit u, seg⟩) →
        covering g u q.unitId (q.unit u) (q.left g u) ops ≤ 15 →
        f.toInt = covering g u q.unitId (q.unit u) (q.left g u) ops) := by
  obtain ⟨p, hm₀⟩ := construct_marked hash hgeo hs₀ hne (hgeo.le_of_inBounds hq)
  obtain ⟨s, hrun, as, rfl, hm⟩ := run_marked hm₀ ops fun a ha => (hops a ha).2
  have has : ∀ a ∈ as, a.1.left g u < a.1.right g u := fun a ha =>
    (hops a.1 (List.mem_map_of_mem ha)).2
  have hk := hgeo.left_lt q
  obtain ⟨level, hleaf, hfreq⟩ := frequency_single hash hm.ready hsingle
  have hlt := granuleSum_lt hash hm.ready q.unitId (q.unit u) level (q.left g u)
  refine ⟨s, _, hrun, hfreq, ?_, fun hpriv h15 => ?_⟩ <;> rw [Int32.toInt_ofNat_of_lt hlt]
  · exact Int.ofNat_le.mpr ((min_covering_le hm hk has).trans (Nat.le_add_right _ _))
  · rw [granuleSum_eq hm hk has hm₀.ready.shape hleaf hpriv h15]

theorem single_granule_correct_three :
    ∃ s f, [Access.mk 0 0 2, ⟨0, 1, 1⟩, ⟨1, 4, 1⟩].foldlM
        (fun s a => recordAccess Detail.hash s a.unitId a.t a.size) (fresh 4 1 3 2 3) = .ok s ∧
      frequency Detail.hash s 0 1 1 = .ok f ∧ f.toInt = 2 := by
  obtain ⟨s, f, hrun, hf, -, hexact⟩ := single_granule_correct Detail.hash (g := 1)
    (u := 3) (N := 3) ⟨by decide, by decide, rfl, by decide⟩ construct_three
    (nonempty_of_levels_le (by decide)) [⟨0, 0, 2⟩, ⟨0, 1, 1⟩, ⟨1, 4, 1⟩] (by decide)
    (q := ⟨0, 1, 1⟩) (by decide) (by decide)
  exact ⟨s, f, hrun, hf, hexact (by decide +kernel) (by decide)⟩

/-- Rounding the unit up to granules wraps to zero granules, and the first access fails an
assertion. -/
theorem single_granule_wraps :
    construct 2 0x7fffffffffffffff 0xfffffffffffffffe = .ok wideSketch ∧
    (∀ table ∈ wideSketch.mixCounters, 0 < table.size) ∧
    Access.InBounds 0x7fffffffffffffff 0xfffffffffffffffe ⟨0, 0, 0x7fffffffffffffff⟩ ∧
    Access.left 0x7fffffffffffffff 0xfffffffffffffffe ⟨0, 0, 0x7fffffffffffffff⟩ = 0 ∧
    Access.right 0x7fffffffffffffff 0xfffffffffffffffe ⟨0, 0, 0x7fffffffffffffff⟩ = 1 ∧
    recordAccess Detail.hash wideSketch 0 0
      0x7fffffffffffffff = .error .assertion ∧
    frequency Detail.hash wideSketch 0 0
      0x7fffffffffffffff = .error .assertion :=
  ⟨construct_wide, nonempty_of_levels_le (by decide), by decide, rfl, rfl, rfl, rfl⟩

end DistExp.GxjEstimates
