import DistExp.IntervalExact
import DistExp.IntervalHalving

namespace DistExp.IntervalSplitting

open DistExp.Library.MachineInt DistExp.Library.AgedCounter DistExp.Library.HalvingTree
open DistExp.Library.Runs
open DistExp.PackedTable DistExp.RangeSketch DistExp.RangeCounters DistExp.RangeGeometry
open DistExp.RangeRuns hiding Op
open DistExp.PrivateRow DistExp.IntervalSketch DistExp.IntervalHistory
open DistExp.IntervalEstimates DistExp.IntervalExact DistExp.IntervalHalving

/-- Two queries that cut the range of another one of their unit in two. -/
structure Cut (g u : UInt64) (q q₁ q₂ : Access) : Prop where
  unitId_lower : q₁.unitId = q.unitId
  unitId_upper : q₂.unitId = q.unitId
  unit_lower : q₁.unit u = q.unit u
  unit_upper : q₂.unit u = q.unit u
  left_eq : q₁.left g u = q.left g u
  cut_eq : q₁.right g u = q₂.left g u
  right_eq : q₂.right g u = q.right g u
  lower_pos : q₁.left g u < q₁.right g u
  upper_pos : q₂.left g u < q₂.right g u

def queried (g u : UInt64) (N : Nat) (q : Access) : List Node :=
  (queryCover g u N q).map (Node.mk q.unitId (q.unit u))

variable {hash : UInt64 → UInt64 → UInt32} {g u : UInt64} {N p : Nat} {s s₀ : Sketch}
  {ops : List Op} {q q₁ q₂ : Access} {n : Int32}

theorem nodeRef_mono (g u : UInt64) (ops : List Op) (unitId unit : UInt64) {x y : Seg}
    (hlo : x.lo ≤ y.lo) (hhi : y.hi ≤ x.hi) :
    nodeRef g u ops ⟨unitId, unit, y⟩ ≤ nodeRef g u ops ⟨unitId, unit, x⟩ := by
  refine aged_mono 15 _ fun a _ => ?_
  by_cases hy : a.unitId = unitId ∧ a.unit u = unit ∧ y.lo < a.right g u ∧ a.left g u < y.hi
  · obtain ⟨h1, h2, h3, h4⟩ := hy
    rw [if_pos ⟨h1, h2, h3, h4⟩, if_pos ⟨h1, h2, hlo.trans_lt h3, h4.trans_le hhi⟩]
  · rw [if_neg hy]
    exact Nat.zero_le _

theorem weigh_le_exactSum (h : Counts hash g u N p s (ops.map Op.event)) (hops : Recordable g u ops)
    (hlr : q.left g u < q.right g u) :
    weigh (fun seg => nodeRef g u ops ⟨q.unitId, q.unit u, seg⟩) (queryCover g u N q) ≤
      exactSum hash g u N p s q := by
  have hgeo := h.ready.geometry
  refine weigh_mono fun seg hseg => ?_
  obtain ⟨hnode, -⟩ := mem_cover hgeo.fits (Nat.zero_le _) hlr (hgeo.right_lt q).le hseg
  have hle := present_le_rowMin 15 (touchedNodes g u N) (nodeRows hash p N false)
    (show 15 ≤ intMax by decide) (ops.map Op.event) ⟨q.unitId, q.unit u, seg⟩
  rw [present_eq_nodeRef hgeo hops hnode, ← h.sketchCells_eq] at hle
  exact hle

theorem exactSum_eq_weigh (h : Counts hash g u N p s (ops.map Op.event)) (hops : Recordable g u ops)
    (hs₀ : Shape p (Nat.clog 2 N + 1) s₀) (hlr : q.left g u < q.right g u)
    (hpriv : ∀ node ∈ queried g u N q, HasPrivateRow hash N s₀ false (visited g u N ops) node) :
    exactSum hash g u N p s q =
      weigh (fun seg => nodeRef g u ops ⟨q.unitId, q.unit u, seg⟩) (queryCover g u N q) := by
  have hgeo := h.ready.geometry
  refine congrArg List.sum (List.map_congr_left fun seg hseg => ?_)
  obtain ⟨hnode, -⟩ := mem_cover hgeo.fits (Nat.zero_le _) hlr (hgeo.right_lt q).le hseg
  obtain ⟨c, hc, hp⟩ := (hpriv _ (List.mem_map_of_mem hseg)).exists_cell hs₀
    (mem_nodes_bounds hgeo.fits hnode).2.2.2
  have hmin : rowMin intMax (sketchCells s) (nodeRows hash p N false ⟨q.unitId, q.unit u, seg⟩) =
      nodeRef g u ops ⟨q.unitId, q.unit u, seg⟩ := rowMin_eq_nodeRef h hops hnode hc hp
  exact congrArg (· * seg.size) hmin

theorem exactSum_add_le (h : Counts hash g u N p s (ops.map Op.event)) (hops : Recordable g u ops)
    (hs₀ : Shape p (Nat.clog 2 N + 1) s₀) (hcut : Cut g u q q₁ q₂)
    (hpriv : ∀ node ∈ queried g u N q₁ ++ queried g u N q₂,
      HasPrivateRow hash N s₀ false (visited g u N ops) node) :
    exactSum hash g u N p s q₁ + exactSum hash g u N p s q₂ ≤ exactSum hash g u N p s q := by
  have hgeo := h.ready.geometry
  have hlr : q.left g u < q.right g u := by
    rw [← hcut.left_eq, ← hcut.right_eq]
    exact hcut.lower_pos.trans (hcut.cut_eq ▸ hcut.upper_pos)
  rw [exactSum_eq_weigh h hops hs₀ hcut.lower_pos fun node hnode =>
      hpriv node (List.mem_append_left _ hnode),
    exactSum_eq_weigh h hops hs₀ hcut.upper_pos fun node hnode =>
      hpriv node (List.mem_append_right _ hnode),
    hcut.unitId_lower, hcut.unitId_upper, hcut.unit_lower, hcut.unit_upper]
  refine le_trans ?_ (weigh_le_exactSum h hops hlr)
  rw [queryCover, queryCover, queryCover, hcut.left_eq, hcut.cut_eq, hcut.right_eq]
  refine weigh_cover_add_le (fun x y => nodeRef_mono g u ops q.unitId (q.unit u)) hgeo.fits
    (Nat.zero_le _) ?_ ?_ (hgeo.right_lt q).le
  · rw [← hcut.left_eq, ← hcut.cut_eq]
    exact hcut.lower_pos
  · rw [← hcut.right_eq]
    exact hcut.upper_pos

section Silent

theorem zero_of_no_record (hs₀ : construct n g u = .ok s₀)
    (hne : ∀ table ∈ s₀.mixCounters, 0 < table.size) (hno : ∀ a, Op.record a ∉ ops)
    (hrun : ops.foldlM (Op.run hash) s₀ = .ok s) :
    Sized s ∧ (∀ c, sketchCells s c ≤ 0) ∧ s.granularity = g ∧ s.unitSize = u := by
  obtain ⟨q, levels, hacc, rfl⟩ := accepted_of_construct hs₀
  have hzero : sketchCells (fresh n g u q levels) = fun _ => 0 := sketchCells_fresh rfl
  have hfresh : Sized (fresh n g u q levels) := sized_of_built (built_of_construct hs₀) hne
  refine foldlM_preserves (I := fun s : Sketch => Sized s ∧ (∀ c, sketchCells s c ≤ 0) ∧
    s.granularity = g ∧ s.unitSize = u) (fun s op hop s' hI hstep => ?_)
    ⟨hfresh, fun c => (congrFun hzero c).le, rfl, rfl⟩ hrun
  have hreset : s' = reset s := by
    cases op with
    | record a => exact absurd hop (hno a)
    | mustReset =>
      cases hstep
      rfl
    | softReset =>
      cases hstep
      rfl
  obtain ⟨hsized, hcells, hgran, hunit⟩ := hI
  rw [hreset]
  refine ⟨hsized.reset, fun c => ?_, hgran, hunit⟩
  rw [sketchCells_reset]
  exact (Nat.div_le_self _ 2).trans (hcells c)

theorem recordAccess_of_wrapped (hgran : s.granularity = g) (hunit : s.unitSize = u)
    (hflag : s.doingReset = false) (hu : u.toNat = N * g.toNat) (hg : 0 < g.toNat)
    (hN31 : N ≤ 2 ^ 31) (hwrap : 2 ^ 64 < u.toNat + g.toNat) {a : Access}
    (hlr : a.left g u < a.right g u) :
    recordAccess hash s a.unitId a.t a.size = .error .assertion := by
  have hbad := right_not_le_of_wrapped hgran hunit hg hu hN31 hwrap ((Nat.zero_le _).trans_lt hlr)
  rw [recordAccess, if_neg (by simp [hflag]), fuel, innerRecordAccess,
    if_pos fun hguard => hbad hguard.2]

theorem room_of_record (hs₀ : construct n g u = .ok s₀) (hN31 : N ≤ 2 ^ 31)
    (hu : u.toNat = N * g.toNat) {a : Access} (ha : Op.record a ∈ ops)
    (hlr : a.left g u < a.right g u) (hrun : ops.foldlM (Op.run hash) s₀ = .ok s) :
    u.toNat + g.toNat ≤ 2 ^ 64 := by
  by_contra hwrap
  obtain ⟨q, levels, hacc, rfl⟩ := accepted_of_construct hs₀
  obtain ⟨pre, post, rfl⟩ := List.append_of_mem ha
  rw [List.foldlM_append] at hrun
  obtain ⟨s₁, hpre, hrun⟩ := exists_of_bind_ok hrun
  rw [List.foldlM_cons] at hrun
  obtain ⟨s₂, hrec, -⟩ := exists_of_bind_ok hrun
  obtain ⟨hgran, hunit, hflag⟩ : s₁.granularity = g ∧ s₁.unitSize = u ∧ s₁.doingReset = false := by
    refine foldlM_preserves (I := fun s : Sketch => s.granularity = g ∧ s.unitSize = u ∧
      s.doingReset = false) (fun s op _ s' hI hstep => ?_) ⟨rfl, rfl, rfl⟩ hpre
    cases op with
    | record b =>
      have hlay := @recordAccess_sameLayout _ _ _ .interval _ _ _ hstep
      exact ⟨hlay.granularity_eq.trans hI.1, hlay.unitSize_eq.trans hI.2.1,
        (@ResetThreads.recordAccess_doingReset _ _ _ .interval _ _ _ hstep).trans hI.2.2⟩
    | mustReset =>
      cases hstep
      exact hI
    | softReset =>
      cases hstep
      exact hI
  have hfault : recordAccess hash s₁ a.unitId a.t a.size = .error .assertion :=
    recordAccess_of_wrapped hgran hunit hflag hu hacc.granularity_pos hN31 (not_le.mp hwrap) hlr
  cases hfault.symm.trans hrec

end Silent

theorem frequency_add_le (hs₀ : construct n g u = .ok s₀)
    (hne : ∀ table ∈ s₀.mixCounters, 0 < table.size) (hN : 1 ≤ N) (hu : u.toNat = N * g.toNat)
    (hops : Recordable g u ops) (hrun : ops.foldlM (Op.run hash) s₀ = .ok s)
    (hcut : Cut g u q q₁ q₂)
    (hpriv : ∀ node ∈ queried g u N q₁ ++ queried g u N q₂,
      HasPrivateRow hash N s₀ false (visited g u N ops) node)
    (hfit : 15 * (q.right g u - q.left g u) < 2 ^ 31) {f f₁ f₂ : Int32}
    (hf : frequency hash s q.unitId q.t q.size = .ok f)
    (hf₁ : frequency hash s q₁.unitId q₁.t q₁.size = .ok f₁)
    (hf₂ : frequency hash s q₂.unitId q₂.t q₂.size = .ok f₂) : f₁.toInt + f₂.toInt ≤ f.toInt := by
  have hlower := hcut.lower_pos
  have hupper := hcut.upper_pos
  have hleft := hcut.left_eq
  have hmid := hcut.cut_eq
  have hright := hcut.right_eq
  by_cases hrec : ∃ a, Op.record a ∈ ops
  · obtain ⟨a, ha⟩ := hrec
    obtain ⟨hin, hlr⟩ := hops a ha
    have hg : 0 < g.toNat := by
      obtain ⟨_, _, hacc, -⟩ := accepted_of_construct hs₀
      exact hacc.granularity_pos
    have hN31 : N ≤ 2 ^ 31 := by
      refine Nat.le_of_mul_le_mul_right ?_ hg
      rw [← hu]
      exact (Nat.le_add_left _ _).trans hin.2
    have hgeo : Geometry g u N := ⟨hg, hN, hu, room_of_record hs₀ hN31 hu ha hlr hrun⟩
    obtain ⟨p, hc₀⟩ := construct_counts hash hgeo hs₀ hne hN31
    obtain ⟨s', hrun', hc⟩ := run_counts hc₀ ops
    cases hrun.symm.trans hrun'
    have hsum := exactSum_add_le hc hops hc₀.ready.shape hcut hpriv
    have hcap := exactSum_le hash hc.ready (q := q) (by omega)
    rw [frequency_eq hash hc.ready (by omega), Except.ok.injEq] at hf
    rw [frequency_eq hash hc.ready hlower, Except.ok.injEq] at hf₁
    rw [frequency_eq hash hc.ready hupper, Except.ok.injEq] at hf₂
    rw [← hf, ← hf₁, ← hf₂, Int32.toInt_ofNat_of_lt (by omega), Int32.toInt_ofNat_of_lt (by omega),
      Int32.toInt_ofNat_of_lt (by omega)]
    omega
  · obtain ⟨hsized, hzero, hgran, hunit⟩ :=
      zero_of_no_record hs₀ hne (fun a ha => hrec ⟨a, ha⟩) hrun
    have hnone (r : Access) (hr : r.left g u < r.right g u)
        (hlen : r.right g u - r.left g u ≤ 2 ^ 29) {v : Int32}
        (hv : frequency hash s r.unitId r.t r.size = .ok v) : v = 0 := by
      obtain ⟨x, x', rfl, -, -, -, hx⟩ := frequency_halved hsized hzero
        (by rw [hgran, hunit]) (by rw [hgran, hunit]) hr hlen hv
      rw [Nat.zero_mul, Nat.le_zero] at hx
      rw [hx]
      rfl
    rw [hnone q (by omega) (by omega) hf, hnone q₁ hlower (by omega) hf₁,
      hnone q₂ hupper (by omega) hf₂]
    decide

theorem frequency_le (hs : Built g u s) (hne : ∀ table ∈ s.mixCounters, 0 < table.size)
    (hlr : q.left g u < q.right g u) (hfit : 15 * (q.right g u - q.left g u) < 2 ^ 31) {f : Int32}
    (hf : frequency hash s q.unitId q.t q.size = .ok f) :
    0 ≤ f.toInt ∧ f.toInt ≤ ((15 * (q.right g u - q.left g u) : Nat) : Int) ∧
      ∃ v, avgFrequency hash s q.unitId q.t q.size = .ok v ∧ 0 ≤ v.toInt ∧ v.toInt ≤ 15 := by
  have hsized := sized_of_built hs hne
  obtain ⟨n, p, levels, hacc, hlay⟩ := hs
  have hgran : s.granularity = g := hlay.granularity_eq
  have hunit : s.unitSize = u := hlay.unitSize_eq
  obtain ⟨x, x', rfl, -, -, -, hx⟩ := frequency_halved hsized (sketchCells_le s)
    (by rw [hgran, hunit]) (by rw [hgran, hunit]) hlr (by omega) hf
  have hlen : rightOf s q.t q.size - leftOf s q.t =
      Int32.ofNat (q.right g u - q.left g u) := by
    rw [Int32.ofNat_sub _ _ hlr.le, rightOf, leftOf, hgran, hunit]
    rfl
  have hne0 : Int32.ofNat (q.right g u - q.left g u) ≠ 0 := by
    intro h0
    have hi := congrArg Int32.toInt h0
    rw [Int32.toInt_ofNat_of_lt (by omega)] at hi
    have hz : (0 : Int32).toInt = 0 := rfl
    omega
  have hdiv : x / (q.right g u - q.left g u) ≤ 15 := by
    refine (Nat.div_le_div_right hx).trans ?_
    rw [Nat.mul_div_cancel _ (Nat.sub_pos_of_lt hlr)]
  refine ⟨?_, ?_, Int32.ofNat (x / (q.right g u - q.left g u)), ?_, ?_, ?_⟩
  · rw [Int32.toInt_ofNat_of_lt (by omega)]
    exact Int.natCast_nonneg x
  · rw [Int32.toInt_ofNat_of_lt (by omega)]
    omega
  · rw [avgFrequency, hf, hlen, Int32.ofNat_div (by omega) (by omega)]
    exact if_neg hne0
  · rw [Int32.toInt_ofNat_of_lt (by omega)]
    exact Int.natCast_nonneg _
  · rw [Int32.toInt_ofNat_of_lt (by omega)]
    omega

/-- Cutting a range in two never raises its estimate where the nodes of the parts have private
rows, and whatever the counters are an estimate is at most fifteen a granule, as long as fifteen a
granule is an `int`. -/
theorem splitting_never_raises (hash : UInt64 → UInt64 → UInt32) (hN : 1 ≤ N)
    (hu : u.toNat = N * g.toNat) :
    (∀ (n : Int32) (s₀ s : Sketch) (ops : List Op) (q q₁ q₂ : Access), construct n g u = .ok s₀ →
      (∀ table ∈ s₀.mixCounters, 0 < table.size) →
      Recordable g u ops → ops.foldlM (Op.run hash) s₀ = .ok s → Cut g u q q₁ q₂ →
      (∀ node ∈ queried g u N q₁ ++ queried g u N q₂,
        HasPrivateRow hash N s₀ false (visited g u N ops) node) →
      15 * (q.right g u - q.left g u) < 2 ^ 31 →
      ∀ f f₁ f₂, frequency hash s q.unitId q.t q.size = .ok f →
        frequency hash s q₁.unitId q₁.t q₁.size = .ok f₁ →
        frequency hash s q₂.unitId q₂.t q₂.size = .ok f₂ → f₁.toInt + f₂.toInt ≤ f.toInt) ∧
    (∀ (s : Sketch) (q : Access), Built g u s → (∀ table ∈ s.mixCounters, 0 < table.size) →
      q.left g u < q.right g u → 15 * (q.right g u - q.left g u) < 2 ^ 31 →
      (∀ f, frequency hash s q.unitId q.t q.size = .ok f →
        0 ≤ f.toInt ∧ f.toInt ≤ ((15 * (q.right g u - q.left g u) : Nat) : Int) ∧
        ∃ v, avgFrequency hash s q.unitId q.t q.size = .ok v ∧ 0 ≤ v.toInt ∧ v.toInt ≤ 15) ∧
      (u.toNat + g.toNat ≤ 2 ^ 64 → N < 2 ^ 31 →
        ∃ f, frequency hash s q.unitId q.t q.size = .ok f)) := by
  refine ⟨fun n s₀ s ops q q₁ q₂ hs₀ hne hops hrun hcut hpriv hfit f f₁ f₂ hf hf₁ hf₂ => ?_,
    fun s q hs hne hlr hfit => ⟨fun f hf => frequency_le hs hne hlr hfit hf,
      fun hroom hsmall => ?_⟩⟩
  · exact frequency_add_le hs₀ hne hN hu hops hrun hcut hpriv hfit hf hf₁ hf₂
  · have hg : 0 < g.toNat := by
      obtain ⟨_, _, _, hacc, -⟩ := id hs
      exact hacc.granularity_pos
    obtain ⟨p, hready⟩ := hs.ready ⟨hg, hN, hu, hroom⟩ hsmall hne
    exact ⟨_, frequency_eq hash hready hlr⟩

theorem cut_three : Cut 1 3 ⟨0, 3, 2⟩ ⟨0, 3, 1⟩ ⟨0, 4, 1⟩ := by
  constructor <;> decide

theorem splitting_never_raises_three :
    (∃ s f f₁ f₂, threeOps.foldlM (Op.run Detail.hash) (fresh 4 1 3 2 3) = .ok s ∧
      frequency Detail.hash s 0 3 2 = .ok f ∧ frequency Detail.hash s 0 3 1 = .ok f₁ ∧
      frequency Detail.hash s 0 4 1 = .ok f₂ ∧ f₁.toInt + f₂.toInt ≤ f.toInt) ∧
    ∃ v, avgFrequency Detail.hash fullSketch 0 3 2 = .ok v ∧ v.toInt ≤ 15 := by
  have hne : ∀ table ∈ (fresh 4 1 3 2 3).mixCounters, 0 < table.size :=
    nonempty_of_levels_le (by decide)
  obtain ⟨hadd, hcap⟩ := splitting_never_raises Detail.hash (g := 1) (u := 3) (N := 3) (by decide) rfl
  constructor
  · obtain ⟨p, hc₀⟩ := construct_counts Detail.hash (g := 1) (u := 3) (N := 3)
      ⟨by decide, by decide, rfl, by decide⟩ construct_three hne (by decide)
    obtain ⟨s, hrun, hc⟩ := run_counts hc₀ threeOps
    have hf := frequency_eq Detail.hash hc.ready (q := ⟨0, 3, 2⟩) (by decide)
    have hf₁ := frequency_eq Detail.hash hc.ready (q := ⟨0, 3, 1⟩) (by decide)
    have hf₂ := frequency_eq Detail.hash hc.ready (q := ⟨0, 4, 1⟩) (by decide)
    refine ⟨s, _, _, _, hrun, hf, hf₁, hf₂, ?_⟩
    exact hadd 4 _ s threeOps ⟨0, 3, 2⟩ ⟨0, 3, 1⟩ ⟨0, 4, 1⟩ construct_three hne recordable_three hrun
      cut_three (by decide +kernel) (by decide) _ _ _ hf hf₁ hf₂
  · obtain ⟨hle, hsome⟩ := hcap fullSketch ⟨0, 3, 2⟩ built_full (by decide +kernel) (by decide)
      (by decide)
    obtain ⟨f, hf⟩ := hsome (by decide) (by decide)
    obtain ⟨-, -, v, hv, -, hv15⟩ := hle f hf
    exact ⟨v, hv, hv15⟩

/-- The two granules in the middle of a unit of `2 ^ 28`. -/
def middleOps : List Op := List.replicate 15 (.record ⟨4, 134217727, 2⟩)

theorem recordable_middle : Recordable 1 268435456 middleOps := by
  intro a ha
  cases (List.mem_replicate.mp ha).2
  decide

theorem cut_middle :
    Cut 1 268435456 ⟨4, 0, 201326592⟩ ⟨4, 0, 134217728⟩ ⟨4, 134217728, 67108864⟩ := by
  constructor <;> decide

theorem middle_nodeRef {node : Node} (h0 : 4 = node.unitId) (h1 : 0 = node.unit)
    (hlo : node.seg.lo < 134217729) (hhi : 134217727 < node.seg.hi) :
    nodeRef 1 268435456 middleOps node = 15 := by
  have he : middleOps.map Op.event =
      (List.replicate 15 (Access.mk 4 134217727 2)).map Event.hit := rfl
  rw [nodeRef, he, aged_hits, List.map_replicate, if_pos ⟨h0, h1, hlo, hhi⟩]
  rfl

/-- No two of the nodes share a counter. -/
def Unshared (hash : UInt64 → UInt64 → UInt32) (p N : Nat) (nodes : List Node) : Prop :=
  ∀ node ∈ nodes, ∀ other ∈ nodes, other ≠ node →
    ∀ c ∈ nodeRows hash p N false other, c ∉ nodeRows hash p N false node

theorem unshared_middle :
    Unshared Detail.hash 28 268435456 (visited 1 268435456 268435456 middleOps) := by
  have hpairs : (visited 1 268435456 268435456 [.record ⟨4, 134217727, 2⟩]).Pairwise fun other node =>
      ∀ c ∈ nodeRows Detail.hash 28 268435456 false other,
        c ∉ nodeRows Detail.hash 28 268435456 false node := by decide +kernel
  have hsymm : Std.Symm fun other node : Node =>
      ∀ c ∈ nodeRows Detail.hash 28 268435456 false other,
        c ∉ nodeRows Detail.hash 28 268435456 false node := ⟨fun _ _ h c hc hc' => h c hc' hc⟩
  have hone := hpairs.forall
  have hmem : ∀ node ∈ visited 1 268435456 268435456 middleOps,
      node ∈ visited 1 268435456 268435456 [.record ⟨4, 134217727, 2⟩] := by
    intro node hnode
    obtain ⟨op, hop, hnode⟩ := List.mem_flatMap.mp hnode
    cases (List.mem_replicate.mp hop).2
    exact List.mem_flatMap.mpr ⟨_, List.mem_singleton_self _, hnode⟩
  exact fun node hnode other hother => hone (hmem other hother) (hmem node hnode)

theorem middle_sum {p : Nat} {s : Sketch}
    (h : Counts Detail.hash 1 268435456 268435456 p s (middleOps.map Op.event))
    (hs₀ : Shape p (Nat.clog 2 268435456 + 1) hugeSketch) {q : Access} {segs : List Seg}
    (hcover : queryCover 1 268435456 268435456 q = segs)
    (hlr : q.left 1 268435456 < q.right 1 268435456)
    (hpriv : ∀ node ∈ queried 1 268435456 268435456 q, HasPrivateRow Detail.hash 268435456
      hugeSketch false (visited 1 268435456 268435456 middleOps) node)
    (hid : 4 = q.unitId) (hunit : 0 = q.unit 268435456)
    (hsegs : ∀ seg ∈ segs, seg.lo < 134217729 ∧ 134217727 < seg.hi) :
    frequency Detail.hash s q.unitId q.t q.size =
      .ok (Int32.ofNat (weigh (fun _ => 15) segs)) := by
  rw [frequency_eq Detail.hash h.ready hlr, exactSum_eq_weigh h recordable_middle hs₀ hlr hpriv,
    hcover]
  have hall : weigh (fun seg => nodeRef 1 268435456 middleOps ⟨q.unitId, q.unit 268435456, seg⟩)
      segs = weigh (fun _ => 15) segs := by
    refine congrArg List.sum (List.map_congr_left fun seg hseg => ?_)
    obtain ⟨hlo, hhi⟩ := hsegs seg hseg
    have hnode : nodeRef 1 268435456 middleOps ⟨q.unitId, q.unit 268435456, seg⟩ = 15 :=
      middle_nodeRef hid hunit hlo hhi
    exact congrArg (· * seg.size) hnode
  rw [hall]

/-- A sum that is past the largest `int` is below zero, and below the sums of its parts. -/
theorem huge_sum_neg :
    (construct 268435456 1 268435456 = .ok hugeSketch ∧
      hugeAccess.right 1 268435456 < 268435456 ∧
      ∃ s f, (List.replicate 15 (.record hugeAccess)).foldlM (Op.run Detail.hash) hugeSketch =
          .ok s ∧ frequency Detail.hash s 0 0 268435455 = .ok f ∧ f.toInt < 0) ∧
    (Recordable 1 268435456 middleOps ∧
      Cut 1 268435456 ⟨4, 0, 201326592⟩ ⟨4, 0, 134217728⟩ ⟨4, 134217728, 67108864⟩ ∧
      Unshared Detail.hash 28 268435456 (visited 1 268435456 268435456 middleOps) ∧
      (∀ node ∈ queried 1 268435456 268435456 ⟨4, 0, 201326592⟩, HasPrivateRow Detail.hash 268435456
        hugeSketch false (visited 1 268435456 268435456 middleOps) node) ∧
      ∃ s f f₁ f₂, middleOps.foldlM (Op.run Detail.hash) hugeSketch = .ok s ∧
        frequency Detail.hash s 4 0 201326592 = .ok f ∧
        frequency Detail.hash s 4 0 134217728 = .ok f₁ ∧
        frequency Detail.hash s 4 134217728 67108864 = .ok f₂ ∧
        ¬ f₁.toInt + f₂.toInt ≤ f.toInt) := by
  obtain ⟨s, hrun, hf⟩ := huge_frequency Detail.hash
  refine ⟨⟨construct_huge, by decide, s, _, hrun, hf, ?_⟩, recordable_middle, cut_middle,
    unshared_middle, by decide +kernel, ?_⟩
  · rw [toInt_ofNat_ge (by decide) (by decide)]
    decide
  · obtain ⟨p, hc₀⟩ := construct_counts Detail.hash hugeGeometry construct_huge
      hugeSketch_nonempty (by decide)
    obtain ⟨s, hrun, hc⟩ := run_counts hc₀ middleOps
    have hs₀ := hc₀.ready.shape
    have hwhole : queryCover 1 268435456 268435456 ⟨4, 0, 201326592⟩ =
        [⟨27, 0, 134217728⟩, ⟨26, 134217728, 201326592⟩] := by decide +kernel
    have hlower : queryCover 1 268435456 268435456 ⟨4, 0, 134217728⟩ = [⟨27, 0, 134217728⟩] := by
      decide +kernel
    have hupper : queryCover 1 268435456 268435456 ⟨4, 134217728, 67108864⟩ =
        [⟨26, 134217728, 201326592⟩] := by decide +kernel
    refine ⟨s, _, _, _, hrun,
      middle_sum (q := ⟨4, 0, 201326592⟩) hc hs₀ hwhole (by decide) (by decide +kernel) rfl (by decide)
        (by decide),
      middle_sum (q := ⟨4, 0, 134217728⟩) hc hs₀ hlower (by decide) (by decide +kernel) rfl (by decide)
        (by decide),
      middle_sum (q := ⟨4, 134217728, 67108864⟩) hc hs₀ hupper (by decide) (by decide +kernel) rfl
        (by decide) (by decide), ?_⟩
    decide

end DistExp.IntervalSplitting
