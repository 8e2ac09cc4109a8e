import DistExp.GxjEstimates
import DistExp.RangeLevels

namespace DistExp.GxjMonotone

open DistExp.Library.MachineInt DistExp.Library.AgedCounter DistExp.Library.HalvingTree
open DistExp.Library.CallTree DistExp.Library.Runs
open DistExp.PackedTable DistExp.RangeSketch DistExp.RangeCounters DistExp.RangeGeometry
open DistExp.RangeCalls DistExp.ResetThreads DistExp.RangeRuns DistExp.RangeLevels
open DistExp.IntervalSketch (segRows estimate)
open DistExp.GxjSketch DistExp.GxjHistory DistExp.GxjEstimates

variable {hash : UInt64 → UInt64 → UInt32} {g u : UInt64} {N p : Nat} {s s' : Sketch} {q : Access}

section Query

theorem lazyEstimate_mono (h : ∀ c, sketchCells s c ≤ sketchCells s' c) (rows : Seg → List Cell)
    (parts : List (Seg × Nat)) : lazyEstimate s rows parts ≤ lazyEstimate s' rows parts :=
  List.sum_le_sum fun part _ => Nat.mul_le_mul_right part.2 (rowMin_mono h (rows part.1) intMax)

theorem estimate_mono (h : ∀ c, sketchCells s c ≤ sketchCells s' c) (rows : Seg → List Cell)
    (segs : List Seg) : estimate s rows segs ≤ estimate s' rows segs :=
  List.sum_le_sum fun seg _ => Nat.mul_le_mul_right seg.size (rowMin_mono h (rows seg) intMax)

theorem querySum_mono (h : ∀ c, sketchCells s c ≤ sketchCells s' c) (q : Access) :
    querySum hash g u N p s q ≤ querySum hash g u N p s' q :=
  Nat.add_le_add (lazyEstimate_mono h _ _) (estimate_mono h _ _)

theorem querySum_le (hash : UInt64 → UInt64 → UInt32) (hgeo : Geometry g u N) (s : Sketch)
    (hlr : q.left g u < q.right g u) :
    querySum hash g u N p s q ≤ 15 * ((Nat.clog 2 N + 2) * (q.right g u - q.left g u)) := by
  have hfits := hgeo.fits
  have hr := (hgeo.right_lt q).le
  have hparts := sum_descent_le hfits (Nat.zero_le _) hlr hr
  have hsize := sum_size_cover hfits (Nat.zero_le _) hlr hr
  have hlazy : lazyEstimate s (fun seg => nodeRows hash p N true ⟨q.unitId, q.unit u, seg⟩)
      (descent (Nat.clog 2 N + 1) (q.left g u) (q.right g u) 0 N) ≤
      15 * ((Nat.clog 2 N + 1) * (q.right g u - q.left g u)) := by
    refine le_trans ?_ (Nat.mul_le_mul_left 15 hparts)
    rw [lazyEstimate, ← List.sum_map_mul_left]
    exact List.sum_le_sum fun part _ =>
      Nat.mul_le_mul_right part.2 (rowMin_nodeRows_le hash p N s true _)
  have hdyadic : estimate s (fun seg => nodeRows hash p N false ⟨q.unitId, q.unit u, seg⟩)
      (cover (Nat.clog 2 N + 1) (q.left g u) (q.right g u) 0 N) ≤
      15 * (q.right g u - q.left g u) := by
    rw [← hsize, estimate, ← List.sum_map_mul_left]
    exact List.sum_le_sum fun seg _ =>
      Nat.mul_le_mul_right seg.size (rowMin_nodeRows_le hash p N s false _)
  calc querySum hash g u N p s q
      ≤ 15 * ((Nat.clog 2 N + 1) * (q.right g u - q.left g u)) +
          15 * (q.right g u - q.left g u) := Nat.add_le_add hlazy hdyadic
    _ = 15 * ((Nat.clog 2 N + 2) * (q.right g u - q.left g u)) := by ring

theorem innerFrequency_inverted {fuel d levels l b : Nat} (hd : d ≤ fuel) (hf : Fits d 0 b)
    (hlv : d ≤ levels) (hs : Shape p levels s) (hl : l < b) (hb : b < 2 ^ 31) (unitId : UInt64)
    (base : Int32) :
    innerFrequency hash fuel s unitId base (Int32.ofNat l) (Int32.ofNat 0) (Int32.ofNat 0)
      (Int32.ofNat b) (Int32.ofNat d) =
      .ok (Int32.ofNat ((leftSpine d l b).map fun seg =>
        rowMin intMax (sketchCells s) (segRows hash p unitId base true seg)).sum *
          (Int32.ofNat 0 - Int32.ofNat l)) := by
  induction d generalizing fuel b with
  | zero => exact absurd hf.2.2 (Nat.lt_irrefl 0)
  | succ d ih =>
    obtain ⟨fuel, rfl⟩ : ∃ f, fuel = f + 1 := ⟨fuel - 1, by omega⟩
    have hi := halvingStep hf.1 (Nat.zero_le l) (Nat.zero_le b) (by omega) hb
    rw [innerFrequency, if_neg hi.guard, ofNat_succ_sub_one, getLazyAddCnt_eq hs hlv]
    simp only [hi.whole, bind, Except.bind]
    rw [if_neg (by omega), hi.middle, hi.lowStop, hi.highStart]
    simp only [hi.low, hi.high, Nat.not_lt_zero, if_false, Nat.min_zero, leftSpine, List.map_cons,
      List.sum_cons]
    by_cases hm : l < mid 0 b
    · have hone : b ≠ 0 + 1 := by
        rintro rfl
        exact Nat.not_lt_zero l hm
      obtain ⟨-, hmb⟩ := hf.mid_bounds hone
      rw [if_pos hm, if_pos hm, ih (by omega) (hf.left hone) (by omega) hm (by omega)]
      simp only [pure, Except.pure, Int32.ofNat_add, Int32.add_zero, Int32.add_mul]
      rfl
    · rw [if_neg hm, if_neg hm]
      simp only [pure, Except.pure, Int32.add_zero, List.map_nil, List.sum_nil, Nat.add_zero]
      rfl

def spineSum (hash : UInt64 → UInt64 → UInt32) (g u : UInt64) (N p : Nat) (s : Sketch)
    (q : Access) : Nat :=
  ((leftSpine (Nat.clog 2 N + 1) (q.left g u) N).map fun seg =>
    rowMin intMax (sketchCells s) (nodeRows hash p N true ⟨q.unitId, q.unit u, seg⟩)).sum

theorem spineSum_le (hash : UInt64 → UInt64 → UInt32) (u : UInt64) (N p : Nat) (s : Sketch) :
    spineSum hash g u N p s q ≤ 15 * (Nat.clog 2 N + 1) := by
  have hlen := leftSpine_length_le (d := Nat.clog 2 N + 1) (l := q.left g u) (b := N)
  refine (List.sum_le_card_nsmul _ 15 ?_).trans ?_
  · intro x hx
    obtain ⟨seg, -, rfl⟩ := List.mem_map.mp hx
    exact rowMin_nodeRows_le hash p N s true _
  · rw [List.length_map, smul_eq_mul, Nat.mul_comm]
    exact Nat.mul_le_mul_left 15 hlen

theorem frequency_inverted (hash : UInt64 → UInt64 → UInt32) (h : Ready g u N p s)
    (hright : q.right g u = 0) :
    frequency hash s q.unitId q.t q.size = .ok (Int32.ofNat (spineSum hash g u N p s q) *
      (Int32.ofNat 0 - Int32.ofNat (q.left g u))) := by
  rw [frequency, h.baseOf_eq, h.leftOf_eq, h.rightOf_eq, h.stop_eq, h.shape.level_eq, hright]
  exact innerFrequency_inverted h.levels_le h.geometry.fits le_rfl h.shape
    (h.geometry.left_lt q) h.small q.unitId (unitBase N (q.unit u))

end Query

section Record

/-- What an access does to a sketch: it lowers no counter, and it leaves the lazy counters of the
roots as they are. -/
structure Grown (g u : UInt64) (N p : Nat) (s s' : Sketch) : Prop where
  ready : Ready g u N p s'
  grow : ∀ c, sketchCells s c ≤ sketchCells s' c
  roots : ∀ w (f : Fin 16), 8 ≤ f.val →
    sketchCells s' (Nat.clog 2 N, w, f) = sketchCells s (Nat.clog 2 N, w, f)

theorem field_lt_of_mem_rowsAt {level w : Nat} {f : Fin 16} {hash : UInt32}
    (h : (level, w, f) ∈ rowsAt p level hash false) : f.val < 8 := by
  obtain ⟨j, hj⟩ := mem_rowsAt.mp h
  obtain ⟨-, hcell⟩ := Prod.mk.inj hj
  obtain ⟨-, rfl⟩ := Prod.mk.inj hcell
  have hj := j.isLt
  change 4 * (hash.toNat % 2) + j.val + 0 < 8
  omega

theorem Grown.raise (h : Grown g u N p s s') {s'' : Sketch} (hready : Ready g u N p s'')
    {level : Nat} {hash : UInt32} {isLazy : Bool}
    (hcells : sketchCells s'' = raiseAll 15 (sketchCells s') (rowsAt p level hash isLazy))
    (hroot : level = Nat.clog 2 N → isLazy = false) : Grown g u N p s s'' where
  ready := hready
  grow c := by
    rw [hcells]
    exact (h.grow c).trans (le_raiseAll 15 _ _ c (sketchCells_le s' c))
  roots w f hf := by
    rw [hcells, raiseAll_of_not_mem 15 _ _ (sketchCells_le s' _), h.roots w f hf]
    intro hm
    obtain ⟨j, hj⟩ := mem_rowsAt.mp hm
    have hlevel : level = Nat.clog 2 N := (congrArg Prod.fst hj).symm
    subst hlevel
    rw [hroot rfl] at hm
    exact absurd (field_lt_of_mem_rowsAt hm) (by omega)

theorem Grown.mark (h : Grown g u N p s s') {unitId : UInt64} {base : Int32} {c : Call}
    {level : Nat} (ha : c.Asserted) (hlevel : c.upperLevel - 1 = Int32.ofNat level)
    (hl : level < Nat.clog 2 N + 1) (hroot : level = Nat.clog 2 N → ¬ c.Whole) :
    ∃ s'', gxjMark hash unitId base s' c = .ok s'' ∧ Grown g u N p s s'' := by
  rw [gxjMark, if_neg (not_not_intro ha), hlevel]
  by_cases hw : c.Whole
  · rw [if_pos hw]
    obtain ⟨s'', hinc, hshape, hframe, hcells⟩ := incLazyAddCnt_eq hash h.ready.shape hl unitId base
      c.start c.stop
    exact ⟨s'', hinc, h.raise (h.ready.of_frame hshape hframe) hcells fun he => absurd hw (hroot he)⟩
  · rw [if_neg hw]
    split
    · obtain ⟨s'', hinc, hshape, hframe, hcells⟩ := incDyadicCnt_eq hash h.ready.shape hl unitId
        base c.start c.stop
      exact ⟨s'', hinc, h.raise (h.ready.of_frame hshape hframe) hcells fun _ => rfl⟩
    · exact ⟨s', rfl, h⟩

theorem rootCall_not_whole (h : Ready g u N p s) (a : Access) : ¬ (rootCall s a.t a.size).Whole := by
  rintro ⟨-, hright⟩
  have hlt := h.geometry.right_lt a
  have hN := h.small
  change rightOf s a.t a.size = toInt (granules s) at hright
  rw [h.rightOf_eq, h.stop_eq, ofNat_inj (by omega) hN] at hright
  omega

theorem recordAccess_grown (hash : UInt64 → UInt64 → UInt32) (h : Ready g u N p s) (a : Access) :
    ∃ s', recordAccess hash s a.unitId a.t a.size = .ok s' ∧ Grown g u N p s s' := by
  have hrefl : Grown g u N p s s := ⟨h, fun _ => le_rfl, fun _ _ _ => rfl⟩
  rw [gxj_recordAccess_eq]
  split
  · exact ⟨s, rfl, hrefl⟩
  · have hroot := ready_rootCall_inTree h a.t a.size
    refine visit_succeeds hroot.within h.levels_le (fun n c hm s' hs' => ?_)
      ⟨h.setRefCnt (s.refCnt + 1), fun _ => le_rfl, fun _ _ _ => rfl⟩
    obtain ⟨hn, htree, hup⟩ := hroot.made hm
    have hlevel : c.upperLevel - 1 = Int32.ofNat (Nat.clog 2 N + 1 - n - 1) := by
      rw [hup, ← ofNat_sub_sub_one hn, ← h.shape.level_eq]
      rfl
    refine hs'.mark htree.asserted hlevel (by omega) fun hl => ?_
    -- the root is the only call on its level
    obtain rfl : n = 0 := by omega
    obtain rfl : c = rootCall s a.t a.size := by
      cases hm
      rfl
    exact rootCall_not_whole h a

end Record

def RootsClear (N : Nat) (s : Sketch) : Prop :=
  ∀ w (f : Fin 16), 8 ≤ f.val → sketchCells s (Nat.clog 2 N, w, f) = 0

theorem rootsClear_of_reached (hreach : Reached hash .gxj g u s) (hgeo : Geometry g u N)
    (hN : N < 2 ^ 31) (hne : ∀ table ∈ s.mixCounters, 0 < table.size) : RootsClear N s := by
  refine (hreach.induction (P := fun s => (∀ table ∈ s.mixCounters, 0 < table.size) →
    RootsClear N s) ?_ ?_ ?_ ?_).2 hne
  · intro n s hs _ w f _
    obtain ⟨p, levels, -, rfl⟩ := accepted_of_construct hs
    rw [sketchCells_fresh rfl]
  · intro s s' unitId t size hbuilt hclear hrec hne' w f hf
    have hne := (recordAccess_sameLayout hrec).nonempty hne'
    obtain ⟨p, hready⟩ := hbuilt.ready hgeo hN hne
    obtain ⟨s'', hrec', hgrown⟩ := recordAccess_grown hash hready ⟨unitId, t, size⟩
    obtain rfl : s'' = s' := Except.ok.inj (hrec'.symm.trans hrec)
    rw [hgrown.roots w f hf, hclear hne w f hf]
  · intro s hclear hne w f hf
    have hzero := hclear ((reset_sameLayout s).nonempty hne) w f hf
    rw [sketchCells_reset, halveAll, hzero]
  · exact fun s flag hclear hne => hclear hne

def NeverLowered (hash : UInt64 → UInt64 → UInt32) (s : Sketch) (q : Access) : Prop :=
  ∃ f, frequency hash s q.unitId q.t q.size = .ok f ∧ 0 ≤ f.toInt ∧ ∀ a : Access,
    ∃ s' f', recordAccess hash s a.unitId a.t a.size = .ok s' ∧
      frequency hash s' q.unitId q.t q.size = .ok f' ∧ f.toInt ≤ f'.toInt

theorem neverLowered_of_lt (hash : UInt64 → UInt64 → UInt32) (h : Ready g u N p s)
    (hlr : q.left g u < q.right g u)
    (hfit : 15 * ((Nat.clog 2 N + 2) * (q.right g u - q.left g u)) < 2 ^ 31) :
    NeverLowered hash s q := by
  have hle := querySum_le (p := p) hash h.geometry s hlr
  refine ⟨_, frequency_eq hash h hlr, ?_, fun a => ?_⟩
  · rw [Int32.toInt_ofNat_of_lt (by omega)]
    exact Int.natCast_nonneg _
  · obtain ⟨s', hrec, hgrown⟩ := recordAccess_grown hash h a
    have hle' := querySum_le (p := p) hash h.geometry s' hlr
    refine ⟨s', _, hrec, frequency_eq hash hgrown.ready hlr, ?_⟩
    rw [Int32.toInt_ofNat_of_lt (by omega), Int32.toInt_ofNat_of_lt (by omega)]
    exact Int.ofNat_le.mpr (querySum_mono hgrown.grow q)

theorem frequency_inverted_zero (hash : UInt64 → UInt64 → UInt32) (h : Ready g u N p s)
    (hclear : RootsClear N s) (hright : q.right g u = 0)
    (hleft : q.left g u = 0 ∨ N / 2 ≤ q.left g u) :
    frequency hash s q.unitId q.t q.size = .ok 0 := by
  rw [frequency_inverted hash h hright]
  obtain h0 | hhalf := hleft
  · rw [h0, Int32.sub_self, Int32.mul_zero]
  · have hmid : ¬ q.left g u < mid 0 N := by
      rw [mid, Nat.sub_zero, Nat.zero_add]
      omega
    have hcell : (Nat.clog 2 N, MixTable.cellOf (p - Nat.clog 2 N)
        (hash q.unitId (toSize (unitBase N (q.unit u) + Int32.ofNat 0))) true 0) ∈
        nodeRows hash p N true ⟨q.unitId, q.unit u, ⟨Nat.clog 2 N, 0, N⟩⟩ :=
      mem_rowsAt.mpr ⟨0, rfl⟩
    have hzero : spineSum hash g u N p s q = 0 := by
      rw [spineSum, leftSpine, if_neg hmid, List.map_singleton, List.sum_singleton]
      refine Nat.le_zero.mp ((rowMin_le _ _ intMax hcell).trans (hclear _ _ ?_).le)
      exact Nat.le_add_left 8 _
    rw [hzero]
    exact congrArg Except.ok (Int32.zero_mul)

section LeftHalf

def leftHalf (g u : UInt64) (N : Nat) (q : Access) : Access :=
  ⟨q.unitId, q.t / u * u, UInt64.ofNat (N / 2 * g.toNat)⟩

theorem leftHalf_t : (leftHalf g u N q).t.toNat = q.t.toNat / u.toNat * u.toNat := by
  rw [leftHalf, UInt64.toNat_mul, UInt64.toNat_div]
  exact Nat.mod_eq_of_lt ((Nat.div_mul_le_self _ _).trans_lt q.t.toNat_lt)

theorem leftHalf_left : (leftHalf g u N q).left g u = 0 := by
  rw [Access.left_eq, leftHalf_t, Nat.mul_mod_left, Nat.zero_div]

variable (hgeo : Geometry g u N)

include hgeo

theorem half_lt : N / 2 * g.toNat < u.toNat := by
  have hN := hgeo.granules_pos
  rw [hgeo.unitSize_eq]
  exact (Nat.mul_lt_mul_right hgeo.granularity_pos).mpr (by omega)

theorem leftHalf_size : (leftHalf g u N q).size.toNat = N / 2 * g.toNat :=
  UInt64.toNat_ofNat_of_lt' ((half_lt hgeo).trans u.toNat_lt)

theorem leftHalf_unit : (leftHalf g u N q).unit u = q.unit u := by
  apply UInt64.toNat_inj.mp
  rw [Access.unit, Access.unit, UInt64.toNat_div, UInt64.toNat_div, leftHalf_t,
    Nat.mul_div_cancel _ hgeo.unitSize_pos]

theorem leftHalf_right (hend : q.t.toNat / u.toNat * u.toNat + u.toNat ≤ 2 ^ 64) :
    (leftHalf g u N q).right g u = N / 2 := by
  have ht := leftHalf_t (g := g) (u := u) (N := N) (q := q)
  have hs := leftHalf_size hgeo (q := q)
  have hlt := half_lt hgeo
  have hmod : (leftHalf g u N q).t.toNat % u.toNat = 0 := by rw [ht, Nat.mul_mod_left]
  rw [Access.right_of_lt (by omega) (by omega), hmod, hs, Nat.zero_add,
    Nat.mul_div_cancel _ hgeo.granularity_pos]

end LeftHalf

theorem frequency_negative (h : Marked hash g u N p s []) (hright : q.right g u = 0)
    (hpos : 0 < q.left g u) (hhalf : q.left g u < N / 2)
    (hend : q.t.toNat / u.toNat * u.toNat + u.toNat ≤ 2 ^ 64)
    (hfit : 15 * ((Nat.clog 2 N + 1) * q.left g u) < 2 ^ 31) :
    ∃ s' f, recordAccess hash s q.unitId (leftHalf g u N q).t (leftHalf g u N q).size = .ok s' ∧
      frequency hash s' q.unitId q.t q.size = .ok f ∧ f.toInt < 0 := by
  have hgeo := h.ready.geometry
  have hl := leftHalf_left (g := g) (u := u) (N := N) (q := q)
  have hr := leftHalf_right hgeo hend
  obtain ⟨s', hrec, hm⟩ := h.record (a := leftHalf g u N q) (by omega)
  refine ⟨s', _, hrec, frequency_inverted hash hm.ready hright, ?_⟩
  obtain ⟨k, hk⟩ : ∃ k, Nat.clog 2 N = k + 1 :=
    ⟨Nat.clog 2 N - 1, by have := Nat.clog_pos (b := 2) (n := N) (by decide) (by omega); omega⟩
  have hmid : mid 0 N = N / 2 := by rw [mid, Nat.sub_zero, Nat.zero_add]
  -- the access leaves a lazy mark on the lower half
  have hmark : ((⟨q.unitId, q.unit u, ⟨k, 0, N / 2⟩⟩, true) : Node × Bool) ∈
      nodeMarks g u N (leftHalf g u N q, s.refCnt + 1) := by
    rw [mem_nodeMarks, mem_marks_true]
    refine ⟨rfl, leftHalf_unit hgeo, ?_⟩
    dsimp only
    rw [hl, hr, hk, cover, if_neg (by omega), hmid, if_pos (by omega), Nat.min_self, cover,
      if_pos ⟨rfl, rfl⟩]
    exact List.mem_append_left _ (List.mem_singleton_self _)
  have hcount : 1 ≤ rowMin intMax (sketchCells s')
      (nodeRows hash p N true ⟨q.unitId, q.unit u, ⟨k, 0, N / 2⟩⟩) := by
    have hle := present_le_rowMin 15 (nodeMarks g u N) (keyRows hash p N)
      (show 15 ≤ intMax by decide) [Event.hit (leftHalf g u N q, s.refCnt + 1)]
      (⟨q.unitId, q.unit u, ⟨k, 0, N / 2⟩⟩, true)
    rw [hm.sketchCells_eq]
    refine le_trans ?_ hle
    rw [aged, List.foldl_cons, List.foldl_nil, Library.AgedCounter.step, present, if_pos hmark]
    decide
  have hlow : 1 ≤ spineSum hash g u N p s' q := by
    rw [spineSum, hk, leftSpine, hmid, if_pos hhalf, leftSpine, List.map_cons, List.map_cons,
      List.sum_cons, List.sum_cons]
    omega
  have hprod : spineSum hash g u N p s' q * q.left g u < 2 ^ 31 := by
    have hupp := Nat.mul_le_mul_right (q.left g u) (spineSum_le (q := q) (g := g) hash u N p s')
    rw [Nat.mul_assoc] at hupp
    exact hupp.trans_lt hfit
  rw [toInt_ofNat_mul_neg hprod]
  have hprodpos := Nat.mul_pos hlow hpos
  omega

/-- A query is never negative nor lowered by an access exactly when it ends in front of the end of
its unit, or else starts with the unit or in its upper half. -/
theorem never_lowered_iff (hash : UInt64 → UInt64 → UInt32) {n : Int32} {s₀ : Sketch}
    (hs₀ : construct n g u = .ok s₀) (hne₀ : ∀ table ∈ s₀.mixCounters, 0 < table.size)
    (hgeo : Geometry g u N) (hN : N < 2 ^ 31) (hq : q.Aligned g)
    (hin : q.t.toNat % u.toNat + q.size.toNat ≤ u.toNat)
    (hend : q.t.toNat + q.size.toNat < 2 ^ 64)
    (hfit : 15 * ((Nat.clog 2 N + 2) * (q.size.toNat / g.toNat)) < 2 ^ 31) :
    (∀ s, Reached hash .gxj g u s → (∀ table ∈ s.mixCounters, 0 < table.size) →
      NeverLowered hash s q) ↔
    (q.t.toNat % u.toNat + q.size.toNat < u.toNat ∨ q.left g u = 0 ∨ N / 2 ≤ q.left g u) := by
  have hlast (hlt : ¬ q.t.toNat % u.toNat + q.size.toNat < u.toNat) :
      q.t.toNat % u.toNat + q.size.toNat = u.toNat := le_antisymm hin (not_lt.mp hlt)
  have hpos := hq.granules_pos hgeo.granularity_pos
  constructor
  · intro hall
    by_contra hcond
    simp only [not_or, not_le] at hcond
    obtain ⟨hlt, hleft, hhalf⟩ := hcond
    have heq := hlast hlt
    have hright := Access.right_of_end (g := g) hend.le heq
    obtain ⟨p, hmarked⟩ := construct_marked hash hgeo hs₀ hne₀ hN.le
    have hunit : q.t.toNat / u.toNat * u.toNat + u.toNat ≤ 2 ^ 64 := by
      have hdm := Nat.div_add_mod' q.t.toNat u.toNat
      omega
    -- the granules of the query are those from its start to the end of the unit
    have hsize : q.left g u + q.size.toNat / g.toNat = N := by
      rw [Access.left_eq, ← Nat.add_div_of_dvd_left hq.length, heq, hgeo.unitSize_eq,
        Nat.mul_div_cancel _ hgeo.granularity_pos]
    have hsmall : 15 * ((Nat.clog 2 N + 1) * q.left g u) < 2 ^ 31 := by
      refine lt_of_le_of_lt (Nat.mul_le_mul_left 15 ?_) hfit
      exact Nat.mul_le_mul (by omega) (by omega)
    obtain ⟨s', f, hrec, hf, hneg⟩ := frequency_negative hmarked hright (Nat.pos_of_ne_zero hleft)
      hhalf hunit hsmall
    have hreach := (reached_of_construct hash .gxj hs₀).record hrec
    have hne := (@recordAccess_sameLayout _ _ _ .gxj _ _ _ hrec).symm.nonempty hne₀
    obtain ⟨f', hf', h0, -⟩ := hall s' hreach hne
    obtain rfl : f' = f := Except.ok.inj (hf'.symm.trans hf)
    omega
  · intro hcond s hreach hne
    obtain ⟨p, hready⟩ := hreach.built.ready hgeo hN hne
    by_cases hlt : q.t.toNat % u.toNat + q.size.toNat < u.toNat
    · have hright := hq.right_eq hend hlt
      have hsize : q.right g u - q.left g u = q.size.toNat / g.toNat := by omega
      exact neverLowered_of_lt hash hready (by omega) (by rw [hsize]; exact hfit)
    · have hright := Access.right_of_end (g := g) hend.le (hlast hlt)
      have hleft := hcond.resolve_left hlt
      have hclear := rootsClear_of_reached hreach hgeo hN hne
      refine ⟨0, frequency_inverted_zero hash hready hclear hright hleft, le_rfl, fun a => ?_⟩
      obtain ⟨s', hrec, hgrown⟩ := recordAccess_grown hash hready a
      have hclear' : RootsClear N s' := fun w f hf => (hgrown.roots w f hf).trans (hclear w f hf)
      exact ⟨s', 0, hrec, frequency_inverted_zero hash hgrown.ready hclear' hright hleft, le_rfl⟩

theorem never_lowered_iff_three : construct 4 1 3 = .ok (fresh 4 1 3 2 3) ∧
    NeverLowered Detail.hash (fresh 4 1 3 2 3) ⟨0, 3, 2⟩ :=
  ⟨construct_three, (never_lowered_iff (N := 3) (q := ⟨0, 3, 2⟩) Detail.hash construct_three
    (nonempty_of_levels_le (by decide)) ⟨by decide, by decide, rfl, by decide⟩ (by decide)
    ⟨by decide, by decide, by decide⟩ (by decide) (by decide) (by decide)).mpr (Or.inl (by decide))
    _ (reached_of_construct Detail.hash .gxj construct_three) (nonempty_of_levels_le (by decide))⟩

/-- In a unit of four granules the first two are accessed. A query of the last three is then
negative. -/
theorem query_negative : construct 4 1 4 = .ok (fresh 4 1 4 2 3) ∧
    (∀ table ∈ (fresh 4 1 4 2 3).mixCounters, 0 < table.size) ∧
    Access.Aligned 1 ⟨0, 1, 3⟩ ∧ 1 % 4 + 3 ≤ 4 ∧
    ∃ s', recordAccess Detail.hash (fresh 4 1 4 2 3) 0 0 2 = .ok s' ∧
      Reached Detail.hash .gxj 1 4 s' ∧ frequency Detail.hash s' 0 1 3 = .ok (-1) ∧
      ¬ NeverLowered Detail.hash s' ⟨0, 1, 3⟩ := by
  have hrun : (recordAccess Detail.hash (fresh 4 1 4 2 3) 0 0 2 >>=
      fun s' => frequency Detail.hash s' 0 1 3) = .ok (-1) := by decide +kernel
  obtain ⟨s', hrec, hf⟩ := exists_of_bind_ok hrun
  refine ⟨construct_four, nonempty_of_levels_le (by decide), ⟨by decide, by decide, by decide⟩,
    by decide, s', hrec, (reached_of_construct Detail.hash .gxj construct_four).record hrec, hf, ?_⟩
  rintro ⟨f, hf', h0, -⟩
  obtain rfl : f = -1 := Except.ok.inj (hf'.symm.trans hf)
  exact absurd h0 (by decide)

end DistExp.GxjMonotone
