import DistExp.GxjMonotone

namespace DistExp.SampledRate

open DistExp.Library.MachineInt DistExp.Library.HalvingTree DistExp.Library.CallTree
open DistExp.Library.Runs
open DistExp.PackedTable DistExp.RangeSketch DistExp.RangeCounters DistExp.RangeGeometry
open DistExp.RangeCalls DistExp.ResetThreads DistExp.RangeRuns DistExp.RangeLevels
open DistExp.GxjSketch DistExp.GxjMonotone

/-- A call of the record recursion goes on to `inc_dyadic_cnt`. -/
def Adds (s : Sketch) (c : Call) : Prop :=
  c.Asserted ∧ ¬ c.Whole ∧ tryEstAdd s c.left c.right c.start c.stop = true

instance (s : Sketch) (c : Call) : Decidable (Adds s c) := inferInstanceAs (Decidable (_ ∧ _))

def AtNode (seg : Seg) (c : Call) : Prop :=
  c.start = Int32.ofNat seg.lo ∧ c.stop = Int32.ofNat seg.hi

instance (seg : Seg) (c : Call) : Decidable (AtNode seg c) := inferInstanceAs (Decidable (_ ∧ _))

/-- How often a call and those below it go on to `inc_dyadic_cnt` for a node. -/
def callsBelow (s : Sketch) (seg : Seg) (fuel : Nat) (c : Call) : Nat :=
  (trace Recursion.gxjRecord.calls fuel c).countP fun c => Adds s c ∧ AtNode seg c

/-- How often an access calls `inc_dyadic_cnt` for a node of its unit. -/
def dyadicCalls (s : Sketch) (a : Access) (seg : Seg) : Nat :=
  if s.doingReset then 0
  else callsBelow { s with refCnt := s.refCnt + 1 } seg fuel (rootCall s a.t a.size)

def windowCalls (hash : UInt64 → UInt64 → UInt32) (seg : Seg) :
    Sketch → List Access → Except Fault Nat
  | _, [] => .ok 0
  | s, a :: ops => do
    let s' ← recordAccess hash s a.unitId a.t a.size
    let calls ← windowCalls hash seg s' ops
    return dyadicCalls s a seg + calls

def overlap (g u : UInt64) (a : Access) (seg : Seg) : Nat :=
  min ((a.t.toNat % u.toNat + a.size.toNat) / g.toNat) seg.hi - max (a.left g u) seg.lo

def EndsInside (u : UInt64) (a : Access) : Prop :=
  a.t.toNat % u.toNat + a.size.toNat < u.toNat ∧ a.t.toNat + a.size.toNat < 2 ^ 64

instance (u : UInt64) (a : Access) : Decidable (EndsInside u a) :=
  inferInstanceAs (Decidable (_ ∧ _))

/-- An access of a unit that overlaps a node in so many granules. -/
structure Overlaps (g u unitId unit : UInt64) (seg : Seg) (L : Nat) (a : Access) : Prop where
  unitId_eq : a.unitId = unitId
  unit_eq : a.unit u = unit
  within : a.t.toNat % u.toNat + a.size.toNat ≤ u.toNat
  room : a.t.toNat + a.size.toNat ≤ 2 ^ 64
  overlap_eq : overlap g u a seg = L

variable {hash : UInt64 → UInt64 → UInt32} {g u : UInt64} {N p d l r a b fuel : Nat} {s : Sketch}
  {seg : Seg}

section Sample

theorem size_of_mem_nodes {k : Nat} (hd : b - a = 2 ^ k) (hab : a < b) (hseg : seg ∈ nodes d a b) :
    ∃ j ≤ k, seg.size = 2 ^ j := by
  induction d generalizing a b k with
  | zero => cases hseg
  | succ d ih =>
    rw [nodes, List.mem_cons] at hseg
    obtain rfl | hseg := hseg
    · exact ⟨k, le_rfl, hd⟩
    · cases k with
      | zero =>
        rw [if_pos (by omega)] at hseg
        cases hseg
      | succ k =>
        have hpos := Nat.two_pow_pos k
        rw [Nat.pow_succ] at hd
        have hmid : mid a b = a + 2 ^ k := by
          unfold mid
          omega
        rw [if_neg (by omega), hmid, List.mem_append] at hseg
        obtain hseg | hseg := hseg
        · obtain ⟨j, hj, hsize⟩ := ih (k := k) (by omega) (by omega) hseg
          exact ⟨j, by omega, hsize⟩
        · obtain ⟨j, hj, hsize⟩ := ih (k := k) (by omega) (by omega) hseg
          exact ⟨j, by omega, hsize⟩

theorem addsAt_iff {refCnt : Int32} {j : Nat} (hj : j ≤ 30) (hb : b = a + 2 ^ j) (hlr : l ≤ r)
    (hr : r - l < 2 ^ 31) :
    addsAt refCnt l r a b = true ↔ refCnt.toUInt32.toNat % 2 ^ j < r - l := by
  have hpow : 2 ^ j ≤ 2 ^ 30 := Nat.pow_le_pow_right (by decide) hj
  have hpos := Nat.two_pow_pos j
  have hmask : Int32.ofNat b - Int32.ofNat a - 1 = Int32.ofNat (2 ^ j - 1) := by
    rw [Int32.ofNat_sub _ 1 hpos, ← Nat.add_sub_cancel_left (n := a) (m := 2 ^ j), ← hb,
      Int32.ofNat_sub _ a (by omega)]
    rfl
  have hrand : (refCnt.toUInt32 &&& (Int32.ofNat (2 ^ j - 1)).toUInt32).toInt32 =
      Int32.ofNat (refCnt.toUInt32.toNat % 2 ^ j) := by
    have hnat : (refCnt.toUInt32 &&& (Int32.ofNat (2 ^ j - 1)).toUInt32).toNat =
        refCnt.toUInt32.toNat % 2 ^ j := by
      have hm : (Int32.ofNat (2 ^ j - 1)).toUInt32.toNat = 2 ^ j - 1 :=
        UInt32.toNat_ofNat_of_lt' (show _ < 2 ^ 32 by omega)
      rw [UInt32.toNat_and, hm, Nat.and_two_pow_sub_one_eq_mod]
    rw [← hnat]
    exact (congrArg UInt32.toInt32 UInt32.ofNat_toNat).symm
  have hlt : refCnt.toUInt32.toNat % 2 ^ j < 2 ^ j := Nat.mod_lt _ hpos
  rw [addsAt, decide_eq_true_eq, hmask, hrand, ← Int32.ofNat_sub _ _ hlr]
  exact Int32.ofNat_lt_iff_lt (by omega) hr

theorem addsAt_of_le {refCnt : Int32} (hab : a < b) (hb : b < 2 ^ 31) (hrl : r ≤ l)
    (hl : l < 2 ^ 31) : addsAt refCnt l r a b = false := by
  have hmask : Int32.ofNat b - Int32.ofNat a - 1 = Int32.ofNat (b - a - 1) :=
    ofNat_sub_sub_one hab
  have hm : (Int32.ofNat (b - a - 1)).toUInt32.toNat = b - a - 1 :=
    UInt32.toNat_ofNat_of_lt' (show _ < 2 ^ 32 by omega)
  have hnat : (refCnt.toUInt32 &&& (Int32.ofNat (b - a - 1)).toUInt32).toNat ≤ b - a - 1 := by
    rw [UInt32.toNat_and, hm]
    exact Nat.and_le_right
  have hrand : (refCnt.toUInt32 &&& (Int32.ofNat (b - a - 1)).toUInt32).toInt32 =
      Int32.ofNat (refCnt.toUInt32 &&& (Int32.ofNat (b - a - 1)).toUInt32).toNat :=
    (congrArg UInt32.toInt32 UInt32.ofNat_toNat).symm
  have hneg : Int32.ofNat r - Int32.ofNat l = -Int32.ofNat (l - r) := by
    rw [Int32.ofNat_sub _ _ hrl, Int32.neg_sub]
  rw [addsAt, decide_eq_false_iff_not, hmask, hrand, hneg, Int32.lt_iff_toInt_lt, Int32.toInt_neg,
    Int32.toInt_ofNat_of_lt (by omega), Int32.toInt_ofNat_of_lt (by omega),
    Int.bmod_eq_of_le (by omega) (by omega)]
  omega

end Sample

section Calls

theorem adds_callOf (hal : a ≤ l) (hlb : l < b) (hrb : r ≤ b) (hb : b < 2 ^ 31) (upperLevel : Int32) :
    Adds s (callOf l r a b upperLevel) ↔ ¬ (l = a ∧ r = b) ∧ addsAt s.refCnt l r a b = true := by
  have hguard : (callOf l r a b upperLevel).Asserted :=
    ⟨(Int32.ofNat_le_iff_le (by omega) (by omega)).mpr hal,
      (Int32.ofNat_le_iff_le (by omega) hb).mpr hrb⟩
  have hwhole : (callOf l r a b upperLevel).Whole ↔ l = a ∧ r = b := by
    rw [Call.Whole, callOf, ofNat_inj (by omega) (by omega), ofNat_inj (by omega) hb]
  rw [Adds, hwhole, iff_true_intro hguard, true_and]
  rfl

theorem atNode_callOf (hb : b < 2 ^ 31) (hab : a < b) (hseg : seg.lo < seg.hi)
    (hhi : seg.hi < 2 ^ 31) (upperLevel : Int32) :
    AtNode seg (callOf l r a b upperLevel) ↔ a = seg.lo ∧ b = seg.hi := by
  rw [AtNode, callOf, ofNat_inj (by omega) (by omega), ofNat_inj hb hhi]

theorem callsBelow_of_outside {upperLevel : Int32} (hf : Fits d a b) (hal : a ≤ l) (hlb : l < b)
    (hrb : r ≤ b) (hb : b < 2 ^ 31) (hseg : seg.lo < seg.hi) (hhi : seg.hi < 2 ^ 31)
    (hout : ¬ (a ≤ seg.lo ∧ seg.hi ≤ b)) :
    callsBelow s seg fuel (callOf l r a b upperLevel) = 0 := by
  rw [callsBelow, List.countP_eq_zero]
  intro c hc
  obtain ⟨l₁, r₁, level, seg₁, hseg₁, rfl, -, -⟩ := exists_callOf_of_mem_trace hf hal hlb hrb hb hc
  obtain ⟨hlo₁, hlt₁, hhi₁, -⟩ := mem_nodes_bounds hf hseg₁
  rw [decide_eq_true_eq, atNode_callOf (by omega) hlt₁ hseg hhi]
  rintro ⟨-, hlo, hhi'⟩
  omega

theorem callsBelow_of_inverted {upperLevel : Int32} (hf : Fits d a b) (hal : a ≤ l) (hlb : l < b)
    (hrl : r ≤ l) (hb : b < 2 ^ 31) : callsBelow s seg fuel (callOf l r a b upperLevel) = 0 := by
  rw [callsBelow, List.countP_eq_zero]
  intro c hc
  obtain ⟨l₁, r₁, level, seg₁, hseg₁, rfl, hl₁, hinv⟩ :=
    exists_callOf_of_mem_trace hf hal hlb (by omega) hb hc
  obtain ⟨hlo₁, hlt₁, hhi₁, -⟩ := mem_nodes_bounds hf hseg₁
  have hno : addsAt s.refCnt l₁ r₁ seg₁.lo seg₁.hi = false :=
    addsAt_of_le hlt₁ (by omega) (hinv hrl) (by omega)
  rw [decide_eq_true_eq]
  rintro ⟨⟨-, -, hadd⟩, -⟩
  exact absurd (hno.symm.trans hadd) (by decide)

theorem callsBelow_flatMap_ite {q : Prop} [Decidable q] (c : Call) :
    ((if q then [c] else []).flatMap (trace Recursion.gxjRecord.calls fuel)).countP
      (fun c => decide (Adds s c ∧ AtNode seg c)) = if q then callsBelow s seg fuel c else 0 := by
  split
  · rw [List.flatMap_singleton]
    rfl
  · rfl

theorem callsBelow_succ {upperLevel : Int32} (hf : Fits (d + 1) a b) (hal : a ≤ l) (hlb : l < b)
    (hrb : r ≤ b) (hb : b < 2 ^ 31) (hseg : seg.lo < seg.hi) (hhi : seg.hi < 2 ^ 31)
    (hnot : ¬ (l = a ∧ r = b)) :
    callsBelow s seg (fuel + 1) (callOf l r a b upperLevel) =
      (if l < mid a b then
        callsBelow s seg fuel (callOf l (min (mid a b) r) a (mid a b) (upperLevel - 1)) else 0) +
      (if mid a b < r then
        callsBelow s seg fuel (callOf (max l (mid a b)) r (mid a b) b (upperLevel - 1)) else 0) +
      if (a = seg.lo ∧ b = seg.hi) ∧ addsAt s.refCnt l r a b = true then 1 else 0 := by
  have hi := halvingStep hf.1 hal hrb (by omega) hb
  have hcalls : Recursion.gxjRecord.calls (callOf l r a b upperLevel) =
      (callOf l r a b upperLevel).halves := by
    refine calls_eq_halves _ ?_ fun hw => hnot (hi.whole.mp hw)
    exact ⟨(Int32.ofNat_le_iff_le (by omega) (by omega)).mpr hal,
      (Int32.ofNat_le_iff_le (by omega) hb).mpr hrb⟩
  have hroot : Adds s (callOf l r a b upperLevel) ∧ AtNode seg (callOf l r a b upperLevel) ↔
      (a = seg.lo ∧ b = seg.hi) ∧ addsAt s.refCnt l r a b = true := by
    rw [adds_callOf hal hlb hrb hb, atNode_callOf hb hf.1 hseg hhi, iff_true_intro hnot, true_and,
      and_comm]
  rw [callsBelow, trace, List.countP_cons, hcalls, halves_callOf hi, List.flatMap_append,
    List.countP_append, callsBelow_flatMap_ite, callsBelow_flatMap_ite]
  exact congrArg _ (if_congr (decide_eq_true_iff.trans hroot) rfl rfl)

theorem callsBelow_of_inside {upperLevel : Int32} (hd : d ≤ fuel) (hf : Fits d a b) (hal : a ≤ l)
    (hlr : l < r) (hrb : r ≤ b) (hb : b < 2 ^ 31) (hseg : seg ∈ nodes d a b)
    (hover : max l seg.lo < min r seg.hi) (hpart : ¬ (l ≤ seg.lo ∧ seg.hi ≤ r)) :
    callsBelow s seg fuel (callOf l r a b upperLevel) =
      if addsAt s.refCnt (max l seg.lo) (min r seg.hi) seg.lo seg.hi then 1 else 0 := by
  induction d generalizing fuel l r a b upperLevel with
  | zero => exact absurd hf.2.2 (Nat.lt_irrefl 0)
  | succ d ih =>
    obtain ⟨fuel, rfl⟩ : ∃ f, fuel = f + 1 := ⟨fuel - 1, by omega⟩
    obtain ⟨hlo, hlt, hhi, -⟩ := mem_nodes_bounds hf hseg
    have hone : b ≠ a + 1 := by omega
    obtain ⟨hma, hmb⟩ := hf.mid_bounds hone
    have hlow (hout : ¬ seg.hi ≤ mid a b) : (if l < mid a b then
        callsBelow s seg fuel (callOf l (min (mid a b) r) a (mid a b) (upperLevel - 1))
        else 0) = 0 := by
      split
      · next hlm =>
        exact callsBelow_of_outside (hf.left hone) hal hlm (Nat.min_le_left _ _) (by omega) hlt
          (by omega) fun h => hout h.2
      · rfl
    have hupp (hout : ¬ mid a b ≤ seg.lo) : (if mid a b < r then
        callsBelow s seg fuel (callOf (max l (mid a b)) r (mid a b) b (upperLevel - 1))
        else 0) = 0 := by
      split
      · exact callsBelow_of_outside (hf.right hone) (Nat.le_max_right _ _) (by omega) hrb hb hlt
          (by omega) fun h => hout h.1
      · rfl
    rw [callsBelow_succ hf hal (by omega) hrb hb hlt (by omega) (by omega)]
    rw [nodes, List.mem_cons, if_neg hone, List.mem_append] at hseg
    obtain rfl | hseg | hseg := hseg
    · -- at the node itself, and not below it
      rw [hlow (not_le.mpr hmb), hupp (not_le.mpr hma), Nat.max_eq_left hal, Nat.min_eq_left hrb]
      exact (Nat.zero_add _).trans (if_congr (by simp) rfl rfl)
    · obtain ⟨-, -, hhi', -⟩ := mem_nodes_bounds (hf.left hone) hseg
      have hroot : ¬ ((a = seg.lo ∧ b = seg.hi) ∧ addsAt s.refCnt l r a b = true) :=
        fun h => absurd h.1.2 (by omega)
      rw [if_pos (show l < mid a b by omega), hupp (by omega), if_neg hroot, Nat.add_zero,
        ih (by omega) (hf.left hone) hal (by omega) (Nat.min_le_left _ _) (by omega)
          hseg (by omega) (by omega), show min (min (mid a b) r) seg.hi = min r seg.hi by omega]
    · obtain ⟨hlo', -, -, -⟩ := mem_nodes_bounds (hf.right hone) hseg
      have hroot : ¬ ((a = seg.lo ∧ b = seg.hi) ∧ addsAt s.refCnt l r a b = true) :=
        fun h => absurd h.1.1 (by omega)
      rw [if_pos (show mid a b < r by omega), hlow (by omega), if_neg hroot, Nat.add_zero,
        Nat.zero_add, ih (by omega) (hf.right hone) (Nat.le_max_right _ _) (by omega) hrb hb hseg
          (by omega) (by omega), show max (max l (mid a b)) seg.lo = max l seg.lo by omega]

theorem recordAccess_eq_foldlM (hash : UInt64 → UInt64 → UInt32) (h : Ready g u N p s)
    (hflag : s.doingReset = false) (a : Access) :
    recordAccess hash s a.unitId a.t a.size =
      (trace Recursion.gxjRecord.calls RangeSketch.fuel (rootCall s a.t a.size)).foldlM
        (gxjMark hash a.unitId (baseOf s a.t)) { s with refCnt := s.refCnt + 1 } := by
  rw [gxj_recordAccess_eq, if_neg (by simp [hflag])]
  exact visit_eq_foldlM_trace (ready_rootCall_inTree h a.t a.size).within h.levels_le _

theorem gxjMark_eq {s' : Sketch} (hf : frame s' = frame s) (unitId : UInt64) (base : Int32)
    (c : Call) : gxjMark hash unitId base s' c =
      if ¬ c.Asserted then .error .assertion
      else if Adds s c then incDyadicCnt hash s' unitId base c.start c.stop 1 (c.upperLevel - 1)
      else if c.Whole then incLazyAddCnt hash s' unitId base c.start c.stop (c.upperLevel - 1)
      else .ok s' := by
  have href : s'.refCnt = s.refCnt := refCnt_of_frame hf
  have htry : tryEstAdd s' c.left c.right c.start c.stop =
      tryEstAdd s c.left c.right c.start c.stop := by
    rw [tryEstAdd, tryEstAdd, href]
  rw [gxjMark, htry]
  by_cases ha : c.Asserted
  · rw [if_neg (not_not_intro ha), if_neg (not_not_intro ha)]
    by_cases hw : c.Whole
    · have hno : ¬ Adds s c := fun h => h.2.1 hw
      rw [if_pos hw, if_neg hno, if_pos hw]
    · have hadds : Adds s c ↔ tryEstAdd s c.left c.right c.start c.stop = true := by
        rw [Adds, iff_true_intro ha, iff_true_intro hw, true_and, true_and]
      rw [if_neg hw, if_neg hw]
      exact if_congr hadds.symm rfl rfl
  · rw [if_pos ha, if_pos ha]

end Calls

section Window

theorem dyadicCalls_eq {unitId unit : UInt64} {L k : Nat} {a : Access} (hgeo : Geometry g u N)
    (hk : N = 2 ^ k) (hN : N < 2 ^ 31) (hg : s.granularity = g) (hu : s.unitSize = u)
    (hflag : s.doingReset = false) (hseg : seg ∈ nodes (Nat.clog 2 N + 1) 0 N) (hL : 0 < L)
    (hsize : L < seg.size) (ha : Overlaps g u unitId unit seg L a) :
    dyadicCalls s a seg =
      if (s.refCnt + 1).toUInt32.toNat % seg.size < L ∧ EndsInside u a then 1 else 0 := by
  have hfits := hgeo.fits
  have hleft := hgeo.left_lt a
  have hright := hgeo.right_lt a
  have hlevels : Nat.clog 2 N + 1 ≤ RangeSketch.fuel := by
    have hlog : Nat.clog 2 N ≤ 31 := Nat.clog_le_of_le_pow hN.le
    unfold RangeSketch.fuel
    omega
  obtain ⟨-, hlt, hhi, -⟩ := mem_nodes_bounds hfits hseg
  have hroot := rootCall_eq_callOf hgeo hg hu a
  rw [dyadicCalls, if_neg (by simp [hflag]), hroot]
  by_cases hend : EndsInside u a
  · obtain ⟨j, hj, hsizej⟩ := size_of_mem_nodes (by rw [Nat.sub_zero, hk]) hgeo.granules_pos hseg
    have hj30 : j ≤ 30 := by
      have hk31 : 2 ^ k < 2 ^ 31 := hk ▸ hN
      have := (Nat.pow_lt_pow_iff_right (by decide)).mp hk31
      omega
    have hover := ha.overlap_eq
    rw [overlap, ← Access.right_of_lt hend.2 hend.1] at hover
    rw [Seg.size] at hsize hsizej
    have hadds : addsAt (s.refCnt + 1) (max (a.left g u) seg.lo) (min (a.right g u) seg.hi) seg.lo
        seg.hi = true ↔ (s.refCnt + 1).toUInt32.toNat % 2 ^ j <
          min (a.right g u) seg.hi - max (a.left g u) seg.lo :=
      addsAt_iff hj30 (by omega) (by omega) (by omega)
    rw [callsBelow_of_inside hlevels hfits (Nat.zero_le _) (by omega) hright.le hN hseg (by omega)
      (by omega)]
    refine if_congr ?_ rfl rfl
    rw [hadds, hover, Seg.size, hsizej, iff_true_intro hend, and_true]
  · have hzero : a.right g u = 0 := by
      rw [EndsInside, not_and_or, Nat.not_lt, Nat.not_lt] at hend
      obtain hend | hend := hend
      · exact Access.right_of_end ha.room (le_antisymm ha.within hend)
      · rw [Access.right, UInt64.toNat_div, UInt64.toNat_mod, UInt64.toNat_add,
          le_antisymm ha.room hend, Nat.mod_self, Nat.zero_mod, Nat.zero_div]
    rw [if_neg fun h => hend h.2, hzero]
    exact callsBelow_of_inverted hfits (Nat.zero_le _) hleft (Nat.zero_le _) hN

theorem refCnt_succ_mod (x : Int32) {j : Nat} (hj : j ≤ 32) :
    (x + 1).toUInt32.toNat % 2 ^ j = (x.toUInt32.toNat + 1) % 2 ^ j := by
  have hx : (x + 1).toUInt32 = x.toUInt32 + 1 := Int32.toUInt32_add x 1
  rw [hx, UInt32.toNat_add]
  exact Nat.mod_mod_of_dvd _ (pow_dvd_pow 2 hj)

theorem windowCalls_eq {unitId unit : UInt64} {L k n total : Nat} {ops : List Access}
    (hgeo : Geometry g u N) (hk : N = 2 ^ k) (hN : N < 2 ^ 31) (hg : s.granularity = g)
    (hu : s.unitSize = u) (hflag : s.doingReset = false)
    (hseg : seg ∈ nodes (Nat.clog 2 N + 1) 0 N) (hL : 0 < L) (hsize : L < seg.size)
    (hops : ∀ a ∈ ops, Overlaps g u unitId unit seg L a)
    (hn : (s.refCnt.toUInt32.toNat + 1) % seg.size = n % seg.size)
    (hcalls : windowCalls hash seg s ops = .ok total) :
    total = (ops.zipIdx n).countP fun x => x.2 % seg.size < L ∧ EndsInside u x.1 := by
  obtain ⟨j, hj, hsizej⟩ := size_of_mem_nodes (by rw [Nat.sub_zero, hk]) hgeo.granules_pos hseg
  have hj32 : j ≤ 32 := by
    have hk31 : 2 ^ k < 2 ^ 31 := hk ▸ hN
    have := (Nat.pow_lt_pow_iff_right (by decide)).mp hk31
    omega
  induction ops generalizing s n total with
  | nil =>
    cases hcalls
    rfl
  | cons a ops ih =>
    obtain ⟨s', hrec, hcalls⟩ := exists_of_bind_ok hcalls
    obtain ⟨rest, hrest, hcalls⟩ := exists_of_bind_ok hcalls
    have href := @recordAccess_refCnt _ _ _ .gxj _ _ _ hflag hrec
    have hlay := @recordAccess_sameLayout _ _ _ .gxj _ _ _ hrec
    have hnum : (s.refCnt + 1).toUInt32.toNat % seg.size = n % seg.size := by
      rw [← hn, hsizej, refCnt_succ_mod _ hj32]
    have hnext : (s'.refCnt.toUInt32.toNat + 1) % seg.size = (n + 1) % seg.size := by
      rw [href, Nat.add_mod, hnum, ← Nat.add_mod]
    have hih := ih (hlay.granularity_eq.trans hg) (hlay.unitSize_eq.trans hu)
      ((@recordAccess_doingReset _ _ _ .gxj _ _ _ hrec).trans hflag)
      (fun b hb => hops b (List.mem_cons_of_mem _ hb)) hnext hrest
    have hone := dyadicCalls_eq hgeo hk hN hg hu hflag hseg hL hsize (hops a List.mem_cons_self)
    obtain rfl := Except.ok.inj hcalls
    rw [hih, hone, hnum, List.zipIdx_cons, List.countP_cons, Nat.add_comm]
    simp only [decide_eq_true_eq]

theorem countP_range'_mod {R L : Nat} (hL : L ≤ R) (n : Nat) :
    (List.range' n R).countP (fun x => x % R < L) = L := by
  have hperiodic : Function.Periodic (fun x => x % R < L) R := fun x => by
    simp only [Nat.add_mod_right]
  have hlist : (List.range' n R).countP (fun x => x % R < L) =
      ((Finset.Ico n (n + R)).filter fun x => x % R < L).card := by
    rw [Nat.Ico_eq_range', Nat.add_sub_cancel_left, List.countP_eq_length_filter]
    rfl
  have hbelow : Nat.count (fun x => x % R < L) L = L := by
    refine Nat.count_iff_forall.mpr fun x hx => ?_
    rwa [Nat.mod_eq_of_lt (by omega)]
  have habove : Nat.count (fun x => (L + x) % R < L) (R - L) = 0 := by
    refine Nat.count_iff_forall_not.mpr fun x hx => ?_
    rw [Nat.mod_eq_of_lt (by omega)]
    omega
  calc (List.range' n R).countP (fun x => x % R < L)
      = Nat.count (fun x => x % R < L) R :=
        hlist.trans (Nat.filter_Ico_card_eq_of_periodic n R _ hperiodic)
    _ = Nat.count (fun x => x % R < L) (L + (R - L)) := by rw [Nat.add_sub_cancel' hL]
    _ = L := by rw [Nat.count_add, hbelow, habove, Nat.add_zero]

theorem countP_and_eq_iff {α : Type} {P Q : α → Prop} [DecidablePred P] [DecidablePred Q]
    (l : List α) :
    l.countP (fun x => P x ∧ Q x) = l.countP (fun x => P x) ↔ ∀ x ∈ l, P x → Q x := by
  have hfilter : l.countP (fun x => P x ∧ Q x) =
      (l.filter fun x => P x).countP fun x => Q x := by
    rw [List.countP_filter]
    refine List.countP_congr fun x _ => ?_
    simp only [decide_eq_true_eq, Bool.and_eq_true, and_comm]
  rw [hfilter, List.countP_eq_length_filter (p := fun x => decide (P x)), List.countP_eq_length]
  simp only [List.mem_filter, decide_eq_true_eq, and_imp]

theorem exists_windowCalls (hash : UInt64 → UInt64 → UInt32) (h : Ready g u N p s) (seg : Seg)
    (ops : List Access) : ∃ total, windowCalls hash seg s ops = .ok total := by
  induction ops generalizing s with
  | nil => exact ⟨0, rfl⟩
  | cons a ops ih =>
    obtain ⟨s', hrec, hgrown⟩ := recordAccess_grown hash h a
    obtain ⟨rest, hrest⟩ := ih hgrown.ready
    refine ⟨dyadicCalls s a seg + rest, ?_⟩
    rw [windowCalls, hrec]
    change (windowCalls hash seg s' ops >>= fun calls => pure (dyadicCalls s a seg + calls)) = _
    rw [hrest]
    rfl

theorem windowCalls_eq_zero {P : Sketch → Prop} {total : Nat} {ops : List Access}
    (hnone : ∀ s a, P s → dyadicCalls s a seg = 0)
    (hkeep : ∀ s s' unitId t size, P s → recordAccess hash s unitId t size = .ok s' → P s')
    (hs : P s) (hcalls : windowCalls hash seg s ops = .ok total) : total = 0 := by
  induction ops generalizing s total with
  | nil =>
    cases hcalls
    rfl
  | cons a ops ih =>
    obtain ⟨s', hrec, hcalls⟩ := exists_of_bind_ok hcalls
    obtain ⟨rest, hrest, hcalls⟩ := exists_of_bind_ok hcalls
    obtain rfl := Except.ok.inj hcalls
    rw [hnone s a hs, ih (hkeep s s' _ _ _ hs hrec) hrest]

theorem windowCalls_of_doingReset {total : Nat} {ops : List Access} (hflag : s.doingReset = true)
    (hcalls : windowCalls hash seg s ops = .ok total) : total = 0 := by
  refine windowCalls_eq_zero (P := fun s => s.doingReset = true) (fun s a h => ?_)
    (fun s s' _ _ _ h hrec => ?_) hflag hcalls
  · rw [dyadicCalls, if_pos h]
  · exact (@recordAccess_doingReset _ _ _ .gxj _ _ _ hrec).trans h

theorem dyadicCalls_of_zero (hzero : granules s = 0) (hpos : 0 < seg.hi) (hhi : seg.hi < 2 ^ 32)
    (a : Access) : dyadicCalls s a seg = 0 := by
  rw [dyadicCalls]
  split
  · rfl
  · rw [callsBelow, List.countP_eq_zero]
    intro c hc hat
    rw [RangeSketch.fuel, trace, calls_rootCall_of_zero hzero, List.flatMap_nil,
      List.mem_singleton] at hc
    obtain ⟨-, -, hstop⟩ := of_decide_eq_true hat
    have hstop0 : Int32.ofNat seg.hi = 0 := by
      rw [← hstop, hc, rootCall, hzero]
      rfl
    have hnat : (Int32.ofNat seg.hi).toUInt32.toNat = seg.hi := UInt32.toNat_ofNat_of_lt' hhi
    rw [hstop0] at hnat
    exact hpos.ne hnat

theorem windowCalls_of_zero {total : Nat} {ops : List Access} (hzero : granules s = 0)
    (hpos : 0 < seg.hi) (hhi : seg.hi < 2 ^ 32) (hcalls : windowCalls hash seg s ops = .ok total) :
    total = 0 := by
  refine windowCalls_eq_zero (P := fun s => granules s = 0)
    (fun s a h => dyadicCalls_of_zero h hpos hhi a) (fun s s' _ _ _ h hrec => ?_) hzero hcalls
  have hlay := @recordAccess_sameLayout _ _ _ .gxj _ _ _ hrec
  rw [granules, hlay.granularity_eq, hlay.unitSize_eq]
  exact h

end Window

theorem recordAccess_of_two_pow_31 {a : Access} (hgeo : Geometry g u N) (hN : N = 2 ^ 31)
    (hg : s.granularity = g) (hu : s.unitSize = u) (hflag : s.doingReset = false) :
    recordAccess hash s a.unitId a.t a.size = .error .assertion := by
  have hright := hgeo.right_lt a
  have hbad : ¬ (rootCall s a.t a.size).Asserted := by
    rw [rootCall_eq_callOf hgeo hg hu a, hN]
    rintro ⟨-, hle⟩
    rw [callOf, Int32.le_iff_toInt_le, Int32.toInt_ofNat_of_lt (by omega)] at hle
    have hneg : (Int32.ofNat (2 ^ 31)).toInt < 0 := by decide
    exact absurd (hle.trans_lt hneg) (not_lt.mpr (Int.natCast_nonneg _))
  rw [gxj_recordAccess_eq, if_neg (by simp [hflag]), RangeSketch.fuel, visit, gxjMark, if_pos hbad]
  rfl

theorem log_le_of_built {k : Nat} (h : Built g u s) (hk : (u / g).toNat = 2 ^ k) : k ≤ 31 := by
  obtain ⟨n, p, levels, hacc, -⟩ := h
  by_contra hgt
  have hcut : (u / g).toUInt32 = 0 := by
    apply UInt32.toNat_inj.mp
    rw [UInt64.toNat_toUInt32, hk]
    exact Nat.mod_eq_zero_of_dvd (pow_dvd_pow 2 (by omega))
  refine hacc.units_ne ?_
  rw [hcut]
  rfl

/-- In as many accesses in a row as a node has granules, each of which overlaps it in the same
number of granules, the counter of the node is raised that many times, exactly when the accesses
are recorded, the unit has granules in 64 bits, and no access whose number is due ends with its
unit. -/
theorem sampled_rate_iff (hash : UInt64 → UInt64 → UInt32) {unitId unit : UInt64} {L k total : Nat}
    {ops : List Access} (hreach : Reached hash .gxj g u s) (hN : N = 2 ^ k)
    (hu : u.toNat = N * g.toNat) (hseg : seg ∈ nodes (Nat.clog 2 N + 1) 0 N) (hL : 0 < L)
    (hsize : L < seg.size) (hlen : ops.length = seg.size)
    (hops : ∀ a ∈ ops, Overlaps g u unitId unit seg L a)
    (hcalls : windowCalls hash seg s ops = .ok total) :
    total = L ↔ s.doingReset = false ∧ u.toNat + g.toNat ≤ 2 ^ 64 ∧
      ∀ i (hi : i < ops.length),
        (s.refCnt.toUInt32.toNat + 1 + i) % seg.size < L → EndsInside u ops[i] := by
  obtain ⟨n, p, levels, hacc, hlay⟩ := hreach.built
  have hgpos := hacc.granularity_pos
  have hgs : s.granularity = g := hlay.granularity_eq
  have hus : s.unitSize = u := hlay.unitSize_eq
  have hNpos : 1 ≤ N := hN ▸ Nat.one_le_two_pow
  have hdiv : (u / g).toNat = N := by
    rw [UInt64.toNat_div, hu, Nat.mul_div_cancel _ hgpos]
  have hk31 := log_le_of_built hreach.built (hdiv.trans hN)
  have hN31 : N ≤ 2 ^ 31 := hN ▸ Nat.pow_le_pow_right (by decide) hk31
  obtain ⟨-, hlt, hhi, -⟩ := mem_nodes_bounds (fits_clog hNpos) hseg
  by_cases hflag : s.doingReset = true
  · have hzero := windowCalls_of_doingReset hflag hcalls
    exact ⟨fun h => by omega, fun h => absurd (hflag.symm.trans h.1) (by decide)⟩
  rw [Bool.not_eq_true] at hflag
  by_cases hroom : u.toNat + g.toNat ≤ 2 ^ 64
  · have hgeo : Geometry g u N := ⟨hgpos, hNpos, hu, hroom⟩
    obtain hlt31 | heq31 := Nat.lt_or_eq_of_le hN31
    · have hcount := windowCalls_eq hgeo hN hlt31 hgs hus hflag hseg hL hsize hops rfl hcalls
      have hdue : (ops.zipIdx (s.refCnt.toUInt32.toNat + 1)).countP
          (fun x => x.2 % seg.size < L) = L := by
        have hnums := countP_range'_mod hsize.le (s.refCnt.toUInt32.toNat + 1)
        rwa [← hlen, ← List.zipIdx_map_snd, List.countP_map, hlen] at hnums
      have hall : total = L ↔ ∀ x ∈ ops.zipIdx (s.refCnt.toUInt32.toNat + 1),
          x.2 % seg.size < L → EndsInside u x.1 := by
        rw [← countP_and_eq_iff, hdue, hcount]
      rw [hall, List.forall_mem_zipIdx]
      exact ⟨fun h => ⟨hflag, hroom, h⟩, fun h => h.2.2⟩
    · -- the first of the accesses does not get through
      cases ops with
      | nil => exact absurd hlen (by rw [List.length_nil]; omega)
      | cons a ops =>
        obtain ⟨s', hrec, -⟩ := exists_of_bind_ok hcalls
        rw [recordAccess_of_two_pow_31 hgeo heq31 hgs hus hflag] at hrec
        cases hrec
  · have hwrap := granules_of_wrapped hgs hus hgpos (by omega)
    have hzero := windowCalls_of_zero hwrap (by omega) (by omega) hcalls
    exact ⟨fun h => by omega, fun h => absurd h.2.1 hroom⟩

def fourAccesses : List Access := [⟨0, 0, 2⟩, ⟨0, 1, 2⟩, ⟨0, 0, 2⟩, ⟨0, 1, 2⟩]

theorem overlaps_fourAccesses : ∀ a ∈ fourAccesses, Overlaps 1 4 0 0 ⟨2, 0, 4⟩ 2 a := by
  intro a ha
  simp only [fourAccesses, List.mem_cons, List.not_mem_nil, or_false] at ha
  obtain rfl | rfl | rfl | rfl := ha <;> exact ⟨rfl, rfl, by decide, by decide, by decide⟩

theorem sampled_rate_iff_four :
    windowCalls Detail.hash ⟨2, 0, 4⟩ (fresh 4 1 4 2 3) fourAccesses = .ok 2 ∧
    (2 = 2 ↔ (fresh 4 1 4 2 3).doingReset = false ∧
      (4 : UInt64).toNat + (1 : UInt64).toNat ≤ 2 ^ 64 ∧
      ∀ i (hi : i < fourAccesses.length),
        ((fresh 4 1 4 2 3).refCnt.toUInt32.toNat + 1 + i) % Seg.size ⟨2, 0, 4⟩ < 2 →
          EndsInside 4 fourAccesses[i]) := by
  have hcalls : windowCalls Detail.hash ⟨2, 0, 4⟩ (fresh 4 1 4 2 3) fourAccesses = .ok 2 := by
    decide +kernel
  have hreach := reached_of_construct Detail.hash .gxj construct_four
  exact ⟨hcalls, sampled_rate_iff (k := 2) Detail.hash hreach rfl rfl (by decide) (by decide)
    (by decide) rfl overlaps_fourAccesses hcalls⟩

/-- In a unit of four granules, the upper half is accessed at its last granule. The counter of that
half, which one of two such accesses should raise, is never raised. -/
theorem end_accesses_not_sampled : construct 4 1 4 = .ok (fresh 4 1 4 2 3) ∧
    Reached Detail.hash .gxj 1 4 (fresh 4 1 4 2 3) ∧
    (⟨1, 2, 4⟩ : Seg) ∈ nodes (Nat.clog 2 4 + 1) 0 4 ∧
    (∀ a ∈ [(⟨0, 3, 1⟩ : Access), ⟨0, 3, 1⟩], Overlaps 1 4 0 0 ⟨1, 2, 4⟩ 1 a) ∧
    (fresh 4 1 4 2 3).doingReset = false ∧
    windowCalls Detail.hash ⟨1, 2, 4⟩ (fresh 4 1 4 2 3) [⟨0, 3, 1⟩, ⟨0, 3, 1⟩] = .ok 0 := by
  refine ⟨construct_four, reached_of_construct Detail.hash .gxj construct_four, by decide, ?_, rfl,
    by decide +kernel⟩
  intro a ha
  obtain rfl : a = ⟨0, 3, 1⟩ := by simpa using ha
  exact ⟨rfl, rfl, by decide, by decide, by decide⟩

end DistExp.SampledRate
