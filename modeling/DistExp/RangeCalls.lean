import DistExp.GxjSketch
import DistExp.Library.CallTree

namespace DistExp.RangeCalls

open DistExp.Library.MachineInt DistExp.Library.HalvingTree DistExp.Library.CallTree
open DistExp.PackedTable DistExp.RangeSketch DistExp.RangeCounters

/-- The arguments of a call of one of the four recursions, but for the unit and its base, which
all calls share. -/
structure Call where
  left : Int32
  right : Int32
  start : Int32
  stop : Int32
  upperLevel : Int32
  deriving DecidableEq

namespace Call

def Asserted (c : Call) : Prop := c.start ≤ c.left ∧ c.right ≤ c.stop

instance (c : Call) : Decidable c.Asserted := inferInstanceAs (Decidable (_ ∧ _))

def Whole (c : Call) : Prop := c.left = c.start ∧ c.right = c.stop

instance (c : Call) : Decidable c.Whole := inferInstanceAs (Decidable (_ ∧ _))

def middle (c : Call) : Int32 := c.start + (c.stop - c.start) / 2

def lower (c : Call) : Call :=
  ⟨c.left, min c.middle c.right, c.start, c.middle, c.upperLevel - 1⟩

def upper (c : Call) : Call :=
  ⟨max c.left c.middle, c.right, c.middle, c.stop, c.upperLevel - 1⟩

def halves (c : Call) : List Call :=
  (if c.middle > c.left then [c.lower] else []) ++ if c.middle < c.right then [c.upper] else []

end Call

inductive Recursion where
  | intervalFrequency
  | intervalRecord
  | gxjFrequency
  | gxjRecord

def Recursion.Stops : Recursion → Call → Prop
  | .intervalRecord, c => c.start = c.stop - 1
  | _, c => c.Whole

instance : (r : Recursion) → (c : Call) → Decidable (r.Stops c)
  | .intervalRecord, c => inferInstanceAs (Decidable (c.start = c.stop - 1))
  | .intervalFrequency, c => inferInstanceAs (Decidable c.Whole)
  | .gxjFrequency, c => inferInstanceAs (Decidable c.Whole)
  | .gxjRecord, c => inferInstanceAs (Decidable c.Whole)

/-- The calls that a call makes itself. After a failed assertion there are none. -/
def Recursion.calls (r : Recursion) (c : Call) : List Call :=
  if c.Asserted ∧ ¬ r.Stops c then c.halves else []

def rootCall (s : Sketch) (t size : UInt64) : Call :=
  ⟨leftOf s t, rightOf s t size, 0, toInt (granules s), s.counterLevel⟩

section Own

variable (hash : UInt64 → UInt64 → UInt32) (unitId : UInt64) (base : Int32)

/-- What a call of `interval_sketch::inner_frequency` contributes itself. -/
def intervalCount (s : Sketch) (c : Call) : Except Fault Int32 :=
  if ¬ c.Asserted then .error .assertion
  else if c.Whole then getDyadicCnt hash s unitId base c.start c.stop (c.upperLevel - 1)
  else .ok 0

def intervalMark (s : Sketch) (c : Call) : Except Fault Sketch :=
  if ¬ c.Asserted then .error .assertion
  else incDyadicCnt hash s unitId base c.start c.stop 1 (c.upperLevel - 1)

def gxjCount (s : Sketch) (c : Call) : Except Fault Int32 :=
  if ¬ c.Asserted then .error .assertion
  else do
    let lazyAddCnt ← getLazyAddCnt hash s unitId base c.start c.stop (c.upperLevel - 1)
    if c.Whole then
      let dyadicCnt ← getDyadicCnt hash s unitId base c.start c.stop (c.upperLevel - 1)
      return lazyAddCnt * (c.right - c.left) + dyadicCnt
    else return lazyAddCnt * (c.right - c.left)

def gxjMark (s : Sketch) (c : Call) : Except Fault Sketch :=
  if ¬ c.Asserted then .error .assertion
  else if c.Whole then incLazyAddCnt hash s unitId base c.start c.stop (c.upperLevel - 1)
  else if GxjSketch.tryEstAdd s c.left c.right c.start c.stop then
    incDyadicCnt hash s unitId base c.start c.stop 1 (c.upperLevel - 1)
  else .ok s

end Own

variable {hash : UInt64 → UInt64 → UInt32} {unitId : UInt64} {base : Int32}

theorem calls_of_stops (r : Recursion) {c : Call} (h : r.Stops c) : r.calls c = [] :=
  if_neg fun hc => hc.2 h

theorem calls_eq_halves (r : Recursion) {c : Call} (ha : c.Asserted) (h : ¬ r.Stops c) :
    r.calls c = c.halves := if_pos ⟨ha, h⟩

theorem foldlM_ite_singleton {σ α : Type} {p : Prop} [Decidable p] (f : σ → α → Except Fault σ)
    (a : α) (x : σ) : (if p then [a] else []).foldlM f x = if p then f x a else .ok x := by
  split
  · exact bind_pure (f x a)
  · rfl

theorem foldlM_halves_visit (f : Sketch → Call → Except Fault Sketch) (c : Call) (s : Sketch) :
    c.halves.foldlM f s = (do
      let s ← (if c.middle > c.left then f s c.lower else .ok s)
      if c.middle < c.right then f s c.upper else .ok s) := by
  rw [Call.halves, List.foldlM_append, foldlM_ite_singleton]
  exact bind_congr fun s => foldlM_ite_singleton f c.upper s

theorem ite_add {p : Prop} [Decidable p] (x : Except Fault Int32) (sum : Int32) :
    (if p then x >>= fun y => pure (sum + y) else .ok sum) =
      (if p then x else .ok 0) >>= fun y => pure (sum + y) := by
  split
  · rfl
  · exact congrArg Except.ok (Int32.add_zero sum).symm

theorem foldlM_halves_add (f : Call → Except Fault Int32) (c : Call) (sum : Int32) :
    c.halves.foldlM (fun sum c' => do return sum + (← f c')) sum = (do
      let lower ← (if c.middle > c.left then f c.lower else .ok 0)
      let upper ← (if c.middle < c.right then f c.upper else .ok 0)
      return sum + lower + upper) := by
  rw [Call.halves, List.foldlM_append, foldlM_ite_singleton, ite_add, bind_assoc]
  refine bind_congr fun lower => ?_
  rw [pure_bind, foldlM_ite_singleton, ite_add]

theorem interval_innerFrequency_eq (s : Sketch) (fuel : Nat) (c : Call) :
    IntervalSketch.innerFrequency hash fuel s unitId base c.left c.right c.start c.stop
        c.upperLevel =
      collect Recursion.intervalFrequency.calls (intervalCount hash unitId base s) .depth fuel c := by
  induction fuel generalizing c with
  | zero => rfl
  | succ fuel ih =>
    rw [IntervalSketch.innerFrequency, collect, intervalCount]
    change (if ¬ c.Asserted then _ else if c.Whole then _ else _) = _
    by_cases ha : c.Asserted
    · rw [if_neg (not_not_intro ha), if_neg (not_not_intro ha)]
      by_cases hw : c.Whole
      · rw [if_pos hw, if_pos hw, calls_of_stops .intervalFrequency hw]
        exact (bind_pure _).symm
      · have h0 : (Except.ok (0 : Int32) : Except Fault Int32) = pure 0 := rfl
        rw [if_neg hw, if_neg hw, calls_eq_halves .intervalFrequency ha hw, h0, pure_bind,
          foldlM_halves_add, ← ih, ← ih]
        simp only [Int32.zero_add]
        rfl
    · rw [if_pos ha, if_pos ha]
      rfl

theorem interval_innerRecordAccess_eq (s : Sketch) (fuel : Nat) (c : Call) :
    IntervalSketch.innerRecordAccess hash fuel s unitId base c.left c.right c.start c.stop
        c.upperLevel =
      visit Recursion.intervalRecord.calls (intervalMark hash unitId base) .depth fuel s c := by
  induction fuel generalizing s c with
  | zero => rfl
  | succ fuel ih =>
    rw [IntervalSketch.innerRecordAccess, visit, intervalMark]
    change (if ¬ c.Asserted then _ else _) = _
    by_cases ha : c.Asserted
    · rw [if_neg (not_not_intro ha), if_neg (not_not_intro ha)]
      refine bind_congr fun s => ?_
      by_cases hw : c.start = c.stop - 1
      · rw [if_pos hw, calls_of_stops .intervalRecord hw]
        rfl
      · rw [if_neg hw, calls_eq_halves .intervalRecord ha hw, foldlM_halves_visit, ← ih]
        simp only [← ih]
        rfl
    · rw [if_pos ha, if_pos ha]
      rfl

theorem gxj_innerFrequency_eq (s : Sketch) (fuel : Nat) (c : Call) :
    GxjSketch.innerFrequency hash fuel s unitId base c.left c.right c.start c.stop
        c.upperLevel =
      collect Recursion.gxjFrequency.calls (gxjCount hash unitId base s) .depth fuel c := by
  induction fuel generalizing c with
  | zero => rfl
  | succ fuel ih =>
    rw [GxjSketch.innerFrequency, collect, gxjCount]
    change (if ¬ c.Asserted then _ else _) = _
    by_cases ha : c.Asserted
    · rw [if_neg (not_not_intro ha), if_neg (not_not_intro ha), bind_assoc]
      refine bind_congr fun lazyAddCnt => ?_
      change (if c.Whole then _ else _) = _
      by_cases hw : c.Whole
      · rw [if_pos hw, if_pos hw, calls_of_stops .gxjFrequency hw, bind_assoc]
        rfl
      · rw [if_neg hw, if_neg hw, calls_eq_halves .gxjFrequency ha hw, pure_bind,
          foldlM_halves_add, ← ih, ← ih]
        rfl
    · rw [if_pos ha, if_pos ha]
      rfl

theorem gxj_innerRecordAccess_eq (s : Sketch) (fuel : Nat) (c : Call) :
    GxjSketch.innerRecordAccess hash fuel s unitId base c.left c.right c.start c.stop
        c.upperLevel =
      visit Recursion.gxjRecord.calls (gxjMark hash unitId base) .depth fuel s c := by
  induction fuel generalizing s c with
  | zero => rfl
  | succ fuel ih =>
    rw [GxjSketch.innerRecordAccess, visit, gxjMark]
    change (if ¬ c.Asserted then _ else if c.Whole then _ else _) = _
    by_cases ha : c.Asserted
    · rw [if_neg (not_not_intro ha), if_neg (not_not_intro ha)]
      by_cases hw : c.Whole
      · rw [if_pos hw, if_pos hw, calls_of_stops .gxjRecord hw]
        exact (bind_pure _).symm
      · rw [if_neg hw, if_neg hw, calls_eq_halves .gxjRecord ha hw]
        refine bind_congr fun s => ?_
        rw [foldlM_halves_visit, ← ih]
        simp only [← ih]
        rfl
    · rw [if_pos ha, if_pos ha]
      rfl

theorem interval_frequency_eq (s : Sketch) (unitId t size : UInt64) :
    IntervalSketch.frequency hash s unitId t size =
      collect Recursion.intervalFrequency.calls (intervalCount hash unitId (baseOf s t) s) .depth
        fuel (rootCall s t size) := by
  rw [← interval_innerFrequency_eq]
  rfl

theorem gxj_frequency_eq (s : Sketch) (unitId t size : UInt64) :
    GxjSketch.frequency hash s unitId t size =
      collect Recursion.gxjFrequency.calls (gxjCount hash unitId (baseOf s t) s) .depth fuel
        (rootCall s t size) := by
  rw [← gxj_innerFrequency_eq]
  rfl

theorem interval_recordAccess_eq (s : Sketch) (unitId t size : UInt64) :
    IntervalSketch.recordAccess hash s unitId t size =
      if s.doingReset then .ok s
      else visit Recursion.intervalRecord.calls (intervalMark hash unitId (baseOf s t)) .depth fuel
        { s with refCnt := s.refCnt + 1 } (rootCall s t size) := by
  rw [← interval_innerRecordAccess_eq]
  rfl

theorem gxj_recordAccess_eq (s : Sketch) (unitId t size : UInt64) :
    GxjSketch.recordAccess hash s unitId t size =
      if s.doingReset then .ok s
      else visit Recursion.gxjRecord.calls (gxjMark hash unitId (baseOf s t)) .depth fuel
        { s with refCnt := s.refCnt + 1 } (rootCall s t size) := by
  rw [← gxj_innerRecordAccess_eq]
  rfl

/-- The call for the part `[l, r)` of a range in the node `[a, b)`. -/
def callOf (l r a b : Nat) (upperLevel : Int32) : Call :=
  ⟨Int32.ofNat l, Int32.ofNat r, Int32.ofNat a, Int32.ofNat b, upperLevel⟩

/-- What keeps the recursions going down: the range begins inside the node, whether or not it is
empty or inverted, and the node is no longer than its levels allow. -/
def InTree (d : Nat) (c : Call) : Prop :=
  ∃ l r a b, c = callOf l r a b c.upperLevel ∧ Fits d a b ∧ a ≤ l ∧ l < b ∧ r ≤ b ∧ b < 2 ^ 31

variable {r : Recursion} {root c c' : Call} {d n fuel : Nat}

theorem InTree.asserted (h : InTree d c) : c.Asserted := by
  obtain ⟨l, r, a, b, hc, -, hal, hlb, hrb, hb⟩ := h
  rw [hc]
  exact ⟨(Int32.ofNat_le_iff_le (by omega) (by omega)).mpr hal,
    (Int32.ofNat_le_iff_le (by omega) hb).mpr hrb⟩

theorem stops_of_single {l r' a : Nat} {upperLevel : Int32} (hl : l = a) (hr : a < r')
    (hra : r' ≤ a + 1) : r.Stops (callOf l r' a (a + 1) upperLevel) := by
  have hw : (callOf l r' a (a + 1) upperLevel).Whole := by
    rw [hl, show r' = a + 1 by omega]
    exact ⟨rfl, rfl⟩
  cases r with
  | intervalRecord => exact (ofNat_succ_sub_one a).symm
  | intervalFrequency => exact hw
  | gxjFrequency => exact hw
  | gxjRecord => exact hw

theorem halves_callOf {l r a b : Nat} (hi : HalvingStep l r a b) (upperLevel : Int32) :
    (callOf l r a b upperLevel).halves =
      (if l < mid a b then [callOf l (min (mid a b) r) a (mid a b) (upperLevel - 1)] else []) ++
      if mid a b < r then [callOf (max l (mid a b)) r (mid a b) b (upperLevel - 1)] else [] := by
  have hm : (callOf l r a b upperLevel).middle = Int32.ofNat (mid a b) := hi.middle
  have hlow : (callOf l r a b upperLevel).lower =
      callOf l (min (mid a b) r) a (mid a b) (upperLevel - 1) := by
    rw [Call.lower, hm, callOf, callOf, hi.lowStop]
  have hupp : (callOf l r a b upperLevel).upper =
      callOf (max l (mid a b)) r (mid a b) b (upperLevel - 1) := by
    rw [Call.upper, hm, callOf, callOf, hi.highStart]
  have hl : (callOf l r a b upperLevel).middle > (callOf l r a b upperLevel).left ↔ l < mid a b := by
    rw [hm]
    exact hi.low
  have hr : (callOf l r a b upperLevel).middle < (callOf l r a b upperLevel).right ↔ mid a b < r := by
    rw [hm]
    exact hi.high
  simp only [Call.halves, hl, hr, hlow, hupp]

theorem mem_halves_callOf {l r a b : Nat} (hi : HalvingStep l r a b) (upperLevel : Int32) :
    c' ∈ (callOf l r a b upperLevel).halves ↔
      (l < mid a b ∧ c' = callOf l (min (mid a b) r) a (mid a b) (upperLevel - 1)) ∨
      (mid a b < r ∧ c' = callOf (max l (mid a b)) r (mid a b) b (upperLevel - 1)) := by
  rw [halves_callOf hi]
  simp only [List.mem_append, List.mem_ite_nil_right, List.mem_singleton]

theorem mem_calls_callOf {l r' a b : Nat} {upperLevel : Int32} (hab : a < b) (hal : a ≤ l)
    (hlb : l < b) (hrb : r' ≤ b) (hb : b < 2 ^ 31) (hc : c' ∈ r.calls (callOf l r' a b upperLevel)) :
    b ≠ a + 1 ∧
      ((l < mid a b ∧ c' = callOf l (min (mid a b) r') a (mid a b) (upperLevel - 1)) ∨
        (mid a b < r' ∧ c' = callOf (max l (mid a b)) r' (mid a b) b (upperLevel - 1))) := by
  have hi := halvingStep hab hal hrb (hlb.trans hb) hb
  obtain ⟨hgo, hc⟩ := List.mem_ite_nil_right.mp hc
  rw [mem_halves_callOf hi] at hc
  refine ⟨?_, hc⟩
  rintro rfl
  -- nothing is left of either half
  have hmid : mid a (a + 1) = a := by unfold mid; omega
  rw [hmid] at hc
  obtain ⟨hlt, -⟩ | ⟨hlt, -⟩ := hc
  · omega
  · exact absurd (stops_of_single (by omega) hlt hrb) hgo.2

theorem InTree.of_mem_calls (h : InTree (d + 1) c) (hc : c' ∈ r.calls c) :
    InTree d c' ∧ c'.upperLevel = c.upperLevel - 1 := by
  obtain ⟨l, r', a, b, he, hf, hal, hlb, hrb, hb⟩ := h
  rw [he] at hc
  obtain ⟨hone, hc⟩ := mem_calls_callOf hf.1 hal hlb hrb hb hc
  obtain ⟨hma, hmb⟩ := hf.mid_bounds hone
  obtain ⟨hlt, rfl⟩ | ⟨hlt, rfl⟩ := hc
  · exact ⟨⟨l, _, a, _, rfl, hf.left hone, hal, hlt, Nat.min_le_left _ _, by omega⟩, rfl⟩
  · exact ⟨⟨_, r', _, b, rfl, hf.right hone, Nat.le_max_right _ _, by omega, hrb, hb⟩, rfl⟩

theorem exists_callOf_of_mem_trace {l r' a b : Nat} {upperLevel : Int32} (hf : Fits d a b)
    (hal : a ≤ l) (hlb : l < b) (hrb : r' ≤ b) (hb : b < 2 ^ 31)
    (hc : c ∈ trace r.calls fuel (callOf l r' a b upperLevel)) :
    ∃ l₁ r₁ level, ∃ seg ∈ nodes d a b, c = callOf l₁ r₁ seg.lo seg.hi level ∧ l₁ < seg.hi ∧
      (r' ≤ l → r₁ ≤ l₁) := by
  induction d generalizing fuel l r' a b upperLevel with
  | zero => exact absurd hf.2.2 (Nat.lt_irrefl 0)
  | succ d ih =>
    cases fuel with
    | zero => cases hc
    | succ fuel =>
      rw [trace, List.mem_cons, List.mem_flatMap] at hc
      rw [nodes]
      obtain rfl | ⟨c', hc', hc⟩ := hc
      · exact ⟨l, r', upperLevel, _, List.mem_cons_self, rfl, hlb, id⟩
      · obtain ⟨hone, hhalf⟩ := mem_calls_callOf hf.1 hal hlb hrb hb hc'
        obtain ⟨hma, hmb⟩ := hf.mid_bounds hone
        rw [if_neg hone]
        obtain ⟨hlt, rfl⟩ | ⟨hlt, rfl⟩ := hhalf
        · obtain ⟨l₁, r₁, level, seg, hseg, he, hl, hinv⟩ :=
            ih (hf.left hone) hal hlt (Nat.min_le_left _ _) (by omega) hc
          exact ⟨l₁, r₁, level, seg, List.mem_cons_of_mem _ (List.mem_append_left _ hseg), he, hl,
            fun h => hinv ((Nat.min_le_right _ _).trans h)⟩
        · obtain ⟨l₁, r₁, level, seg, hseg, he, hl, hinv⟩ :=
            ih (hf.right hone) (Nat.le_max_right _ _) (by omega) hrb hb hc
          exact ⟨l₁, r₁, level, seg, List.mem_cons_of_mem _ (List.mem_append_right _ hseg), he, hl,
            fun h => hinv (h.trans (Nat.le_max_left _ _))⟩

theorem InTree.within (h : InTree d c) : Within r.calls d c := by
  induction d generalizing c with
  | zero =>
    obtain ⟨l, r', a, b, -, hf, -⟩ := h
    exact Nat.lt_irrefl 0 hf.2.2
  | succ d ih => exact fun c' hc => ih (h.of_mem_calls hc).1

theorem InTree.made (h : InTree d root) (hm : Made r.calls root n c) :
    n < d ∧ InTree (d - n) c ∧ c.upperLevel = root.upperLevel - Int32.ofNat n := by
  induction hm with
  | root => exact ⟨(h.within (r := r)).lt .root, h, (Int32.sub_zero _).symm⟩
  | @call n c c' hm hc ih =>
    obtain ⟨hn, ht, hl⟩ := ih
    obtain ⟨k, hk⟩ : ∃ k, d - n = k + 1 := ⟨d - n - 1, by omega⟩
    rw [hk] at ht
    obtain ⟨ht', hl'⟩ := ht.of_mem_calls hc
    refine ⟨(h.within (r := r)).lt (hm.call hc), ?_, ?_⟩
    · rwa [show d - (n + 1) = k by omega]
    · rw [hl', hl, Int32.sub_sub, Int32.ofNat_add]
      rfl

def granuleCount (g u : UInt64) : Nat := (u.toNat + g.toNat - 1) / g.toNat

section Root

variable {s : Sketch} (hg : 0 < s.granularity.toNat) (hu : 0 < s.unitSize.toNat)

include hg

theorem granules_toNat (hroom : s.unitSize.toNat + s.granularity.toNat ≤ 2 ^ 64) :
    (granules s).toNat = granuleCount s.granularity s.unitSize := by
  rw [granules, UInt64.toNat_div, toNat_add_sub_one hg hroom]
  rfl

include hu

theorem granule_lt (x : UInt64) :
    (x % s.unitSize / s.granularity).toNat < granuleCount s.granularity s.unitSize := by
  have hx : x.toNat % s.unitSize.toNat < s.unitSize.toNat := Nat.mod_lt _ hu
  have hle : x.toNat % s.unitSize.toNat / s.granularity.toNat ≤
      (s.unitSize.toNat - 1) / s.granularity.toNat := Nat.div_le_div_right (by omega)
  have hadd := Nat.add_div_right (s.unitSize.toNat - 1) hg
  rw [UInt64.toNat_div, UInt64.toNat_mod, granuleCount,
    show s.unitSize.toNat + s.granularity.toNat - 1 =
      s.unitSize.toNat - 1 + s.granularity.toNat by omega, hadd]
  omega

theorem rootCall_inTree (hroom : s.unitSize.toNat + s.granularity.toNat ≤ 2 ^ 64)
    (hsmall : granuleCount s.granularity s.unitSize < 2 ^ 31) (t size : UInt64) :
    InTree (Nat.clog 2 (granuleCount s.granularity s.unitSize) + 1) (rootCall s t size) := by
  have hl := granule_lt hg hu t
  have hr := granule_lt hg hu (t + size)
  refine ⟨_, _, 0, _, ?_, fits_clog (by omega), Nat.zero_le _, hl, hr.le, hsmall⟩
  rw [← granules_toNat hg hroom]
  rfl

end Root

def Recursion.run (hash : UInt64 → UInt64 → UInt32) (r : Recursion) (fuel : Nat) (s : Sketch)
    (unitId t size : UInt64) : Except Fault (Int32 ⊕ Sketch) :=
  let c := rootCall s t size
  match r with
  | .intervalFrequency => Sum.inl <$> IntervalSketch.innerFrequency hash fuel s unitId (baseOf s t)
      c.left c.right c.start c.stop c.upperLevel
  | .intervalRecord => Sum.inr <$> IntervalSketch.innerRecordAccess hash fuel
      { s with refCnt := s.refCnt + 1 } unitId (baseOf s t) c.left c.right c.start c.stop c.upperLevel
  | .gxjFrequency => Sum.inl <$> GxjSketch.innerFrequency hash fuel s unitId (baseOf s t)
      c.left c.right c.start c.stop c.upperLevel
  | .gxjRecord => Sum.inr <$> GxjSketch.innerRecordAccess hash fuel
      { s with refCnt := s.refCnt + 1 } unitId (baseOf s t) c.left c.right c.start c.stop c.upperLevel

/-- The four functions on the counters of one level avoid the bad faults where `P` holds, and keep
it. -/
structure Tame (hash : UInt64 → UInt64 → UInt32) (bad : Fault → Prop) (P : Sketch → Prop)
    (level : Int32) : Prop where
  getLazy : ∀ s unitId base start stop, P s →
    Avoids bad (getLazyAddCnt hash s unitId base start stop level)
  getDyadic : ∀ s unitId base start stop, P s →
    Avoids bad (getDyadicCnt hash s unitId base start stop level)
  incLazy : ∀ s unitId base start stop, P s →
    Avoids bad (incLazyAddCnt hash s unitId base start stop level) ∧
      ∀ s', incLazyAddCnt hash s unitId base start stop level = .ok s' → P s'
  incDyadic : ∀ s unitId base start stop, P s →
    Avoids bad (incDyadicCnt hash s unitId base start stop 1 level) ∧
      ∀ s', incDyadicCnt hash s unitId base start stop 1 level = .ok s' → P s'

section Avoid

variable {bad : Fault → Prop} {P : Sketch → Prop} {s : Sketch}

theorem Tame.intervalCount (h : Tame hash bad P (c.upperLevel - 1)) (ha : c.Asserted) (hs : P s) :
    Avoids bad (intervalCount hash unitId base s c) := by
  rw [RangeCalls.intervalCount, if_neg (not_not_intro ha)]
  split
  · exact h.getDyadic s unitId base c.start c.stop hs
  · exact avoids_ok bad 0

theorem Tame.intervalMark (h : Tame hash bad P (c.upperLevel - 1)) (ha : c.Asserted) (hs : P s) :
    Avoids bad (intervalMark hash unitId base s c) ∧
      ∀ s', intervalMark hash unitId base s c = .ok s' → P s' := by
  rw [RangeCalls.intervalMark, if_neg (not_not_intro ha)]
  exact h.incDyadic s unitId base c.start c.stop hs

theorem Tame.gxjCount (h : Tame hash bad P (c.upperLevel - 1)) (ha : c.Asserted) (hs : P s) :
    Avoids bad (gxjCount hash unitId base s c) := by
  rw [RangeCalls.gxjCount, if_neg (not_not_intro ha)]
  refine (h.getLazy s unitId base c.start c.stop hs).bind fun lazyAddCnt _ => ?_
  split
  · exact (h.getDyadic s unitId base c.start c.stop hs).bind fun _ _ => avoids_ok bad _
  · exact avoids_ok bad _

theorem Tame.gxjMark (h : Tame hash bad P (c.upperLevel - 1)) (ha : c.Asserted) (hs : P s) :
    Avoids bad (gxjMark hash unitId base s c) ∧
      ∀ s', gxjMark hash unitId base s c = .ok s' → P s' := by
  rw [RangeCalls.gxjMark, if_neg (not_not_intro ha)]
  split
  · exact h.incLazy s unitId base c.start c.stop hs
  · split
    · exact h.incDyadic s unitId base c.start c.stop hs
    · refine ⟨avoids_ok bad s, fun s' hs' => ?_⟩
      cases hs'
      exact hs

theorem Recursion.run_avoids (r : Recursion) {t size : UInt64}
    (hroot : InTree d (rootCall s t size)) (hd : d ≤ fuel)
    (h : ∀ n < d, Tame hash bad P (s.counterLevel - Int32.ofNat n - 1)) (hs : P s)
    (hs' : P { s with refCnt := s.refCnt + 1 }) :
    Avoids bad (r.run hash fuel s unitId t size) := by
  have hmade : ∀ {r : Recursion} {n c}, Made r.calls (rootCall s t size) n c →
      Tame hash bad P (c.upperLevel - 1) ∧ c.Asserted := by
    intro r n c hm
    obtain ⟨hn, ht, hl⟩ := hroot.made hm
    rw [hl]
    exact ⟨h n hn, ht.asserted⟩
  cases r with
  | intervalFrequency =>
    rw [Recursion.run, interval_innerFrequency_eq]
    exact (collect_avoids hroot.within hd fun n c hm =>
      (hmade hm).1.intervalCount (hmade hm).2 hs).bind fun _ _ => avoids_ok bad _
  | intervalRecord =>
    rw [Recursion.run, interval_innerRecordAccess_eq]
    exact (visit_avoids hroot.within hd (fun n c hm s hs =>
      (hmade hm).1.intervalMark (hmade hm).2 hs) hs').1.bind fun _ _ => avoids_ok bad _
  | gxjFrequency =>
    rw [Recursion.run, gxj_innerFrequency_eq]
    exact (collect_avoids hroot.within hd fun n c hm =>
      (hmade hm).1.gxjCount (hmade hm).2 hs).bind fun _ _ => avoids_ok bad _
  | gxjRecord =>
    rw [Recursion.run, gxj_innerRecordAccess_eq]
    exact (visit_avoids hroot.within hd (fun n c hm s hs =>
      (hmade hm).1.gxjMark (hmade hm).2 hs) hs').1.bind fun _ _ => avoids_ok bad _

end Avoid

end DistExp.RangeCalls
