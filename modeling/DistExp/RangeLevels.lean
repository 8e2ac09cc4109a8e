import DistExp.RangeRuns

namespace DistExp.RangeLevels

open DistExp.Library.MachineInt DistExp.Library.HalvingTree DistExp.Library.CallTree
open DistExp.PackedTable DistExp.RangeSketch DistExp.RangeCounters DistExp.RangeGeometry
open DistExp.RangeCalls DistExp.ResetThreads DistExp.RangeRuns

/-- The calls that go on to read or raise counters of their level. While a reset is pending an
access is not recorded at all. -/
def Touches (s : Sketch) (r : Recursion) (c : Call) : Prop :=
  c.Asserted ∧ match r with
    | .intervalFrequency => c.Whole
    | .intervalRecord => s.doingReset = false
    | .gxjFrequency => True
    | .gxjRecord => s.doingReset = false ∧ (c.Whole ∨
        GxjSketch.tryEstAdd { s with refCnt := s.refCnt + 1 } c.left c.right c.start c.stop = true)

def sketchClassOf : Recursion → SketchClass
  | .intervalFrequency => .interval
  | .intervalRecord => .interval
  | .gxjFrequency => .gxj
  | .gxjRecord => .gxj

def LevelsExist (sketchClass : SketchClass) (s : Sketch) : Prop :=
  ∀ (r : Recursion) (t size : UInt64) (n : Nat) (c : Call), sketchClassOf r = sketchClass →
    Made r.calls (rootCall s t size) n c → Touches s r c →
      0 ≤ c.upperLevel - 1 ∧ c.upperLevel - 1 < s.counterLevel

section Rounding

variable {g u : UInt64}

theorem granuleCount_of_dvd (hg : 0 < g.toNat) (h : g.toNat ∣ u.toNat) :
    granuleCount g u = u.toNat / g.toNat := by
  obtain ⟨m, hm⟩ := h
  rw [granuleCount, hm, Nat.mul_div_cancel_left _ hg, Nat.add_sub_assoc hg, Nat.mul_add_div hg,
    Nat.div_eq_of_lt (by omega), Nat.add_zero]

theorem granuleCount_of_not_dvd (hg : 0 < g.toNat) (h : ¬ g.toNat ∣ u.toNat) :
    granuleCount g u = u.toNat / g.toNat + 1 := by
  have hmod : 0 < u.toNat % g.toNat :=
    Nat.pos_of_ne_zero fun h0 => h (Nat.dvd_of_mod_eq_zero h0)
  have hdiv := Nat.div_add_mod u.toNat g.toNat
  have hlt := Nat.mod_lt u.toNat hg
  rw [granuleCount]
  apply Nat.div_eq_of_lt_le
  · rw [Nat.add_mul, Nat.mul_comm (u.toNat / g.toNat)]
    omega
  · rw [Nat.add_mul, Nat.add_mul, Nat.mul_comm (u.toNat / g.toNat)]
    omega

theorem clog_succ_le {m : Nat} (h : ∀ k, m ≠ 2 ^ k) : Nat.clog 2 (m + 1) ≤ Nat.clog 2 m := by
  refine Nat.clog_le_of_le_pow ?_
  have hle := Nat.le_pow_clog (b := 2) (by decide) m
  have hne := h (Nat.clog 2 m)
  omega

theorem clog_granuleCount_le (hg : 0 < g.toNat)
    (h : g.toNat ∣ u.toNat ∨ ∀ k, u.toNat / g.toNat ≠ 2 ^ k) :
    Nat.clog 2 (granuleCount g u) ≤ Nat.clog 2 (u.toNat / g.toNat) := by
  by_cases hd : g.toNat ∣ u.toNat
  · rw [granuleCount_of_dvd hg hd]
  · rw [granuleCount_of_not_dvd hg hd]
    exact clog_succ_le (h.resolve_left hd)

end Rounding

section Spine

variable {k n : Nat}

theorem not_stops (r : Recursion) {l r' a b : Nat} {upperLevel : Int32} (hab : a + 1 < b)
    (hrb : r' < b) (hb : b < 2 ^ 31) : ¬ r.Stops (callOf l r' a b upperLevel) := by
  have hw : ¬ (callOf l r' a b upperLevel).Whole := by
    intro hw
    have := (ofNat_inj (by omega) hb).mp hw.2
    omega
  cases r with
  | intervalRecord =>
    intro hs
    have := (IntervalSketch.start_eq_pred_iff (by omega) hb).mp hs
    omega
  | intervalFrequency => exact hw
  | gxjFrequency => exact hw
  | gxjRecord => exact hw

theorem two_pow_sub_eq (h : n < k) : 2 ^ (k - n) = 2 * 2 ^ (k - (n + 1)) := by
  obtain ⟨m, rfl⟩ : ∃ m, k = m + (n + 1) := ⟨k - (n + 1), by omega⟩
  rw [show m + (n + 1) - n = m + 1 by omega, Nat.add_sub_cancel, Nat.pow_succ, Nat.mul_comm]

theorem made_spine (r : Recursion) (hk : k < 30) (upperLevel : Int32) (hn : n ≤ k) :
    Made r.calls (callOf (2 ^ k - 1) (2 ^ k) 0 (2 ^ k + 1) upperLevel) n
      (callOf (2 ^ k - 1) (2 ^ k) (2 ^ k - 2 ^ (k - n)) (2 ^ k + 1) (upperLevel - Int32.ofNat n)) := by
  have hpow : 2 ^ k ≤ 2 ^ 30 := Nat.pow_le_pow_right (by decide) hk.le
  induction n with
  | zero =>
    have h0 : upperLevel - Int32.ofNat 0 = upperLevel := Int32.sub_zero _
    rw [h0, Nat.sub_zero, Nat.sub_self]
    exact .root
  | succ n ih =>
    have hhalf := two_pow_sub_eq (show n < k by omega)
    have hpos := Nat.two_pow_pos (k - (n + 1))
    have hle : 2 ^ (k - n) ≤ 2 ^ k := Nat.pow_le_pow_right (by decide) (by omega)
    have hmid : mid (2 ^ k - 2 ^ (k - n)) (2 ^ k + 1) = 2 ^ k - 2 ^ (k - (n + 1)) := by
      unfold mid
      omega
    have hi := halvingStep (l := 2 ^ k - 1) (r := 2 ^ k) (a := 2 ^ k - 2 ^ (k - n)) (b := 2 ^ k + 1)
      (by omega) (by omega) (by omega) (by omega) (by omega)
    refine (ih (by omega)).call (List.mem_ite_nil_right.mpr ⟨⟨not_not.mp hi.guard, not_stops r
      (by omega) (by omega) (by omega)⟩, ?_⟩)
    rw [mem_halves_callOf hi, hmid, Nat.max_eq_left (by omega)]
    refine Or.inr ⟨by omega, ?_⟩
    rw [Int32.ofNat_add, ← Int32.sub_sub]
    rfl

theorem made_leaf (r : Recursion) (hk : k < 30) (upperLevel : Int32) :
    Made r.calls (callOf (2 ^ k - 1) (2 ^ k) 0 (2 ^ k + 1) upperLevel) (k + 1)
      (callOf (2 ^ k - 1) (2 ^ k) (2 ^ k - 1) (2 ^ k) (upperLevel - Int32.ofNat k - 1)) := by
  have hpow : 2 ^ k ≤ 2 ^ 30 := Nat.pow_le_pow_right (by decide) hk.le
  have hpos := Nat.two_pow_pos k
  have hspine := made_spine r hk upperLevel (Nat.le_refl k)
  rw [Nat.sub_self, Nat.pow_zero] at hspine
  have hmid : mid (2 ^ k - 1) (2 ^ k + 1) = 2 ^ k := by
    unfold mid
    omega
  have hi := halvingStep (l := 2 ^ k - 1) (r := 2 ^ k) (a := 2 ^ k - 1) (b := 2 ^ k + 1)
    (by omega) (by omega) (by omega) (by omega) (by omega)
  refine hspine.call (List.mem_ite_nil_right.mpr ⟨⟨not_not.mp hi.guard, not_stops r
    (by omega) (by omega) (by omega)⟩, ?_⟩)
  rw [mem_halves_callOf hi, hmid, Nat.min_self]
  exact Or.inl ⟨by omega, rfl⟩

end Spine

variable {hash : UInt64 → UInt64 → UInt32} {sketchClass : SketchClass} {g u : UInt64} {s : Sketch}

theorem granuleCount_le (hg : 0 < g.toNat) : granuleCount g u ≤ u.toNat / g.toNat + 1 := by
  by_cases hd : g.toNat ∣ u.toNat
  · rw [granuleCount_of_dvd hg hd]
    exact Nat.le_succ _
  · rw [granuleCount_of_not_dvd hg hd]

theorem rootCall_eq_callOf {N : Nat} (hgeo : Geometry g u N) (hg : s.granularity = g)
    (hu : s.unitSize = u) (a : Access) :
    rootCall s a.t a.size = callOf (a.left g u) (a.right g u) 0 N s.counterLevel := by
  have hstop : toInt (granules s) = Int32.ofNat N := by
    rw [toInt, granules, hg, hu, hgeo.round_up]
  rw [rootCall, leftOf, rightOf, hstop, hg, hu]
  rfl

theorem ready_rootCall_inTree {N p : Nat} (h : Ready g u N p s) (t size : UInt64) :
    InTree (Nat.clog 2 N + 1) (rootCall s t size) := by
  have hgs := h.granularity_eq
  have hus := h.unitSize_eq
  have hcount : granuleCount s.granularity s.unitSize = N := by
    rw [hgs, hus, granuleCount_of_dvd h.geometry.granularity_pos
      ⟨N, by rw [h.geometry.unitSize_eq, Nat.mul_comm]⟩, ← UInt64.toNat_div, h.geometry.div_eq]
  have hroot := rootCall_inTree (s := s) (by rw [hgs]; exact h.geometry.granularity_pos)
    (by rw [hus]; exact h.geometry.unitSize_pos) (by rw [hgs, hus]; exact h.geometry.room)
    (by rw [hcount]; exact h.small) t size
  rwa [hcount] at hroot

theorem calls_rootCall_of_zero (h : granules s = 0) (r : Recursion) (t size : UInt64) :
    r.calls (rootCall s t size) = [] := by
  have hc : rootCall s t size = ⟨leftOf s t, rightOf s t size, 0, 0, s.counterLevel⟩ := by
    rw [rootCall, h]
    rfl
  rw [hc, Recursion.calls]
  split
  · next hgo =>
    have hl : ¬ (0 : Int32) > leftOf s t := Int32.not_lt.mpr hgo.1.1
    have hr : ¬ (0 : Int32) < rightOf s t size := Int32.not_lt.mpr hgo.1.2
    have hm : (⟨leftOf s t, rightOf s t size, 0, 0, s.counterLevel⟩ : Call).middle = 0 :=
      show (0 : Int32) + (0 - 0) / 2 = 0 by decide
    rw [Call.halves, hm]
    exact List.append_eq_nil_iff.mpr ⟨if_neg hl, if_neg hr⟩
  · rfl

/-- The level of a call, in a sketch with as many levels as its tree has. A unit that does not fit
64 bits once rounded up is a tree of no granules, and its calls make no others. -/
theorem level_of_made {n : Int32} {p levels : Nat} (hacc : Accepted n g u p levels)
    (hlay : SameLayout (fresh n g u p levels) s) (hunits : u.toNat / g.toNat ≤ 2 ^ 30)
    (hround : g.toNat ∣ u.toNat ∨ ∀ k, u.toNat / g.toNat ≠ 2 ^ k) {r : Recursion} {t size : UInt64}
    {d : Nat} {c : Call} (hm : Made r.calls (rootCall s t size) d c) :
    ∃ level < levels, c.upperLevel - 1 = Int32.ofNat level := by
  have hg := hacc.granularity_pos
  have hpos := hacc.units_pos
  have hdiv := UInt64.toNat_div u g
  have hgs : s.granularity = g := hlay.granularity_eq
  have hus : s.unitSize = u := hlay.unitSize_eq
  have hlv : s.counterLevel = Int32.ofNat levels := hlay.counterLevel_eq
  have hlevels := hacc.levels_clog hpos (by omega)
  have hdeep := clog_granuleCount_le hg hround
  have hcount := granuleCount_le (u := u) hg
  rw [hdiv] at hlevels hpos
  have hlevel {k : Nat} (hk : k < levels) (hup : c.upperLevel = s.counterLevel - Int32.ofNat k) :
      ∃ level < levels, c.upperLevel - 1 = Int32.ofNat level := by
    refine ⟨levels - k - 1, by omega, ?_⟩
    rw [hup, hlv, ofNat_sub_sub_one hk]
  by_cases hroom : u.toNat + g.toNat ≤ 2 ^ 64
  · have hu : 0 < u.toNat := Nat.pos_of_ne_zero fun h0 => by
      rw [h0, Nat.zero_div] at hpos
      exact Nat.lt_irrefl 0 hpos
    have hroot := rootCall_inTree (s := s) (by rw [hgs]; exact hg) (by rw [hus]; exact hu)
      (by rw [hgs, hus]; exact hroom) (by rw [hgs, hus]; omega) t size
    obtain ⟨hd, -, hup⟩ := hroot.made hm
    rw [hgs, hus] at hd
    exact hlevel (by omega) hup
  · have hzero := granules_of_wrapped hgs hus hg (by omega)
    have hroot := made_of_calls_nil (calls_rootCall_of_zero hzero r t size) hm
    exact hlevel (k := 0) (by omega) (hroot ▸ (Int32.sub_zero _).symm)

theorem levelsExist_of_built (h : Built g u s) (hunits : u.toNat / g.toNat < 2 ^ 30)
    (hround : g.toNat ∣ u.toNat ∨ ∀ k, u.toNat / g.toNat ≠ 2 ^ k) : LevelsExist sketchClass s := by
  obtain ⟨cap, p, levels, hacc, hlay⟩ := h
  have hlv : s.counterLevel = Int32.ofNat levels := hlay.counterLevel_eq
  have hlevels := hacc.levels_clog hacc.units_pos (by rw [UInt64.toNat_div]; omega)
  have hlog : Nat.clog 2 (u / g).toNat ≤ 30 :=
    Nat.clog_le_of_le_pow (by rw [UInt64.toNat_div]; omega)
  intro r t size n c _ hm _
  obtain ⟨level, hlt, hlevel⟩ := level_of_made hacc hlay hunits.le hround hm
  rw [hlevel, hlv]
  exact ⟨(Int32.ofNat_le_iff_le (by decide) (by omega)).mpr (Nat.zero_le _),
    (Int32.ofNat_lt_iff_lt (by omega) (by omega)).mpr hlt⟩

theorem rootCall_last {k : Nat} (hg : 0 < s.granularity.toNat)
    (hunits : s.unitSize.toNat / s.granularity.toNat = 2 ^ k)
    (hd : ¬ s.granularity.toNat ∣ s.unitSize.toNat)
    (hroom : s.unitSize.toNat + s.granularity.toNat < 2 ^ 64) :
    rootCall s (UInt64.ofNat ((2 ^ k - 1) * s.granularity.toNat)) s.granularity =
      callOf (2 ^ k - 1) (2 ^ k) 0 (2 ^ k + 1) s.counterLevel := by
  have hpos := Nat.two_pow_pos k
  have hmod : 0 < s.unitSize.toNat % s.granularity.toNat :=
    Nat.pos_of_ne_zero fun h0 => hd (Nat.dvd_of_mod_eq_zero h0)
  have hsplit := Nat.div_add_mod s.unitSize.toNat s.granularity.toNat
  rw [hunits] at hsplit
  have hmul : (2 ^ k - 1) * s.granularity.toNat + s.granularity.toNat =
      s.granularity.toNat * 2 ^ k := by
    rw [← Nat.succ_mul, Nat.succ_eq_add_one, Nat.sub_add_cancel hpos, Nat.mul_comm]
  have ht : (UInt64.ofNat ((2 ^ k - 1) * s.granularity.toNat)).toNat =
      (2 ^ k - 1) * s.granularity.toNat := UInt64.toNat_ofNat_of_lt' (show _ < 2 ^ 64 by omega)
  have hleft : leftOf s (UInt64.ofNat ((2 ^ k - 1) * s.granularity.toNat)) =
      Int32.ofNat (2 ^ k - 1) := by
    rw [leftOf, toInt, UInt64.toNat_div, UInt64.toNat_mod, ht, Nat.mod_eq_of_lt (by omega),
      Nat.mul_div_cancel _ hg]
  have hright : rightOf s (UInt64.ofNat ((2 ^ k - 1) * s.granularity.toNat)) s.granularity =
      Int32.ofNat (2 ^ k) := by
    rw [rightOf, toInt, UInt64.toNat_div, UInt64.toNat_mod, UInt64.toNat_add, ht, hmul,
      Nat.mod_eq_of_lt (by omega), Nat.mod_eq_of_lt (by omega), Nat.mul_div_cancel_left _ hg]
  have hstop : toInt (granules s) = Int32.ofNat (2 ^ k + 1) := by
    rw [toInt, granules_toNat hg hroom.le, granuleCount_of_not_dvd hg hd, hunits]
  rw [rootCall, hleft, hright, hstop]
  rfl

/-- The levels are counted from the whole granules of a unit, the tree is over all of them: every
call of every run finds its level exactly when a unit is whole granules or the number of whole
ones is no power of two. -/
theorem levels_exist_iff (hash : UInt64 → UInt64 → UInt32) (sketchClass : SketchClass) {n : Int32}
    (hs : construct n g u = .ok s) (hroom : u.toNat + g.toNat < 2 ^ 64)
    (hunits : u.toNat / g.toNat < 2 ^ 30) :
    (∀ s, Reached hash sketchClass g u s → LevelsExist sketchClass s) ↔
      (g.toNat ∣ u.toNat ∨ ∀ k, u.toNat / g.toNat ≠ 2 ^ k) := by
  constructor
  · intro hall
    by_contra hround
    rw [not_or, not_forall] at hround
    obtain ⟨hd, k, hk⟩ := hround
    rw [not_not] at hk
    have hexist := hall s (reached_of_construct hash sketchClass hs)
    obtain ⟨p, levels, hacc, rfl⟩ := accepted_of_construct hs
    have hg := hacc.granularity_pos
    have hk30 : k < 30 := by
      rw [hk] at hunits
      exact (Nat.pow_lt_pow_iff_right (by decide)).mp hunits
    have hlevels := hacc.levels_clog hacc.units_pos (by rw [UInt64.toNat_div]; omega)
    rw [UInt64.toNat_div, hk, Nat.clog_pow _ _ (by decide)] at hlevels
    have hroot := rootCall_last (s := fresh n g u p levels) hg hk hd hroom
    have hmade (r : Recursion) : Made r.calls
        (rootCall (fresh n g u p levels) (UInt64.ofNat ((2 ^ k - 1) * g.toNat)) g) (k + 1)
        (callOf (2 ^ k - 1) (2 ^ k) (2 ^ k - 1) (2 ^ k) (Int32.ofNat levels - Int32.ofNat k - 1)) := by
      refine Eq.mpr (congrArg (fun c => Made r.calls c (k + 1) _) hroot) ?_
      exact made_leaf r hk30 (Int32.ofNat levels)
    have hlevel : Int32.ofNat levels - Int32.ofNat k - 1 - 1 = -1 := by
      rw [hlevels, ← Int32.ofNat_sub (k + 1) k (by omega), Nat.add_sub_cancel_left]
      rfl
    have hleaf : (callOf (2 ^ k - 1) (2 ^ k) (2 ^ k - 1) (2 ^ k)
        (Int32.ofNat levels - Int32.ofNat k - 1)).Asserted :=
      ⟨Int32.le_refl _, Int32.le_refl _⟩
    have hneg : 0 ≤ Int32.ofNat levels - Int32.ofNat k - 1 - 1 := by
      cases sketchClass with
      | interval => exact (hexist .intervalFrequency _ _ _ _ rfl (hmade _) ⟨hleaf, rfl, rfl⟩).1
      | gxj => exact (hexist .gxjFrequency _ _ _ _ rfl (hmade _) ⟨hleaf, trivial⟩).1
    exact absurd (hlevel ▸ hneg) (by decide)
  · exact fun hround s hreach => levelsExist_of_built hreach.built hunits hround

theorem levels_exist_iff_three : construct 4 1 3 = .ok (fresh 4 1 3 2 3) ∧
    LevelsExist .gxj (fresh 4 1 3 2 3) :=
  ⟨construct_three, (levels_exist_iff Detail.hash .gxj construct_three (by decide) (by decide)).mpr
    (Or.inl (by decide)) _ (reached_of_construct Detail.hash .gxj construct_three)⟩

def raggedSketch : Sketch := fresh 4 2 3 2 1

theorem construct_ragged : construct 4 2 3 = .ok raggedSketch := rfl

theorem level_missing : construct 4 2 3 = .ok raggedSketch ∧
    ¬ LevelsExist .interval raggedSketch ∧ ¬ LevelsExist .gxj raggedSketch ∧
    IntervalSketch.recordAccess Detail.hash raggedSketch 0 0 2 = .error .outOfRange ∧
    IntervalSketch.frequency Detail.hash raggedSketch 0 0 2 = .error .outOfRange ∧
    GxjSketch.recordAccess Detail.hash raggedSketch 0 0 2 = .error .outOfRange ∧
    GxjSketch.frequency Detail.hash raggedSketch 0 0 2 = .error .outOfRange := by
  have hmade (r : Recursion) (hr : ⟨0, 1, 0, 1, 0⟩ ∈ r.calls (rootCall raggedSketch 0 2)) :
      Made r.calls (rootCall raggedSketch 0 2) 1 ⟨0, 1, 0, 1, 0⟩ := Made.root.call hr
  refine ⟨construct_ragged, fun h => ?_, fun h => ?_, ?_, ?_, ?_, ?_⟩
  · exact absurd (h .intervalRecord 0 2 1 _ rfl (hmade _ (by decide)) ⟨by decide, rfl⟩).1 (by decide)
  · exact absurd (h .gxjFrequency 0 2 1 _ rfl (hmade _ (by decide)) ⟨by decide, trivial⟩).1 (by decide)
  all_goals exact eq_error_of_faultOf (by decide +kernel)

end DistExp.RangeLevels
