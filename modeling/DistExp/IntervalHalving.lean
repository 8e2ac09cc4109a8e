import DistExp.IntervalBoundary

namespace DistExp.IntervalHalving

open DistExp.Library.MachineInt DistExp.Library.AgedCounter DistExp.Library.HalvingTree
open DistExp.Library.Runs
open DistExp.PackedTable DistExp.RangeSketch DistExp.RangeCounters DistExp.RangeGeometry
open DistExp.RangeRuns DistExp.IntervalSketch DistExp.IntervalHistory DistExp.IntervalEstimates

/-- An estimate of so many granules before and after all counters were halved, where no counter is
above the cap. -/
structure Halved (cap len x x' : Nat) : Prop where
  le : 2 * x' ≤ x
  ge : x ≤ 2 * x' + len
  cap : x ≤ cap * len

theorem Halved.zero (cap : Nat) : Halved cap 0 0 0 := ⟨le_rfl, le_rfl, le_rfl⟩

theorem Halved.add {cap m n x x' y y' : Nat} (h : Halved cap m x x') (h' : Halved cap n y y') :
    Halved cap (m + n) (x + y) (x' + y') := by
  obtain ⟨hle, hge, hcap⟩ := h
  obtain ⟨hle', hge', hcap'⟩ := h'
  exact ⟨by omega, by omega, by rw [Nat.mul_add]; omega⟩

theorem Halved.mul {cap x : Nat} (hx : x ≤ cap) (n : Nat) : Halved cap n (x * n) (x / 2 * n) := by
  refine ⟨?_, ?_, Nat.mul_le_mul_right n hx⟩
  · rw [← Nat.mul_assoc]
    exact Nat.mul_le_mul_right n (by omega)
  · rw [← Nat.mul_assoc]
    calc x * n ≤ (2 * (x / 2) + 1) * n := Nat.mul_le_mul_right n (by omega)
      _ = 2 * (x / 2) * n + n := by rw [Nat.add_mul, Nat.one_mul]

def Sized (s : Sketch) : Prop := ∀ table ∈ s.mixCounters, ∃ p, PowSized p table

theorem sized_of_shape {p levels : Nat} {s : Sketch} (h : Shape p levels s) : Sized s := by
  intro table ht
  obtain ⟨i, hi, rfl⟩ := Array.mem_iff_getElem.mp ht
  refine ⟨p - i, ?_⟩
  have hs := h.sized i (h.count ▸ hi)
  rw [levelTable, Array.getElem?_eq_getElem hi] at hs
  exact hs

variable {hash : UInt64 → UInt64 → UInt32} {s : Sketch} {cap : Nat}

theorem Sized.reset (h : Sized s) : Sized (RangeSketch.reset s) := by
  intro table ht
  obtain ⟨table', ht', rfl⟩ := Array.mem_map.mp ht
  obtain ⟨p, hp⟩ := h table' ht'
  exact ⟨p, hp.reset⟩

theorem elemAt_reset {level : Int32} {table : Table} (h : elemAt s.mixCounters level = .ok table) :
    elemAt (reset s).mixCounters level = .ok (PackedTable.reset table) := by
  rw [elemAt_eq_ok_iff] at h ⊢
  rw [RangeSketch.reset, Array.getElem?_map, h]
  rfl

theorem getDyadicCnt_halved (hs : Sized s) (hcap : ∀ c, sketchCells s c ≤ cap) {unitId : UInt64}
    {base level v : Int32} {a b : Nat} (hab : a ≤ b)
    (h : getDyadicCnt hash s unitId base (Int32.ofNat a) (Int32.ofNat b) level = .ok v) :
    ∃ x x', v = Int32.ofNat x ∧ getDyadicCnt hash (reset s) unitId base (Int32.ofNat a)
      (Int32.ofNat b) level = .ok (Int32.ofNat x') ∧ Halved cap (b - a) x x' := by
  obtain ⟨table, ht, h⟩ := exists_of_bind_ok h
  obtain ⟨count, hcount, h⟩ := exists_of_bind_ok h
  cases h
  have hmem := elemAt_eq_ok_iff.mp ht
  obtain ⟨p, hp⟩ := hs table (Array.mem_of_getElem? hmem)
  let row := MixTable.rowCells p (hash unitId (toSize (base + Int32.ofNat a))) false
  have hrow : MixTable.cellOf p (hash unitId (toSize (base + Int32.ofNat a))) false 0 ∈ row :=
    MixTable.mem_rowCells.mpr ⟨0, rfl⟩
  have hle : rowMin intMax (cells table) row ≤ cap := by
    refine (rowMin_le _ _ _ hrow).trans ?_
    have hc := hcap ((toSize level).toNat,
      MixTable.cellOf p (hash unitId (toSize (base + Int32.ofNat a))) false 0)
    rw [sketchCells, levelTable, hmem] at hc
    exact hc
  have hlt : rowMin intMax (cells table) row < intMax := by
    refine ((rowMin_le _ _ _ hrow).trans (cells_le table _)).trans_lt (by decide)
  rw [MixTable.blockFrequency_eq hp] at hcount
  cases hcount
  refine ⟨_, _, ?_, ?_, Halved.mul hle (b - a)⟩
  · rw [← Int32.ofNat_sub _ _ hab, ← Int32.ofNat_mul]
  · rw [getDyadicCnt, elemAt_reset ht]
    change (MixTable.blockFrequency (PackedTable.reset table) false _ >>= _) = _
    rw [MixTable.blockFrequency_eq hp.reset, cells_reset, rowMin_halveAll _ _ _ hlt,
      ← Int32.ofNat_sub _ _ hab]
    change Except.ok _ = _
    rw [← Int32.ofNat_mul]

theorem innerFrequency_halved (hs : Sized s) (hcap : ∀ c, sketchCells s c ≤ cap) {fuel : Nat}
    {unitId : UInt64} {base upperLevel v : Int32} {l r a b : Nat} (hal : a ≤ l) (hlr : l < r)
    (hr : r < 2 ^ 31) (hb : b < 2 ^ 31)
    (h : innerFrequency hash fuel s unitId base (Int32.ofNat l) (Int32.ofNat r) (Int32.ofNat a)
      (Int32.ofNat b) upperLevel = .ok v) :
    ∃ x x', v = Int32.ofNat x ∧ innerFrequency hash fuel (reset s) unitId base (Int32.ofNat l)
      (Int32.ofNat r) (Int32.ofNat a) (Int32.ofNat b) upperLevel = .ok (Int32.ofNat x') ∧
      Halved cap (r - l) x x' := by
  induction fuel generalizing l r a b upperLevel v with
  | zero => cases h
  | succ fuel ih =>
    rw [innerFrequency] at h ⊢
    split at h
    · cases h
    · next hguard =>
      have hrb : r ≤ b := by
        have hstop := (not_not.mp hguard).2
        rwa [Int32.ofNat_le_iff_le hr hb] at hstop
      have hi := halvingStep (show a < b by omega) hal hrb (by omega) hb
      rw [if_neg hguard]
      simp only [hi.whole] at h ⊢
      by_cases hc : l = a ∧ r = b
      · rw [if_pos hc] at h ⊢
        obtain ⟨rfl, rfl⟩ := hc
        exact getDyadicCnt_halved hs hcap hlr.le h
      · rw [if_neg hc, hi.middle, hi.lowStop, hi.highStart] at h ⊢
        simp only [hi.low, hi.high] at h ⊢
        have hmid : a ≤ mid a b ∧ mid a b ≤ b := by
          unfold mid
          omega
        obtain ⟨lower, hlow, h⟩ := exists_of_bind_ok h
        obtain ⟨upper, hupp, h⟩ := exists_of_bind_ok h
        cases h
        obtain ⟨x, x', hx, hx', hhalf⟩ : ∃ x x', lower = Int32.ofNat x ∧ (if l < mid a b then
            innerFrequency hash fuel (reset s) unitId base (Int32.ofNat l)
              (Int32.ofNat (min (mid a b) r)) (Int32.ofNat a) (Int32.ofNat (mid a b))
              (upperLevel - 1)
          else .ok 0) = .ok (Int32.ofNat x') ∧ Halved cap (min (mid a b) r - l) x x' := by
          by_cases hlm : l < mid a b
          · rw [if_pos hlm] at hlow ⊢
            exact ih hal (by omega) (by omega) (by omega) hlow
          · rw [if_neg hlm] at hlow ⊢
            cases hlow
            refine ⟨0, 0, rfl, rfl, ?_⟩
            rw [Nat.sub_eq_zero_of_le (by omega)]
            exact Halved.zero cap
        obtain ⟨y, y', hy, hy', hhalf'⟩ : ∃ y y', upper = Int32.ofNat y ∧ (if mid a b < r then
            innerFrequency hash fuel (reset s) unitId base (Int32.ofNat (max l (mid a b)))
              (Int32.ofNat r) (Int32.ofNat (mid a b)) (Int32.ofNat b) (upperLevel - 1)
          else .ok 0) = .ok (Int32.ofNat y') ∧ Halved cap (r - max l (mid a b)) y y' := by
          by_cases hmr : mid a b < r
          · rw [if_pos hmr] at hupp ⊢
            exact ih (Nat.le_max_right _ _) (by omega) hr hb hupp
          · rw [if_neg hmr] at hupp ⊢
            cases hupp
            refine ⟨0, 0, rfl, rfl, ?_⟩
            rw [Nat.sub_eq_zero_of_le (by omega)]
            exact Halved.zero cap
        refine ⟨x + y, x' + y', ?_, ?_, ?_⟩
        · rw [hx, hy, Int32.ofNat_add]
        · rw [hx', hy', Int32.ofNat_add]
          rfl
        · have hlen : r - l = (min (mid a b) r - l) + (r - max l (mid a b)) := by omega
          rw [hlen]
          exact hhalf.add hhalf'

theorem toInt_ofNat_mod (n : Nat) : Int32.ofNat n = Int32.ofNat (n % 2 ^ 32) :=
  ofNat_eq_iff_modEq.mpr (Nat.mod_modEq n _).symm

theorem toInt_ofNat_ge {n : Nat} (hlo : 2 ^ 31 ≤ n) (hhi : n < 2 ^ 32) :
    (Int32.ofNat n).toInt = n - 2 ^ 32 := by
  have hsize : Int32.size = 4294967296 := rfl
  rw [Int32.toInt_ofNat', hsize, Int.bmod_def]
  omega

theorem innerFrequency_of_wrapped {fuel : Nat} {unitId : UInt64} {base stop upperLevel v : Int32}
    {l r : Nat} (hl : 2 ^ 30 ≤ l) (hl31 : l < 2 ^ 31) (hr : 2 ^ 31 ≤ r) (hr32 : r < 2 ^ 31 + 2 ^ 29)
    (h : innerFrequency hash (fuel + 1) s unitId base (Int32.ofNat l) (Int32.ofNat r) 0 stop
      upperLevel = .ok v) :
    v = 0 ∧ innerFrequency hash (fuel + 1) (reset s) unitId base (Int32.ofNat l) (Int32.ofNat r) 0
      stop upperLevel = .ok 0 := by
  have hleft := Int32.toInt_ofNat_of_lt hl31
  have hright := toInt_ofNat_ge hr (by omega)
  have hmid : ((0 : Int32) + (stop - 0) / 2).toInt = stop.toInt.tdiv 2 := by
    rw [Int32.zero_add, Int32.sub_zero, Int32.toInt_div_of_ne_right _ _ (by decide)]
    rfl
  have hstop := stop.toInt_lt
  have hstop' := stop.le_toInt
  have hdiv := Int.mul_tdiv_add_tmod stop.toInt 2
  have hrest := Int.tmod_lt_of_pos stop.toInt (show 0 < 2 by decide)
  have hrest' := Int.lt_tmod_of_pos stop.toInt (show 0 < 2 by decide)
  have hlow : ¬ (0 : Int32) + (stop - 0) / 2 > Int32.ofNat l := by
    rw [gt_iff_lt, Int32.lt_iff_toInt_lt, hmid, hleft]
    omega
  have hhigh : ¬ (0 : Int32) + (stop - 0) / 2 < Int32.ofNat r := by
    rw [Int32.lt_iff_toInt_lt, hmid, hright]
    omega
  have hne : ¬ (Int32.ofNat l = 0 ∧ Int32.ofNat r = stop) := by
    rintro ⟨h0, -⟩
    rw [h0] at hleft
    have hz : (0 : Int32).toInt = 0 := rfl
    omega
  rw [innerFrequency] at h ⊢
  split at h
  · cases h
  · next hguard =>
    rw [if_neg hguard, if_neg hne]
    dsimp only at h ⊢
    rw [if_neg hlow, if_neg hhigh] at h ⊢
    cases h
    exact ⟨rfl, rfl⟩

theorem innerFrequency_root_halved (hs : Sized s) (hcap : ∀ c, sketchCells s c ≤ cap) {fuel : Nat}
    {unitId : UInt64} {base upperLevel v : Int32} {l len b : Nat} (hl : l < 2 ^ 32)
    (hb : b < 2 ^ 32) (hpos : 0 < len) (hlen : len ≤ 2 ^ 29)
    (h : innerFrequency hash (fuel + 1) s unitId base (Int32.ofNat l) (Int32.ofNat (l + len)) 0
      (Int32.ofNat b) upperLevel = .ok v) :
    ∃ x x', v = Int32.ofNat x ∧ innerFrequency hash (fuel + 1) (reset s) unitId base
      (Int32.ofNat l) (Int32.ofNat (l + len)) 0 (Int32.ofNat b) upperLevel = .ok (Int32.ofNat x') ∧
      Halved cap len x x' := by
  obtain ⟨hlo, hhi⟩ : (0 : Int32) ≤ Int32.ofNat l ∧ Int32.ofNat (l + len) ≤ Int32.ofNat b := by
    by_contra hguard
    rw [innerFrequency, if_pos hguard] at h
    cases h
  rw [Int32.le_iff_toInt_le] at hlo hhi
  have hzero : (0 : Int32).toInt = 0 := rfl
  have hl31 : l < 2 ^ 31 := by
    by_contra hge
    rw [toInt_ofNat_ge (not_lt.mp hge) hl, hzero] at hlo
    omega
  by_cases hr : l + len < 2 ^ 31
  · have hb31 : b < 2 ^ 31 := by
      by_contra hge
      rw [Int32.toInt_ofNat_of_lt hr, toInt_ofNat_ge (not_lt.mp hge) hb] at hhi
      omega
    have hhalf :=
      innerFrequency_halved hs hcap (Nat.zero_le l) (Nat.lt_add_of_pos_right hpos) hr hb31 h
    rwa [Nat.add_sub_cancel_left] at hhalf
  · obtain ⟨rfl, hreset⟩ := innerFrequency_of_wrapped (by omega) hl31 (not_lt.mp hr) (by omega) h
    exact ⟨0, 0, rfl, hreset, le_rfl, Nat.zero_le _, Nat.zero_le _⟩

theorem frequency_halved (hs : Sized s) (hcap : ∀ c, sketchCells s c ≤ cap) {q : Access} {v : Int32}
    {l r : Nat} (hl : q.left s.granularity s.unitSize = l) (hr : q.right s.granularity s.unitSize = r)
    (hlr : l < r) (hlen : r - l ≤ 2 ^ 29) (h : frequency hash s q.unitId q.t q.size = .ok v) :
    ∃ x x', v = Int32.ofNat x ∧
      frequency hash (reset s) q.unitId q.t q.size = .ok (Int32.ofNat x') ∧
      Halved cap (r - l) x x' := by
  have hleft : leftOf s q.t = Int32.ofNat (l % 2 ^ 32) := by
    rw [← hl, ← toInt_ofNat_mod]
    rfl
  have hright : rightOf s q.t q.size = Int32.ofNat (l % 2 ^ 32 + (r - l)) := by
    have hof : rightOf s q.t q.size = Int32.ofNat r := by
      rw [← hr]
      rfl
    rw [hof, ofNat_eq_iff_modEq, Nat.ModEq]
    omega
  have hstop : toInt (granules s) = Int32.ofNat ((granules s).toNat % 2 ^ 32) := by
    rw [← toInt_ofNat_mod]
    rfl
  have hreset : frequency hash (reset s) q.unitId q.t q.size =
      innerFrequency hash fuel (reset s) q.unitId (baseOf s q.t) (leftOf s q.t)
        (rightOf s q.t q.size) 0 (toInt (granules s)) s.counterLevel := rfl
  rw [frequency, hleft, hright, hstop] at h
  rw [hreset, hleft, hright, hstop]
  exact innerFrequency_root_halved hs hcap (Nat.mod_lt _ (by decide)) (Nat.mod_lt _ (by decide))
    (Nat.sub_pos_of_lt hlr) hlen h

theorem sized_of_built {g u : UInt64} (hs : Built g u s)
    (hne : ∀ table ∈ s.mixCounters, 0 < table.size) : Sized s := by
  obtain ⟨n, p, levels, hacc, hlay⟩ := hs
  exact sized_of_shape (shape_of_sameLayout hacc hlay (levels_le_of_nonempty (hlay.nonempty hne)))

/-- Halving all counters halves every estimate that is an `int`, up to the length of its range. -/
theorem halving_halves {g u : UInt64} {N : Nat} (hs : Built g u s)
    (hne : ∀ table ∈ s.mixCounters, 0 < table.size) (hN : 1 ≤ N) (hu : u.toNat = N * g.toNat)
    {q : Access} (hlr : q.left g u < q.right g u)
    (hfit : 15 * (q.right g u - q.left g u) < 2 ^ 31) :
    (∀ f, frequency hash s q.unitId q.t q.size = .ok f →
      ∃ f', frequency hash (mustReset s) q.unitId q.t q.size = .ok f' ∧
        frequency hash (softReset s) q.unitId q.t q.size = .ok f' ∧
        2 * f'.toInt ≤ f.toInt ∧
        f.toInt ≤ 2 * f'.toInt + ((q.right g u - q.left g u : Nat) : Int)) ∧
    (u.toNat + g.toNat ≤ 2 ^ 64 → N < 2 ^ 31 →
      ∃ f, frequency hash s q.unitId q.t q.size = .ok f) := by
  refine ⟨fun f hf => ?_, fun hroom hsmall => ?_⟩
  · have hsized := sized_of_built hs hne
    obtain ⟨n, p, levels, hacc, hlay⟩ := hs
    have hl : q.left s.granularity s.unitSize = q.left g u := by
      rw [hlay.granularity_eq, hlay.unitSize_eq]
      rfl
    have hr : q.right s.granularity s.unitSize = q.right g u := by
      rw [hlay.granularity_eq, hlay.unitSize_eq]
      rfl
    obtain ⟨x, x', rfl, hf', hle, hge, hcap⟩ :=
      frequency_halved hsized (sketchCells_le s) hl hr hlr (by omega) hf
    refine ⟨_, hf', hf', ?_⟩
    rw [Int32.toInt_ofNat_of_lt (by omega), Int32.toInt_ofNat_of_lt (by omega)]
    exact ⟨by omega, by omega⟩
  · obtain ⟨n, p, levels, hacc, hlay⟩ := id hs
    obtain ⟨p, hready⟩ := hs.ready ⟨hacc.granularity_pos, hN, hu, hroom⟩ hsmall hne
    exact ⟨_, frequency_eq hash hready hlr⟩

def fullSketch : Sketch := { fresh 4 1 3 2 3 with
  mixCounters := (fresh 4 1 3 2 3).mixCounters.map fun table => table.map fun _ => 0xffffffffffffffff }

theorem built_full : Built 1 3 fullSketch :=
  (built_of_construct construct_three).of_sameLayout ⟨by decide +kernel, rfl, rfl, rfl, rfl⟩

theorem halving_halves_full :
    ∃ f f', frequency Detail.hash fullSketch 0 3 2 = .ok f ∧
      frequency Detail.hash (mustReset fullSketch) 0 3 2 = .ok f' ∧
      2 * f'.toInt ≤ f.toInt ∧ f.toInt ≤ 2 * f'.toInt + 2 := by
  obtain ⟨hhalf, hsome⟩ := @halving_halves Detail.hash fullSketch 1 3 3 built_full
    (by decide +kernel) (by decide) (by decide) ⟨0, 3, 2⟩ (by decide) (by decide)
  obtain ⟨f, hf⟩ := hsome (by decide) (by decide)
  obtain ⟨f', hf', -, hle, hge⟩ := hhalf f hf
  exact ⟨f, f', hf, hf', hle, hge⟩

theorem halved_sum_larger :
    construct 268435456 1 268435456 = .ok hugeSketch ∧
      ∃ s f f', (List.replicate 15 (.record hugeAccess)).foldlM (Op.run Detail.hash) hugeSketch =
          .ok s ∧ frequency Detail.hash s 0 0 268435455 = .ok f ∧
        frequency Detail.hash (mustReset s) 0 0 268435455 = .ok f' ∧
        ¬ 2 * f'.toInt ≤ f.toInt := by
  obtain ⟨p, hc₀⟩ := construct_counts Detail.hash hugeGeometry construct_huge
    hugeSketch_nonempty (by decide)
  obtain ⟨s, hrun, hc⟩ := run_counts hc₀ (List.replicate 15 (.record hugeAccess))
  obtain ⟨s', hrun', hf⟩ := huge_frequency Detail.hash
  cases hrun.symm.trans hrun'
  have hl : hugeAccess.left s.granularity s.unitSize = 0 := by
    rw [hc.ready.granularity_eq, hc.ready.unitSize_eq, hugeAccess_left]
  have hr : hugeAccess.right s.granularity s.unitSize = 268435455 := by
    rw [hc.ready.granularity_eq, hc.ready.unitSize_eq, hugeAccess_right]
  obtain ⟨x, x', hx, hf', hle, hge, hcap⟩ := frequency_halved (sized_of_shape hc.ready.shape)
    (sketchCells_le s) hl hr (by decide) (by decide) hf
  have hsum : x = 4026531825 := by
    rw [ofNat_eq_iff_modEq, Nat.ModEq] at hx
    omega
  refine ⟨construct_huge, s, _, _, hrun, hf, hf', ?_⟩
  rw [Int32.toInt_ofNat_of_lt (by omega), toInt_ofNat_ge (by decide) (by decide)]
  omega

end DistExp.IntervalHalving
