import DistExp.FlatRuns

namespace DistExp.AverageSums

open DistExp.Library.MachineInt DistExp.Library.Runs DistExp.Library.AgedCounter
open DistExp.PackedTable DistExp.RangeGeometry DistExp.GranuleLoop DistExp.FlatRuns

/-- The two sketches whose `avg_frequency` goes over offsets. -/
inductive Counting where
  | countMin (s : CountMinSketch.Sketch)
  | exact (s : ExactCount.Sketch)

namespace Counting

def granularity : Counting → UInt64
  | .countMin s => s.granularity
  | .exact s => s.granularity

def unitSize : Counting → UInt64
  | .countMin s => s.unitSize
  | .exact s => s.unitSize

variable (hash : UInt64 → UInt32)

def frequency (x : UInt64) : Counting → Except Fault Int32
  | .countMin s => CountMinSketch.frequency hash s x
  | .exact s => ExactCount.frequency s x

def avgFrequency (a : Access) : Counting → Except Fault Int32
  | .countMin s => CountMinSketch.avgFrequency hash s a.unitId a.t a.size
  | .exact s => ExactCount.avgFrequency s a.unitId a.t a.size

/-- The states that some calls lead to. -/
def Reached (g u : UInt64) : Counting → Prop
  | .countMin s => CountMinReached hash g u s
  | .exact s => ExactReached g u s

end Counting

def offsets (g : UInt64) (a : Access) : List UInt64 :=
  (List.range (a.size.toNat / g.toNat)).map fun i => a.t + UInt64.ofNat (i * g.toNat)

def total (fs : List Int32) : Int := (fs.map Int32.toInt).sum

/-- `avg_frequency` returns the average of the frequencies of the granules of the access, rounded
down. -/
def IsAverage (hash : UInt64 → UInt32) (sketch : Counting) (a : Access) : Prop :=
  ∃ fs f, (offsets sketch.granularity a).mapM (sketch.frequency hash) = .ok fs ∧
    sketch.avgFrequency hash a = .ok f ∧ f.toInt = total fs / fs.length

/-- The offset that the last round of the loop reads, behind the end of the access and twice as far
inside the unit. -/
def lastKey (u : UInt64) (a : Access) : UInt64 :=
  a.t + UInt64.ofNat (a.t.toNat % u.toNat + a.size.toNat)

/-- Two numbers reach the same multiples of a third. -/
def ReachSame (m : Nat) (x y : Int) : Prop :=
  ∀ q : Nat, 0 < q → ((q * m : Int) ≤ x ↔ (q * m : Int) ≤ y)

/-- How far one counter counts. -/
def Counting.most : Counting → Nat
  | .countMin _ => 15
  | .exact _ => 1

variable {hash : UInt64 → UInt32} {sketch : Counting} {g u : UInt64} {a : Access}

theorem ediv_eq_iff {m : Nat} (hm : 0 < m) {x y : Int} (hx : 0 ≤ x) (hy : 0 ≤ y) :
    x / m = y / m ↔ ReachSame m x y := by
  have hpos : (0 : Int) < m := Int.natCast_pos.mpr hm
  constructor
  · intro h q _
    rw [← Int.le_ediv_iff_mul_le hpos, ← Int.le_ediv_iff_mul_le hpos, h]
  · -- each quotient is a multiple that its own number reaches, so the other one reaches it too
    have hle : ∀ {x y : Int}, 0 ≤ x → 0 ≤ y → ReachSame m x y → x / m ≤ y / m := by
      intro x y hx hy h
      obtain ⟨q, hq⟩ := Int.eq_ofNat_of_zero_le (Int.ediv_nonneg hx hpos.le)
      rw [hq]
      obtain rfl | hq0 := Nat.eq_zero_or_pos q
      · exact Int.ediv_nonneg hy hpos.le
      · rw [Int.le_ediv_iff_mul_le hpos]
        exact (h q hq0).mp ((Int.le_ediv_iff_mul_le hpos).mp hq.ge)
    exact fun h => le_antisymm (hle hx hy h) (hle hy hx fun q hq => (h q hq).symm)

theorem avgFrequency_eq (hash : UInt64 → UInt32) (sketch : Counting) (a : Access) :
    sketch.avgFrequency hash a = do
      let ks ← keys sketch.granularity sketch.unitSize a.t a.size
      let rs ← ks.mapM (sketch.frequency hash)
      let cnt := cntOf sketch.granularity sketch.unitSize a.t a.size
      if cnt = 0 then .error .divisionByZero else return rs.getLastD 0 / cnt := by
  have hloop (ks : List UInt64) := foldlM_assign (sketch.frequency hash) ks 0
  cases sketch with
  | countMin s =>
    change (keys s.granularity s.unitSize a.t a.size >>= fun ks =>
      ks.foldlM (fun _ key => Counting.frequency hash key (.countMin s)) 0 >>= _) = _
    simp only [hloop, bind_assoc, pure_bind]
    rfl
  | exact s =>
    change (keys s.granularity s.unitSize a.t a.size >>= fun ks =>
      ks.foldlM (fun _ key => Counting.frequency hash key (.exact s)) 0 >>= _) = _
    simp only [hloop, bind_assoc, pure_bind]
    rfl

theorem Counting.Reached.units (h : sketch.Reached hash g u) :
    sketch.granularity = g ∧ sketch.unitSize = u := by
  cases sketch with
  | countMin s =>
    have hs := CountMinReached.shape h
    exact ⟨hs.granularity_eq, hs.unitSize_eq⟩
  | exact s => exact ExactReached.sameUnits h

theorem Counting.Reached.frequency_le (h : sketch.Reached hash g u) {x : UInt64} {f : Int32}
    (hf : sketch.frequency hash x = .ok f) : ∃ n ≤ sketch.most, f = Int32.ofNat n := by
  cases sketch with
  | countMin s =>
    obtain ⟨p, hp⟩ := (CountMinReached.shape h).sized
    cases hf.symm.trans (FlatTable.blockFrequency_eq hp (hash x))
    refine ⟨_, ?_, rfl⟩
    exact (rowMin_le (cells s.table) (FlatTable.rowCells p (hash x)) intMax
      (FlatTable.mem_rowCells.mpr ⟨0, rfl⟩)).trans (cells_le s.table _)
  | exact s => exact (ExactReached.oneBit h).frequency_le hf

theorem Counting.most_le (sketch : Counting) : sketch.most ≤ 15 := by
  cases sketch with
  | countMin s => exact le_rfl
  | exact s => exact (by decide : 1 ≤ 15)

theorem Counting.Reached.frequency_range (h : sketch.Reached hash g u) {x : UInt64} {f : Int32}
    (hf : sketch.frequency hash x = .ok f) : 0 ≤ f.toInt ∧ f.toInt ≤ sketch.most := by
  obtain ⟨n, hn, rfl⟩ := h.frequency_le hf
  have hmost := sketch.most_le
  rw [Int32.toInt_ofNat_of_lt (by omega)]
  omega

theorem Counting.Reached.total_nonneg (h : sketch.Reached hash g u) {xs : List UInt64}
    {fs : List Int32} (hfs : xs.mapM (sketch.frequency hash) = .ok fs) : 0 ≤ total fs := by
  refine List.sum_nonneg fun v hv => ?_
  obtain ⟨f, hf, rfl⟩ := List.mem_map.mp hv
  obtain ⟨i, hi, rfl⟩ := List.mem_iff_getElem.mp hf
  have hall := forall₂_of_mapM hfs
  exact (h.frequency_range (hall.get (hall.length_eq ▸ hi) hi)).1

section Averages

variable {ks : List UInt64} {fs rs : List Int32} {f : Int32}

theorem isAverage_iff_ediv (hreached : sketch.Reached hash g u) (hdvd : g.toNat ∣ u.toNat)
    (ha : a.Aligned g) (hin : a.t.toNat % u.toNat + a.size.toNat < u.toNat)
    (hend : a.t.toNat + a.size.toNat < 2 ^ 64)
    (h31 : (a.t.toNat % u.toNat + a.size.toNat) / g.toNat < 2 ^ 31 - 1)
    (hks : keys g u a.t a.size = .ok ks) (hrs : ks.mapM (sketch.frequency hash) = .ok rs)
    (hfs : (offsets g a).mapM (sketch.frequency hash) = .ok fs)
    (hf : sketch.frequency hash (lastKey u a) = .ok f) :
    IsAverage hash sketch a ↔ f.toInt / (a.size.toNat / g.toNat : Nat) =
      total fs / (a.size.toNat / g.toNat : Nat) := by
  have hg : 0 < g.toNat := Nat.pos_of_dvd_of_pos hdvd (Nat.zero_lt_of_lt hin)
  obtain ⟨hgran, hunit⟩ := hreached.units
  have hkeys := keys_eq_add hg hdvd ha hend hin h31
  have hsize := Nat.div_mul_cancel ha.length
  have hm : 0 < a.size.toNat / g.toNat :=
    Nat.div_pos (Nat.le_of_dvd ha.nonempty ha.length) hg
  -- the loop goes one granule behind the access
  obtain rfl := Except.ok.inj (hkeys.symm.trans hks)
  have hlast := hrs
  rw [List.range_succ, List.map_append, List.map_singleton, hsize] at hlast
  have hlast' : f = rs.getLastD 0 := Except.ok.inj (hf.symm.trans (getLastD_of_mapM hlast 0))
  have hcnt : cntOf g u a.t a.size = Int32.ofNat (a.size.toNat / g.toNat) := by
    have hright := ha.right_eq (u := u) hend hin
    change Int32.ofNat (a.right g u) - Int32.ofNat (a.left g u) = _
    rw [← Int32.ofNat_sub _ _ (hright ▸ Nat.le_add_right _ _), hright, Nat.add_sub_cancel_left]
  have hm31 : a.size.toNat / g.toNat < 2 ^ 31 := by
    have hle : a.size.toNat / g.toNat ≤ (a.t.toNat % u.toNat + a.size.toNat) / g.toNat :=
      Nat.div_le_div_right (Nat.le_add_left _ _)
    omega
  have hcnt0 : cntOf g u a.t a.size ≠ 0 := by
    rw [hcnt]
    exact fun he => hm.ne' ((ofNat_inj hm31 (by decide)).mp he)
  have hdiv : (f / cntOf g u a.t a.size).toInt = f.toInt / (a.size.toNat / g.toNat : Nat) := by
    obtain ⟨n, hn, rfl⟩ := hreached.frequency_le hf
    have hmost := sketch.most_le
    have hle := Nat.div_le_self n (a.size.toNat / g.toNat)
    rw [hcnt, ← Int32.ofNat_div (by omega) hm31, Int32.toInt_ofNat_of_lt (by omega),
      Int32.toInt_ofNat_of_lt (by omega), Int.natCast_ediv]
  have havg : sketch.avgFrequency hash a = .ok (f / cntOf g u a.t a.size) := by
    rw [avgFrequency_eq, hgran, hunit, hkeys]
    change (List.mapM (sketch.frequency hash) _ >>= _) = _
    rw [hrs, hlast']
    exact if_neg hcnt0
  have hlength : fs.length = a.size.toNat / g.toNat := by
    rw [← (forall₂_of_mapM hfs).length_eq, offsets, List.length_map, List.length_range]
  rw [← hdiv]
  constructor
  · rintro ⟨fs', f', hfs', hf', hmean⟩
    rw [hgran] at hfs'
    cases hfs.symm.trans hfs'
    cases havg.symm.trans hf'
    rwa [hlength] at hmean
  · intro hmean
    refine ⟨fs, _, by rw [hgran]; exact hfs, havg, ?_⟩
    rwa [hlength]

/-- The averages of the flat sketches are averages as long as the counters of the granules together,
and that of the offset behind the access, as far again from the start of the unit, stay below the
number of granules. From as many granules on as one counter cannot count this is all there is; with
fewer, the two may also reach the same multiples of that number, and with one they may be equal. -/
theorem average_is_mean_iff (hreached : sketch.Reached hash g u) (hdvd : g.toNat ∣ u.toNat)
    (ha : a.Aligned g) (hin : a.t.toNat % u.toNat + a.size.toNat < u.toNat)
    (hend : a.t.toNat + a.size.toNat < 2 ^ 64)
    (h31 : (a.t.toNat % u.toNat + a.size.toNat) / g.toNat < 2 ^ 31 - 1)
    (hks : keys g u a.t a.size = .ok ks) (hrs : ks.mapM (sketch.frequency hash) = .ok rs)
    (hfs : (offsets g a).mapM (sketch.frequency hash) = .ok fs)
    (hf : sketch.frequency hash (lastKey u a) = .ok f) :
    (f.toInt < (a.size.toNat / g.toNat : Nat) → total fs < (a.size.toNat / g.toNat : Nat) →
      IsAverage hash sketch a) ∧
    (sketch.most < a.size.toNat / g.toNat →
      (IsAverage hash sketch a ↔ total fs < (a.size.toNat / g.toNat : Nat))) ∧
    (a.size = g → (IsAverage hash sketch a ↔ f.toInt = total fs)) ∧
    (IsAverage hash sketch a ↔ ReachSame (a.size.toNat / g.toNat) f.toInt (total fs)) := by
  have hg : 0 < g.toNat := Nat.pos_of_dvd_of_pos hdvd (Nat.zero_lt_of_lt hin)
  have hm : 0 < a.size.toNat / g.toNat :=
    Nat.div_pos (Nat.le_of_dvd ha.nonempty ha.length) hg
  have hediv := isAverage_iff_ediv hreached hdvd ha hin hend h31 hks hrs hfs hf
  obtain ⟨hf0, hmost⟩ := hreached.frequency_range hf
  have hs0 := hreached.total_nonneg hfs
  have hbelow : f.toInt < (a.size.toNat / g.toNat : Nat) →
      (IsAverage hash sketch a ↔ total fs < (a.size.toNat / g.toNat : Nat)) := by
    intro hlt
    rw [hediv, Int.ediv_eq_zero_of_lt hf0 hlt]
    constructor
    · intro hzero
      by_contra hge
      have hone : 1 ≤ total fs / (a.size.toNat / g.toNat : Nat) :=
        (Int.le_ediv_iff_mul_le (Int.natCast_pos.mpr hm)).mpr (by rw [one_mul]; exact not_lt.mp hge)
      omega
    · exact fun htotal => (Int.ediv_eq_zero_of_lt hs0 htotal).symm
  refine ⟨fun hlt htotal => (hbelow hlt).mpr htotal, fun hlt => hbelow (by omega), ?_, ?_⟩
  · intro hone
    rw [hediv, hone, Nat.div_self hg, Int.natCast_one, Int.ediv_one, Int.ediv_one]
  · rw [hediv, ediv_eq_iff hm hf0 hs0]

end Averages

/-- An `exact_count` of one word after an access to one granule, which counts two of them. -/
def touched : ExactCount.Sketch := ⟨#[17], 0, 1, 8, 1⟩

theorem touched_reached : ExactReached 1 8 touched :=
  .recordAccess 0 0 1 (.construct (n := 1) rfl) (by decide +kernel)

/-- Right for one granule, and for two that are both not counted, wrong for the two that are. -/
theorem average_is_mean_iff_touched :
    IsAverage (fun _ => 0) (.exact touched) ⟨0, 0, 1⟩ ∧
      IsAverage (fun _ => 0) (.exact touched) ⟨0, 2, 2⟩ ∧
      ¬ IsAverage (fun _ => 0) (.exact touched) ⟨0, 0, 2⟩ := by
  have hone := @average_is_mean_iff (fun _ => 0) (.exact touched) 1 8 ⟨0, 0, 1⟩ [0, 1] [1] [1, 1] 1
    touched_reached (by decide) ⟨by decide, by decide, by decide⟩ (by decide) (by decide)
    (by decide) (by decide +kernel) (by decide +kernel) (by decide +kernel) (by decide +kernel)
  have htwo := @average_is_mean_iff (fun _ => 0) (.exact touched) 1 8 ⟨0, 2, 2⟩ [4, 5, 6] [0, 0]
    [0, 0, 0] 0 touched_reached (by decide) ⟨by decide, by decide, by decide⟩ (by decide)
    (by decide) (by decide) (by decide +kernel) (by decide +kernel) (by decide +kernel)
    (by decide +kernel)
  have hhot := @average_is_mean_iff (fun _ => 0) (.exact touched) 1 8 ⟨0, 0, 2⟩ [0, 1, 2] [1, 1]
    [1, 1, 0] 0 touched_reached (by decide) ⟨by decide, by decide, by decide⟩ (by decide)
    (by decide) (by decide) (by decide +kernel) (by decide +kernel) (by decide +kernel)
    (by decide +kernel)
  obtain ⟨-, -, hequal, -⟩ := hone
  obtain ⟨hbelow, -⟩ := htwo
  obtain ⟨-, hmost, -⟩ := hhot
  exact ⟨(hequal rfl).mpr (by decide), hbelow (by decide) (by decide),
    fun h => absurd ((hmost (by decide)).mp h) (by decide)⟩

/-- Two granules that are equally hot do not have their frequency for an average: what is divided
by their number is one frequency, not a sum. -/
theorem average_of_one_frequency :
    (∃ s, CountMinReached (Detail.hashInt 0) 1 8 s ∧
      ¬ IsAverage (Detail.hashInt 0) (.countMin s) ⟨0, 0, 2⟩) ∧
    ∃ s, ExactReached 1 8 s ∧ ¬ IsAverage (Detail.hashInt 0) (.exact s) ⟨0, 0, 2⟩ := by
  constructor
  · have hrun : (do
        let s₀ ← CountMinSketch.construct 2 1 8
        let s ← CountMinSketch.recordAccess (Detail.hashInt 0) s₀ 0 0 2
        let fs ← [0, 1].mapM (CountMinSketch.frequency (Detail.hashInt 0) s)
        let f ← CountMinSketch.avgFrequency (Detail.hashInt 0) s 0 0 2
        return (fs, f)) = .ok ([1, 1], 0) := by decide +kernel
    obtain ⟨s₀, hs₀, hrun⟩ := exists_of_bind_ok hrun
    obtain ⟨s, hs, hrun⟩ := exists_of_bind_ok hrun
    obtain ⟨fs, hfs, hrun⟩ := exists_of_bind_ok hrun
    obtain ⟨f, hf, hrun⟩ := exists_of_bind_ok hrun
    cases hrun
    have hreached : CountMinReached (Detail.hashInt 0) 1 8 s := .recordAccess 0 0 2 (.construct hs₀) hs
    refine ⟨s, hreached, ?_⟩
    rintro ⟨fs', f', hfs', hf', hmean⟩
    rw [show (Counting.countMin s).granularity = 1 from hreached.shape.granularity_eq] at hfs'
    cases hfs.symm.trans hfs'
    cases hf.symm.trans hf'
    exact absurd hmean (by decide)
  · refine ⟨⟨#[273], 0, 1, 8, 1⟩, ?_, ?_⟩
    · exact .recordAccess 0 0 2 (.construct (n := 1) rfl) (by decide +kernel)
    · rintro ⟨fs, f, hfs, hf, hmean⟩
      obtain rfl : fs = [1, 1] := Except.ok.inj (hfs.symm.trans (by decide +kernel))
      obtain rfl : f = 0 := Except.ok.inj (hf.symm.trans (by decide +kernel))
      exact absurd hmean (by decide)

end DistExp.AverageSums
