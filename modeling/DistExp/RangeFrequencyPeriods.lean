import DistExp.RangeFrequencyAging
import DistExp.RangeFrequencyHistory

namespace DistExp.RangeFrequencyPeriods

open DistExp.Library.MachineInt DistExp.Library.FieldMap DistExp.Library.Runs
open DistExp.PackedTable DistExp.RangeGeometry DistExp.RangeCalls DistExp.RangeLevels
open DistExp.RangeFrequencySketch DistExp.RangeFrequencyAging

def step (s : Sketch) (a : Access) : Except Fault Sketch := do
  let s ← recordAccess s a.unitId a.t a.size
  return (← tryReset s).1

def Wraps (s : Sketch) (a : Access) : Prop :=
  ∃ s' unitId i, recordAccess s a.unitId a.t a.size = .ok s' ∧
    entry s unitId i = 65535 ∧ entry s' unitId i = 0

/-- No access of any run increments a counter from its largest value to zero. -/
def NeverWraps (u : UInt64) (s₀ : Sketch) : Prop :=
  ∀ as a, (∀ b ∈ as ++ [a], Inside u b) → ∀ s, as.foldlM step s₀ = .ok s → ¬ Wraps s a

variable {g u : UInt64} {N P z : Nat} {s s' : Sketch} {a : Access}

/-- A state between two resets: the number of counted granules is below the sampling size. -/
structure Period (g u : UInt64) (P z : Nat) (s : Sketch) : Prop where
  sized : Sized g u s
  samplingSize_eq : samplingSize s = Int32.ofNat P
  size_eq : s.size = Int32.ofNat z
  size_lt : z < P

theorem length_granulesOf (a : Access) : (granulesOf g u a).length = granuleCount g a.size :=
  List.length_range'

theorem Period.step (hu : Units g u) (hP : P + granuleCount g u < 2 ^ 31) (h : Period g u P z s)
    (ha : Inside u a) : ∃ s₁ s', recordAccess s a.unitId a.t a.size = .ok s₁ ∧
      Raised g u a.unitId (granulesOf g u a) s s₁ ∧ RangeFrequencyPeriods.step s a = .ok s' ∧
      if z + granuleCount g a.size < P then
        s' = s₁ ∧ Period g u P (z + granuleCount g a.size) s'
      else Period g u P 0 s' ∧ ∀ unitId i,
        entry s' unitId i = if i < u.toNat / g.toNat then entry s₁ unitId i / 2
          else entry s₁ unitId i := by
  obtain ⟨s₁, hrun, hr⟩ := recordAccess_eq hu h.sized ha
  have hle := left_add_granules_le hu.granularity_pos ha
  have hz := h.size_lt
  have hsampling : samplingSize s₁ = Int32.ofNat P := by
    rw [samplingSize, hr.table_eq]
    exact h.samplingSize_eq
  have hsize : s₁.size = Int32.ofNat (z + granuleCount g a.size) := by
    rw [hr.size_eq, h.size_eq, length_granulesOf, Int32.ofNat_add]
  have hdue : s₁.size ≥ samplingSize s₁ ↔ P ≤ z + granuleCount g a.size := by
    rw [hsize, hsampling]
    exact Int32.ofNat_le_iff_le (by omega) (by omega)
  refine ⟨s₁, ?_⟩
  by_cases hlt : z + granuleCount g a.size < P
  · refine ⟨s₁, hrun, hr, ?_, ?_⟩
    · rw [RangeFrequencyPeriods.step, hrun]
      change (tryReset s₁ >>= fun r => pure r.1) = _
      rw [tryReset_not_due fun h => absurd (hdue.mp h) (by omega)]
      rfl
    · rw [if_pos hlt]
      exact ⟨rfl, hr.sized, hsampling, hsize, hlt⟩
  · obtain ⟨s', hreset, hs', htable, hsize', hentry⟩ :=
      tryReset_due hu hr.sized (hdue.mpr (not_lt.mp hlt))
    refine ⟨s', hrun, hr, ?_, ?_⟩
    · rw [RangeFrequencyPeriods.step, hrun]
      change (tryReset s₁ >>= fun r => pure r.1) = _
      rw [hreset]
      rfl
    · rw [if_neg hlt]
      refine ⟨⟨hs', ?_, hsize', by omega⟩, hentry⟩
      rw [samplingSize, htable]
      exact hsampling

theorem granuleCount_pos (hg : 0 < g.toNat) (ha : Inside u a) : 1 ≤ granuleCount g a.size := by
  obtain ⟨hpos, -⟩ := ha
  exact (Nat.one_le_div_iff hg).mpr (by omega)

theorem raised_entry_le {unitId : UInt64} {is : List Nat} (hr : Raised g u unitId is s s')
    (hnd : is.Nodup) (k : UInt64) (i : Nat) :
    (entry s' k i).toNat ≤ (entry s k i).toNat + 1 := by
  rw [hr.entry_eq, UInt16.toNat_add]
  refine (Nat.mod_le _ _).trans (Nat.add_le_add_left ?_ _)
  split
  · have hone := List.nodup_iff_count_le_one.mp hnd i
    rw [UInt16.toNat_ofNat']
    exact (Nat.mod_le _ _).trans hone
  · exact Nat.zero_le 1

section Short

def Low (g u : UInt64) (P : Nat) (s : Sketch) : Prop :=
  ∃ z, Period g u P z s ∧ ∀ unitId i, (entry s unitId i).toNat ≤ P + z

theorem Low.step (hu : Units g u) (hdvd : g.toNat ∣ u.toNat) (hP : P + granuleCount g u < 2 ^ 31)
    (h : Low g u P s) (ha : Inside u a) (hrun : RangeFrequencyPeriods.step s a = .ok s') :
    Low g u P s' := by
  obtain ⟨z, hz, hle⟩ := h
  obtain ⟨s₁, s₂, -, hr, hstep, hcases⟩ := hz.step hu hP ha
  cases hrun.symm.trans hstep
  have hcnt := granuleCount_pos hu.granularity_pos ha
  have hlt := hz.size_lt
  have hentry (unitId : UInt64) (i : Nat) : (entry s₁ unitId i).toNat ≤ P + z + 1 :=
    (raised_entry_le hr List.nodup_range' unitId i).trans (Nat.succ_le_succ (hle unitId i))
  split at hcases
  · obtain ⟨rfl, hz'⟩ := hcases
    refine ⟨_, hz', fun unitId i => (hentry unitId i).trans (by omega)⟩
  · obtain ⟨hz', hhalf⟩ := hcases
    refine ⟨0, hz', fun unitId i => ?_⟩
    rw [hhalf]
    split
    · have hi := hentry unitId i
      have htwo : (2 : UInt16).toNat = 2 := rfl
      rw [UInt16.toNat_div, htwo]
      omega
    · next hi =>
      rw [hr.sized.entry_zero unitId (by
        rw [granuleCount_of_dvd hu.granularity_pos hdvd]
        exact not_lt.mp hi)]
      exact Nat.zero_le _

theorem Low.neverWraps (hu : Units g u) (hdvd : g.toNat ∣ u.toNat)
    (hP : P + granuleCount g u < 2 ^ 31) (h : Low g u P s) (htwo : 2 * P ≤ 65535) :
    NeverWraps u s := by
  rintro as a has s₁ hrun ⟨s₂, unitId, i, -, hmax, -⟩
  obtain ⟨z, hz, hle⟩ := foldlM_preserves (fun s b hb s' hs hstep =>
    Low.step hu hdvd hP hs (has b (List.mem_append_left _ hb)) hstep) h hrun
  have hi := hle unitId i
  have hlt := hz.size_lt
  have hmax' : (entry s₁ unitId i).toNat = 65535 := congrArg UInt16.toNat hmax
  omega

end Short

section Long

def firstGranule : Access := ⟨0, 0, 1⟩

theorem firstGranule_inside (hu : 0 < u.toNat) : Inside u firstGranule := by
  refine ⟨by decide, ?_⟩
  change 0 % u.toNat + 1 ≤ u.toNat
  rw [Nat.zero_mod]
  omega

theorem granulesOf_firstGranule (hg : 0 < g.toNat) : granulesOf g u firstGranule = [0] := by
  have hleft : firstGranule.left g u = 0 := by
    rw [Access.left_eq]
    change 0 % u.toNat / g.toNat = 0
    rw [Nat.zero_mod, Nat.zero_div]
  have hcnt : granuleCount g firstGranule.size = 1 := by
    change (1 + g.toNat - 1) / g.toNat = 1
    rw [Nat.add_sub_cancel_left, Nat.div_self hg]
  rw [granulesOf, hleft, hcnt]
  rfl

/-- What matters of a run that accesses one granule alone: its counter, and the number of accesses
since the last reset. -/
def Hot (g u : UInt64) (P e z : Nat) (s : Sketch) : Prop :=
  Period g u P z s ∧ (entry s 0 0).toNat = e

def Leads (k : Nat) (s s' : Sketch) : Prop :=
  (List.replicate k firstGranule).foldlM step s = .ok s'

theorem Leads.trans {j k : Nat} {s₁ s₂ s₃ : Sketch} (h : Leads j s₁ s₂) (h' : Leads k s₂ s₃) :
    Leads (j + k) s₁ s₃ := by
  rw [Leads, ← List.replicate_append_replicate, List.foldlM_append, h]
  exact h'

theorem Leads.one (h : step s firstGranule = .ok s') : Leads 1 s s' := by
  rw [Leads, List.replicate_one, List.foldlM_cons, h]
  rfl

variable {e k : Nat}

theorem Hot.raised (hg : 0 < g.toNat) (h : Hot g u P e z s) {s₁ : Sketch}
    (hr : Raised g u firstGranule.unitId (granulesOf g u firstGranule) s s₁) :
    (entry s₁ 0 0).toNat = (e + 1) % 65536 := by
  have hunit : (0 : UInt64) = firstGranule.unitId := rfl
  rw [hr.entry_eq, granulesOf_firstGranule hg, if_pos hunit, UInt16.toNat_add, h.2]
  rfl

theorem Hot.step (hu : Units g u) (hP : P + granuleCount g u < 2 ^ 31) (h : Hot g u P e z s)
    (he : e < 65535) (hz : z + 1 < P) : ∃ s', Leads 1 s s' ∧ Hot g u P (e + 1) (z + 1) s' := by
  obtain ⟨s₁, s', -, hr, hstep, hcases⟩ := h.1.step hu hP (firstGranule_inside hu.unitSize_pos)
  have hraised := h.raised hu.granularity_pos hr
  have hcnt : granuleCount g firstGranule.size = 1 := by
    rw [← length_granulesOf (u := u), granulesOf_firstGranule hu.granularity_pos]
    rfl
  rw [hcnt, if_pos hz] at hcases
  obtain ⟨rfl, hz'⟩ := hcases
  exact ⟨s', .one hstep, hz', hraised.trans (Nat.mod_eq_of_lt (by omega))⟩

theorem Hot.reset (hu : Units g u) (hdvd : g.toNat ∣ u.toNat) (hP : P + granuleCount g u < 2 ^ 31)
    (h : Hot g u P e z s) (he : e < 65535) (hz : z + 1 = P) :
    ∃ s', Leads 1 s s' ∧ Hot g u P ((e + 1) / 2) 0 s' := by
  obtain ⟨s₁, s', -, hr, hstep, hcases⟩ := h.1.step hu hP (firstGranule_inside hu.unitSize_pos)
  have hraised := h.raised hu.granularity_pos hr
  have hcnt : granuleCount g firstGranule.size = 1 := by
    rw [← length_granulesOf (u := u), granulesOf_firstGranule hu.granularity_pos]
    rfl
  rw [hcnt, if_neg (by omega)] at hcases
  obtain ⟨hz', hhalf⟩ := hcases
  have hfirst : 0 < u.toNat / g.toNat :=
    Nat.div_pos (Nat.le_of_dvd hu.unitSize_pos hdvd) hu.granularity_pos
  have htwo : (2 : UInt16).toNat = 2 := rfl
  refine ⟨s', .one hstep, hz', ?_⟩
  rw [hhalf, if_pos hfirst, UInt16.toNat_div, htwo, hraised, Nat.mod_eq_of_lt (by omega)]

theorem Hot.run (hu : Units g u) (hP : P + granuleCount g u < 2 ^ 31) (h : Hot g u P e z s)
    (he : e + k ≤ 65535) (hz : z + k < P) : ∃ s', Leads k s s' ∧ Hot g u P (e + k) (z + k) s' := by
  induction k with
  | zero => exact ⟨s, rfl, h⟩
  | succ k ih =>
    obtain ⟨s₁, hrun, h₁⟩ := ih (by omega) (by omega)
    obtain ⟨s', hstep, h'⟩ := h₁.step hu hP (by omega) (by omega)
    exact ⟨s', hrun.trans hstep, h'⟩

theorem Hot.period (hu : Units g u) (hdvd : g.toNat ∣ u.toNat) (hP : P + granuleCount g u < 2 ^ 31)
    (h : Hot g u P e 0 s) (he : e + P ≤ 65535) :
    ∃ s', Leads P s s' ∧ Hot g u P ((e + P) / 2) 0 s' := by
  obtain ⟨k, rfl⟩ : ∃ k, P = k + 1 := ⟨P - 1, by have := h.1.size_lt; omega⟩
  obtain ⟨s₁, hrun, h₁⟩ := h.run (k := k) hu hP (by omega) (by omega)
  obtain ⟨s', hstep, h'⟩ := h₁.reset hu hdvd hP (by omega) (by omega)
  exact ⟨s', hrun.trans hstep, h'⟩

theorem Hot.not_neverWraps (hu : Units g u) (hP : P + granuleCount g u < 2 ^ 31)
    (h : Hot g u P 65535 z s') (hrun : Leads k s s') : ¬ NeverWraps u s := by
  obtain ⟨s₁, -, hrec, hr, -, -⟩ := h.1.step hu hP (firstGranule_inside hu.unitSize_pos)
  have hraised := h.raised hu.granularity_pos hr
  intro hnever
  refine hnever (List.replicate k firstGranule) firstGranule (fun b hb => ?_) s' hrun
    ⟨s₁, 0, 0, hrec, UInt16.toNat_inj.mp h.2, UInt16.toNat_inj.mp hraised⟩
  obtain hb | hb := List.mem_append.mp hb
  · rw [List.eq_of_mem_replicate hb]
    exact firstGranule_inside hu.unitSize_pos
  · rw [List.mem_singleton.mp hb]
    exact firstGranule_inside hu.unitSize_pos

theorem Hot.wraps (hu : Units g u) (hdvd : g.toNat ∣ u.toNat) (hP : P + granuleCount g u < 2 ^ 31)
    (h : Hot g u P 0 0 s) (hlong : 65535 < P ∨ P = 40960) : ¬ NeverWraps u s := by
  obtain hlong | hlong := hlong
  · obtain ⟨s', hrun, h'⟩ := h.run (k := 65535) hu hP (by omega) (by omega)
    rw [Nat.zero_add] at h'
    exact h'.not_neverWraps hu hP hrun
  · obtain ⟨s₁, hrun₁, h₁⟩ := h.period hu hdvd hP (by omega)
    obtain ⟨s₂, hrun₂, h₂⟩ := h₁.period hu hdvd hP (by omega)
    obtain ⟨s₃, hrun₃, h₃⟩ := h₂.run (k := 34815) hu hP (by omega) (by omega)
    have hfull : ((0 + P) / 2 + P) / 2 + 34815 = 65535 := by omega
    rw [hfull] at h₃
    exact h₃.not_neverWraps hu hP ((hrun₁.trans hrun₂).trans hrun₃)

end Long

theorem neverWraps_of_wrapped {n : Int32} (hg : 0 < g.toNat)
    (hwrap : 2 ^ 64 < u.toNat + g.toNat) (hs : construct n g u = .ok s) : NeverWraps u s := by
  rintro as a - s₁ hrun ⟨s₂, unitId, i, -, hmax, -⟩
  have hreach : Reached g u s₁ := by
    refine foldlM_preserves (fun s b _ s' hs hstep => ?_) (Reached.construct hs) hrun
    rw [step] at hstep
    obtain ⟨s₂, hrec, hstep⟩ := exists_of_bind_ok hstep
    obtain ⟨⟨s₃, due⟩, hreset, hstep⟩ := exists_of_bind_ok hstep
    cases hstep
    exact (hs.recordAccess hrec).tryReset hreset
  have hempty : ((hget s₁.unitAccFreq unitId).getD #[]).size = 0 := by
    cases hv : hget s₁.unitAccFreq unitId with
    | none => rfl
    | some v =>
      have hsize := hreach.lengths.size_eq _ (mem_of_hget hv)
      rwa [add_sub_one_div_wrapped hg hwrap] at hsize
  rw [entry, entryAt, Array.getElem?_eq_none (by omega)] at hmax
  exact absurd hmax (by decide)

theorem construct_hot {n : Nat} (hpos : 0 < n) (hmax : n ≤ 2 ^ 26)
    (hs : construct (Int32.ofNat n) g u = .ok s) : Hot g u (10 * 2 ^ Nat.clog 2 n) 0 0 s := by
  have hwords := words_of_capacity hpos (by omega)
  have hp : 2 ^ Nat.clog 2 n ≤ 2 ^ 26 :=
    Nat.pow_le_pow_right (by decide) (Nat.clog_le_of_le_pow hmax)
  rw [construct, changeCapacity] at hs
  split at hs
  · cases hs
  · cases hs
    refine ⟨⟨⟨rfl, rfl, by simp⟩, ?_, rfl, by positivity⟩, rfl⟩
    rw [samplingSize, size_resize, hwords, toInt, UInt64.toNat_mul, UInt64.toNat_ofNat_of_lt']
    · have hten : (10 : UInt64).toNat = 10 := rfl
      rw [hten, Nat.mod_eq_of_lt (by omega), Nat.mul_comm]
    · change _ < 2 ^ 64
      omega

/-- No counter wraps exactly when the table has at most 2048 words, so that two sampling periods
fit a counter. -/
theorem never_wraps_iff {n : Nat} (hpos : 0 < n) (hmax : n ≤ 2 ^ 26) (hg : 0 < g.toNat)
    (hu : u.toNat = N * g.toNat) (hN : 1 ≤ N) (hN' : N ≤ 65536) {s₀ : Sketch}
    (hs₀ : construct (Int32.ofNat n) g u = .ok s₀) :
    NeverWraps u s₀ ↔ n ≤ 2048 ∨ 2 ^ 64 < u.toNat + g.toNat := by
  by_cases hwrap : 2 ^ 64 < u.toNat + g.toNat
  · exact iff_of_true (neverWraps_of_wrapped hg hwrap hs₀) (Or.inr hwrap)
  · obtain ⟨hunits, hdvd⟩ := RangeFrequencyHistory.units_of_geometry
      ⟨hg, hN, hu, not_lt.mp hwrap⟩ (by omega)
    have hhot := construct_hot hpos hmax hs₀
    have hcount : granuleCount g u = N := by
      rw [granuleCount_of_dvd hg hdvd, hu, Nat.mul_div_cancel _ hg]
    have hp : 2 ^ Nat.clog 2 n ≤ 2 ^ 26 :=
      Nat.pow_le_pow_right (by decide) (Nat.clog_le_of_le_pow hmax)
    have hP : 10 * 2 ^ Nat.clog 2 n + granuleCount g u < 2 ^ 31 := by omega
    rw [or_iff_left hwrap]
    constructor
    · intro hnever
      by_contra hn
      have hclog : 12 ≤ Nat.clog 2 n := (Nat.lt_clog_iff_pow_lt (by decide)).mpr (not_le.mp hn)
      refine hhot.wraps hunits hdvd hP ?_ hnever
      obtain heq | hlt := hclog.eq_or_lt
      · exact Or.inr (by rw [← heq]; rfl)
      · have hpow := Nat.pow_le_pow_right (show 0 < 2 by decide) hlt
        exact Or.inl (by omega)
    · intro hn
      have hpow : 2 ^ Nat.clog 2 n ≤ 2 ^ 11 :=
        Nat.pow_le_pow_right (by decide) (Nat.clog_le_of_le_pow hn)
      refine Low.neverWraps hunits hdvd hP ⟨0, hhot.1, fun unitId i => ?_⟩ (by omega)
      have hzero := hs₀
      rw [construct, changeCapacity] at hzero
      split at hzero
      · cases hzero
      · cases hzero
        exact Nat.zero_le _

theorem never_wraps_iff_short : NeverWraps 3 RangeFrequencyHistory.oneWord :=
  (never_wraps_iff (n := 1) (N := 3) (by decide) (by decide) (by decide) rfl (by decide) (by decide)
    RangeFrequencyHistory.construct_oneWord).mpr (Or.inl (by decide))

/-- A table of 4096 words leaves a counter time to wrap: it is halved at 40960, and again at 61440,
and reaches 65535 before the next reset is due. -/
theorem counter_wraps : ∃ s₀, construct 4096 1 1 = .ok s₀ ∧ ¬ NeverWraps 1 s₀ := by
  have hs₀ : construct (Int32.ofNat 4096) 1 1 = .ok _ := rfl
  have hhot := construct_hot (by decide) (by decide) hs₀
  have hclog : Nat.clog 2 4096 = 12 := Nat.clog_pow 2 12 (by decide)
  rw [hclog] at hhot
  have hunits : Units 1 1 := ⟨by decide, by decide, by decide, by decide⟩
  exact ⟨_, hs₀, hhot.wraps hunits (dvd_refl _) (by decide) (Or.inr rfl)⟩

end DistExp.RangeFrequencyPeriods
