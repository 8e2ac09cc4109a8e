import DistExp.HierarchicalEstimates

namespace DistExp.HierarchicalAging

open DistExp.Library.MachineInt
open DistExp.PackedTable DistExp.HierarchicalSketch DistExp.HierarchicalEstimates

/-- What an access adds to the number of counted granules, which is how many its loop goes over. -/
def cnt (g : UInt64) (a : Access) : Int := (toInt ((a.size + g - 1) / g)).toInt

def Counted (g : UInt64) (s : Sketch) (a : Access) : Prop :=
  -2 ^ 31 ≤ s.size.toInt + cnt g a ∧ s.size.toInt + cnt g a < 2 ^ 31

inductive Run (hash : UInt64 → UInt64 → UInt32) (g : UInt64) (s₀ : Sketch) :
    List Access → Sketch → Prop where
  | start : Run hash g s₀ [] s₀
  | step {as : List Access} {s s₁ : Sketch} {a : Access} (h : Run hash g s₀ as s)
      (ha : Counted g s a) (hrec : recordAccess hash s a.flowId a.t a.size = .ok s₁) :
      Run hash g s₀ (as ++ [a]) (doReset s₁).1

def Fires (hash : UInt64 → UInt64 → UInt32) (g : UInt64) (s : Sketch) (a : Access) (s₁ : Sketch) :
    Prop :=
  Counted g s a ∧ recordAccess hash s a.flowId a.t a.size = .ok s₁ ∧ (doReset s₁).2 = true

def counted (g : UInt64) (as : List Access) : Nat := (as.map fun a => (cnt g a).toNat).sum

/-- Resets take place when twenty granules for each word have been counted, and not before. -/
structure AgesWhenDue (hash : UInt64 → UInt64 → UInt32) (g : UInt64) (s₀ : Sketch) : Prop where
  due : ∀ as s a s₁, Run hash g s₀ as s → Counted g s a →
    recordAccess hash s a.flowId a.t a.size = .ok s₁ →
      ((doReset s₁).2 = true ↔ (20 * s₀.table.size : Int) ≤ s₁.size.toInt)
  below : ∀ as s, Run hash g s₀ as s → (∀ a ∈ as, cnt g a ≤ 20 * s₀.table.size) →
    s.size.toInt < 20 * s₀.table.size
  apart : ∀ as s a s₁ bs s₂ b s₃, Run hash g s₀ as s → Fires hash g s a s₁ →
    Run hash g (doReset s₁).1 bs s₂ → Fires hash g s₂ b s₃ →
    (∀ c ∈ as ++ [a], cnt g c ≤ 20 * s₀.table.size) →
      20 * s₀.table.size - s₁.size.toInt / 2 ≤ (counted g (bs ++ [b]) : Int) ∧
        1 ≤ 20 * s₀.table.size - s₁.size.toInt / 2

variable {hash : UInt64 → UInt64 → UInt32} {g : UInt64} {p : Nat} {s s₀ s₁ : Sketch} {z : Int}
  {as : List Access} {a : Access}

theorem counted_snoc (as : List Access) (a : Access) :
    counted g (as ++ [a]) = counted g as + (cnt g a).toNat := by
  rw [counted, List.map_append, List.sum_append, List.map_singleton, List.sum_singleton, counted]

structure Holds (g : UInt64) (p : Nat) (z : Int) (s : Sketch) : Prop where
  sized : PowSized p s.table
  granularity_eq : s.granularity = g
  size_eq : s.size.toInt = z

theorem toInt_add_of_fits {x y : Int32} (hlo : -2 ^ 31 ≤ x.toInt + y.toInt)
    (hhi : x.toInt + y.toInt < 2 ^ 31) : (x + y).toInt = x.toInt + y.toInt := by
  rw [Int32.toInt_add]
  exact Int.bmod_eq_of_le (by omega) (by omega)

theorem Holds.record (hash : UInt64 → UInt64 → UInt32) (hg : 0 < g.toNat) (h : Holds g p z s)
    (ha : Counted g s a) : ∃ s₁, recordAccess hash s a.flowId a.t a.size = .ok s₁ ∧
      Holds g p (z + cnt g a) s₁ := by
  obtain ⟨table, added, hadd, hsized, -⟩ := addGranules_eq hash s.granularity a.flowId
    (cntOf s a.size).toInt.toNat (startOf s a.t) h.sized false
  have hg0 : s.granularity ≠ 0 := by
    rw [h.granularity_eq]
    rintro rfl
    exact Nat.lt_irrefl 0 hg
  have hcnt : (cntOf s a.size).toInt = cnt g a := by rw [cntOf, h.granularity_eq, cnt]
  refine ⟨{ s with table := table, size := s.size + cntOf s a.size }, ?_, hsized,
    h.granularity_eq, ?_⟩
  · rw [recordAccess, if_neg hg0]
    simp only [hadd]
    rfl
  · change (s.size + cntOf s a.size).toInt = _
    rw [← h.size_eq, ← hcnt]
    exact toInt_add_of_fits (by rw [hcnt]; exact ha.1) (by rw [hcnt]; exact ha.2)

theorem samplingSize_eq (hp : PowSized p s.table) : samplingSize s = Int32.ofNat (20 * 2 ^ p) := by
  have hle := Nat.pow_le_pow_right (show 0 < 2 by decide) hp.2
  have htwenty : (20 : UInt64).toNat = 20 := rfl
  rw [samplingSize, hp.1, toInt, UInt64.toNat_mul, UInt64.toNat_ofNat_of_lt', htwenty,
    Nat.mod_eq_of_lt (by omega), Nat.mul_comm]
  change _ < 2 ^ 64
  omega

section Small

theorem Holds.doReset (hp : p ≤ 26) (h : Holds g p z s) :
    (20 * 2 ^ p ≤ z ∧ (doReset s).2 = true ∧ Holds g p (z / 2) (doReset s).1) ∨
      (z < 20 * 2 ^ p ∧ (doReset s).2 = false ∧ Holds g p z (doReset s).1) := by
  have hle := Nat.pow_le_pow_right (show 0 < 2 by decide) hp
  have hpos : 0 < 2 ^ p := by positivity
  have hsampling : (samplingSize s).toInt = 20 * 2 ^ p := by
    rw [samplingSize_eq h.sized, Int32.toInt_ofNat_of_lt (by omega)]
    push_cast
    rfl
  have hdue : s.size ≥ samplingSize s ↔ 20 * 2 ^ p ≤ z := by
    rw [ge_iff_le, Int32.le_iff_toInt_le, hsampling, h.size_eq]
  rw [HierarchicalSketch.doReset]
  by_cases hd : s.size ≥ samplingSize s
  · rw [if_pos hd]
    have hz := hdue.mp hd
    have hpow : (0 : Int) ≤ 2 ^ p := by positivity
    refine Or.inl ⟨hz, rfl, h.sized.reset, h.granularity_eq, ?_⟩
    change (s.size / 2).toInt = _
    rw [Int32.toInt_div_of_ne_right _ _ (by decide), h.size_eq]
    exact Int.tdiv_eq_ediv_of_nonneg (by omega)
  · rw [if_neg hd]
    exact Or.inr ⟨not_le.mp fun hz => hd (hdue.mpr hz), rfl, h⟩

theorem Run.holds (hg : 0 < g.toNat) (hp : p ≤ 26) (h₀ : Holds g p z s₀) (h : Run hash g s₀ as s) :
    ∃ y, Holds g p y s ∧ y ≤ z + counted g as := by
  induction h with
  | start => exact ⟨z, h₀, by rw [counted, List.map_nil, List.sum_nil]; omega⟩
  | step _ ha hrec ih =>
    obtain ⟨y, hy, hle⟩ := ih
    obtain ⟨s₁, hrec', h₁⟩ := hy.record hash hg ha
    cases hrec.symm.trans hrec'
    have hpow : (0 : Int) ≤ 2 ^ p := by positivity
    rw [counted_snoc]
    obtain ⟨hdue, -, h'⟩ | ⟨-, -, h'⟩ := h₁.doReset hp
    · exact ⟨_, h', by omega⟩
    · exact ⟨_, h', by omega⟩

theorem Run.size_lt (hg : 0 < g.toNat) (hp : p ≤ 26) (h₀ : Holds g p 0 s₀) (h : Run hash g s₀ as s)
    (has : ∀ a ∈ as, cnt g a ≤ 20 * 2 ^ p) : ∃ y, Holds g p y s ∧ y < 20 * 2 ^ p := by
  induction h with
  | start => exact ⟨0, h₀, by positivity⟩
  | step _ ha hrec ih =>
    obtain ⟨y, hy, hlt⟩ := ih fun b hb => has b (List.mem_append_left _ hb)
    have hcnt := has _ (List.mem_append_right _ (List.mem_singleton_self _))
    obtain ⟨s₁, hrec', h₁⟩ := hy.record hash hg ha
    cases hrec.symm.trans hrec'
    obtain ⟨-, -, h'⟩ | ⟨hlt', -, h'⟩ := h₁.doReset hp
    · exact ⟨_, h', by omega⟩
    · exact ⟨_, h', hlt'⟩

theorem agesWhenDue_of_small (hg : 0 < g.toNat) (hp : p ≤ 26) (h₀ : Holds g p 0 s₀) :
    AgesWhenDue hash g s₀ := by
  have hsize : (s₀.table.size : Int) = 2 ^ p := by
    rw [h₀.sized.1]
    push_cast
    rfl
  constructor
  · intro as s a s₁ hrun ha hrec
    obtain ⟨y, hy, -⟩ := hrun.holds hg hp h₀
    obtain ⟨s₁', hrec', h₁⟩ := hy.record hash hg ha
    cases hrec.symm.trans hrec'
    rw [hsize, h₁.size_eq]
    obtain ⟨hdue, hfired, -⟩ | ⟨hlt, hfired, -⟩ := h₁.doReset hp
    · exact iff_of_true hfired hdue
    · exact iff_of_false (by rw [hfired]; decide) (not_le.mpr hlt)
  · intro as s hrun has
    rw [hsize] at has ⊢
    obtain ⟨y, hy, hlt⟩ := hrun.size_lt hg hp h₀ has
    rwa [hy.size_eq]
  · rintro as s a s₁ bs s₂ b s₃ hrun ⟨ha, hrec, hfired⟩ hrun' ⟨hb, hrec', hfired'⟩ has
    rw [hsize] at has ⊢
    obtain ⟨y, hy, hlt⟩ := hrun.size_lt hg hp h₀ fun c hc => has c (List.mem_append_left _ hc)
    have hcnt := has a (List.mem_append_right _ (List.mem_singleton_self a))
    obtain ⟨s₁', hrec₁, h₁⟩ := hy.record hash hg ha
    cases hrec.symm.trans hrec₁
    obtain ⟨-, -, hreset⟩ | ⟨-, hfalse, -⟩ := h₁.doReset hp
    · obtain ⟨y₂, h₂, hle⟩ := hrun'.holds hg hp hreset
      obtain ⟨s₃', hrec₃, h₃⟩ := h₂.record hash hg hb
      cases hrec'.symm.trans hrec₃
      rw [counted_snoc, h₁.size_eq]
      obtain ⟨hdue, -, -⟩ | ⟨-, hfalse, -⟩ := h₃.doReset hp
      · exact ⟨by omega, by omega⟩
      · exact absurd (hfired'.symm.trans hfalse) (by decide)
    · exact absurd (hfired.symm.trans hfalse) (by decide)

end Small

section Large

def oneGranule : Access := ⟨0, 0, 1⟩

theorem cnt_oneGranule (hg : 0 < g.toNat) : cnt g oneGranule = 1 := by
  have hlt := g.toNat_lt
  have hone : ((1 + g - 1) / g).toNat = 1 := by
    have hroom : (1 : UInt64).toNat + g.toNat ≤ 2 ^ 64 := by
      change 1 + g.toNat ≤ 2 ^ 64
      omega
    rw [UInt64.toNat_div, toNat_add_sub_one hg hroom]
    change (1 + g.toNat - 1) / g.toNat = 1
    rw [Nat.add_sub_cancel_left, Nat.div_self hg]
  change (toInt ((1 + g - 1) / g)).toInt = 1
  rw [toInt, hone]
  rfl

theorem Holds.counted_oneGranule (hg : 0 < g.toNat) {k : Nat} (h : Holds g p k s)
    (hk : k + 1 < 2 ^ 31) : Counted g s oneGranule := by
  rw [Counted, h.size_eq, cnt_oneGranule hg]
  omega

theorem exists_run (hash : UInt64 → UInt64 → UInt32) (hg : 0 < g.toNat) (hp : p = 28)
    (h₀ : Holds g p 0 s₀) (k : Nat) (hk : k < 2 ^ 30) :
    ∃ as s, Run hash g s₀ as s ∧ Holds g p k s := by
  induction k with
  | zero => exact ⟨[], s₀, .start, h₀⟩
  | succ k ih =>
    obtain ⟨as, s, hrun, hs⟩ := ih (by omega)
    have hone := hs.counted_oneGranule hg (by omega)
    obtain ⟨s₁, hrec, h₁⟩ := hs.record hash hg hone
    rw [cnt_oneGranule hg] at h₁
    have hsampling : (samplingSize s₁).toInt = 2 ^ 30 := by
      rw [samplingSize_eq h₁.sized, hp]
      rfl
    have hd : ¬ s₁.size ≥ samplingSize s₁ := by
      rw [ge_iff_le, Int32.le_iff_toInt_le, hsampling, h₁.size_eq]
      omega
    refine ⟨_, _, hrun.step hone hrec, ?_⟩
    rw [HierarchicalSketch.doReset, if_neg hd]
    exact h₁

theorem not_agesWhenDue_of_large (hg : 0 < g.toNat) (hp : 26 < p) (hp' : p ≤ 30)
    (h₀ : Holds g p 0 s₀) : ¬ AgesWhenDue hash g s₀ := by
  intro h
  -- a reset fires at a size that is too small
  have hearly (k : Nat) (hk : k + 1 < 2 ^ 31) (hsmall : k + 1 < 20 * 2 ^ p)
      (hle : (samplingSize s₀).toInt ≤ k + 1) (as : List Access) (s : Sketch)
      (hrun : Run hash g s₀ as s) (hs : Holds g p k s) : False := by
    have hone := hs.counted_oneGranule hg hk
    obtain ⟨s₁, hrec, h₁⟩ := hs.record hash hg hone
    rw [cnt_oneGranule hg] at h₁
    have hd : s₁.size ≥ samplingSize s₁ := by
      rw [ge_iff_le, Int32.le_iff_toInt_le, samplingSize_eq h₁.sized, ← samplingSize_eq h₀.sized,
        h₁.size_eq]
      exact hle
    have hfired : (HierarchicalSketch.doReset s₁).2 = true := by
      rw [HierarchicalSketch.doReset, if_pos hd]
    have hge := (h.due as s oneGranule s₁ hrun hone hrec).mp hfired
    rw [h₁.size_eq, h₀.sized.1] at hge
    omega
  have hpow := Nat.pow_le_pow_right (show 0 < 2 by decide) (show 27 ≤ p by omega)
  by_cases h28 : p = 28
  · obtain ⟨as, s, hrun, hs⟩ := exists_run hash hg h28 h₀ (2 ^ 30 - 1) (by omega)
    refine hearly _ (by omega) (by omega) ?_ as s hrun hs
    rw [samplingSize_eq h₀.sized, h28]
    decide
  · refine hearly 0 (by omega) (by omega) ?_ [] s₀ .start h₀
    obtain rfl | rfl | rfl : p = 27 ∨ p = 29 ∨ p = 30 := by omega
    all_goals
      rw [samplingSize_eq h₀.sized]
      decide

end Large

theorem construct_holds {n : Nat} (hpos : 0 < n) (hlt : n < 2 ^ 31)
    (hs : construct (Int32.ofNat n) g = .ok s) : Holds g (Nat.clog 2 n) 0 s := by
  rw [construct, changeCapacity] at hs
  split at hs
  · cases hs
  · cases hs
    refine ⟨⟨?_, Nat.clog_le_of_le_pow hlt.le⟩, rfl, rfl⟩
    rw [size_resize, words_of_capacity hpos hlt]

/-- Resets are due when they should be exactly for the capacities whose sampling size is an `int`. -/
theorem ages_when_due_iff (hash : UInt64 → UInt64 → UInt32) (hg : 0 < g.toNat) {n : Nat}
    (hpos : 0 < n) (hmax : n ≤ 2 ^ 30) (hs₀ : construct (Int32.ofNat n) g = .ok s₀) :
    AgesWhenDue hash g s₀ ↔ n ≤ 2 ^ 26 := by
  have h₀ := construct_holds hpos (by omega) hs₀
  constructor
  · intro h
    by_contra hn
    have hclog := (Nat.lt_clog_iff_pow_lt (by decide)).mpr (not_le.mp hn)
    exact not_agesWhenDue_of_large hg hclog (Nat.clog_le_of_le_pow hmax) h₀ h
  · intro hn
    exact agesWhenDue_of_small hg (Nat.clog_le_of_le_pow hn) h₀

theorem ages_when_due_iff_sample : AgesWhenDue Detail.hash 8 sampleSketch :=
  (ages_when_due_iff (n := 1) Detail.hash (by decide) (by decide) (by decide) construct_sample).mpr
    (by decide)

theorem reset_too_early : ∃ s₀, construct 134217728 1 = .ok s₀ ∧
    ¬ AgesWhenDue Detail.hash 1 s₀ := by
  have hs₀ : construct (Int32.ofNat 134217728) 1 = .ok _ := rfl
  have h₀ := construct_holds (by decide) (by decide) hs₀
  have hclog : Nat.clog 2 134217728 = 27 := Nat.clog_pow 2 27 (by decide)
  rw [hclog] at h₀
  exact ⟨_, hs₀, not_agesWhenDue_of_large (by decide) (by decide) (by decide) h₀⟩

end DistExp.HierarchicalAging
