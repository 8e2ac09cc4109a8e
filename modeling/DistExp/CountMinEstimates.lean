import DistExp.CountMinSketch

namespace DistExp.CountMinEstimates

open DistExp.Library.MachineInt DistExp.Library.AgedCounter DistExp.Library.Runs
open DistExp.PackedTable DistExp.RangeGeometry DistExp.GranuleLoop DistExp.CountMinSketch

variable {hash : UInt64 → UInt32} {g u : UInt64} {p : Nat} {s : Sketch} {ks : List UInt64}

theorem construct_counts (hash : UInt64 → UInt32) {n : Int32} (hs : construct n g u = .ok s) :
    ∃ p, Counts hash g u p s [] := by
  rw [construct, changeCapacity] at hs
  split at hs
  · cases hs
  · next hn =>
    cases hs
    obtain ⟨p, hp, htable⟩ := resize_of_capacity hn
    refine ⟨p, ?_, rfl, rfl, fun c => ?_⟩
    · rw [htable]
      exact PowSized.replicate hp
    · rw [htable]
      exact cells_replicate _ c

theorem sum_present (ks : List UInt64) (x : UInt64) :
    (ks.map (present (fun k => [k]) x)).sum = ks.count x := by
  induction ks with
  | nil => rfl
  | cons k ks ih =>
    have hk : present (fun k => [k]) x k = if k == x then 1 else 0 := by
      rw [present]
      refine if_congr ?_ rfl rfl
      rw [List.mem_singleton, beq_iff_eq, eq_comm]
    rw [List.map_cons, List.sum_cons, ih, List.count_cons, hk, Nat.add_comm]

theorem frequency_ge_count (h : Counts hash g u p s ks) (x : UInt64) :
    ∃ m, frequency hash s x = .ok (Int32.ofNat m) ∧ min 15 (ks.count x) ≤ m ∧ m ≤ 15 := by
  refine ⟨_, FlatTable.blockFrequency_eq h.sized (hash x), ?_, ?_⟩
  · have hle := present_le_rowMin 15 (fun k => [k]) (keyRows hash p)
      (show 15 ≤ intMax by decide) (ks.map Event.hit) x
    rw [aged_hits, sum_present, ← funext h.counters] at hle
    exact hle
  · exact (rowMin_le _ _ _ (FlatTable.mem_rowCells.mpr ⟨0, rfl⟩)).trans (cells_le s.table _)

theorem frequency_eq_count (h : Counts hash g u p s ks) {x : UInt64} (j : Fin 4)
    (hpriv : ∀ k ∈ ks, k ≠ x → FlatTable.cellOf p (hash x) j ∉ FlatTable.rowCells p (hash k)) :
    frequency hash s x = .ok (Int32.ofNat (min 15 (ks.count x))) := by
  have hrow := rowMin_eq_present 15 (fun k => [k]) (keyRows hash p)
    (show 15 ≤ intMax by decide) (ks.map Event.hit) x (FlatTable.rowCells_nodup p (hash x))
    (FlatTable.mem_rowCells.mpr ⟨j, rfl⟩) (fun k _ => List.nodup_singleton k) ?_
  · rw [aged_hits, sum_present, ← funext h.counters] at hrow
    rw [frequency, FlatTable.blockFrequency_eq h.sized, ← hrow]
    rfl
  · intro k hk k' hk' hne
    obtain rfl := List.mem_singleton.mp hk'
    exact hpriv k' (by simpa using hk) hne

/-- The history succeeds, and no query of a granule is below the accesses that contain it, as far
as one counter can count. -/
def NeverUnderestimates (hash : UInt64 → UInt32) (s₀ : Sketch) (g : UInt64) (ops : List Access) :
    Prop :=
  ∃ s, ops.foldlM (fun s a => recordAccess hash s a.unitId a.t a.size) s₀ = .ok s ∧
    ∀ x : UInt64, g.toNat ∣ x.toNat → ∃ f, frequency hash s x = .ok f ∧
      ((min 15 (covering x ops) : Nat) : Int) ≤ f.toInt

/-- The loops succeed, and go through each granule as often as accesses contain it, as far as one
counter can count. -/
def KeysCover (g u : UInt64) (ops : List Access) : Prop :=
  ∃ ks, historyKeys g u ops = .ok ks ∧
    ∀ x : UInt64, g.toNat ∣ x.toNat → min 15 (covering x ops) ≤ ks.count x

def apart (x k : UInt64) : UInt32 := if k = x then 0 else 1

theorem cellOf_apart (p : Nat) {x k : UInt64} (hk : k ≠ x) :
    FlatTable.cellOf p (apart x x) 0 ∉ FlatTable.rowCells p (apart x k) := by
  rw [apart, apart, if_pos rfl, if_neg hk, FlatTable.mem_rowCells]
  rintro ⟨j, hj⟩
  have hne : ∀ j, FlatTable.fieldOf 0 0 ≠ FlatTable.fieldOf 1 j := by decide
  exact hne j (congrArg Prod.snd hj)

theorem neverUnderestimates_of_keysCover (hash : UInt64 → UInt32) {n : Int32} {s₀ : Sketch}
    (hs₀ : construct n g u = .ok s₀) {ops : List Access} (hops : KeysCover g u ops) :
    NeverUnderestimates hash s₀ g ops := by
  obtain ⟨ks, hks, hcover⟩ := hops
  obtain ⟨p, h₀⟩ := construct_counts hash hs₀
  obtain ⟨ks', s, hks', hrun, hs⟩ | ⟨e, he, -⟩ := h₀.run ops
  · obtain rfl : ks' = ks := Except.ok.inj (hks'.symm.trans hks)
    refine ⟨s, hrun, fun x hx => ?_⟩
    obtain ⟨m, hf, hle, hm⟩ := frequency_ge_count hs x
    refine ⟨_, hf, ?_⟩
    have hx := hcover x hx
    rw [Int32.toInt_ofNat_of_lt (by omega)]
    omega
  · cases he.symm.trans hks

/-- `count_min_sketch` never underestimates a granule, whatever the hash is, exactly when its loops
go through every granule as often as accesses contain it. For regular accesses they go through
those that are twice as far inside the unit as the accessed ones, and one more. -/
theorem never_underestimates_iff {n : Int32} {s₀ : Sketch} (hs₀ : construct n g u = .ok s₀)
    (hg : 0 < g.toNat) (hdvd : g.toNat ∣ u.toNat) (ops : List Access) :
    ((∀ hash, NeverUnderestimates hash s₀ g ops) ↔ KeysCover g u ops) ∧
    ((∀ a ∈ ops, Regular g u a) → (KeysCover g u ops ↔ ∀ x : UInt64, g.toNat ∣ x.toNat →
      min 15 (covering x ops) ≤ ops.countP fun a => decide (Reaches u x a))) := by
  refine ⟨⟨fun hall => ?_, fun hops hash => neverUnderestimates_of_keysCover hash hs₀ hops⟩,
    fun hops => ?_⟩
  · obtain ⟨p, h₀⟩ := construct_counts (apart 0) hs₀
    obtain ⟨ks, s, hks, -⟩ | ⟨e, -, he⟩ := h₀.run ops
    · refine ⟨ks, hks, fun x hx => ?_⟩
      -- a hash that keeps the counters of this granule free of others
      obtain ⟨p, h₀⟩ := construct_counts (apart x) hs₀
      obtain ⟨s, hrun, hle⟩ := hall (apart x)
      obtain ⟨ks', s', hks', hrun', hs'⟩ | ⟨e, -, he⟩ := h₀.run ops
      · obtain rfl : ks' = ks := Except.ok.inj (hks'.symm.trans hks)
        obtain rfl : s' = s := Except.ok.inj (hrun'.symm.trans hrun)
        have hf := frequency_eq_count hs' 0 fun k _ hne => cellOf_apart p hne
        obtain ⟨f, hf', hmin⟩ := hle x hx
        obtain rfl := Except.ok.inj (hf.symm.trans hf')
        rw [Int32.toInt_ofNat_of_lt (by omega)] at hmin
        omega
      · cases he.symm.trans hrun
    · obtain ⟨s, hrun, -⟩ := hall (apart 0)
      cases he.symm.trans hrun
  · have hcount (x : UInt64) (hx : g.toNat ∣ x.toNat) := count_foldlM_keys hg hdvd hx hops []
    obtain ⟨ks, hks, -⟩ := hcount 0 (Nat.dvd_zero _)
    have hcount_eq : ∀ x : UInt64, g.toNat ∣ x.toNat →
        ks.count x = ops.countP fun a => decide (Reaches u x a) := by
      intro x hx
      obtain ⟨ks', hks', hc⟩ := hcount x hx
      obtain rfl : ks' = ks := Except.ok.inj (hks'.symm.trans hks)
      rw [hc, List.count_nil, Nat.zero_add]
    constructor
    · rintro ⟨ks', hks', hle⟩ x hx
      obtain rfl : ks' = ks := Except.ok.inj (hks'.symm.trans hks)
      rw [← hcount_eq x hx]
      exact hle x hx
    · exact fun hle => ⟨ks, hks, fun x hx => by rw [hcount_eq x hx]; exact hle x hx⟩

theorem reaches_of_covers {x : UInt64} {a : Access} (ha : u.toNat ∣ a.t.toNat)
    (hx : Covers x a) : Reaches u x a := by
  obtain ⟨hlo, hhi⟩ := hx
  rw [Reaches, Nat.mod_eq_zero_of_dvd ha]
  omega

def small : Sketch := ⟨Array.replicate 2 0, 0, 1, 4⟩

theorem construct_small : construct 2 1 4 = .ok small := rfl

def alignedOps : List Access := [⟨0, 4, 2⟩, ⟨0, 4, 3⟩]

theorem never_underestimates_iff_aligned : construct 2 1 4 = .ok small ∧
    (∀ hash, NeverUnderestimates hash small 1 alignedOps) := by
  obtain ⟨hiff, hregular⟩ := never_underestimates_iff construct_small (by decide) (by decide)
    alignedOps
  refine ⟨construct_small, hiff.mpr ((hregular ?_).mpr fun x _ => ?_)⟩
  · intro a ha
    simp only [alignedOps, List.mem_cons, List.not_mem_nil, or_false] at ha
    obtain rfl | rfl := ha <;>
      exact ⟨⟨by decide, by decide, by decide⟩, by decide, by decide, by decide⟩
  · refine (Nat.min_le_right _ _).trans (List.countP_mono_left fun a ha hx => ?_)
    simp only [alignedOps, List.mem_cons, List.not_mem_nil, or_false] at ha
    rw [decide_eq_true_eq] at hx ⊢
    exact reaches_of_covers (by obtain rfl | rfl := ha <;> decide) hx

/-- An access to the second granule of a unit counts the third and the fourth one. -/
theorem granule_missed : construct 2 1 4 = .ok small ∧ Regular 1 4 ⟨0, 1, 1⟩ ∧
    covering 1 [⟨0, 1, 1⟩] = 1 ∧
    ∃ s, recordAccess (Detail.hashInt 0) small 0 1 1 = .ok s ∧
      frequency (Detail.hashInt 0) s 1 = .ok 0 ∧
      ¬ NeverUnderestimates (Detail.hashInt 0) small 1 [⟨0, 1, 1⟩] := by
  have hrun : (recordAccess (Detail.hashInt 0) small 0 1 1 >>=
      fun s => frequency (Detail.hashInt 0) s 1) = .ok 0 := by decide +kernel
  obtain ⟨s, hrec, hf⟩ := exists_of_bind_ok hrun
  refine ⟨construct_small, ⟨⟨by decide, by decide, by decide⟩, by decide, by decide, by decide⟩,
    by decide, s, hrec, hf, ?_⟩
  rintro ⟨s', hrun', hle⟩
  obtain rfl : s' = s := by
    refine Except.ok.inj (hrun'.symm.trans ?_)
    rw [List.foldlM_cons, hrec]
    rfl
  obtain ⟨f, hf', hmin⟩ := hle 1 (by decide)
  obtain rfl : f = 0 := Except.ok.inj (hf'.symm.trans hf)
  exact absurd hmin (by decide)

end DistExp.CountMinEstimates
