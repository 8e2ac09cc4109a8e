import DistExp.RangeFrequencySketch

namespace DistExp.RangeFrequencyHistory

open DistExp.Library.MachineInt DistExp.Library.AgedCounter DistExp.Library.FieldMap
open DistExp.Library.Runs
open DistExp.PackedTable DistExp.RangeGeometry DistExp.RangeCalls DistExp.RangeLevels
open DistExp.RangeFrequencySketch

inductive Op where
  | record (a : Access)
  | tryReset

def Op.run (st : Sketch × List (Event Access)) : Op → Except Fault (Sketch × List (Event Access))
  | .record a => do
    return (← recordAccess st.1 a.unitId a.t a.size, st.2 ++ [.hit a])
  | .tryReset => do
    let (s, due) ← RangeFrequencySketch.tryReset st.1
    return (s, if due then st.2 ++ [.halve] else st.2)

def Touches (g u unitId : UInt64) (i : Nat) (a : Access) : Prop :=
  a.unitId = unitId ∧ i ∈ granulesOf g u a

instance (g u unitId : UInt64) (i : Nat) (a : Access) : Decidable (Touches g u unitId i a) :=
  inferInstanceAs (Decidable (_ ∧ _))

/-- The exact counter of a granule: the accesses that it is in, halved with every reset. -/
def granuleRef (g u : UInt64) (log : List (Event Access)) (unitId : UInt64) (i : Nat) : Nat :=
  uncapped (fun a => if Touches g u unitId i a then 1 else 0) log

def Fitting (g u : UInt64) (log : List (Event Access)) : Prop :=
  ∀ pre, pre <+: log → ∀ unitId i, granuleRef g u pre unitId i ≤ 65535

variable {g u : UInt64} {N : Nat} {s : Sketch} {log : List (Event Access)} {q : Access}

theorem Fitting.of_append {e : Event Access} (h : Fitting g u (log ++ [e])) : Fitting g u log :=
  fun pre hp => h pre (hp.trans (List.prefix_append log [e]))

theorem fitting_of_length (h : log.length ≤ 65535) : Fitting g u log := by
  intro pre hp unitId i
  have hle := uncapped_le_length (w := fun a => if Touches g u unitId i a then 1 else 0)
    (fun a => by split <;> decide) pre
  exact hle.trans (hp.length_le.trans h)

/-- What a run keeps: the exact counters of its log, as long as they fit, and no counter for a
unit without accesses. -/
structure Tracks (g u : UInt64) (st : Sketch × List (Event Access)) : Prop where
  sized : Sized g u st.1
  entry_eq : Fitting g u st.2 → ∀ unitId i, (entry st.1 unitId i).toNat = granuleRef g u st.2 unitId i
  untouched : ∀ unitId, (∀ a, Event.hit a ∈ st.2 → a.unitId ≠ unitId) → ∀ i, entry st.1 unitId i = 0

theorem count_granulesOf (a : Access) (i : Nat) :
    (granulesOf g u a).count i = if i ∈ granulesOf g u a then 1 else 0 :=
  List.Nodup.count List.nodup_range'

theorem Tracks.record (hu : Units g u) (h : Tracks g u (s, log)) {a : Access} (ha : Inside u a) :
    ∃ s', recordAccess s a.unitId a.t a.size = .ok s' ∧ Tracks g u (s', log ++ [.hit a]) := by
  obtain ⟨s', hrun, hr⟩ := recordAccess_eq hu h.sized ha
  refine ⟨s', hrun, hr.sized, fun hfit unitId i => ?_, fun unitId hne i => ?_⟩
  · have hold := h.entry_eq hfit.of_append unitId i
    have hmax := hfit _ (List.prefix_refl _) unitId i
    have hnew : granuleRef g u (log ++ [.hit a]) unitId i =
        granuleRef g u log unitId i + if Touches g u unitId i a then 1 else 0 := uncapped_snoc _ _ _
    rw [hnew, ← hold] at hmax ⊢
    rw [hr.entry_eq, count_granulesOf]
    by_cases ht : Touches g u unitId i a
    · rw [if_pos ht] at hmax ⊢
      rw [if_pos ht.1.symm, if_pos ht.2, UInt16.toNat_add]
      exact Nat.mod_eq_of_lt (Nat.lt_succ_of_le hmax)
    · rw [if_neg ht, Nat.add_zero]
      by_cases hunit : unitId = a.unitId
      · rw [if_pos hunit, if_neg fun hi => ht ⟨hunit.symm, hi⟩]
        exact congrArg UInt16.toNat (UInt16.add_zero _)
      · rw [if_neg hunit, UInt16.add_zero]
  · have ha := hne a (by simp)
    rw [hr.entry_eq, if_neg (Ne.symm ha), UInt16.add_zero]
    exact h.untouched unitId (fun b hb => hne b (by simp [hb])) i

theorem Tracks.tryReset (hu : Units g u) (hdvd : g.toNat ∣ u.toNat) (h : Tracks g u (s, log)) :
    ∃ st, Op.tryReset.run (s, log) = .ok st ∧ Tracks g u st := by
  by_cases hdue : s.size ≥ samplingSize s
  · obtain ⟨s', hrun, hs', -, -, hentry⟩ := tryReset_due hu h.sized hdue
    refine ⟨(s', log ++ [.halve]), ?_, hs', fun hfit unitId i => ?_, fun unitId hne i => ?_⟩
    · rw [Op.run, hrun]
      rfl
    · have hold := h.entry_eq hfit.of_append unitId i
      have hnew : granuleRef g u (log ++ [.halve]) unitId i = granuleRef g u log unitId i / 2 :=
        uncapped_snoc _ _ _
      have hhalf : (entry s unitId i / 2).toNat = (entry s unitId i).toNat / 2 := UInt16.toNat_div _ _
      rw [hnew, ← hold, hentry, ← hhalf]
      split
      · rfl
      · next hi =>
        -- a whole number of granules leaves none out
        rw [h.sized.entry_zero unitId (by
          rw [granuleCount_of_dvd hu.granularity_pos hdvd]
          exact not_lt.mp hi)]
        rfl
    · rw [hentry, h.untouched unitId (fun b hb => hne b (by simp [hb]))]
      split <;> rfl
  · refine ⟨(s, log), ?_, h⟩
    rw [Op.run, tryReset_not_due hdue]
    rfl

theorem run_tracks (hu : Units g u) (hdvd : g.toNat ∣ u.toNat) {st : Sketch × List (Event Access)}
    (h : Tracks g u st) (ops : List Op) (hops : ∀ a, Op.record a ∈ ops → Inside u a) :
    ∃ st', ops.foldlM Op.run st = .ok st' ∧ Tracks g u st' := by
  refine foldlM_invariant Op.run (Tracks g u) ops (fun st op hop hst => ?_) h
  obtain ⟨s, log⟩ := st
  cases op with
  | record a =>
    obtain ⟨s', hrun, hs'⟩ := hst.record hu (hops a hop)
    refine ⟨_, ?_, hs'⟩
    rw [Op.run, hrun]
    rfl
  | tryReset => exact hst.tryReset hu hdvd

theorem construct_tracks {n : Int32} (hs : construct n g u = .ok s) : Tracks g u (s, []) := by
  rw [construct, changeCapacity] at hs
  split at hs
  · cases hs
  · cases hs
    exact ⟨⟨rfl, rfl, by simp⟩, fun _ _ _ => rfl, fun _ _ _ => rfl⟩

theorem units_of_geometry (hgeo : Geometry g u N) (hN : N < 2 ^ 31) :
    Units g u ∧ g.toNat ∣ u.toNat := by
  have hdvd : g.toNat ∣ u.toNat := ⟨N, by rw [hgeo.unitSize_eq, Nat.mul_comm]⟩
  refine ⟨⟨hgeo.granularity_pos, hgeo.unitSize_pos, hgeo.room, ?_⟩, hdvd⟩
  rwa [granuleCount_of_dvd hgeo.granularity_pos hdvd, hgeo.unitSize_eq,
    Nat.mul_div_cancel _ hgeo.granularity_pos]

def refSum (g u : UInt64) (log : List (Event Access)) (q : Access) : Nat :=
  ((granulesOf g u q).map (granuleRef g u log q.unitId)).sum

/-- `range_frequency_sketch` counts exactly: no access leaves its vector, and a query adds up the
accesses to its granules, halved with every reset. Units do not know of each other. -/
theorem exact_granule_counts (hgeo : Geometry g u N) (hN : N < 2 ^ 31) {n : Int32} {s₀ : Sketch}
    (hs₀ : construct n g u = .ok s₀) (ops : List Op) (hops : ∀ a, Op.record a ∈ ops → Inside u a) :
    ∃ s log, ops.foldlM Op.run (s₀, []) = .ok (s, log) ∧ ∀ q, Inside u q →
      (Fitting g u log → ∃ f, frequency s q.unitId q.t q.size = .ok f ∧
        f = Int32.ofNat (refSum g u log q) ∧
        (refSum g u log q < 2 ^ 31 → f.toInt = refSum g u log q)) ∧
      ((∀ a, Event.hit a ∈ log → a.unitId ≠ q.unitId) →
        frequency s q.unitId q.t q.size = .ok 0) ∧
      ∀ a, Inside u a → a.unitId ≠ q.unitId → ∃ s', recordAccess s a.unitId a.t a.size = .ok s' ∧
        frequency s' q.unitId q.t q.size = frequency s q.unitId q.t q.size := by
  obtain ⟨hu, hdvd⟩ := units_of_geometry hgeo hN
  obtain ⟨⟨s, log⟩, hrun, h⟩ := run_tracks hu hdvd (construct_tracks hs₀) ops hops
  refine ⟨s, log, hrun, fun q hq => ⟨fun hfit => ?_, fun hne => ?_, fun a ha hne => ?_⟩⟩
  · have hsum : ((granulesOf g u q).map fun i => (entry s q.unitId i).toNat) =
        (granulesOf g u q).map (granuleRef g u log q.unitId) :=
      List.map_congr_left fun i _ => h.entry_eq hfit q.unitId i
    refine ⟨_, frequency_eq hu h.sized hq, ?_, fun hlt => ?_⟩
    · rw [hsum, refSum]
    · rw [hsum]
      exact Int32.toInt_ofNat_of_lt hlt
  · have hzero : ((granulesOf g u q).map fun i => (entry s q.unitId i).toNat).sum = 0 := by
      apply List.sum_eq_zero
      intro x hx
      obtain ⟨i, -, rfl⟩ := List.mem_map.mp hx
      rw [h.untouched q.unitId hne i]
      rfl
    rw [frequency_eq hu h.sized hq, hzero]
    rfl
  · obtain ⟨s', hrec, hr⟩ := recordAccess_eq hu h.sized ha
    refine ⟨s', hrec, ?_⟩
    have hsame (i : Nat) : entry s' q.unitId i = entry s q.unitId i := by
      rw [hr.entry_eq, if_neg (Ne.symm hne), UInt16.add_zero]
    simp only [frequency_eq hu h.sized hq, frequency_eq hu hr.sized hq, hsame]

def oneWord : Sketch := ⟨#[0], [], 0, 1, 3⟩

theorem construct_oneWord : construct 1 1 3 = .ok oneWord := rfl

def agedOps : List Op :=
  [.record ⟨7, 0, 3⟩, .record ⟨7, 0, 3⟩, .record ⟨7, 3, 3⟩, .record ⟨7, 0, 3⟩, .tryReset,
    .record ⟨7, 4, 2⟩]

theorem exact_granule_counts_aged : ∃ s log, agedOps.foldlM Op.run (oneWord, []) = .ok (s, log) ∧
    frequency s 7 3 3 = .ok 8 := by
  have hrun : agedOps.foldlM Op.run (oneWord, []) = .ok (⟨#[0], [(7, #[2, 3, 3])], 2, 1, 3⟩,
      [.hit ⟨7, 0, 3⟩, .hit ⟨7, 0, 3⟩, .hit ⟨7, 3, 3⟩, .hit ⟨7, 0, 3⟩, .halve, .hit ⟨7, 4, 2⟩]) := by
    decide +kernel
  obtain ⟨s, log, hs, hall⟩ := exact_granule_counts (N := 3) ⟨by decide, by decide, rfl, by decide⟩
    (by decide) construct_oneWord agedOps (by
      intro a ha
      simp only [agedOps, List.mem_cons, Op.record.injEq, List.not_mem_nil, or_false, reduceCtorEq,
        false_or] at ha
      obtain rfl | rfl | rfl | rfl | rfl := ha <;> decide)
  cases hrun.symm.trans hs
  obtain ⟨f, hf, hsum, -⟩ := (hall ⟨7, 3, 3⟩ (by decide)).1 (fitting_of_length (by decide))
  refine ⟨_, _, hs, ?_⟩
  rw [hf, hsum]
  decide

def wideUnit : Sketch := ⟨#[0], [], 0, 0x8000000000000001, 0x8000000000000001⟩

/-- The sketch of units of more granules than an `int` can number. -/
def longUnit : Sketch := ⟨#[0], [], 0, 1, 0x100000000⟩

theorem indices_far : indices rounds (toInt 0x80000000) (toSize (toInt 1) + 0x80000000) = .ok [] := by
  rw [rounds, indices]
  exact if_neg (by decide)

theorem frequency_far {s : Sketch} (hg : s.granularity = 1) (hu : s.unitSize = 0x100000000)
    {vector : Array UInt16} (hv : hget s.unitAccFreq 0 = some vector) :
    frequency s 0 0x80000000 1 = .ok 0 := by
  have hbounds : bounds s 0x80000000 1 = .ok (toInt 0x80000000, toSize (toInt 1) + 0x80000000) := by
    rw [bounds, hg, hu]
    rfl
  rw [frequency, hbounds]
  simp only [bind, Except.bind, hv, indices_far]
  rfl

/-- A unit that is rounded up to no granules gets no counters, and an access leaves its vector. In a
unit of too many granules those from the middle on are not counted. -/
theorem granule_lost : construct 1 0x8000000000000001 0x8000000000000001 = .ok wideUnit ∧
    Inside 0x8000000000000001 ⟨0, 0, 1⟩ ∧ recordAccess wideUnit 0 0 1 = .error .outOfRange ∧
    construct 1 1 0x100000000 = .ok longUnit ∧ Inside 0x100000000 ⟨0, 0x80000000, 1⟩ ∧
    ∃ s, recordAccess longUnit 0 0x80000000 1 = .ok s ∧ frequency s 0 0x80000000 1 = .ok 0 ∧
      refSum 1 0x100000000 [.hit ⟨0, 0x80000000, 1⟩] ⟨0, 0x80000000, 1⟩ = 1 := by
  have hbounds : bounds longUnit 0x80000000 1 =
      .ok (toInt 0x80000000, toSize (toInt 1) + 0x80000000) :=
    rfl
  refine ⟨rfl, by decide, by decide +kernel, rfl, by decide, emplace longUnit 0, ?_, ?_, by decide⟩
  · rw [recordAccess, hbounds]
    change (indices rounds (toInt 0x80000000) (toSize (toInt 1) + 0x80000000) >>=
      fun is => is.foldlM (increment 0) (emplace longUnit 0)) = .ok (emplace longUnit 0)
    rw [indices_far]
    rfl
  · have hemplace : emplace longUnit 0 = { longUnit with
        unitAccFreq := hset longUnit.unitAccFreq 0 (Array.replicate
          ((longUnit.unitSize + longUnit.granularity - 1) / longUnit.granularity).toNat 0) } := rfl
    rw [hemplace]
    exact frequency_far rfl rfl ((hget_hset _ _ _ _).trans (if_pos rfl))

end DistExp.RangeFrequencyHistory
