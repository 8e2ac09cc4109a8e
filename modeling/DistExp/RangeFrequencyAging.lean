import DistExp.RangeFrequencySketch

namespace DistExp.RangeFrequencyAging

open DistExp.Library.MachineInt DistExp.Library.FieldMap DistExp.Library.Runs
open DistExp.PackedTable DistExp.RangeGeometry DistExp.RangeCalls DistExp.RangeLevels
open DistExp.RangeFrequencySketch

/-- The states that some calls lead to, whatever their arguments. -/
inductive Reached (g u : UInt64) : Sketch → Prop where
  | construct {n : Int32} {s : Sketch} (h : construct n g u = .ok s) : Reached g u s
  | changeCapacity {n : Int32} {s s' : Sketch} (hs : Reached g u s)
      (h : changeCapacity s n = .ok s') : Reached g u s'
  | recordAccess {unitId t size : UInt64} {s s' : Sketch} (hs : Reached g u s)
      (h : recordAccess s unitId t size = .ok s') : Reached g u s'
  | tryReset {s s' : Sketch} {due : Bool} (hs : Reached g u s)
      (h : tryReset s = .ok (s', due)) : Reached g u s'

structure Lengths (g u : UInt64) (s : Sketch) : Prop where
  granularity_eq : s.granularity = g
  unitSize_eq : s.unitSize = u
  size_eq : ∀ e ∈ s.unitAccFreq, e.2.size = ((u + g - 1) / g).toNat

variable {g u : UInt64} {s s' : Sketch}

theorem Lengths.emplace (h : Lengths g u s) (unitId : UInt64) : Lengths g u (emplace s unitId) := by
  rw [RangeFrequencySketch.emplace]
  cases hget s.unitAccFreq unitId with
  | some v => exact h
  | none =>
    refine ⟨h.granularity_eq, h.unitSize_eq, fun e he => ?_⟩
    obtain he | rfl := mem_hset he
    · exact h.size_eq e he
    · rw [h.granularity_eq, h.unitSize_eq]
      exact Array.size_replicate

theorem Lengths.increment {unitId : UInt64} {i : Int32} (h : Lengths g u s)
    (hrun : increment unitId s i = .ok s') : Lengths g u s' := by
  rw [RangeFrequencySketch.increment] at hrun
  obtain ⟨count, hcount, hrun⟩ := exists_of_bind_ok hrun
  cases hrun
  refine ⟨h.granularity_eq, h.unitSize_eq, fun e he => ?_⟩
  obtain he | rfl := mem_hset he
  · exact h.size_eq e he
  · rw [size_setAt]
    cases hv : hget s.unitAccFreq unitId with
    | some v => exact h.size_eq _ (mem_of_hget hv)
    | none =>
      rw [hv] at hcount
      cases hcount

theorem halveAll_size {vector v : Array UInt16} (hrun : halveAll s vector = .ok v) :
    v.size = vector.size := by
  rw [halveAll] at hrun
  split at hrun
  · cases hrun
  · obtain ⟨is, -, hrun⟩ := exists_of_bind_ok hrun
    refine foldlM_preserves (I := fun w : Array UInt16 => w.size = vector.size)
      (fun w i _ w' hw hw' => ?_) rfl hrun
    rw [halve] at hw'
    obtain ⟨x, -, hw'⟩ := exists_of_bind_ok hw'
    cases hw'
    exact (size_setAt _ _ _).trans hw

theorem tryReset_values (hrun : tryReset s = .ok (s', true)) :
    s' = { s with unitAccFreq := s'.unitAccFreq, size := 0 } ∧
      (∀ e' ∈ s'.unitAccFreq, ∃ e ∈ s.unitAccFreq, halveAll s e.2 = .ok e'.2) ∧
      ∀ k, Option.Rel (fun vector v => halveAll s vector = .ok v)
        (hget s.unitAccFreq k) (hget s'.unitAccFreq k) := by
  rw [tryReset] at hrun
  split at hrun
  · obtain ⟨units, hunits, hrun⟩ := exists_of_bind_ok hrun
    cases hrun
    obtain ⟨h', hrun', hmem, hrel⟩ :=
      mapM_values (R := fun vector v => halveAll s vector = .ok v) fun e he => by
        obtain ⟨v, hv⟩ := exists_of_mapM_values hunits e he
        exact ⟨v, hv, hv⟩
    cases hunits.symm.trans hrun'
    exact ⟨rfl, hmem, hrel⟩
  · cases hrun

theorem Lengths.tryReset {due : Bool} (h : Lengths g u s) (hrun : tryReset s = .ok (s', due)) :
    Lengths g u s' := by
  cases due with
  | true =>
    obtain ⟨heq, hmem, -⟩ := tryReset_values hrun
    refine ⟨?_, ?_, fun e' he' => ?_⟩
    · rw [heq]
      exact h.granularity_eq
    · rw [heq]
      exact h.unitSize_eq
    · obtain ⟨e, he, hv⟩ := hmem e' he'
      exact (halveAll_size hv).trans (h.size_eq e he)
  | false =>
    rw [RangeFrequencySketch.tryReset] at hrun
    split at hrun
    · obtain ⟨_, -, hrun⟩ := exists_of_bind_ok hrun
      cases hrun
    · cases hrun
      exact h

theorem Lengths.changeCapacity {n : Int32} (h : Lengths g u s)
    (hrun : changeCapacity s n = .ok s') : Lengths g u s' := by
  rw [RangeFrequencySketch.changeCapacity] at hrun
  split at hrun
  · cases hrun
  · cases hrun
    exact ⟨h.granularity_eq, h.unitSize_eq, h.size_eq⟩

theorem Reached.lengths (h : Reached g u s) : Lengths g u s := by
  induction h with
  | construct h => exact Lengths.changeCapacity ⟨rfl, rfl, by simp⟩ h
  | changeCapacity _ h ih => exact ih.changeCapacity h
  | recordAccess _ h ih =>
    rw [RangeFrequencySketch.recordAccess] at h
    obtain ⟨_, -, h⟩ := exists_of_bind_ok h
    obtain ⟨_, -, h⟩ := exists_of_bind_ok h
    exact foldlM_preserves (fun _ _ _ _ hs hrun => hs.increment hrun) (ih.emplace _) h
  | tryReset _ h ih => exact ih.tryReset h

section Halving

theorem place_eq {c : Nat} (hc : c < 2 ^ 32) :
    place (Int32.ofNat c) = if c < 2 ^ 31 then c else c + (2 ^ 64 - 2 ^ 32) := by
  split
  · exact place_ofNat ‹_›
  · have hbits : (toSize (Int32.ofNat c)).toBitVec = (BitVec.ofNat 32 c).signExtend 64 := rfl
    rw [place, ← UInt64.toNat_toBitVec, hbits, BitVec.toNat_signExtend, BitVec.toNat_setWidth,
      BitVec.msb_eq_decide, BitVec.toNat_ofNat, Nat.mod_eq_of_lt hc, Nat.mod_eq_of_lt (by omega),
      if_pos (by simpa using ‹¬ c < 2 ^ 31›)]

theorem place_lt_place {c d : Nat} (hcd : c < d) (hd : d < 2 ^ 32) :
    place (Int32.ofNat c) < place (Int32.ofNat d) := by
  have hc' := place_eq (hcd.trans hd)
  have hd' := place_eq hd
  split at hc' <;> split at hd' <;> omega

theorem ofNat_toUInt32 (j : Int32) : Int32.ofNat j.toUInt32.toNat = j := by
  rw [← UInt32.toInt32_ofNat', UInt32.ofNat_toNat, Int32.toInt32_toUInt32]

theorem exists_place_iff {k : Nat} :
    (∃ j : Int32, place j = k) ↔ k < 2 ^ 31 ∨ 2 ^ 64 - 2 ^ 31 ≤ k ∧ k < 2 ^ 64 := by
  constructor
  · rintro ⟨j, rfl⟩
    have hlt := j.toUInt32.toNat_lt
    have hplace := place_eq hlt
    rw [ofNat_toUInt32] at hplace
    split at hplace <;> omega
  · rintro (hk | ⟨hlo, hhi⟩)
    · exact ⟨_, place_ofNat hk⟩
    · refine ⟨Int32.ofNat (k - (2 ^ 64 - 2 ^ 32)), ?_⟩
      rw [place_eq (by omega), if_neg (by omega)]
      omega

theorem place_of_numbered {k : Nat} (hk : ∃ j : Int32, place j = k) : place (Int32.ofNat k) = k := by
  obtain hlt | ⟨hlo, hhi⟩ := exists_place_iff.mp hk
  · exact place_ofNat hlt
  · obtain ⟨c, rfl⟩ : ∃ c, k = c + 18446744069414584320 := ⟨k - 18446744069414584320, by omega⟩
    have hmod : Int32.ofNat (c + 18446744069414584320) = Int32.ofNat c := by
      apply ofNat_eq_iff_modEq.mpr
      change _ % _ = _ % _
      omega
    rw [hmod, place_eq (by omega), if_neg (by omega)]
    omega

theorem succ_lt_of_place_lt {c : Nat} {stop : UInt64} (hc : c < 2 ^ 32)
    (hlt : place (Int32.ofNat c) < stop.toNat) : c + 1 < 2 ^ 32 := by
  have hstop := stop.toNat_lt
  have hplace := place_eq hc
  by_contra hn
  rw [if_neg (by omega)] at hplace
  omega

theorem indices_places {fuel c : Nat} {stop : UInt64} {is : List Int32} (hc : c < 2 ^ 32)
    (hrun : indices fuel (Int32.ofNat c) stop = .ok is) :
    ∃ len, c + len < 2 ^ 32 ∧ is = (List.range' c len).map Int32.ofNat ∧
      ∀ d, c ≤ d → d < 2 ^ 32 → (place (Int32.ofNat d) < stop.toNat ↔ d < c + len) := by
  induction fuel generalizing c is with
  | zero => cases hrun
  | succ fuel ih =>
    rw [indices] at hrun
    split at hrun
    · next hlt =>
      have hlt : place (Int32.ofNat c) < stop.toNat := UInt64.lt_iff_toNat_lt.mp hlt
      obtain ⟨is', hrun', hcons⟩ := exists_of_bind_ok hrun
      cases hcons
      rw [show Int32.ofNat c + 1 = Int32.ofNat (c + 1) from (Int32.ofNat_add c 1).symm] at hrun'
      obtain ⟨len, hlen, rfl, hd⟩ := ih (succ_lt_of_place_lt hc hlt) hrun'
      refine ⟨len + 1, by omega, by rw [List.range'_succ, List.map_cons], fun d hcd hd32 => ?_⟩
      obtain rfl | hcd := hcd.eq_or_lt
      · exact iff_of_true hlt (by omega)
      · rw [hd d hcd hd32]
        omega
    · next hge =>
      cases hrun
      refine ⟨0, hc, rfl, fun d hcd hd => iff_of_false (fun hlt => hge ?_) (by omega)⟩
      refine UInt64.lt_iff_toNat_lt.mpr (lt_of_le_of_lt ?_ hlt)
      obtain rfl | hcd := hcd.eq_or_lt
      · exact le_rfl
      · exact (place_lt_place hcd hd).le

theorem mem_indices {fuel c : Nat} {stop : UInt64} {is : List Int32} (hc : c < 2 ^ 32)
    (hrun : indices fuel (Int32.ofNat c) stop = .ok is) (k : Nat) : k ∈ is.map place ↔
      place (Int32.ofNat c) ≤ k ∧ k < stop.toNat ∧ ∃ j : Int32, place j = k := by
  obtain ⟨len, hlen, rfl, hd⟩ := indices_places hc hrun
  simp only [List.mem_map, List.mem_range'_1]
  constructor
  · rintro ⟨j, ⟨d, ⟨hcd, hdlen⟩, rfl⟩, rfl⟩
    refine ⟨?_, (hd d hcd (by omega)).mpr hdlen, _, rfl⟩
    obtain rfl | hcd := hcd.eq_or_lt
    · exact le_rfl
    · exact (place_lt_place hcd (by omega)).le
  · rintro ⟨hck, hk, j, rfl⟩
    have hlt := j.toUInt32.toNat_lt
    rw [← ofNat_toUInt32 j] at hck hk
    have hle : c ≤ j.toUInt32.toNat := by
      by_contra hn
      exact absurd hck (not_le.mpr (place_lt_place (not_le.mp hn) hc))
    exact ⟨j, ⟨_, ⟨hle, (hd _ hle hlt).mp hk⟩, ofNat_toUInt32 j⟩, rfl⟩

theorem indices_nodup {fuel c : Nat} {stop : UInt64} {is : List Int32} (hc : c < 2 ^ 32)
    (hrun : indices fuel (Int32.ofNat c) stop = .ok is) : (is.map place).Nodup := by
  obtain ⟨len, hlen, rfl, -⟩ := indices_places hc hrun
  rw [List.map_map]
  refine List.Nodup.map_on (fun d hd e he heq => ?_) List.nodup_range'
  rw [List.mem_range'_1] at hd he
  obtain hlt | rfl | hlt := Nat.lt_trichotomy d e
  · exact absurd heq (place_lt_place hlt (by omega)).ne
  · rfl
  · exact absurd heq (place_lt_place hlt (by omega)).ne'

/-- The granule fits a unit whole, and an `int` can number it. -/
def Numbered (g u : UInt64) (i : Nat) : Prop := i < u.toNat / g.toNat ∧ ∃ j : Int32, place j = i

theorem lt_of_halve_foldlM {is : List Int32} {vector v : Array UInt16}
    (hrun : is.foldlM halve vector = .ok v) : ∀ i ∈ is, place i < vector.size := by
  induction is generalizing vector with
  | nil => exact fun i hi => absurd hi List.not_mem_nil
  | cons i is ih =>
    rw [List.foldlM_cons] at hrun
    obtain ⟨w, hw, hrun⟩ := exists_of_bind_ok hrun
    rw [halve] at hw
    obtain ⟨x, hx, hw⟩ := exists_of_bind_ok hw
    cases hw
    intro j hj
    obtain rfl | hj := List.mem_cons.mp hj
    · by_contra hge
      rw [elemAt, ← place, Array.getElem?_eq_none (not_lt.mp hge)] at hx
      cases hx
    · exact (ih hrun j hj).trans_eq (size_setAt _ _ _)

theorem halveAll_entries {vector v : Array UInt16} (hg : s.granularity = g) (hu : s.unitSize = u)
    (hrun : halveAll s vector = .ok v) (k : Nat) :
    (Numbered g u k → entryAt v k = entryAt vector k / 2) ∧
      (¬ Numbered g u k → entryAt v k = entryAt vector k) := by
  rw [halveAll, hg, hu] at hrun
  split at hrun
  · cases hrun
  · obtain ⟨is, his, hrun⟩ := exists_of_bind_ok hrun
    have hmem : k ∈ is.map place ↔ Numbered g u k := by
      rw [mem_indices (c := 0) (by decide) his, UInt64.toNat_div, Numbered]
      exact and_iff_right (Nat.zero_le k)
    obtain ⟨w, hrun', -, hw⟩ := halve_foldlM is vector (indices_nodup (c := 0) (by decide) his)
      (lt_of_halve_foldlM hrun)
    cases hrun.symm.trans hrun'
    constructor
    · intro hk
      rw [hw, if_pos (hmem.mpr hk)]
    · intro hk
      rw [hw, if_neg fun h => hk (hmem.mp h)]

theorem tryReset_entries (h : Lengths g u s) (hrun : tryReset s = .ok (s', true)) (unitId : UInt64)
    (i : Nat) : (Numbered g u i → entry s' unitId i = entry s unitId i / 2) ∧
      (¬ Numbered g u i → entry s' unitId i = entry s unitId i) := by
  have hrel := (tryReset_values hrun).2.2 unitId
  rw [entry, entry]
  generalize hget s.unitAccFreq unitId = before, hget s'.unitAccFreq unitId = after at hrel ⊢
  cases hrel with
  | none =>
    have hzero : entryAt #[] i = 0 := by rw [entryAt, Array.getElem?_empty, Option.getD_none]
    rw [Option.getD_none, hzero, UInt16.zero_div]
    exact ⟨fun _ => rfl, fun _ => rfl⟩
  | some hv => exact halveAll_entries h.granularity_eq h.unitSize_eq hv i

end Halving

def Halved (g u : UInt64) (s s' : Sketch) : Prop :=
  ∀ unitId i, i < granuleCount g u → entry s' unitId i = entry s unitId i / 2

/-- No granule that was at most as hot as another one of its unit is hotter afterwards. -/
def OrderKept (g u : UInt64) (s s' : Sketch) : Prop :=
  ∀ unitId i j, i < granuleCount g u → j < granuleCount g u →
    entry s unitId i ≤ entry s unitId j → entry s' unitId i ≤ entry s' unitId j

theorem Halved.orderKept (h : Halved g u s s') : OrderKept g u s s' := by
  intro unitId i j hi hj hle
  rw [h unitId i hi, h unitId j hj, UInt16.le_iff_toNat_le, UInt16.toNat_div, UInt16.toNat_div]
  exact Nat.div_le_div_right (UInt16.le_iff_toNat_le.mp hle)

theorem eq_zero_of_eq_half {x : UInt16} (h : x = x / 2) : x = 0 := by
  have hx := congrArg UInt16.toNat h
  have htwo : (2 : UInt16).toNat = 2 := rfl
  rw [UInt16.toNat_div, htwo] at hx
  apply UInt16.toNat_inj.mp
  change x.toNat = 0
  omega

/-- A reset ages all granules alike exactly when those that do not fit their unit whole, or that no
`int` can number, have not been counted. -/
theorem aged_alike_iff (hs : Reached g u s) (hrun : tryReset s = .ok (s', true)) :
    Halved g u s s' ∧ OrderKept g u s s' ↔
      ∀ unitId i, i < granuleCount g u → entry s unitId i ≠ 0 → Numbered g u i := by
  have hentries := tryReset_entries hs.lengths hrun
  constructor
  · rintro ⟨hhalved, -⟩ unitId i hi hne
    by_contra hnum
    have hkept := (hentries unitId i).2 hnum
    exact hne (eq_zero_of_eq_half (hkept.symm.trans (hhalved unitId i hi)))
  · intro hcond
    have hhalved : Halved g u s s' := by
      intro unitId i hi
      by_cases hnum : Numbered g u i
      · exact (hentries unitId i).1 hnum
      · have hzero : entry s unitId i = 0 := by
          by_contra hne
          exact hnum (hcond unitId i hi hne)
        rw [(hentries unitId i).2 hnum, hzero]
        rfl
    exact ⟨hhalved, hhalved.orderKept⟩

theorem Reached.records (as : List Access) (h : Reached g u s)
    (hrun : as.foldlM (fun s a => RangeFrequencySketch.recordAccess s a.unitId a.t a.size) s =
      .ok s') : Reached g u s' :=
  foldlM_preserves (fun _ _ _ _ hs hrun => .recordAccess hs hrun) h hrun

def front : Sketch := ⟨#[0], [(0, #[10, 0])], 10, 2, 3⟩

theorem reached_front : Reached 2 3 front := by
  refine .records (List.replicate 10 ⟨0, 0, 2⟩) (.construct (n := 1) rfl) ?_
  decide +kernel

theorem aged_alike_iff_front : ∃ s', RangeFrequencySketch.tryReset front = .ok (s', true) ∧
    Halved 2 3 front s' ∧ OrderKept 2 3 front s' := by
  have hrun : RangeFrequencySketch.tryReset front = .ok (⟨#[0], [(0, #[5, 0])], 0, 2, 3⟩, true) := by
    decide +kernel
  refine ⟨_, hrun, (aged_alike_iff reached_front hrun).mpr fun unitId i hi hne => ?_⟩
  have hi : i < 2 := hi
  obtain rfl | rfl : i = 0 ∨ i = 1 := by omega
  · exact ⟨by decide, 0, rfl⟩
  · refine absurd ?_ hne
    rw [entry, front, hget_cons]
    split <;> rfl

def ragged : Sketch := ⟨#[0], [(0, #[5, 5])], 10, 2, 3⟩

/-- The half granule at the end of a unit is not aged, and is hotter than the one before it
afterwards. -/
theorem last_granule_not_aged : Reached 2 3 ragged ∧
    ∃ s', RangeFrequencySketch.tryReset ragged = .ok (s', true) ∧
      ¬ Halved 2 3 ragged s' ∧ ¬ OrderKept 2 3 ragged s' := by
  have hrun : RangeFrequencySketch.tryReset ragged = .ok (⟨#[0], [(0, #[2, 5])], 0, 2, 3⟩, true) := by
    decide +kernel
  refine ⟨?_, _, hrun, fun h => ?_, fun h => ?_⟩
  · refine .records (List.replicate 5 ⟨0, 0, 3⟩) (.construct (n := 1) rfl) ?_
    decide +kernel
  · exact absurd (h 0 1 (by decide)) (by decide)
  · exact absurd (h 0 1 0 (by decide) (by decide) (by decide)) (by decide)

end DistExp.RangeFrequencyAging
