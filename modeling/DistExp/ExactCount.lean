import DistExp.GranuleLoop
import DistExp.Library.Runs

namespace DistExp.ExactCount

open DistExp.Library.MachineInt DistExp.Library.Runs
open DistExp.PackedTable DistExp.RangeGeometry DistExp.GranuleLoop

/-- `exact_count<uint64_t>`. No call counts in `size`. -/
structure Sketch where
  table : Table
  size : Int32
  granularity : UInt64
  unitSize : UInt64
  tableSize : UInt64
  deriving DecidableEq

def changeCapacity (s : Sketch) (n : Int32) : Except Fault Sketch :=
  if n ≤ 0 then .error .invalidArgument
  else
    let tableSize := Detail.nearestPowerOfTwo n.toUInt32
    .ok { s with
      tableSize := tableSize.toUInt64
      table := resize s.table tableSize.toNat
      size := 0 }

def construct (capacity : Int32) (granularity unitSize : UInt64) : Except Fault Sketch :=
  changeCapacity
    { table := #[], size := 0, granularity := granularity, unitSize := unitSize, tableSize := 0 }
    capacity

/-- The word of an offset and the first bit of its counter. The second division is one of
`uint64_t`, and a shift takes its count modulo 64. -/
def address (granularity t : UInt64) : Except Fault (Int32 × Int32) :=
  if 16 * granularity = 0 then .error .divisionByZero
  else
    let tableIndex := toInt (t / (16 * granularity))
    let offset := toInt (t % (16 * granularity))
    let offset := toInt (toSize offset / granularity)
    .ok (tableIndex, offset * 4)

def frequency (s : Sketch) (t : UInt64) : Except Fault Int32 := do
  let (tableIndex, offset) ← address s.granularity t
  let word ← elemAt s.table tableIndex
  return toInt ((word >>> toSize offset) &&& 0xf)

def innerRecordAccess (s : Sketch) (t : UInt64) : Except Fault Sketch := do
  let (tableIndex, offset) ← address s.granularity t
  let word ← elemAt s.table tableIndex
  return { s with table := setAt s.table tableIndex (word ||| (1 <<< toSize offset)) }

def recordAccess (s : Sketch) (_unitId t size : UInt64) : Except Fault Sketch := do
  let ks ← keys s.granularity s.unitSize t size
  ks.foldlM innerRecordAccess s

/-- Every round of the loop assigns to the sum. -/
def avgFrequency (s : Sketch) (_unitId t size : UInt64) : Except Fault Int32 := do
  let ks ← keys s.granularity s.unitSize t size
  let sum ← ks.foldlM (fun _ key => frequency s key) 0
  let cnt := cntOf s.granularity s.unitSize t size
  if cnt = 0 then .error .divisionByZero else return sum / cnt

variable {g u : UInt64} {s s' : Sketch}

def Marked (s : Sketch) (k : UInt64) : Prop :=
  ∃ tableIndex offset word, address s.granularity k = .ok (tableIndex, offset) ∧
    elemAt s.table tableIndex = .ok word ∧
    word.toNat.testBit ((toSize offset).toNat % 64) = true

theorem testBit_or_shift (word offset : UInt64) (i : Nat) :
    (word ||| (1 <<< offset)).toNat.testBit i =
      (word.toNat.testBit i || (2 ^ (offset.toNat % 64) % 2 ^ 64).testBit i) := by
  have hone : (1 <<< offset : UInt64).toNat = 2 ^ (offset.toNat % 64) % 2 ^ 64 := by
    rw [UInt64.toNat_shiftLeft, Nat.shiftLeft_eq]
    exact congrArg (· % 2 ^ 64) (Nat.one_mul _)
  rw [UInt64.toNat_or, Nat.testBit_or, hone]

theorem Marked.frequency_pos {k : UInt64} (h : Marked s k) :
    ∃ f, frequency s k = .ok f ∧ 0 < f.toInt := by
  obtain ⟨tableIndex, offset, word, haddr, hword, hbit⟩ := h
  refine ⟨toInt ((word >>> toSize offset) &&& 0xf), ?_, ?_⟩
  · rw [frequency, haddr]
    change (elemAt s.table tableIndex >>= _) = _
    rw [hword]
    rfl
  · have hval : ((word >>> toSize offset) &&& 0xf).toNat =
        (word.toNat >>> ((toSize offset).toNat % 64)) % 16 := by
      rw [UInt64.toNat_and, UInt64.toNat_shiftRight]
      exact Nat.and_two_pow_sub_one_eq_mod _ 4
    have hodd : ((word.toNat >>> ((toSize offset).toNat % 64)) % 16).testBit 0 = true := by
      rw [show 16 = 2 ^ 4 from rfl, Nat.testBit_mod_two_pow, Nat.testBit_shiftRight, Nat.add_zero,
        hbit]
      rfl
    have hlt : (word.toNat >>> ((toSize offset).toNat % 64)) % 16 < 16 := Nat.mod_lt _ (by decide)
    have hpos : 0 < (word.toNat >>> ((toSize offset).toNat % 64)) % 16 := by
      refine Nat.pos_of_ne_zero fun h0 => ?_
      rw [h0] at hodd
      exact absurd hodd (by decide)
    rw [toInt, hval, Int32.toInt_ofNat_of_lt (by omega)]
    exact Int.natCast_pos.mpr hpos

theorem Marked.innerRecordAccess {k k' : UInt64} (h : Marked s k')
    (hrec : innerRecordAccess s k = .ok s') : Marked s' k' := by
  obtain ⟨⟨tableIndex, offset⟩, haddr, hrec⟩ := exists_of_bind_ok hrec
  obtain ⟨word, hword, hrec⟩ := exists_of_bind_ok hrec
  cases hrec
  obtain ⟨tableIndex', offset', word', haddr', hword', hbit⟩ := h
  by_cases hi : (toSize tableIndex).toNat = (toSize tableIndex').toNat
  · have hsame : word' = word := by
      rw [elemAt, ← hi] at hword'
      exact Except.ok.inj (hword'.symm.trans hword)
    refine ⟨tableIndex', offset', _, haddr', (elemAt_setAt hword _ _).trans (if_pos hi), ?_⟩
    rw [testBit_or_shift, ← hsame, hbit, Bool.true_or]
  · exact ⟨tableIndex', offset', word', haddr',
      ((elemAt_setAt hword _ _).trans (if_neg hi)).trans hword', hbit⟩

theorem marked_of_innerRecordAccess {k : UInt64} (hrec : innerRecordAccess s k = .ok s') :
    Marked s' k := by
  obtain ⟨⟨tableIndex, offset⟩, haddr, hrec⟩ := exists_of_bind_ok hrec
  obtain ⟨word, hword, hrec⟩ := exists_of_bind_ok hrec
  cases hrec
  refine ⟨tableIndex, offset, _, haddr, (elemAt_setAt hword _ _).trans (if_pos rfl), ?_⟩
  have hlt : 2 ^ ((toSize offset).toNat % 64) < 2 ^ 64 :=
    Nat.pow_lt_pow_right (by decide) (Nat.mod_lt _ (by decide))
  rw [testBit_or_shift, Nat.mod_eq_of_lt hlt, Nat.testBit_two_pow_self, Bool.or_true]

def SameUnits (g u : UInt64) (s : Sketch) : Prop := s.granularity = g ∧ s.unitSize = u

theorem SameUnits.innerRecordAccess {k : UInt64} (h : SameUnits g u s)
    (hrec : innerRecordAccess s k = .ok s') : SameUnits g u s' := by
  obtain ⟨⟨tableIndex, offset⟩, haddr, hrec⟩ := exists_of_bind_ok hrec
  obtain ⟨word, hword, hrec⟩ := exists_of_bind_ok hrec
  cases hrec
  exact h

theorem four_dvd_toSize (offset : Int32) : 4 ∣ (toSize (offset * 4)).toNat % 64 := by
  have hwide : (toSize (offset * 4)).toBitVec.toInt = (offset * 4).toInt :=
    Int32.toInt_toInt64 (offset * 4)
  have hmul : (offset * 4).toInt = (offset.toInt * 4).bmod (2 ^ 32) := Int32.toInt_mul offset 4
  have hnat : (toSize (offset * 4)).toBitVec.toNat = (toSize (offset * 4)).toNat := rfl
  rw [hmul, Int.bmod_def, BitVec.toInt_eq_toNat_cond, hnat] at hwide
  omega

theorem four_dvd_offset {k : UInt64} {tableIndex offset : Int32}
    (haddr : address g k = .ok (tableIndex, offset)) : 4 ∣ (toSize offset).toNat % 64 := by
  rw [address] at haddr
  split at haddr
  case isTrue => cases haddr
  case isFalse =>
    cases haddr
    exact four_dvd_toSize _

theorem nibble_le_one {word : UInt64} (h : ∀ j, 0 < j → j < 4 → word.toNat.testBit j = false) :
    (word &&& 0xf).toNat ≤ 1 := by
  have hmod : (word &&& 0xf).toNat = word.toNat % 16 := by
    rw [UInt64.toNat_and]
    exact Nat.and_two_pow_sub_one_eq_mod _ 4
  have h1 := h 1 (by decide) (by decide)
  have h2 := h 2 (by decide) (by decide)
  have h3 := h 3 (by decide) (by decide)
  rw [Nat.testBit_eq_decide_div_mod_eq, decide_eq_false_iff_not] at h1 h2 h3
  omega

def OneBit (s : Sketch) : Prop :=
  ∀ (i : Nat) (word : UInt64), s.table[i]? = some word → ∀ j, word.toNat.testBit j = true → 4 ∣ j

theorem OneBit.changeCapacity {n : Int32} (h : OneBit s) (hs : changeCapacity s n = .ok s') :
    OneBit s' := by
  rw [ExactCount.changeCapacity] at hs
  split at hs
  · cases hs
  · cases hs
    intro i word hword j hj
    rw [getElem?_resize] at hword
    split at hword
    · cases hold : s.table[i]? with
      | none =>
        rw [hold] at hword
        cases hword
        exact absurd hj (by simp)
      | some old =>
        rw [hold] at hword
        cases hword
        exact h i old hold j hj
    · cases hword

theorem OneBit.innerRecordAccess {k : UInt64} (h : OneBit s)
    (hrec : innerRecordAccess s k = .ok s') : OneBit s' := by
  obtain ⟨⟨tableIndex, offset⟩, haddr, hrec⟩ := exists_of_bind_ok hrec
  obtain ⟨old, hold, hrec⟩ := exists_of_bind_ok hrec
  cases hrec
  intro i word hword j hj
  rw [elemAt_eq_ok_iff] at hold
  dsimp only at hword
  rw [setAt, Array.getElem?_setIfInBounds] at hword
  split at hword
  · split at hword
    · cases hword
      rw [testBit_or_shift, Bool.or_eq_true] at hj
      obtain hj | hj := hj
      · exact h _ old hold j hj
      · rw [Nat.mod_eq_of_lt (Nat.pow_lt_pow_right (by decide) (Nat.mod_lt _ (by decide))),
          Nat.testBit_two_pow] at hj
        rw [← of_decide_eq_true hj]
        exact four_dvd_offset haddr
    · cases hword
  · exact h i word hword j hj

theorem OneBit.frequency_le {x : UInt64} {f : Int32} (h : OneBit s) (hf : frequency s x = .ok f) :
    ∃ n ≤ 1, f = Int32.ofNat n := by
  obtain ⟨⟨tableIndex, offset⟩, haddr, hf⟩ := exists_of_bind_ok hf
  obtain ⟨word, hword, hf⟩ := exists_of_bind_ok hf
  cases hf
  rw [elemAt_eq_ok_iff] at hword
  have hdvd := four_dvd_offset haddr
  refine ⟨_, nibble_le_one fun j h0 h4 => ?_, rfl⟩
  rw [UInt64.toNat_shiftRight, Nat.testBit_shiftRight, Bool.eq_false_iff]
  intro hj
  have hbit := h _ word hword _ hj
  omega

theorem marked_of_run (h : SameUnits g u s) {ops : List Access}
    (hrun : ops.foldlM (fun s a => recordAccess s a.unitId a.t a.size) s = .ok s') :
    ∀ a ∈ ops, ∀ ks, keys g u a.t a.size = .ok ks → ∀ k ∈ ks, Marked s' k := by
  have hrecord : ∀ s (a : Access) s', SameUnits g u s → recordAccess s a.unitId a.t a.size = .ok s' →
      SameUnits g u s' ∧ (∀ k, Marked s k → Marked s' k) ∧
        ∀ k, (∃ ks, keys g u a.t a.size = .ok ks ∧ k ∈ ks) → Marked s' k := by
    intro s a s' hs hrec
    rw [recordAccess, hs.1, hs.2] at hrec
    obtain ⟨ks, hks, hrec⟩ := exists_of_bind_ok hrec
    obtain ⟨hs', hkeep, hown⟩ := foldlM_marks (M := Marked) (K := fun k k' => k' = k)
      (fun s k s' hs hrec => ⟨hs.innerRecordAccess hrec, fun k' hk => hk.innerRecordAccess hrec,
        fun k' hk => hk ▸ marked_of_innerRecordAccess hrec⟩) hs hrec
    refine ⟨hs', hkeep, ?_⟩
    rintro k ⟨ks', hks', hk⟩
    obtain rfl : ks' = ks := Except.ok.inj (hks'.symm.trans hks)
    exact hown k hk k rfl
  obtain ⟨-, -, hmarks⟩ := foldlM_marks hrecord h hrun
  exact fun a ha ks hks k hk => hmarks a ha k ⟨ks, hks, hk⟩

def InBounds (s : Sketch) (x : UInt64) : Prop :=
  (toSize (toInt (x / (16 * s.granularity)))).toNat < s.table.size

instance (s : Sketch) (x : UInt64) : Decidable (InBounds s x) := inferInstanceAs (Decidable (_ < _))

theorem Marked.inBounds {k : UInt64} (h : Marked s k) : InBounds s k := by
  obtain ⟨tableIndex, offset, word, haddr, hword, -⟩ := h
  rw [address] at haddr
  split at haddr
  · cases haddr
  · cases haddr
    rw [InBounds]
    by_contra hge
    rw [elemAt, Array.getElem?_eq_none (not_lt.mp hge)] at hword
    cases hword

/-- The history succeeds, and every query of a granule in bounds returns the number of accesses
that contain it, as far as one counter can count. -/
def Exact (s₀ : Sketch) (g : UInt64) (ops : List Access) : Prop :=
  ∃ s, ops.foldlM (fun s a => recordAccess s a.unitId a.t a.size) s₀ = .ok s ∧
    ∀ x : UInt64, g.toNat ∣ x.toNat → InBounds s x →
      frequency s x = .ok (Int32.ofNat (min 15 (covering x ops)))

theorem exists_marked_not_covered (hg : 0 < g.toNat) (hdvd : g.toNat ∣ u.toNat) {ops : List Access}
    (hne : ops ≠ []) (hops : ∀ a ∈ ops, Regular g u a) :
    ∃ k : UInt64, g.toNat ∣ k.toNat ∧ covering k ops = 0 ∧
      ∃ a ∈ ops, ∃ ks, keys g u a.t a.size = .ok ks ∧ k ∈ ks := by
  let last (a : Access) : Nat := a.t.toNat + a.t.toNat % u.toNat + a.size.toNat
  obtain ⟨a, ha⟩ : ∃ a, ops.argmax last = some a := by
    cases hmax : ops.argmax last with
    | none => exact absurd (List.argmax_eq_none.mp hmax) hne
    | some a => exact ⟨a, rfl⟩
  have hmem : a ∈ ops := List.argmax_mem ha
  have hreg := hops a hmem
  have hk : (UInt64.ofNat (last a)).toNat = last a := UInt64.toNat_ofNat_of_lt' hreg.offset_lt
  have hdvd_last : g.toNat ∣ last a :=
    Nat.dvd_add (Nat.dvd_add hreg.aligned.offset
      ((Nat.dvd_mod_iff hdvd).mpr hreg.aligned.offset)) hreg.aligned.length
  refine ⟨UInt64.ofNat (last a), by rwa [hk], ?_, a, hmem, ?_⟩
  · rw [covering, List.countP_eq_zero]
    intro b hb hcov
    rw [decide_eq_true_eq, Covers, hk] at hcov
    have hle : last b ≤ last a := List.le_of_mem_argmax hb ha
    have hb : b.t.toNat + b.size.toNat ≤ last b := Nat.add_le_add_right (Nat.le_add_right _ _) _
    exact absurd hcov.2 (not_lt.mpr (hb.trans hle))
  · obtain ⟨ks, hks, hmap⟩ := keys_eq hg hdvd hreg
    refine ⟨ks, hks, ?_⟩
    have hinj : Function.Injective UInt64.toNat := fun x y h => UInt64.toNat_inj.mp h
    rw [← List.mem_map_of_injective hinj, hmap, hk, List.mem_map]
    refine ⟨a.size.toNat / g.toNat, List.mem_range.mpr (Nat.lt_succ_self _), ?_⟩
    rw [Nat.div_mul_cancel hreg.aligned.length]

theorem construct_eq {n : Int32} (hs : construct n g u = .ok s) :
    ∃ p, SameUnits g u s ∧ s.table = Array.replicate (2 ^ p) 0 := by
  rw [construct, changeCapacity] at hs
  split at hs
  · cases hs
  · next hn =>
    cases hs
    obtain ⟨p, -, htable⟩ := resize_of_capacity hn
    exact ⟨p, ⟨rfl, rfl⟩, htable⟩

theorem frequency_zero {p : Nat} (htable : s.table = Array.replicate (2 ^ p) 0)
    (hw : 16 * s.granularity ≠ 0) {x : UInt64} (hx : InBounds s x) : frequency s x = .ok 0 := by
  rw [InBounds, htable, Array.size_replicate] at hx
  rw [frequency, address, if_neg hw]
  change (elemAt s.table (toInt (x / (16 * s.granularity))) >>= _) = _
  rw [elemAt, htable, Array.getElem?_replicate, if_pos hx]
  change Except.ok (toInt (((0 : UInt64) >>> _) &&& 0xf)) = _
  rw [UInt64.zero_shiftRight, UInt64.zero_and]
  rfl

/-- `exact_count` sets the first bit of a counter instead of counting, and does so for a granule
behind the end of every access as well. It is exact as long as there is no access. -/
theorem exact_iff_nil {n : Int32} {s₀ : Sketch} (hs₀ : construct n g u = .ok s₀)
    (hg : 0 < g.toNat) (hdvd : g.toNat ∣ u.toNat) (ops : List Access)
    (hops : ∀ a ∈ ops, Regular g u a) : Exact s₀ g ops ↔ ops = [] ∧ 16 * g ≠ 0 := by
  obtain ⟨p, hunits, htable⟩ := construct_eq hs₀
  constructor
  · rintro ⟨s, hrun, hexact⟩
    have hnil : ops = [] := by
      by_contra hne
      obtain ⟨k, hk, hcov, a, ha, ks, hks, hmem⟩ := exists_marked_not_covered hg hdvd hne hops
      have hmarked := marked_of_run hunits hrun a ha ks hks k hmem
      obtain ⟨f, hf, hpos⟩ := hmarked.frequency_pos
      have hzero := hexact k hk hmarked.inBounds
      rw [hcov, hf] at hzero
      rw [Except.ok.inj hzero] at hpos
      exact absurd hpos (by decide)
    refine ⟨hnil, fun hw => ?_⟩
    subst hnil
    cases hrun
    have hin : InBounds s₀ 0 := by
      rw [InBounds, UInt64.zero_div, htable, Array.size_replicate]
      exact Nat.two_pow_pos p
    have h0 := hexact 0 (Nat.dvd_zero _) hin
    rw [frequency, address, hunits.1, if_pos hw] at h0
    cases h0
  · rintro ⟨rfl, hw⟩
    rw [← hunits.1] at hw
    exact ⟨s₀, rfl, fun x _ hx => frequency_zero htable hw hx⟩

def oneWord : Sketch := ⟨Array.replicate 1 0, 0, 1, 4, 1⟩

theorem construct_oneWord : construct 1 1 4 = .ok oneWord := rfl

theorem exact_iff_nil_oneWord : construct 1 1 4 = .ok oneWord ∧ Exact oneWord 1 [] ∧
    ¬ Exact oneWord 1 [⟨0, 0, 1⟩] := by
  refine ⟨construct_oneWord, ?_, fun h => ?_⟩
  · exact (exact_iff_nil construct_oneWord (by decide) (by decide) [] (by simp)).mpr ⟨rfl, by decide⟩
  · have hops : ∀ a ∈ [Access.mk 0 0 1], Regular 1 4 a := by
      intro a ha
      cases List.mem_singleton.mp ha
      exact ⟨⟨by decide, by decide, by decide⟩, by decide, by decide, by decide⟩
    have hnil := (exact_iff_nil construct_oneWord (by decide) (by decide) _ hops).mp h
    exact List.cons_ne_nil _ _ hnil.1

/-- Two accesses to the first granule count once, and the second granule counts as well. -/
theorem second_access_not_counted : construct 1 1 4 = .ok oneWord ∧ Regular 1 4 ⟨0, 0, 1⟩ ∧
    [⟨0, 0, 1⟩, ⟨0, 0, 1⟩].foldlM (fun s (a : Access) => recordAccess s a.unitId a.t a.size) oneWord =
      .ok ⟨#[17], 0, 1, 4, 1⟩ ∧
    frequency ⟨#[17], 0, 1, 4, 1⟩ 0 = .ok 1 ∧ covering 0 [⟨0, 0, 1⟩, ⟨0, 0, 1⟩] = 2 ∧
    frequency ⟨#[17], 0, 1, 4, 1⟩ 1 = .ok 1 ∧ covering 1 [⟨0, 0, 1⟩, ⟨0, 0, 1⟩] = 0 ∧
    ¬ Exact oneWord 1 [⟨0, 0, 1⟩, ⟨0, 0, 1⟩] := by
  have hrun : [⟨0, 0, 1⟩, ⟨0, 0, 1⟩].foldlM
      (fun s (a : Access) => recordAccess s a.unitId a.t a.size) oneWord =
        .ok ⟨#[17], 0, 1, 4, 1⟩ := by decide +kernel
  refine ⟨construct_oneWord, ⟨⟨by decide, by decide, by decide⟩, by decide, by decide, by decide⟩,
    hrun, rfl, rfl, rfl, rfl, ?_⟩
  rintro ⟨s, hs, hexact⟩
  obtain rfl := Except.ok.inj (hrun.symm.trans hs)
  exact absurd (hexact 0 (by decide) (by decide)) (by decide +kernel)

end DistExp.ExactCount
