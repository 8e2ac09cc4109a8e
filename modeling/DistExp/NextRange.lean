import DistExp.Detail

namespace DistExp.NextRange

open DistExp.Library.MachineInt DistExp.Detail

structure IntType where
  width : Nat
  signed : Bool

abbrev IntType.Val (T : IntType) : Type := BitVec T.width

def IntType.le (T : IntType) (a b : T.Val) : Bool := if T.signed then a.sle b else a.ule b

def IntType.lt (T : IntType) (a b : T.Val) : Bool := if T.signed then a.slt b else a.ult b

def IntType.Wide (T : IntType) : Prop := 32 + T.signed.toNat ≤ T.width

instance (T : IntType) : Decidable T.Wide := inferInstanceAs (Decidable (_ ≤ _))

def lowbit {T : IntType} (num : T.Val) : T.Val := num &&& -num

/-- The other operand of the sum is a `uint32_t`, as is the argument that `diff` becomes. -/
def nextRange {T : IntType} (left right : T.Val) : T.Val :=
  let diff := right - left
  let lowbit := lowbit left
  if T.le lowbit diff then left + lowbit
  else left + BitVec.ofNat T.width (nearestPowerOfTwo (UInt32.ofNat diff.toNat) / 2).toNat

/-- Where the loop `while (left < right) left = next_range(left, right)` is after `n` rounds. -/
def walk {T : IntType} (right left : T.Val) (n : Nat) : T.Val :=
  (fun left => if T.lt left right then nextRange left right else left)^[n] left

/-- A block that ends behind its start, not behind the range, and whose length is a power of two
that divides its start. -/
def IsBlock (start stop right : Nat) : Prop :=
  start < stop ∧ stop ≤ right ∧ ∃ k, stop = start + 2 ^ k ∧ 2 ^ k ∣ start

/-- After finitely many blocks the loop is at the end of the range, and each number of the range is
in one of them. -/
def Partitions {T : IntType} (left right : T.Val) : Prop :=
  ∃ n, walk right left n = right ∧
    (∀ i < n, IsBlock (walk right left i).toNat (walk right left (i + 1)).toNat right.toNat) ∧
    ∀ x, left.toNat ≤ x → x < right.toNat →
      ∃! i, i < n ∧ (walk right left i).toNat ≤ x ∧ x < (walk right left (i + 1)).toNat

section LowBit

theorem toNat_lowbit {T : IntType} {num : T.Val} (h : 0 < num.toNat) :
    ∃ k c, num.toNat = 2 ^ k * (2 * c + 1) ∧ (lowbit num).toNat = 2 ^ k := by
  obtain ⟨k, a, ⟨c, rfl⟩, he⟩ := Nat.exists_eq_two_pow_mul_odd h.ne'
  have hlt := num.isLt
  refine ⟨k, c, he, ?_⟩
  rw [lowbit, BitVec.toNat_and, BitVec.toNat_neg, Nat.mod_eq_of_lt (by omega), he]
  rw [he] at hlt
  exact and_two_pow_sub hlt

end LowBit

section Compare

variable {T : IntType} (hT : T.Wide) {a b : T.Val}

include hT

theorem toInt_eq (ha : a.toNat ≤ 2 ^ 31) (hs : T.signed = true) : a.toInt = a.toNat := by
  have hw : 33 ≤ T.width := by
    rw [IntType.Wide, hs] at hT
    exact hT
  have hpow : 2 ^ 33 ≤ 2 ^ T.width := Nat.pow_le_pow_right (by decide) hw
  exact BitVec.toInt_eq_toNat_of_lt (by omega)

theorem le_iff (ha : a.toNat ≤ 2 ^ 31) (hb : b.toNat ≤ 2 ^ 31) : T.le a b ↔ a.toNat ≤ b.toNat := by
  rw [IntType.le]
  split
  · next hs => rw [BitVec.sle_iff_toInt_le, toInt_eq hT ha hs, toInt_eq hT hb hs, Int.ofNat_le]
  · rw [BitVec.ule_iff_toNat_le]

theorem lt_iff (ha : a.toNat ≤ 2 ^ 31) (hb : b.toNat ≤ 2 ^ 31) : T.lt a b ↔ a.toNat < b.toNat := by
  rw [IntType.lt]
  split
  · next hs => rw [BitVec.slt_iff_toInt_lt, toInt_eq hT ha hs, toInt_eq hT hb hs, Int.ofNat_lt]
  · rw [BitVec.ult_iff_toNat_lt]

end Compare

section Step

theorem half_clog_lt {x : Nat} (hx : 0 < x) : 2 ^ Nat.clog 2 x / 2 < x := by
  cases hc : Nat.clog 2 x with
  | zero => exact hx
  | succ c =>
    rw [Nat.pow_succ, Nat.mul_div_cancel _ (by decide)]
    exact Nat.pow_lt_of_lt_clog (by omega)

variable {T : IntType} (hT : T.Wide) {left right : T.Val}

theorem toNat_lowbit_le (a : T.Val) : (lowbit a).toNat ≤ a.toNat := by
  rw [lowbit, BitVec.toNat_and]
  exact Nat.and_le_left

include hT

theorem toNat_nextRange (hlr : left.toNat < right.toNat) (hr : right.toNat ≤ 2 ^ 31) :
    (nextRange left right).toNat = left.toNat +
      if (lowbit left).toNat ≤ right.toNat - left.toNat then (lowbit left).toNat
      else 2 ^ Nat.clog 2 (right.toNat - left.toNat) / 2 := by
  have hdiff : (right - left).toNat = right.toNat - left.toNat :=
    BitVec.toNat_sub_of_le (BitVec.le_def.mpr hlr.le)
  have hlow := toNat_lowbit_le left
  have hright := right.isLt
  have hle := le_iff hT (a := lowbit left) (b := right - left) (by omega) (by omega)
  rw [hdiff] at hle
  rw [nextRange]
  simp only [hle]
  split
  · rw [BitVec.toNat_add, Nat.mod_eq_of_lt (by omega)]
  · have hx : (UInt32.ofNat (right - left).toNat).toNat = right.toNat - left.toNat := by
      rw [hdiff]
      exact UInt32.toNat_ofNat_of_lt' (show _ < 2 ^ 32 by omega)
    have hnp := nearestPowerOfTwo_toNat (UInt32.ofNat (right - left).toNat) (by omega) (by omega)
    have hhalf := half_clog_lt (Nat.sub_pos_of_lt hlr)
    rw [BitVec.toNat_add, UInt32.toNat_div, hnp, hx, BitVec.toNat_ofNat]
    change (left.toNat + 2 ^ Nat.clog 2 (right.toNat - left.toNat) / 2 % 2 ^ T.width) % _ = _
    rw [Nat.mod_eq_of_lt (a := 2 ^ Nat.clog 2 (right.toNat - left.toNat) / 2) (by omega),
      Nat.mod_eq_of_lt (by omega)]

theorem isBlock_nextRange (hlr : left.toNat < right.toNat) (hr : right.toNat ≤ 2 ^ 31)
    (h0 : 0 < left.toNat) (heven : 2 ∣ right.toNat) :
    IsBlock left.toNat (nextRange left right).toNat right.toNat := by
  obtain ⟨k, c, he, hlow⟩ := toNat_lowbit h0
  have hpos := Nat.two_pow_pos k
  have hnext := toNat_nextRange hT hlr hr
  rw [hlow] at hnext
  by_cases hfit : 2 ^ k ≤ right.toNat - left.toNat
  · rw [if_pos hfit] at hnext
    exact ⟨by omega, by omega, k, hnext, ⟨_, he⟩⟩
  · rw [if_neg hfit] at hnext
    have hk : 2 ^ 1 ∣ 2 ^ k := by
      refine Nat.pow_dvd_pow 2 (Nat.one_le_iff_ne_zero.mpr fun hk => ?_)
      rw [hk] at hfit
      omega
    have hdiff : 2 ∣ right.toNat - left.toNat := Nat.dvd_sub heven (hk.trans ⟨_, he⟩)
    have hhalf := half_clog_lt (Nat.sub_pos_of_lt hlr)
    obtain ⟨j, hj⟩ : ∃ j, Nat.clog 2 (right.toNat - left.toNat) = j + 1 := by
      refine ⟨_, (Nat.sub_add_cancel (Nat.clog_pos (by decide) ?_)).symm⟩
      omega
    rw [hj, Nat.pow_succ, Nat.mul_div_cancel _ (by decide)] at hnext hhalf
    have hjk : j ≤ k := by
      by_contra hgt
      have hle : 2 ^ k ≤ 2 ^ j := Nat.pow_le_pow_right (by decide) (by omega)
      omega
    have hjpos := Nat.two_pow_pos j
    exact ⟨by omega, by omega, j, hnext, (Nat.pow_dvd_pow 2 hjk).trans ⟨_, he⟩⟩

theorem nextRange_ne_of_odd (hlr : left.toNat < right.toNat) (hr : right.toNat ≤ 2 ^ 31)
    (hodd : ¬ 2 ∣ right.toNat) : (nextRange left right).toNat < right.toNat := by
  have hnext := toNat_nextRange hT hlr hr
  have hhalf := half_clog_lt (Nat.sub_pos_of_lt hlr)
  split at hnext
  · next hfit =>
    obtain h0 | h0 := Nat.eq_zero_or_pos left.toNat
    · have hlow := toNat_lowbit_le left
      omega
    · obtain ⟨k, c, he, hlow⟩ := toNat_lowbit h0
      refine lt_of_le_of_ne (by omega) fun heq => hodd ?_
      refine ⟨2 ^ k * (c + 1), ?_⟩
      rw [← heq, hnext, hlow, he]
      ring
  · omega

end Step

section Walk

variable {T : IntType} {left right : T.Val}

theorem walk_succ (n : Nat) : walk right left (n + 1) =
    if T.lt (walk right left n) right then nextRange (walk right left n) right
    else walk right left n := by
  rw [walk, Function.iterate_succ_apply']
  rfl

theorem walk_of_fixed (h : nextRange left right = left) (n : Nat) : walk right left n = left := by
  induction n with
  | zero => rfl
  | succ n ih => rw [walk_succ, ih, h, ite_self]

theorem existsUnique_between {f : Nat → Nat} (hf : Monotone f) {n x : Nat} (h0 : f 0 ≤ x)
    (hn : x < f n) : ∃! i, i < n ∧ f i ≤ x ∧ x < f (i + 1) := by
  have hex : ∃ i, i < n ∧ f i ≤ x ∧ x < f (i + 1) := by
    induction n with
    | zero => exact absurd hn (not_lt.mpr h0)
    | succ n ih =>
      by_cases hlt : x < f n
      · obtain ⟨i, hi, hix⟩ := ih hlt
        exact ⟨i, hi.trans (Nat.lt_succ_self n), hix⟩
      · exact ⟨n, Nat.lt_succ_self n, not_lt.mp hlt, hn⟩
  obtain ⟨i, hi, hlo, hhi⟩ := hex
  refine ⟨i, ⟨hi, hlo, hhi⟩, fun j hj => ?_⟩
  obtain ⟨-, hlo', hhi'⟩ := hj
  apply le_antisymm
  · by_contra hlt
    exact absurd (hf (show i + 1 ≤ j by omega)) (by omega)
  · by_contra hlt
    exact absurd (hf (show j + 1 ≤ i by omega)) (by omega)

variable (hT : T.Wide)

include hT

theorem walk_invariant (hlr : left.toNat < right.toNat) (hr : right.toNat ≤ 2 ^ 31)
    (h0 : 0 < left.toNat) (heven : 2 ∣ right.toNat) (n : Nat) :
    0 < (walk right left n).toNat ∧ (walk right left n).toNat ≤ right.toNat ∧
      ((walk right left n).toNat < right.toNat → left.toNat + n ≤ (walk right left n).toNat) := by
  induction n with
  | zero => exact ⟨h0, hlr.le, fun _ => le_rfl⟩
  | succ n ih =>
    obtain ⟨hpos, hle, hfar⟩ := ih
    have hlt := lt_iff hT (a := walk right left n) (b := right) (by omega) hr
    rw [walk_succ]
    by_cases hmore : (walk right left n).toNat < right.toNat
    · obtain ⟨hstep, hend, -⟩ := isBlock_nextRange hT hmore hr hpos heven
      have hprev := hfar hmore
      rw [if_pos (hlt.mpr hmore)]
      exact ⟨by omega, hend, fun _ => by omega⟩
    · rw [if_neg (mt hlt.mp hmore)]
      exact ⟨hpos, hle, fun h => absurd h hmore⟩

theorem isBlock_walk (hlr : left.toNat < right.toNat) (hr : right.toNat ≤ 2 ^ 31)
    (h0 : 0 < left.toNat) (heven : 2 ∣ right.toNat) {i : Nat}
    (hmore : (walk right left i).toNat < right.toNat) :
    IsBlock (walk right left i).toNat (walk right left (i + 1)).toNat right.toNat := by
  obtain ⟨hpos, hle, -⟩ := walk_invariant hT hlr hr h0 heven i
  have hlt := lt_iff hT (a := walk right left i) (b := right) (by omega) hr
  rw [walk_succ, if_pos (hlt.mpr hmore)]
  exact isBlock_nextRange hT hmore hr hpos heven

theorem partitions_of_even (hlr : left.toNat < right.toNat) (hr : right.toNat ≤ 2 ^ 31)
    (h0 : 0 < left.toNat) (heven : 2 ∣ right.toNat) : Partitions left right := by
  have hinv := walk_invariant hT hlr hr h0 heven
  have hblock (i : Nat) := @isBlock_walk T left right hT hlr hr h0 heven i
  have hend : ∃ n, (walk right left n).toNat = right.toNat := by
    obtain ⟨-, hle, hfar⟩ := hinv (right.toNat - left.toNat)
    refine ⟨_, le_antisymm hle (not_lt.mp fun hlt => ?_)⟩
    have hn := hfar hlt
    omega
  -- the first round after which the loop is at the end
  have hfirst (i : Nat) (hi : i < Nat.find hend) : (walk right left i).toNat < right.toNat :=
    lt_of_le_of_ne (hinv i).2.1 (Nat.find_min hend hi)
  have hmono : Monotone fun i => (walk right left i).toNat := by
    refine monotone_nat_of_le_succ fun i => ?_
    obtain hlt | heq := lt_or_eq_of_le (hinv i).2.1
    · exact (hblock i hlt).1.le
    · have hlt := lt_iff hT (a := walk right left i) (b := right) (by omega) hr
      rw [walk_succ, if_neg (mt hlt.mp (by omega))]
  refine ⟨Nat.find hend, BitVec.eq_of_toNat_eq (Nat.find_spec hend),
    fun i hi => hblock i (hfirst i hi), fun x hlo hhi => ?_⟩
  refine existsUnique_between hmono hlo ?_
  rw [Nat.find_spec hend]
  exact hhi

theorem not_partitions_of_odd (hlr : left.toNat < right.toNat) (hr : right.toNat ≤ 2 ^ 31)
    (hodd : ¬ 2 ∣ right.toNat) : ¬ Partitions left right := by
  have hbefore (n : Nat) : (walk right left n).toNat < right.toNat := by
    induction n with
    | zero => exact hlr
    | succ n ih =>
      have hlt := lt_iff hT (a := walk right left n) (b := right) (by omega) hr
      rw [walk_succ, if_pos (hlt.mpr ih)]
      exact nextRange_ne_of_odd hT ih hr hodd
  rintro ⟨n, hend, -⟩
  have hn := hbefore n
  rw [hend] at hn
  exact Nat.lt_irrefl _ hn

theorem nextRange_of_zero (h0 : left.toNat = 0) (hlr : left.toNat < right.toNat)
    (hr : right.toNat ≤ 2 ^ 31) : nextRange left right = left := by
  have hlow := toNat_lowbit_le left
  have hnext := toNat_nextRange hT hlr hr
  rw [if_pos (by omega)] at hnext
  exact BitVec.eq_of_toNat_eq (by omega)

omit hT in
theorem not_partitions_of_fixed (hlr : left.toNat < right.toNat)
    (h : nextRange left right = left) : ¬ Partitions left right := by
  rintro ⟨n, hend, -⟩
  rw [walk_of_fixed h] at hend
  rw [hend] at hlr
  exact Nat.lt_irrefl _ hlr

/-- Walking a range with `next_range` partitions it into aligned blocks exactly when the range does
not start at zero and has an even end. Otherwise the loop goes on for ever. -/
theorem next_range_partitions_iff (hlr : left.toNat < right.toNat) (hr : right.toNat ≤ 2 ^ 31) :
    Partitions left right ↔ left.toNat ≠ 0 ∧ 2 ∣ right.toNat := by
  constructor
  · intro h
    refine ⟨fun h0 => ?_, ?_⟩
    · exact not_partitions_of_fixed hlr (nextRange_of_zero hT h0 hlr hr) h
    · by_contra hodd
      exact not_partitions_of_odd hT hlr hr hodd h
  · rintro ⟨h0, heven⟩
    exact partitions_of_even hT hlr hr (Nat.pos_of_ne_zero h0) heven

end Walk

abbrev int64 : IntType := ⟨64, true⟩

theorem next_range_partitions_int64 : Partitions (T := int64) 3 20 :=
  (next_range_partitions_iff (by decide) (by decide) (by decide)).mpr (by decide)

/-- A step from the start zero, and one that has a single number in front of it, lead nowhere. -/
theorem next_range_stays : ¬ Partitions (T := int64) 0 8 ∧ ¬ Partitions (T := int64) 2 3 := by
  constructor
  · exact not_partitions_of_fixed (by decide) (by decide)
  · exact not_partitions_of_fixed (by decide) (by decide)

end DistExp.NextRange
