import Mathlib

namespace DistExp.Library.MachineInt

/-- Narrowing of an unsigned 64-bit value to a signed 32-bit one: the low half of the word. -/
def toInt (x : UInt64) : Int32 := Int32.ofNat x.toNat

/-- Widening of a signed 32-bit value to an unsigned 64-bit one: the sign is extended. -/
def toSize (x : Int32) : UInt64 := x.toInt64.toUInt64

theorem ofNat_inj {a b : Nat} (ha : a < 2 ^ 31) (hb : b < 2 ^ 31) :
    Int32.ofNat a = Int32.ofNat b ↔ a = b := by
  rw [← Int32.toInt_inj, Int32.toInt_ofNat_of_lt ha, Int32.toInt_ofNat_of_lt hb, Int.ofNat_inj]

theorem ofNat_eq_iff_modEq {a b : Nat} : Int32.ofNat a = Int32.ofNat b ↔ a ≡ b [MOD 2 ^ 32] := by
  rw [← Int32.toBitVec_inj, Int32.toBitVec_ofNat', Int32.toBitVec_ofNat', BitVec.toNat_eq,
    BitVec.toNat_ofNat, BitVec.toNat_ofNat]
  rfl

theorem toSize_ofNat {n : Nat} (hn : n < 2 ^ 31) : toSize (Int32.ofNat n) = UInt64.ofNat n := by
  have hle : (n : Int) ≤ Int32.maxValue.toInt := by
    have : Int32.maxValue.toInt = 2147483647 := by decide
    omega
  rw [toSize, Int32.toInt64_ofNat' hle]
  rfl

theorem toNat_toSize_ofNat {n : Nat} (hn : n < 2 ^ 31) : (toSize (Int32.ofNat n)).toNat = n := by
  rw [toSize_ofNat hn]
  exact UInt64.toNat_ofNat_of_lt' (show n < 2 ^ 64 by omega)

theorem ofNat_half {n : Nat} (hn : n < 2 ^ 31) : Int32.ofNat n / 2 = Int32.ofNat (n / 2) :=
  (Int32.ofNat_div hn (by decide)).symm

theorem ofNat_mid {a b : Nat} (hab : a ≤ b) (hb : b < 2 ^ 31) :
    Int32.ofNat a + (Int32.ofNat b - Int32.ofNat a) / 2 = Int32.ofNat (a + (b - a) / 2) := by
  rw [← Int32.ofNat_sub b a hab, ofNat_half (by omega), ← Int32.ofNat_add]

theorem min_ofNat {a b : Nat} (ha : a < 2 ^ 31) (hb : b < 2 ^ 31) :
    min (Int32.ofNat a) (Int32.ofNat b) = Int32.ofNat (min a b) := by
  change (if Int32.ofNat a ≤ Int32.ofNat b then _ else _) = _
  simp only [Int32.ofNat_le_iff_le ha hb]
  split <;> congr 1 <;> omega

theorem max_ofNat {a b : Nat} (ha : a < 2 ^ 31) (hb : b < 2 ^ 31) :
    max (Int32.ofNat a) (Int32.ofNat b) = Int32.ofNat (max a b) := by
  change (if Int32.ofNat a ≤ Int32.ofNat b then _ else _) = _
  simp only [Int32.ofNat_le_iff_le ha hb]
  split <;> congr 1 <;> omega

theorem ofNat_succ_sub_one (n : Nat) : Int32.ofNat (n + 1) - 1 = Int32.ofNat n := by
  have h := Int32.ofNat_sub (n + 1) 1 (by omega)
  rw [Nat.add_sub_cancel] at h
  exact h.symm

theorem toInt_ofNat_mul_neg {a b : Nat} (h : a * b < 2 ^ 31) :
    (Int32.ofNat a * (Int32.ofNat 0 - Int32.ofNat b)).toInt = -((a * b : Nat) : Int) := by
  have hneg : Int32.ofNat a * (Int32.ofNat 0 - Int32.ofNat b) = -Int32.ofNat (a * b) := by
    rw [Int32.ofNat_mul, ← Int32.mul_neg, ← Int32.zero_sub]
    rfl
  rw [hneg, Int32.toInt_neg, Int32.toInt_ofNat_of_lt h]
  exact Int.bmod_eq_of_le (by omega) (by omega)

theorem ofNat_sub_sub_one {n k : Nat} (hk : k < n) :
    Int32.ofNat n - Int32.ofNat k - 1 = Int32.ofNat (n - k - 1) := by
  rw [Int32.ofNat_sub _ 1 (by omega), Int32.ofNat_sub _ k (by omega)]
  rfl

theorem toUInt32_toNat_of_pos {n : Int32} (hn : ¬ n ≤ 0) :
    ∃ m : Nat, n.toUInt32.toNat = m ∧ 0 < m ∧ m < 2 ^ 31 := by
  have hpos : 0 < n.toInt := by
    rw [Int32.le_iff_toInt_le] at hn
    exact Int.not_le.mp hn
  have hlt := n.toInt_lt
  have hb : n.toInt = n.toBitVec.toInt := rfl
  have hm : n.toUInt32.toNat = n.toBitVec.toNat := rfl
  rw [BitVec.toInt_eq_toNat_cond] at hb
  refine ⟨_, rfl, ?_, ?_⟩ <;> rw [hm] <;> split at hb <;> omega

theorem toNat_add_sub_one_mod {u g : UInt64} (hg : 0 < g.toNat) :
    (u + g - 1).toNat = (u.toNat + g.toNat - 1) % 2 ^ 64 := by
  have h1 : (1 : UInt64) ≤ g := UInt64.le_iff_toNat_le.mpr hg
  have hs : (g - 1).toNat = g.toNat - 1 := UInt64.toNat_sub_of_le _ _ h1
  rw [UInt64.sub_eq_add_neg, UInt64.add_assoc, ← UInt64.sub_eq_add_neg, UInt64.toNat_add, hs,
    ← Nat.add_sub_assoc hg]

theorem toNat_add_sub_one {u g : UInt64} (hg : 0 < g.toNat) (hroom : u.toNat + g.toNat ≤ 2 ^ 64) :
    (u + g - 1).toNat = u.toNat + g.toNat - 1 := by
  rw [toNat_add_sub_one_mod hg]
  exact Nat.mod_eq_of_lt (by omega)

theorem add_sub_one_div_wrapped {u g : UInt64} (hg : 0 < g.toNat)
    (hroom : 2 ^ 64 < u.toNat + g.toNat) : (u + g - 1) / g = 0 := by
  have hu := u.toNat_lt
  have hgl := g.toNat_lt
  apply UInt64.toNat_inj.mp
  rw [UInt64.toNat_div, toNat_add_sub_one_mod hg]
  exact Nat.div_eq_of_lt (by omega)

theorem and_two_pow_sub_succ {w c : Nat} (hc : c < 2 ^ w) : c &&& (2 ^ w - (c + 1)) = 0 := by
  apply Nat.eq_of_testBit_eq
  intro i
  rw [Nat.testBit_and, Nat.testBit_two_pow_sub_succ hc, Nat.zero_testBit]
  cases c.testBit i <;> simp

theorem odd_and_two_pow_sub {w c : Nat} (hc : 2 * c + 1 < 2 ^ w) :
    (2 * c + 1) &&& (2 ^ w - (2 * c + 1)) = 1 := by
  obtain ⟨v, rfl⟩ : ∃ v, w = v + 1 := by
    cases w with
    | zero => omega
    | succ v => exact ⟨v, rfl⟩
  rw [Nat.pow_succ] at hc ⊢
  have hcompl : 2 ^ v * 2 - (2 * c + 1) = Nat.bit true (2 ^ v - (c + 1)) := by
    rw [Nat.bit_true_apply]
    omega
  have hland := Nat.land_bit true c true (2 ^ v - (c + 1))
  rw [and_two_pow_sub_succ (by omega)] at hland
  rw [hcompl, ← Nat.bit_true_apply]
  exact hland

theorem and_two_pow_sub {w k c : Nat} (h : 2 ^ k * (2 * c + 1) < 2 ^ w) :
    2 ^ k * (2 * c + 1) &&& (2 ^ w - 2 ^ k * (2 * c + 1)) = 2 ^ k := by
  have hkw : k ≤ w := by
    by_contra hgt
    have hle : 2 ^ w ≤ 2 ^ k := Nat.pow_le_pow_right (by decide) (by omega)
    have hpos : 2 ^ k ≤ 2 ^ k * (2 * c + 1) := Nat.le_mul_of_pos_right _ (by omega)
    omega
  obtain ⟨j, rfl⟩ := Nat.exists_eq_add_of_le hkw
  rw [Nat.pow_add] at h ⊢
  have hlt : 2 * c + 1 < 2 ^ j := Nat.lt_of_mul_lt_mul_left h
  rw [← Nat.mul_sub, Nat.mul_comm _ (2 * c + 1), Nat.mul_comm _ (2 ^ j - _), ← Nat.shiftLeft_eq,
    ← Nat.shiftLeft_eq, ← Nat.shiftLeft_and_distrib, odd_and_two_pow_sub hlt, Nat.shiftLeft_eq,
    Nat.one_mul]

end DistExp.Library.MachineInt
