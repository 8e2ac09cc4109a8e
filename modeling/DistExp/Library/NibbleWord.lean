import Mathlib

namespace DistExp.Library.NibbleWord

/-- The `k`-th four-bit field of a 64-bit word, counted from the low end. -/
def nibble (w : UInt64) (k : Nat) : Nat := w.toNat / 2 ^ (4 * k) % 16

/-- The shift that brings field `k` to the low end of the word. -/
def shift (k : Nat) : UInt64 := UInt64.ofNat (4 * k)

/-- All four bits of field `k` set and every other bit clear. -/
def ones (k : Nat) : UInt64 := 0xf <<< shift k

theorem nibble_lt (w : UInt64) (k : Nat) : nibble w k < 16 := Nat.mod_lt _ (by decide)

theorem nibble_zero (k : Nat) : nibble 0 k = 0 := by simp [nibble]

theorem shift_mod {k : Nat} (hk : k < 16) : (shift k).toNat % 64 = 4 * k := by
  simp only [shift, UInt64.toNat_ofNat']
  omega

theorem testBit_nibble (w : UInt64) (k b : Nat) :
    (nibble w k).testBit b = (decide (b < 4) && w.toNat.testBit (b + 4 * k)) := by
  have h := Nat.testBit_mod_two_pow (w.toNat / 2 ^ (4 * k)) 4 b
  rw [Nat.testBit_div_two_pow] at h
  exact h

theorem nibble_eq_of_testBit {w v : UInt64} {k i : Nat}
    (h : ∀ b < 4, w.toNat.testBit (b + 4 * k) = v.toNat.testBit (b + 4 * i)) :
    nibble w k = nibble v i := by
  apply Nat.eq_of_testBit_eq
  intro b
  rw [testBit_nibble, testBit_nibble]
  by_cases hb : b < 4
  · rw [h b hb]
  · simp [hb]

theorem testBit_ones {k : Nat} (hk : k < 16) (i : Nat) :
    (ones k).toNat.testBit i = decide (4 * k ≤ i ∧ i < 4 * k + 4) := by
  have hf : (0xf : UInt64).toNat = 2 ^ 4 - 1 := rfl
  rw [ones, UInt64.toNat_shiftLeft, shift_mod hk, Nat.testBit_mod_two_pow, Nat.testBit_shiftLeft,
    hf, Nat.testBit_two_pow_sub_one]
  rw [Bool.eq_iff_iff]
  simp only [Bool.and_eq_true, decide_eq_true_eq]
  omega

theorem shiftRight_and (w : UInt64) {k : Nat} (hk : k < 16) :
    ((w >>> shift k) &&& 0xf).toNat = nibble w k := by
  have hf : (0xf : UInt64).toNat = 2 ^ 4 - 1 := rfl
  rw [UInt64.toNat_and, UInt64.toNat_shiftRight, shift_mod hk, hf, Nat.and_two_pow_sub_one_eq_mod,
    Nat.shiftRight_eq_div_pow]
  rfl

theorem nibble_or_ones (w : UInt64) {k i : Nat} (hk : k < 16) :
    nibble (w ||| ones k) i = if i = k then 15 else nibble w i := by
  by_cases h : i = k
  · subst h
    rw [if_pos rfl]
    apply Nat.eq_of_testBit_eq
    intro b
    have hf : 15 = 2 ^ 4 - 1 := rfl
    rw [testBit_nibble, UInt64.toNat_or, Nat.testBit_or, testBit_ones hk, hf,
      Nat.testBit_two_pow_sub_one]
    by_cases hb : b < 4 <;> simp [hb]
    right; omega
  · rw [if_neg h]
    apply nibble_eq_of_testBit
    intro b hb
    have hn : ¬ (4 * k ≤ b + 4 * i ∧ b + 4 * i < 4 * k + 4) := by omega
    rw [UInt64.toNat_or, Nat.testBit_or, testBit_ones hk, decide_eq_false hn, Bool.or_false]

theorem and_ones_eq (w : UInt64) {k : Nat} (hk : k < 16) :
    (w &&& ones k) = ones k ↔ nibble w k = 15 := by
  have hf : 15 = 2 ^ 4 - 1 := rfl
  constructor
  · intro h
    apply Nat.eq_of_testBit_eq
    intro b
    rw [testBit_nibble, hf, Nat.testBit_two_pow_sub_one]
    by_cases hb : b < 4
    · have hw := congrArg (fun v : UInt64 => v.toNat.testBit (b + 4 * k)) h
      simp only [UInt64.toNat_and, Nat.testBit_and, testBit_ones hk] at hw
      have hi : 4 * k ≤ b + 4 * k ∧ b + 4 * k < 4 * k + 4 := by omega
      simpa [hi, hb] using hw
    · simp [hb]
  · intro h
    apply UInt64.toNat_inj.mp
    apply Nat.eq_of_testBit_eq
    intro i
    rw [UInt64.toNat_and, Nat.testBit_and, testBit_ones hk]
    by_cases hi : 4 * k ≤ i ∧ i < 4 * k + 4
    · have hb := testBit_nibble w k (i - 4 * k)
      rw [h, hf, Nat.testBit_two_pow_sub_one, Nat.sub_add_cancel hi.1] at hb
      have hlt : i - 4 * k < 4 := by omega
      simp only [hlt, decide_true, Bool.true_and] at hb
      rw [← hb, Bool.true_and]
    · simp [hi]

theorem field_lt (w : UInt64) {k v : Nat} (hv : nibble w k + v < 16) :
    w.toNat % 2 ^ (4 * (k + 1)) + v * 2 ^ (4 * k) < 2 ^ (4 * (k + 1)) := by
  have hp : 2 ^ (4 * (k + 1)) = 2 ^ (4 * k) * 16 := by rw [Nat.mul_succ, Nat.pow_add]
  have hm : w.toNat % 2 ^ (4 * (k + 1)) = w.toNat % 2 ^ (4 * k) + 2 ^ (4 * k) * nibble w k := by
    rw [hp, Nat.mod_mul]
    rfl
  have hl : w.toNat % 2 ^ (4 * k) < 2 ^ (4 * k) := Nat.mod_lt _ (Nat.two_pow_pos _)
  have hs : 2 ^ (4 * k) * (nibble w k + v + 1) ≤ 2 ^ (4 * k) * 16 := Nat.mul_le_mul_left _ hv
  rw [hm, hp]
  have he : 2 ^ (4 * k) * (nibble w k + v + 1) =
      2 ^ (4 * k) * nibble w k + v * 2 ^ (4 * k) + 2 ^ (4 * k) := by ring
  omega

theorem toNat_add_shift (w : UInt64) {k : Nat} (hk : k < 16) {v : UInt64}
    (hv : nibble w k + v.toNat < 16) :
    (w + (v <<< shift k)).toNat = w.toNat + v.toNat * 2 ^ (4 * k) := by
  have hlt := field_lt w hv
  have hw : w.toNat < 2 ^ (4 * 16) := w.toNat_lt
  have hd : 2 ^ (4 * (k + 1)) ∣ 2 ^ (4 * 16) := Nat.pow_dvd_pow 2 (by omega)
  have hsum : w.toNat + v.toNat * 2 ^ (4 * k) < 2 ^ (4 * 16) := by
    obtain ⟨c, hc⟩ := hd
    have hq : w.toNat / 2 ^ (4 * (k + 1)) < c := by
      rw [Nat.div_lt_iff_lt_mul (Nat.two_pow_pos _), Nat.mul_comm, ← hc]
      exact hw
    have hdm := Nat.div_add_mod w.toNat (2 ^ (4 * (k + 1)))
    have hle : 2 ^ (4 * (k + 1)) * (w.toNat / 2 ^ (4 * (k + 1)) + 1) ≤ 2 ^ (4 * (k + 1)) * c :=
      Nat.mul_le_mul_left _ hq
    rw [Nat.mul_succ] at hle
    omega
  have hsh : (v <<< shift k).toNat = v.toNat * 2 ^ (4 * k) := by
    rw [UInt64.toNat_shiftLeft, shift_mod hk, Nat.shiftLeft_eq]
    exact Nat.mod_eq_of_lt (by omega)
  rw [UInt64.toNat_add, hsh]
  exact Nat.mod_eq_of_lt hsum

theorem nibble_add_shift (w : UInt64) {k i : Nat} (hk : k < 16) {v : UInt64}
    (hv : nibble w k + v.toNat < 16) :
    nibble (w + (v <<< shift k)) i = if i = k then nibble w k + v.toNat else nibble w i := by
  rw [nibble, toNat_add_shift w hk hv]
  obtain h | h | h := Nat.lt_trichotomy i k
  · rw [if_neg (by omega)]
    have he : v.toNat * 2 ^ (4 * k) = 2 ^ (4 * i) * (16 * (v.toNat * 2 ^ (4 * (k - i - 1)))) := by
      have hs : 4 * k = 4 * i + 4 + 4 * (k - i - 1) := by omega
      rw [hs, Nat.pow_add, Nat.pow_add]
      ring
    rw [he, Nat.add_mul_div_left _ _ (Nat.two_pow_pos _), Nat.add_mul_mod_self_left]
    rfl
  · subst h
    rw [if_pos rfl, Nat.add_mul_div_right _ _ (Nat.two_pow_pos _), Nat.add_mod]
    have hm : w.toNat / 2 ^ (4 * i) % 16 = nibble w i := rfl
    rw [hm, Nat.mod_eq_of_lt (show v.toNat < 16 by omega)]
    exact Nat.mod_eq_of_lt hv
  · rw [if_neg (by omega)]
    have hlt := field_lt w hv
    have hq : (w.toNat + v.toNat * 2 ^ (4 * k)) / 2 ^ (4 * (k + 1)) = w.toNat / 2 ^ (4 * (k + 1)) := by
      conv_lhs => rw [← Nat.div_add_mod w.toNat (2 ^ (4 * (k + 1))), Nat.add_assoc]
      rw [Nat.mul_add_div (Nat.two_pow_pos _), Nat.div_eq_of_lt hlt, Nat.add_zero]
    have hs : 4 * i = 4 * (k + 1) + 4 * (i - k - 1) := by omega
    rw [nibble, hs, Nat.pow_add, ← Nat.div_div_eq_div_mul, ← Nat.div_div_eq_div_mul, hq]

theorem testBit_sevens :
    ∀ i < 64, (0x7777777777777777 : UInt64).toNat.testBit i = decide (i % 4 ≠ 3) := by
  decide

theorem nibble_halve (w : UInt64) {k : Nat} (hk : k < 16) :
    nibble ((w >>> 1) &&& 0x7777777777777777) k = nibble w k / 2 := by
  apply Nat.eq_of_testBit_eq
  intro b
  rw [testBit_nibble, Nat.testBit_div_two, testBit_nibble, UInt64.toNat_and, Nat.testBit_and,
    UInt64.toNat_shiftRight, Nat.testBit_shiftRight]
  have h1 : (1 : UInt64).toNat % 64 = 1 := rfl
  rw [h1]
  by_cases hb : b < 4
  · rw [testBit_sevens _ (by omega)]
    have he : 1 + (b + 4 * k) = b + 1 + 4 * k := by omega
    rw [he]
    by_cases h3 : b = 3
    · subst h3; simp
    · have hm : (b + 4 * k) % 4 ≠ 3 := by omega
      have hlt : b + 1 < 4 := by omega
      simp only [hm, hb, hlt, ne_eq, not_false_eq_true, decide_true, Bool.and_true, Bool.true_and]
  · have hn : ¬ b + 1 < 4 := by omega
    simp [hb, hn]

end DistExp.Library.NibbleWord
