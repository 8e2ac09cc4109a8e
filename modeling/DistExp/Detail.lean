import DistExp.Library.MachineInt

namespace DistExp.Detail

/-- One round of the one-at-a-time hash. The byte is a `char`, so its sign is extended. -/
def hashByte (hash : UInt32) (byte : UInt8) : UInt32 :=
  let hash := hash + byte.toInt8.toInt32.toUInt32
  let hash := hash + (hash <<< 10)
  hash ^^^ (hash >>> 6)

def bytes (x : UInt64) : List UInt8 :=
  (List.range 8).map fun i => (x >>> (8 * UInt64.ofNat i)).toUInt8

/-- `sketchdetail::hash` for eight-byte arguments: `flow_id` goes in before `t`. -/
def hash (t flowId : UInt64) : UInt32 :=
  let hash := (bytes flowId ++ bytes t).foldl hashByte 0
  let hash := hash + (hash <<< 3)
  let hash := hash ^^^ (hash >>> 11)
  hash + (hash <<< 15)

/-- `sketchdetail::hash` where `t` is an `int`, of four bytes. -/
def hashInt (t : Int32) (flowId : UInt64) : UInt32 :=
  let data := (List.range 4).map fun i => (t.toUInt32 >>> (8 * UInt32.ofNat i)).toUInt8
  let hash := (bytes flowId ++ data).foldl hashByte 0
  let hash := hash + (hash <<< 3)
  let hash := hash ^^^ (hash >>> 11)
  hash + (hash <<< 15)

def nearestPowerOfTwo (x : UInt32) : UInt32 :=
  let x := x - 1
  let x := x ||| (x >>> 1)
  let x := x ||| (x >>> 2)
  let x := x ||| (x >>> 4)
  let x := x ||| (x >>> 8)
  let x := x ||| (x >>> 16)
  x + 1

/-- Bit `i` of `x` tells whether `y` has a bit set among the `n` bits from `i` up. -/
def Smeared (y : Nat) (n : Nat) (x : UInt32) : Prop :=
  ∀ i, x.toNat.testBit i = true ↔ ∃ j < n, y.testBit (i + j) = true

theorem Smeared.or_shift {y n : Nat} {x s : UInt32} (h : Smeared y n x) (hs : s.toNat = n)
    (hn : n < 32) : Smeared y (n + n) (x ||| (x >>> s)) := by
  intro i
  rw [UInt32.toNat_or, UInt32.toNat_shiftRight, hs, Nat.mod_eq_of_lt hn, Nat.testBit_or,
    Nat.testBit_shiftRight, Bool.or_eq_true, h i, h (n + i)]
  constructor
  · rintro (⟨j, hj, hb⟩ | ⟨j, hj, hb⟩)
    · exact ⟨j, by omega, hb⟩
    · exact ⟨n + j, by omega, by rwa [show i + (n + j) = n + i + j by omega]⟩
  · rintro ⟨j, hj, hb⟩
    by_cases hjn : j < n
    · exact Or.inl ⟨j, hjn, hb⟩
    · exact Or.inr ⟨j - n, by omega, by rwa [show n + i + (j - n) = i + j by omega]⟩

theorem Smeared.toNat_eq {y : Nat} {x : UInt32} (h : Smeared y 32 x) (hy : y < 2 ^ 32) :
    x.toNat = 2 ^ y.size - 1 := by
  apply Nat.eq_of_testBit_eq
  intro i
  rw [Nat.testBit_two_pow_sub_one, Bool.eq_iff_iff, h i, decide_eq_true_eq, Nat.lt_size]
  constructor
  · rintro ⟨j, -, hb⟩
    have hi := Nat.pow_le_pow_right (show 0 < 2 by decide) (Nat.le_add_right i j)
    exact hi.trans (Nat.ge_two_pow_of_testBit hb)
  · intro hi
    obtain ⟨m, hm, hb⟩ := Nat.exists_ge_and_testBit_of_ge_two_pow hi
    have hm32 : m < 32 := by
      by_contra hge
      have hle : 2 ^ 32 ≤ 2 ^ m := Nat.pow_le_pow_right (by decide) (by omega)
      have hpow := Nat.ge_two_pow_of_testBit hb
      omega
    exact ⟨m - i, by omega, by rwa [show i + (m - i) = m by omega]⟩

theorem size_pred_eq_clog (x : Nat) (hx : 1 ≤ x) : (x - 1).size = Nat.clog 2 x := by
  apply Nat.le_antisymm
  · rw [Nat.size_le]
    have hle := Nat.le_pow_clog (b := 2) (by decide) x
    omega
  · have hlt := Nat.lt_size_self (x - 1)
    exact Nat.clog_le_of_le_pow (by omega)

theorem nearestPowerOfTwo_toNat (x : UInt32) (h1 : 1 ≤ x.toNat) (h31 : x.toNat ≤ 2 ^ 31) :
    (nearestPowerOfTwo x).toNat = 2 ^ Nat.clog 2 x.toNat := by
  have hy : (x - 1).toNat = x.toNat - 1 := by
    have hle : (1 : UInt32) ≤ x := UInt32.le_iff_toNat_le.mpr h1
    exact UInt32.toNat_sub_of_le _ _ hle
  have h0 : Smeared (x - 1).toNat 1 (x - 1) := by
    intro i
    simp
  have hs := ((((h0.or_shift (s := 1) rfl (by decide)).or_shift (s := 2) rfl (by decide)).or_shift
    (s := 4) rfl (by decide)).or_shift (s := 8) rfl (by decide)).or_shift (s := 16) rfl (by decide)
  have he := hs.toNat_eq (x - 1).toNat_lt
  rw [hy, size_pred_eq_clog _ h1] at he
  have hc : Nat.clog 2 x.toNat ≤ 31 := Nat.clog_le_of_le_pow h31
  have hp : 2 ^ Nat.clog 2 x.toNat ≤ 2 ^ 31 := Nat.pow_le_pow_right (by decide) hc
  have hpos : 0 < 2 ^ Nat.clog 2 x.toNat := Nat.two_pow_pos _
  rw [nearestPowerOfTwo, UInt32.toNat_add, he]
  have h1' : (1 : UInt32).toNat = 1 := rfl
  rw [h1', Nat.sub_add_cancel hpos]
  exact Nat.mod_eq_of_lt (by omega)

theorem nearestPowerOfTwo_of_pos {n : Int32} (hn : ¬ n ≤ 0) :
    (nearestPowerOfTwo n.toUInt32).toNat = 2 ^ Nat.clog 2 n.toUInt32.toNat ∧
      Nat.clog 2 n.toUInt32.toNat ≤ 31 := by
  obtain ⟨m, hm, hpos, hlt⟩ := Library.MachineInt.toUInt32_toNat_of_pos hn
  exact ⟨nearestPowerOfTwo_toNat n.toUInt32 (by omega) (by omega),
    Nat.clog_le_of_le_pow (by omega)⟩

end DistExp.Detail
