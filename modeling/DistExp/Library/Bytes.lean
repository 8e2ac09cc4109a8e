import Mathlib

namespace DistExp.Library.Bytes

/-- The `w` lowest bytes of a number, the lowest first. -/
def littleEndian (w v : Nat) : List UInt8 :=
  (Nat.digitsAppend 256 w (v % 256 ^ w)).map UInt8.ofNat

def ofLittleEndian (bs : List UInt8) : Nat := Nat.ofDigits 256 (bs.map UInt8.toNat)

/-- The `w` lowest bytes of a number, the highest first. -/
def bigEndian (w v : Nat) : List UInt8 := (littleEndian w v).reverse

def ofBigEndian (bs : List UInt8) : Nat := ofLittleEndian bs.reverse

theorem map_toNat_map_ofNat {ds : List Nat} (h : ∀ d ∈ ds, d < 256) :
    (ds.map UInt8.ofNat).map UInt8.toNat = ds := by
  rw [List.map_map]
  refine (List.map_congr_left fun d hd => ?_).trans (List.map_id ds)
  exact UInt8.toNat_ofNat_of_lt' (h d hd)

theorem map_ofNat_map_toNat (bs : List UInt8) : (bs.map UInt8.toNat).map UInt8.ofNat = bs := by
  rw [List.map_map]
  refine (List.map_congr_left fun b _ => ?_).trans (List.map_id bs)
  exact UInt8.ofNat_toNat

@[simp] theorem length_littleEndian (w v : Nat) : (littleEndian w v).length = w := by
  rw [littleEndian, List.length_map]
  exact Nat.length_digitsAppend (by decide) w (Nat.mod_lt v (by positivity))

theorem ofLittleEndian_littleEndian (w v : Nat) :
    ofLittleEndian (littleEndian w v) = v % 256 ^ w := by
  rw [ofLittleEndian, littleEndian,
    map_toNat_map_ofNat fun d hd => Nat.lt_of_mem_digitsAppend (by decide) w d hd]
  exact (Nat.setInvOn_digitsAppend_ofDigits (by decide) w).2 (Nat.mod_lt v (by positivity))

theorem ofLittleEndian_lt (bs : List UInt8) : ofLittleEndian bs < 256 ^ bs.length := by
  have h := Nat.ofDigits_lt_base_pow_length (b := 256) (l := bs.map UInt8.toNat) (by decide)
    (by simpa using fun b (_ : b ∈ bs) => b.toNat_lt)
  rwa [List.length_map] at h

theorem littleEndian_ofLittleEndian (bs : List UInt8) :
    littleEndian bs.length (ofLittleEndian bs) = bs := by
  rw [littleEndian, Nat.mod_eq_of_lt (ofLittleEndian_lt bs), ofLittleEndian]
  have hbs : bs.map UInt8.toNat ∈ {ds : List Nat | ds.length = bs.length ∧ ∀ d ∈ ds, d < 256} :=
    ⟨List.length_map _, by simpa using fun b (_ : b ∈ bs) => b.toNat_lt⟩
  rw [(Nat.setInvOn_digitsAppend_ofDigits (by decide) bs.length).1 hbs, map_ofNat_map_toNat]

theorem ofLittleEndian_cons (b : UInt8) (bs : List UInt8) :
    ofLittleEndian (b :: bs) = b.toNat + 256 * ofLittleEndian bs := by
  rw [ofLittleEndian, List.map_cons, Nat.ofDigits_cons, ofLittleEndian]

theorem littleEndian_succ (w v : Nat) :
    littleEndian (w + 1) v = UInt8.ofNat v :: littleEndian w (v / 256) := by
  have h := littleEndian_ofLittleEndian (UInt8.ofNat v :: littleEndian w (v / 256))
  have hlow : (UInt8.ofNat v).toNat = v % 256 := UInt8.toNat_ofNat'
  have hvalue : v % 256 + 256 * (v / 256 % 256 ^ w) = v % 256 ^ (w + 1) := by
    rw [Nat.pow_succ', Nat.mod_mul]
  rw [ofLittleEndian_cons, ofLittleEndian_littleEndian, hlow, hvalue, List.length_cons,
    length_littleEndian] at h
  rw [← h, littleEndian, littleEndian, Nat.mod_mod]

theorem getD_littleEndian {w j : Nat} (hj : j < w) (v : Nat) :
    (littleEndian w v).getD j 0 = UInt8.ofNat (v / 256 ^ j) := by
  induction w generalizing j v with
  | zero => exact absurd hj (Nat.not_lt_zero j)
  | succ w ih =>
    rw [littleEndian_succ]
    cases j with
    | zero => rw [List.getD_cons_zero, Nat.pow_zero, Nat.div_one]
    | succ j =>
      rw [List.getD_cons_succ, ih (Nat.lt_of_succ_lt_succ hj), Nat.div_div_eq_div_mul,
        ← Nat.pow_succ']

@[simp] theorem length_bigEndian (w v : Nat) : (bigEndian w v).length = w := by
  rw [bigEndian, List.length_reverse, length_littleEndian]

theorem ofBigEndian_bigEndian (w v : Nat) : ofBigEndian (bigEndian w v) = v % 256 ^ w := by
  rw [ofBigEndian, bigEndian, List.reverse_reverse, ofLittleEndian_littleEndian]

theorem ofBigEndian_lt (bs : List UInt8) : ofBigEndian bs < 256 ^ bs.length := by
  have h := ofLittleEndian_lt bs.reverse
  rwa [List.length_reverse] at h

theorem bigEndian_ofBigEndian (bs : List UInt8) :
    bigEndian bs.length (ofBigEndian bs) = bs := by
  have h := littleEndian_ofLittleEndian bs.reverse
  rw [List.length_reverse] at h
  rw [bigEndian, ofBigEndian, h, List.reverse_reverse]

end DistExp.Library.Bytes
