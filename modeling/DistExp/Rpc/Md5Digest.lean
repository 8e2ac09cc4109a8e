import DistExp.Library.BlockHash
import DistExp.Library.Bytes
import DistExp.Rpc.Md5

namespace DistExp.Rpc.Md5Digest

open DistExp.Library.BlockHash DistExp.Library.Bytes DistExp.Rpc.Md5

section Digest

def mix : Nat → UInt32 → UInt32 → UInt32 → UInt32
  | 0, x, y, z => (x &&& y) ||| (~~~x &&& z)
  | 1, x, y, z => (x &&& z) ||| (y &&& ~~~z)
  | 2, x, y, z => x ^^^ y ^^^ z
  | _, x, y, z => y ^^^ (x ||| ~~~z)

def order : List Nat :=
  [0, 1, 2, 3, 4, 5, 6, 7, 8, 9, 10, 11, 12, 13, 14, 15,
    1, 6, 11, 0, 5, 10, 15, 4, 9, 14, 3, 8, 13, 2, 7, 12,
    5, 8, 11, 14, 1, 4, 7, 10, 13, 0, 3, 6, 9, 12, 15, 2,
    0, 7, 14, 5, 12, 3, 10, 1, 8, 15, 6, 13, 4, 11, 2, 9]

def rotations : List (List Nat) := [[7, 12, 17, 22], [5, 9, 14, 20], [4, 11, 16, 23], [6, 10, 15, 21]]

def rotation (i : Nat) : Nat := (rotations.getD (i / 16) []).getD (i % 4) 0

def rotate (x : UInt32) (s : Nat) : UInt32 := ⟨x.toBitVec.rotateLeft s⟩

abbrev Registers := ZMod 4 → UInt32

def word (bs : List UInt8) : UInt32 := UInt32.ofNat (ofLittleEndian bs)

def words (block : List UInt8) : List UInt32 :=
  (List.range 16).map fun k => word ((block.drop (4 * k)).take 4)

/-- The `i`-th operation changes one register, A, D, C and B in turn, and adds to the one after it. -/
def operate (block : List UInt8) (r : Registers) (i : Nat) : Registers :=
  let j : ZMod 4 := -i
  Function.update r j (r (j + 1) + rotate (r j + mix (i / 16) (r (j + 1)) (r (j + 2)) (r (j + 3)) +
    (words block).getD (order.getD i 0) 0 + kConstants.getD i 0) (rotation i))

def compress (r : Registers) (block : List UInt8) : Registers :=
  r + (List.range 64).foldl (operate block) r

def initial : Registers := ![0x67452301, 0xefcdab89, 0x98badcfe, 0x10325476]

def registers (field message : List UInt8) : Registers :=
  hashBlocks 64 compress initial (pad 64 0x80 0 field message)

/-- The digest of a message: the registers after it and its length in bits. -/
def digest (message : List UInt8) : List UInt8 :=
  [0, 1, 2, 3].flatMap fun j =>
    littleEndian 4 (registers (littleEndian 8 (8 * message.length)) message j).toNat

end Digest

section Operations

theorem calcF_eq {i : Nat} (hi : i < 64) (x y z : UInt32) : calcF i x y z = mix (i / 16) x y z := by
  have hbits : ∀ {u v : UInt32},
      (∀ k < 32, u.toBitVec.getLsbD k = v.toBitVec.getLsbD k) → u = v :=
    fun h => UInt32.eq_of_toBitVec_eq (BitVec.eq_of_getLsbD_eq h)
  unfold calcF
  split_ifs with h₁ h₂ h₃
  · rw [show i / 16 = 0 by omega]
    refine hbits fun k hk => ?_
    simp only [mix, UInt32.toBitVec_xor, UInt32.toBitVec_and, UInt32.toBitVec_or,
      UInt32.toBitVec_not, BitVec.getLsbD_xor, BitVec.getLsbD_and, BitVec.getLsbD_or,
      BitVec.getLsbD_not, hk, decide_true, Bool.true_and]
    cases x.toBitVec.getLsbD k <;> cases y.toBitVec.getLsbD k <;> cases z.toBitVec.getLsbD k <;> rfl
  · rw [show i / 16 = 1 by omega]
    refine hbits fun k hk => ?_
    simp only [mix, UInt32.toBitVec_xor, UInt32.toBitVec_and, UInt32.toBitVec_or,
      UInt32.toBitVec_not, BitVec.getLsbD_xor, BitVec.getLsbD_and, BitVec.getLsbD_or,
      BitVec.getLsbD_not, hk, decide_true, Bool.true_and]
    cases x.toBitVec.getLsbD k <;> cases y.toBitVec.getLsbD k <;> cases z.toBitVec.getLsbD k <;> rfl
  · rw [show i / 16 = 2 by omega]
    rfl
  · rw [show i / 16 = 3 by omega]
    rfl

theorem calcG_eq : ∀ i < 64, calcG i = order.getD i 0 := by decide

theorem getShift_eq : ∀ i < 64, getShift i = UInt32.ofNat (rotation i) ∧ rotation i < 32 ∧
    0 < rotation i := by decide

theorem leftRotate_eq {s : Nat} (hs : s < 32) (hpos : 0 < s) (x : UInt32) :
    leftRotate x (UInt32.ofNat s) = rotate x s := by
  have hs' : (UInt32.ofNat s).toNat = s := UInt32.toNat_ofNat_of_lt' (hs.trans (by decide))
  have hleft : (UInt32.ofNat s % 32).toNat = s := by
    rw [UInt32.toNat_mod, hs']
    exact Nat.mod_eq_of_lt hs
  have hle : UInt32.ofNat s ≤ 32 := by
    rw [UInt32.le_iff_toNat_le, hs']
    exact hs.le
  have hright : ((32 - UInt32.ofNat s) % 32).toNat = 32 - s := by
    rw [UInt32.toNat_mod, UInt32.toNat_sub_of_le _ _ hle, hs']
    exact Nat.mod_eq_of_lt (Nat.sub_lt (by decide) hpos)
  refine UInt32.eq_of_toBitVec_eq ?_
  rw [rotate, BitVec.rotateLeft_eq_rotateLeftAux_of_lt hs, BitVec.rotateLeftAux, ← hright]
  nth_rewrite 2 [← hleft]
  rfl

def fromRegister (r : Registers) (j : ZMod 4) : IntermediateData :=
  ⟨r j, r (j + 1), r (j + 2), r (j + 3)⟩

theorem applyStep_eq {i : Nat} (hi : i < 64) (block : List UInt8) (r : Registers) :
    applyStep i (words block) (fromRegister r (-i)) =
      fromRegister (operate block r i) (-(i + 1 : Nat)) := by
  obtain ⟨hshift, hlt, hpos⟩ := getShift_eq i hi
  have hj : (-(i + 1 : Nat) : ZMod 4) = -i + 3 := by
    rw [Nat.cast_succ, neg_add]
    rfl
  have hne : ∀ j : ZMod 4, j + 1 ≠ j ∧ j + 2 ≠ j ∧ j + 3 ≠ j ∧ j + 3 + 1 = j ∧ j + 3 + 2 = j + 1 ∧
      j + 3 + 3 = j + 2 := by decide
  obtain ⟨h₁, h₂, h₃, h₄, h₅, h₆⟩ := hne (-i)
  rw [hj, applyStep, fromRegister, fromRegister, operate, h₄, h₅, h₆, Function.update_self,
    Function.update_of_ne h₁, Function.update_of_ne h₂, Function.update_of_ne h₃, hshift,
    leftRotate_eq hlt hpos, calcF_eq hi, calcG_eq i hi]
  congr 3
  ac_rfl

theorem steps_eq (block : List UInt8) (r : Registers) :
    add (fromRegister r 0)
        ((List.range 64).foldl (fun t i => applyStep i (words block) t) (fromRegister r 0)) =
      fromRegister (compress r block) 0 := by
  have hsteps := foldl_range_simulates
    (R := fun i s r => s = fromRegister r (-(i : ZMod 4))) (n := 64)
    (f := fun t i => applyStep i (words block) t) (g := operate block)
    (s := fromRegister r 0) (t := r) (fun i hi s r hs => by rw [hs]; exact applyStep_eq hi block r)
    (by rw [Nat.cast_zero, neg_zero])
  rw [hsteps, show (-((64 : Nat) : ZMod 4)) = 0 from rfl]
  rfl

end Operations

section Words

variable {data : List UInt8} {n i : UInt32}

theorem word_bytes (b₀ b₁ b₂ b₃ : UInt8) :
    b₀.toUInt32 ||| b₁.toUInt32 <<< 8 ||| b₂.toUInt32 <<< 16 ||| b₃.toUInt32 <<< 24 =
      word [b₀, b₁, b₂, b₃] := by
  have h₀ := b₀.toNat_lt
  have h₁ := b₁.toNat_lt
  have h₂ := b₂.toNat_lt
  have h₃ := b₃.toNat_lt
  refine UInt32.toNat_inj.mp ?_
  have hnil : ofLittleEndian [] = 0 := rfl
  have hor : ∀ k a b : Nat, b < 2 ^ k → b ||| a * 2 ^ k = b + a * 2 ^ k := by
    intro k a b hb
    rw [Nat.lor_comm, Nat.mul_comm, ← Nat.two_pow_add_eq_or_of_lt hb, Nat.add_comm]
  have hshift : ∀ (b : UInt8) (k : UInt32), k.toNat ≤ 24 →
      (b.toUInt32 <<< k).toNat = b.toNat * 2 ^ k.toNat := by
    intro b k hk
    have hlt : b.toNat * 2 ^ k.toNat < 2 ^ 32 := by
      calc b.toNat * 2 ^ k.toNat ≤ b.toNat * 2 ^ 24 :=
            Nat.mul_le_mul_left _ (Nat.pow_le_pow_right (by decide) hk)
        _ < 2 ^ 32 := by
          have := b.toNat_lt
          omega
    rw [UInt32.toNat_shiftLeft, UInt8.toNat_toUInt32,
      Nat.mod_eq_of_lt (show k.toNat < 32 by omega), Nat.shiftLeft_eq, Nat.mod_eq_of_lt hlt]
  rw [word, ofLittleEndian_cons, ofLittleEndian_cons, ofLittleEndian_cons, ofLittleEndian_cons,
    hnil, UInt32.toNat_or, UInt32.toNat_or, UInt32.toNat_or, hshift b₁ 8 (by decide),
    hshift b₂ 16 (by decide), hshift b₃ 24 (by decide), UInt8.toNat_toUInt32,
    show (8 : UInt32).toNat = 8 from rfl, show (16 : UInt32).toNat = 16 from rfl,
    show (24 : UInt32).toNat = 24 from rfl, hor 8 _ _ h₀, hor 16 _ _ (by omega),
    hor 24 _ _ (by omega), UInt32.toNat_ofNat_of_lt' (by change _ < 2 ^ 32; omega)]
  omega

theorem extractByte_eq {v : UInt64} (hi : i.toNat < 8) :
    extractByte v i = (littleEndian 8 v.toNat).getD i.toNat 0 := by
  have hshift : (i * 8).toUInt64.toNat = 8 * i.toNat := by
    rw [UInt32.toNat_toUInt64, UInt32.toNat_mul]
    change i.toNat * 8 % 2 ^ 32 = _
    omega
  refine UInt8.toNat_inj.mp ?_
  rw [getD_littleEndian hi, extractByte, UInt64.toNat_toUInt8, UInt64.toNat_and,
    UInt64.toNat_shiftRight, hshift, show (0xff : UInt64).toNat = 2 ^ 8 - 1 from rfl,
    Nat.and_two_pow_sub_one_eq_mod, Nat.mod_eq_of_lt (by omega : 8 * i.toNat < 64),
    Nat.shiftRight_eq_div_pow, Nat.pow_mul, UInt8.toNat_ofNat', Nat.mod_mod]

def padded (data : List UInt8) (n : UInt32) : List UInt8 :=
  pad 64 0x80 0 (littleEndian 8 (n * 8).toNat) (data.take n.toNat)

theorem length_padded (hdata : n.toNat ≤ data.length) (hn : n.toNat + 72 < 2 ^ 32) :
    (padded data n).length = (getPaddedMessageLength n).toNat := by
  have hlen : (data.take n.toNat).length = n.toNat := List.length_take_of_le hdata
  rw [padded, length_pad (by decide), hlen, length_littleEndian, getPaddedMessageLength,
    UInt32.toNat_mul, UInt32.toNat_div, UInt32.toNat_add, UInt32.toNat_add, UInt32.toNat_add]
  change (n.toNat + 1 + 8 + 63) / 64 * 64 =
    ((((n.toNat + 1) % 2 ^ 32 + 8) % 2 ^ 32 + 63) % 2 ^ 32 / 64 * 64) % 2 ^ 32
  omega

theorem getPaddedMessageByte_eq (hdata : n.toNat ≤ data.length) (hn : n.toNat + 72 < 2 ^ 32)
    (hi : i < getPaddedMessageLength n) :
    getPaddedMessageByte data n (getPaddedMessageLength n) i = (padded data n).getD i.toNat 0 := by
  have hlen := length_padded hdata hn
  have htake : (data.take n.toNat).length = n.toNat := List.length_take_of_le hdata
  have hm : 72 ≤ (getPaddedMessageLength n).toNat + 63 - n.toNat ∧
      n.toNat + 9 ≤ (getPaddedMessageLength n).toNat := by
    rw [← hlen, padded, length_pad (by decide), htake, length_littleEndian]
    omega
  have hsub : (getPaddedMessageLength n - 8).toNat = (getPaddedMessageLength n).toNat - 8 := by
    rw [UInt32.toNat_sub_of_le]
    · rfl
    · rw [UInt32.le_iff_toNat_le]
      change 8 ≤ _
      omega
  rw [UInt32.lt_iff_toNat_lt] at hi
  rw [padded] at hlen
  rw [padded, getD_pad, hlen, htake, length_littleEndian, getPaddedMessageByte]
  by_cases hmessage : i < n
  · rw [if_pos hmessage, if_pos (UInt32.lt_iff_toNat_lt.mp hmessage), List.getD_eq_getElem?_getD,
      List.getD_eq_getElem?_getD, List.getElem?_take_of_lt (UInt32.lt_iff_toNat_lt.mp hmessage)]
  rw [if_neg hmessage, if_neg fun h => hmessage (UInt32.lt_iff_toNat_lt.mpr h)]
  by_cases hmark : i = n
  · rw [if_pos hmark, if_pos (congrArg UInt32.toNat hmark)]
  rw [if_neg hmark, if_neg fun h => hmark (UInt32.toNat_inj.mp h)]
  by_cases hfield : getPaddedMessageLength n - 8 ≤ i
  · have hle := UInt32.le_iff_toNat_le.mp hfield
    rw [hsub] at hle
    rw [if_pos hfield, if_pos hle, extractByte_eq, UInt32.toNat_toUInt64,
      UInt32.toNat_sub_of_le _ _ hfield, hsub]
    rw [UInt32.toNat_sub_of_le _ _ hfield, hsub]
    omega
  · rw [if_neg hfield, if_neg fun h => hfield (UInt32.le_iff_toNat_le.mpr (hsub ▸ h))]

theorem take_drop_four {bs : List UInt8} {j : Nat} (h : j + 4 ≤ bs.length) :
    (bs.drop j).take 4 = [bs.getD j 0, bs.getD (j + 1) 0, bs.getD (j + 2) 0, bs.getD (j + 3) 0] := by
  rw [List.drop_eq_getElem_cons (by omega), List.drop_eq_getElem_cons (by omega),
    List.drop_eq_getElem_cons (by omega), List.drop_eq_getElem_cons (by omega),
    List.getD_eq_getElem _ _ (by omega), List.getD_eq_getElem _ _ (by omega),
    List.getD_eq_getElem _ _ (by omega), List.getD_eq_getElem _ _ (by omega)]
  rfl

theorem getPaddedMessageWord_eq (hdata : n.toNat ≤ data.length) (hn : n.toNat + 72 < 2 ^ 32)
    (hi : i.toNat + 4 ≤ (getPaddedMessageLength n).toNat) :
    getPaddedMessageWord data n (getPaddedMessageLength n) i =
      word (((padded data n).drop i.toNat).take 4) := by
  have hm := (getPaddedMessageLength n).toNat_lt
  have hadd : ∀ k : UInt32, k.toNat < 4 → (i + k).toNat = i.toNat + k.toNat := by
    intro k hk
    rw [UInt32.toNat_add, Nat.mod_eq_of_lt (by omega)]
  have hbyte : ∀ k : UInt32, k.toNat < 4 →
      getPaddedMessageByte data n (getPaddedMessageLength n) (i + k) =
        (padded data n).getD (i.toNat + k.toNat) 0 := by
    intro k hk
    rw [getPaddedMessageByte_eq hdata hn, hadd k hk]
    rw [UInt32.lt_iff_toNat_lt, hadd k hk]
    omega
  have hzero := hbyte 0 (by decide)
  rw [UInt32.add_zero] at hzero
  rw [getPaddedMessageWord, hzero, hbyte 1 (by decide), hbyte 2 (by decide), hbyte 3 (by decide),
    word_bytes, take_drop_four (by rwa [length_padded hdata hn])]
  rfl

theorem getRoundData_eq (hdata : n.toNat ≤ data.length) (hn : n.toNat + 72 < 2 ^ 32) {k : Nat}
    (hk : k < (getPaddedMessageLength n).toNat / 64) :
    getRoundData data n (getPaddedMessageLength n) (UInt32.ofNat (64 * k)) =
      words (block 64 (padded data n) k) := by
  have hm := (getPaddedMessageLength n).toNat_lt
  rw [getRoundData, words]
  refine List.map_congr_left fun t ht => ?_
  have ht := List.mem_range.mp ht
  have hoffset : (UInt32.ofNat (64 * k) + UInt32.ofNat (4 * t)).toNat = 64 * k + 4 * t := by
    rw [UInt32.toNat_add, UInt32.toNat_ofNat', UInt32.toNat_ofNat']
    omega
  rw [getPaddedMessageWord_eq hdata hn (by rw [hoffset]; omega), hoffset,
    take_drop_block (by omega)]

theorem processMessage_eq (hdata : n.toNat ≤ data.length) (hn : n.toNat + 72 < 2 ^ 32) :
    processMessage data n =
      fromRegister (registers (littleEndian 8 (n * 8).toNat) (data.take n.toNat)) 0 := by
  rw [processMessage, registers, hashBlocks, ← padded, length_padded hdata hn]
  refine foldl_range_simulates (R := fun _ s r => s = fromRegister r 0) ?_ rfl
  rintro k hk s r rfl
  dsimp only
  rw [getRoundData_eq hdata hn hk, steps_eq]

end Words

section Digest

theorem swapEndian_eq (a : UInt32) :
    swapEndian a = UInt32.ofNat (ofBigEndian (littleEndian 4 a.toNat)) := by
  have hand : ∀ x : UInt32, x &&& 0xff = (UInt8.ofNat x.toNat).toUInt32 := by
    intro x
    refine UInt32.toNat_inj.mp ?_
    rw [UInt32.toNat_and, show (0xff : UInt32).toNat = 2 ^ 8 - 1 from rfl,
      Nat.and_two_pow_sub_one_eq_mod, UInt8.toNat_toUInt32, UInt8.toNat_ofNat']
  have hshift : ∀ k : UInt32, k.toNat < 32 → (a >>> k).toNat = a.toNat / 2 ^ k.toNat := by
    intro k hk
    rw [UInt32.toNat_shiftRight, Nat.mod_eq_of_lt hk, Nat.shiftRight_eq_div_pow]
  have h8 : (a >>> 8).toNat = a.toNat / 256 := hshift 8 (by decide)
  have h16 : (a >>> 16).toNat = a.toNat / 256 / 256 :=
    (hshift 16 (by decide)).trans (Nat.div_div_eq_div_mul _ 256 256).symm
  have h24 : (a >>> 24).toNat = a.toNat / 256 / 256 / 256 := by
    rw [Nat.div_div_eq_div_mul, Nat.div_div_eq_div_mul]
    exact hshift 24 (by decide)
  have hbytes : littleEndian 4 a.toNat = [UInt8.ofNat a.toNat, UInt8.ofNat (a >>> 8).toNat,
      UInt8.ofNat (a >>> 16).toNat, UInt8.ofNat (a >>> 24).toNat] := by
    rw [h8, h16, h24, littleEndian_succ, littleEndian_succ, littleEndian_succ, littleEndian_succ,
      List.length_eq_zero_iff.mp (length_littleEndian 0 _)]
  have hreverse : ∀ b₀ b₁ b₂ b₃ : UInt8,
      UInt32.ofNat (ofBigEndian [b₀, b₁, b₂, b₃]) = word [b₃, b₂, b₁, b₀] := fun _ _ _ _ => rfl
  have hor : ∀ w x y z : UInt32, w ||| x ||| y ||| z = z ||| y ||| x ||| w := by
    intro w x y z
    ac_rfl
  rw [hbytes, hreverse, ← word_bytes, swapEndian, hand, hand, hand, hand]
  exact hor _ _ _ _

/-- What a C string holds: its characters up to the first `NUL`. -/
def characters (string : List UInt8) : List UInt8 := string.takeWhile fun b => b ≠ 0

/-- The id of a function is the first four bytes of the MD5 digest of its name. -/
theorem md5Hash32_eq {string : List UInt8} (h : (characters string).length < 2 ^ 29) :
    md5Hash32 string = UInt32.ofNat (ofBigEndian ((digest (characters string)).take 4)) := by
  have hlen : (stringLength string).toNat = (characters string).length :=
    UInt32.toNat_ofNat_of_lt' (h.trans (by decide))
  have hbits : (stringLength string * 8).toNat = 8 * (characters string).length := by
    rw [UInt32.toNat_mul, hlen]
    change _ * 8 % 2 ^ 32 = _
    omega
  have htake : string.take (stringLength string).toNat = characters string := by
    rw [hlen]
    exact (List.prefix_iff_eq_take.mp (List.takeWhile_prefix _)).symm
  have hdata : (stringLength string).toNat ≤ string.length := by
    rw [hlen]
    exact (List.takeWhile_prefix _).length_le
  rw [md5Hash32, hash32, processMessage_eq hdata (by omega), htake, hbits, fromRegister,
    swapEndian_eq, digest, List.flatMap_cons, List.take_left' (length_littleEndian _ _)]

theorem md5Hash32_abc : md5Hash32 [0x61, 0x62, 0x63, 0, 0x64] =
    UInt32.ofNat (ofBigEndian ((digest [0x61, 0x62, 0x63]).take 4)) := by
  have hname : characters [0x61, 0x62, 0x63, 0, 0x64] = [0x61, 0x62, 0x63] := by decide
  rw [← hname]
  exact md5Hash32_eq (by decide)

end Digest

end DistExp.Rpc.Md5Digest
