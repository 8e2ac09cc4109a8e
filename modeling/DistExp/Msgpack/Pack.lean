import DistExp.Msgpack.Format

namespace DistExp.Msgpack.Pack

open DistExp.Library.Bytes DistExp.Msgpack.Format

/-- A chain of branches over the header bytes of one kind: the first that the value fits is taken,
and the last one without a comparison. -/
def firstRow (p : Nat → Prop) [DecidablePred p] (bytes : UInt8 × Nat → List UInt8) :
    List (UInt8 × Nat) → List UInt8
  | [] => []
  | [cw] => bytes cw
  | cw :: dw :: rows => if p cw.2 then bytes cw else firstRow p bytes (dw :: rows)

def sizedBytes (sized : List (UInt8 × Nat)) (n : Nat) : List UInt8 :=
  firstRow (fun w => n < 256 ^ w) (fun cw => cw.1 :: bigEndian cw.2 n) sized

/-- The shape of `pack_array`, `pack_map`, `pack_str` and `pack_bin`. -/
def packSize (fix limit : Nat) (sized : List (UInt8 × Nat)) (n : Nat) : List UInt8 :=
  if n < limit then [UInt8.ofNat (fix ||| n)] else sizedBytes sized n

def packArray (n : Nat) : List UInt8 := packSize 0x90 16 [(0xdc, 2), (0xdd, 4)] n

def packMap (n : Nat) : List UInt8 := packSize 0x80 16 [(0xde, 2), (0xdf, 4)] n

def packStr (l : Nat) : List UInt8 := packSize 0xa0 32 [(0xd9, 1), (0xda, 2), (0xdb, 4)] l

def packBin (l : Nat) : List UInt8 := packSize 0 0 [(0xc4, 1), (0xc5, 2), (0xc6, 4)] l

def packExt (l : Nat) (type : UInt8) : List UInt8 :=
  match l with
  | 1 => [0xd4, type]
  | 2 => [0xd5, type]
  | 4 => [0xd6, type]
  | 8 => [0xd7, type]
  | 16 => [0xd8, type]
  | l => sizedBytes [(0xc7, 1), (0xc8, 2), (0xc9, 4)] l ++ [type]

/-- The shape of `pack_imp_uint8` and its wider versions. -/
def packUnsigned (sized : List (UInt8 × Nat)) (d : Nat) : List UInt8 := packSize 0 128 sized d

def packImpUint8 (d : UInt8) : List UInt8 := packUnsigned [(0xcc, 1)] d.toNat

def packImpUint16 (d : UInt16) : List UInt8 := packUnsigned [(0xcc, 1), (0xcd, 2)] d.toNat

def packImpUint32 (d : UInt32) : List UInt8 :=
  packUnsigned [(0xcc, 1), (0xcd, 2), (0xce, 4)] d.toNat

def packImpUint64 (d : UInt64) : List UInt8 :=
  packUnsigned [(0xcc, 1), (0xcd, 2), (0xce, 4), (0xcf, 8)] d.toNat

def negativeBytes (negative : List (UInt8 × Nat)) (d : Int) : List UInt8 :=
  firstRow (fun w => -(2 ^ (8 * w - 1) : Nat) ≤ d)
    (fun cw => cw.1 :: bigEndian cw.2 (d % (256 ^ cw.2 : Nat)).toNat) negative

/-- The shape of `pack_imp_int8` and its wider versions. -/
def packSigned (negative sized : List (UInt8 × Nat)) (d : Int) : List UInt8 :=
  if d < -32 then negativeBytes negative d
  else if d < 128 then [UInt8.ofNat (d % 256).toNat]
  else sizedBytes sized d.toNat

def packImpInt8 (d : Int8) : List UInt8 := packSigned [(0xd0, 1)] [] d.toInt

def packImpInt16 (d : Int16) : List UInt8 :=
  packSigned [(0xd0, 1), (0xd1, 2)] [(0xcc, 1), (0xcd, 2)] d.toInt

def packImpInt32 (d : Int32) : List UInt8 :=
  packSigned [(0xd0, 1), (0xd1, 2), (0xd2, 4)] [(0xcc, 1), (0xcd, 2), (0xce, 4)] d.toInt

def packImpInt64 (d : Int64) : List UInt8 :=
  packSigned [(0xd0, 1), (0xd1, 2), (0xd2, 4), (0xd3, 8)]
    [(0xcc, 1), (0xcd, 2), (0xce, 4), (0xcf, 8)] d.toInt

mutual

def pack : Obj → List UInt8
  | .nil => [0xc0]
  | .boolean b => if b then [0xc3] else [0xc2]
  | .integer v =>
    if 0 ≤ v then packImpUint64 (UInt64.ofNat v.toNat) else packImpInt64 (Int64.ofInt v)
  | .float32 bits => 0xca :: bigEndian 4 bits.toNat
  | .float64 bits => 0xcb :: bigEndian 8 bits.toNat
  | .str s => packStr s.length ++ s
  | .bin s => packBin s.length ++ s
  | .ext type s => packExt s.length type ++ s
  | .array items => packArray items.length ++ packAll items
  | .map items => packMap (items.length / 2) ++ packAll items

def packAll : List Obj → List UInt8
  | [] => []
  | o :: os => pack o ++ packAll os

end

theorem firstRow_mem {p : Nat → Prop} [DecidablePred p] {f : UInt8 × Nat → List UInt8}
    {rows : List (UInt8 × Nat)} (h : ∃ cw ∈ rows, p cw.2)
    (hmono : rows.Pairwise fun a b => a.2 ≤ b.2) :
    ∃ cw ∈ rows, p cw.2 ∧ firstRow p f rows = f cw ∧
      ∀ dw ∈ rows, p dw.2 → cw.2 ≤ dw.2 := by
  induction rows with
  | nil => simp at h
  | cons cw rows ih =>
    obtain ⟨hcw, hrows⟩ := List.pairwise_cons.mp hmono
    have hfirst : ∀ dw ∈ cw :: rows, p dw.2 → cw.2 ≤ dw.2 := fun dw hdw _ => by
      obtain rfl | hdw := List.mem_cons.mp hdw
      · exact le_refl _
      · exact hcw dw hdw
    cases rows with
    | nil =>
      obtain ⟨dw, hdw, hp⟩ := h
      obtain rfl := List.mem_singleton.mp hdw
      exact ⟨dw, hdw, hp, rfl, hfirst⟩
    | cons cw' rows =>
      rw [firstRow]
      by_cases hp : p cw.2
      · exact ⟨cw, List.mem_cons_self, hp, by rw [if_pos hp], hfirst⟩
      · have hex : ∃ dw ∈ cw' :: rows, p dw.2 := by
          obtain ⟨dw, hdw, hdp⟩ := h
          obtain rfl | hdw := List.mem_cons.mp hdw
          · exact absurd hdp hp
          · exact ⟨dw, hdw, hdp⟩
        obtain ⟨dw, hdw, hdp, heq, hmin⟩ := ih hex hrows
        refine ⟨dw, List.mem_cons_of_mem _ hdw, hdp, by rw [if_neg hp, heq], fun ew hew hep => ?_⟩
        obtain rfl | hew := List.mem_cons.mp hew
        · exact absurd hep hp
        · exact hmin ew hew hep

section Size

variable {fix limit n : Nat} {sized : List (UInt8 × Nat)} {tag : List UInt8}

theorem packSize_tag (hfix : ∀ n < limit, fix ||| n = fix + n) (h : ∃ cw ∈ sized, n < 256 ^ cw.2)
    (hmono : sized.Pairwise fun a b => a.2 ≤ b.2) :
    Tag fix limit sized n (packSize fix limit sized n) := by
  rw [packSize]
  by_cases hn : n < limit
  · rw [if_pos hn, hfix n hn]
    exact .inl ⟨hn, rfl⟩
  · obtain ⟨cw, hcw, hlt, heq, -⟩ := firstRow_mem (p := fun w => n < 256 ^ w) h hmono
    rw [if_neg hn]
    exact .inr ⟨cw, hcw, hlt, heq⟩

theorem length_packSize_le (hmono : sized.Pairwise fun a b => a.2 ≤ b.2)
    (h : Tag fix limit sized n tag) : (packSize fix limit sized n).length ≤ tag.length := by
  rw [packSize]
  by_cases hn : n < limit
  · rw [if_pos hn]
    exact Nat.one_le_iff_ne_zero.mpr (by simpa using h.ne_nil)
  · obtain ⟨hlt, -⟩ | ⟨dw, hdw, hdn, rfl⟩ := h
    · exact absurd hlt hn
    · obtain ⟨cw, hcw, hlt, heq, hmin⟩ :=
        firstRow_mem (p := fun w => n < 256 ^ w) ⟨dw, hdw, hdn⟩ hmono
      rw [if_neg hn, sizedBytes, heq]
      simpa using hmin dw hdw hdn

end Size

theorem uintTag_packImpUint64 (d : UInt64) : UintTag d.toNat (packImpUint64 d) :=
  packSize_tag (fun n _ => by simp) ⟨(0xcf, 8), by decide, d.toNat_lt⟩ (by decide)

theorem strTag_packStr {l : Nat} (h : l < 2 ^ 32) : StrTag l (packStr l) :=
  packSize_tag (by decide) ⟨(0xdb, 4), by decide, h⟩ (by decide)

theorem binTag_packBin {l : Nat} (h : l < 2 ^ 32) : BinTag l (packBin l) :=
  packSize_tag (by decide) ⟨(0xc6, 4), by decide, h⟩ (by decide)

theorem arrayTag_packArray {n : Nat} (h : n < 2 ^ 32) : ArrayTag n (packArray n) :=
  packSize_tag (by decide) ⟨(0xdd, 4), by decide, h⟩ (by decide)

theorem mapTag_packMap {n : Nat} (h : n < 2 ^ 32) : MapTag n (packMap n) :=
  packSize_tag (by decide) ⟨(0xdf, 4), by decide, h⟩ (by decide)

section Signed

variable {v : Int}

theorem toInt_ofInt (hlow : -2 ^ 63 ≤ v) (hneg : v < 0) : (Int64.ofInt v).toInt = v :=
  Int64.toInt_ofInt_of_le hlow (by omega)

theorem negative_row (hlow : -2 ^ 63 ≤ v) :
    ∃ cw ∈ intCodes, -(2 ^ (8 * cw.2 - 1) : Nat) ≤ v ∧
      negativeBytes intCodes v = cw.1 :: bigEndian cw.2 (v % (256 ^ cw.2 : Nat)).toNat ∧
      ∀ dw ∈ intCodes, -(2 ^ (8 * dw.2 - 1) : Nat) ≤ v → cw.2 ≤ dw.2 :=
  firstRow_mem (p := fun w => -(2 ^ (8 * w - 1) : Nat) ≤ v) ⟨(0xd3, 8), by simp [intCodes], hlow⟩
    (by decide)

theorem packImpInt64_negative (hlow : -2 ^ 63 ≤ v) (hneg : v < 0) :
    packImpInt64 (Int64.ofInt v) =
      if v < -32 then negativeBytes intCodes v else [UInt8.ofNat (256 + v).toNat] := by
  rw [packImpInt64, packSigned, toInt_ofInt hlow hneg]
  by_cases h : v < -32
  · rw [if_pos h, if_pos h]
    rfl
  · have hmod : v % 256 = 256 + v := by omega
    rw [if_neg h, if_neg h, if_pos (by omega), hmod]

end Signed

theorem packExt_scalar {type : UInt8} {s : List UInt8} (h : s.length < 2 ^ 32) :
    Scalar (.ext type s) (packExt s.length type ++ s) := by
  have hsized : ∃ cw ∈ extCodes, s.length < 256 ^ cw.2 := ⟨(0xc9, 4), by simp [extCodes], h⟩
  unfold packExt
  split
  case h_6 =>
    obtain ⟨cw, hcw, hlt, heq, -⟩ :=
      firstRow_mem (p := fun w => s.length < 256 ^ w)
        (f := fun cw => cw.1 :: bigEndian cw.2 s.length) hsized (by decide)
    have hs : sizedBytes extCodes s.length = _ := heq
    rw [extCodes] at hs
    rw [hs, List.append_assoc]
    exact .ext hcw hlt
  all_goals
    rename_i hl
    exact @Scalar.fixext _ _ (_, _) (by simp [fixextCodes]) hl

theorem scalar_pack {o : Obj} (h : o.FitsScalar) : Scalar o (pack o) := by
  cases o with
  | nil => exact .nil
  | boolean b =>
    cases b with
    | false => exact .false
    | true => exact .true
  | integer v =>
    obtain ⟨hlow, hhigh⟩ := h
    rw [pack]
    by_cases hv : 0 ≤ v
    · have htag := uintTag_packImpUint64 (UInt64.ofNat v.toNat)
      rw [UInt64.toNat_ofNat_of_lt' (show v.toNat < 2 ^ 64 by omega)] at htag
      have hscalar := Scalar.uint htag
      rw [Int.toNat_of_nonneg hv] at hscalar
      rwa [if_pos hv]
    · have hneg : v < 0 := not_le.mp hv
      rw [if_neg hv, packImpInt64_negative hlow hneg]
      by_cases hfix : v < -32
      · obtain ⟨cw, hcw, hle, heq, -⟩ := negative_row hlow
        rw [if_pos hfix, heq]
        exact .int hcw hle (hneg.trans (by positivity))
      · rw [if_neg hfix]
        exact .negative (not_lt.mp hfix) hneg
  | float32 bits => exact .float32 bits
  | float64 bits => exact .float64 bits
  | str s => exact .str (strTag_packStr h)
  | bin s => exact .bin (binTag_packBin h)
  | ext type s => exact packExt_scalar h
  | array items => exact absurd h not_false
  | map items => exact absurd h not_false

theorem encodes_packAll {os : List Obj} (h : Fits os) : Encodes os (packAll os) := by
  induction h with
  | nil => exact .nil
  | scalar h _ ih => exact .scalar (scalar_pack h) ih
  | array h _ _ ihitems ih =>
    rw [packAll, pack]
    exact .array (arrayTag_packArray h) ihitems ih
  | map hn h _ _ ihitems ih =>
    rw [packAll, pack, hn, Nat.mul_div_cancel_left _ (by decide)]
    exact .map hn (mapTag_packMap h) ihitems ih

theorem packAll_singleton (o : Obj) : packAll [o] = pack o := by
  rw [packAll, packAll, List.append_nil]

theorem fitsScalar_of_scalar {o : Obj} {bs : List UInt8} (h : Scalar o bs) : o.FitsScalar := by
  cases h with
  | nil | false | true | float32 | float64 => trivial
  | uint h =>
    have hlt := h.lt (m := 8) (by decide) (by decide)
    exact ⟨by omega, by omega⟩
  | negative hlow hneg => exact ⟨by omega, by omega⟩
  | @int _ cw hcw hlow hhigh =>
    have hw : ∀ cw ∈ intCodes, 8 * cw.2 - 1 ≤ 63 := by decide
    have hle : 2 ^ (8 * cw.2 - 1) ≤ 2 ^ 63 := Nat.pow_le_pow_right (by decide) (hw cw hcw)
    exact ⟨by omega, by omega⟩
  | str h => exact h.lt (m := 4) (by decide) (by decide)
  | bin h => exact h.lt (m := 4) (by decide) (by decide)
  | @fixext _ s cw hcw h =>
    have hw : ∀ cw ∈ fixextCodes, cw.2 < 2 ^ 32 := by decide
    exact h.trans_lt (hw cw hcw)
  | @ext _ s cw hcw h =>
    have hw : ∀ cw ∈ extCodes, 256 ^ cw.2 ≤ 2 ^ 32 := by decide
    exact h.trans_le (hw cw hcw)

theorem fits_of_encodes {os : List Obj} {bs : List UInt8} (h : Encodes os bs) : Fits os := by
  induction h with
  | nil => exact .nil
  | scalar h _ ih => exact .scalar (fitsScalar_of_scalar h) ih
  | array h _ _ ihitems ih => exact .array (h.lt (m := 4) (by decide) (by decide)) ihitems ih
  | map hn h _ _ ihitems ih => exact .map hn (h.lt (m := 4) (by decide) (by decide)) ihitems ih

theorem length_packImpInt64_le {v : Int} {cw : UInt8 × Nat} (hcw : cw ∈ intCodes)
    (hlow : -(2 ^ (8 * cw.2 - 1) : Nat) ≤ v) (hbig : -2 ^ 63 ≤ v) (hneg : v < 0) :
    (packImpInt64 (Int64.ofInt v)).length ≤ cw.2 + 1 := by
  rw [packImpInt64_negative hbig hneg]
  by_cases hfix : v < -32
  · obtain ⟨dw, -, -, heq, hmin⟩ := negative_row hbig
    rw [if_pos hfix, heq]
    simpa using hmin cw hcw hlow
  · rw [if_neg hfix]
    simp

theorem length_packExt_le {l : Nat} (type : UInt8) {cw : UInt8 × Nat} (hcw : cw ∈ extCodes)
    (h : l < 256 ^ cw.2) : (packExt l type).length ≤ cw.2 + 2 := by
  unfold packExt
  split
  case h_6 =>
    obtain ⟨dw, -, -, heq, hmin⟩ := firstRow_mem (p := fun w => l < 256 ^ w)
      (f := fun cw => cw.1 :: bigEndian cw.2 l) ⟨cw, hcw, h⟩ (by decide)
    have hl : sizedBytes extCodes l = _ := heq
    rw [extCodes] at hl
    rw [hl, List.length_append, List.length_cons, length_bigEndian, List.length_singleton]
    have := hmin cw hcw h
    omega
  all_goals exact Nat.le_add_left 2 _

theorem length_pack_le {o : Obj} {bs : List UInt8} (h : Scalar o bs) :
    (pack o).length ≤ bs.length := by
  have hfits := fitsScalar_of_scalar h
  cases h with
  | nil | false | true | float32 | float64 => exact le_refl _
  | @uint n _ h =>
    have hlt : n < 2 ^ 64 := h.lt (m := 8) (by decide) (by decide)
    rw [pack, if_pos (Int.natCast_nonneg n), Int.toNat_natCast, packImpUint64,
      UInt64.toNat_ofNat_of_lt' hlt]
    exact length_packSize_le (by decide) h
  | negative hlow hneg =>
    rw [pack, if_neg (not_le.mpr hneg), packImpInt64_negative hfits.1 hneg,
      if_neg (not_lt.mpr hlow)]
  | @int v cw hcw hlow hhigh =>
    rw [List.length_cons, length_bigEndian, pack]
    by_cases hv : 0 ≤ v
    · have hpow : ∀ cw ∈ intCodes, 2 ^ (8 * cw.2 - 1) ≤ 256 ^ cw.2 := by decide
      have hrow : ∀ cw ∈ intCodes, ∃ dw ∈ uintCodes, dw.2 = cw.2 := by decide
      obtain ⟨dw, hdw, hwidth⟩ := hrow cw hcw
      have hlt : v.toNat < 256 ^ dw.2 := by
        have := hpow cw hcw
        rw [hwidth]
        omega
      have htag : UintTag v.toNat (dw.1 :: bigEndian dw.2 v.toNat) := .inr ⟨dw, hdw, hlt, rfl⟩
      have hlen := length_packSize_le (by decide) htag
      rw [List.length_cons, length_bigEndian, hwidth] at hlen
      rw [if_pos hv, packImpUint64,
        UInt64.toNat_ofNat_of_lt' (show v.toNat < 2 ^ 64 by have := hfits.2; omega)]
      exact hlen
    · rw [if_neg hv]
      exact length_packImpInt64_le hcw hlow hfits.1 (not_le.mp hv)
  | str h =>
    rw [pack, List.length_append, List.length_append]
    exact Nat.add_le_add_right (length_packSize_le (by decide) h) _
  | bin h =>
    rw [pack, List.length_append, List.length_append]
    exact Nat.add_le_add_right (length_packSize_le (by decide) h) _
  | @fixext type s cw hcw h =>
    have hlen : (packExt s.length type).length = 2 := by
      rw [h]
      simp only [fixextCodes, List.mem_cons, List.not_mem_nil, or_false] at hcw
      obtain rfl | rfl | rfl | rfl | rfl := hcw <;> rfl
    rw [pack, List.length_append, hlen, List.length_cons, List.length_cons]
    omega
  | @ext type s cw hcw h =>
    have hle := length_packExt_le type hcw h
    rw [pack, List.length_append, List.length_append, List.length_cons, List.length_cons,
      length_bigEndian]
    omega

theorem length_packAll_le {os : List Obj} {bs : List UInt8} (h : Encodes os bs) :
    (packAll os).length ≤ bs.length := by
  induction h with
  | nil => exact le_refl _
  | scalar h _ ih =>
    rw [packAll, List.length_append, List.length_append]
    exact Nat.add_le_add (length_pack_le h) ih
  | array h _ _ ihitems ih =>
    rw [packAll, pack, List.length_append, List.length_append, List.length_append,
      List.length_append]
    exact Nat.add_le_add (Nat.add_le_add (length_packSize_le (by decide) h) ihitems) ih
  | map hn h _ _ ihitems ih =>
    rw [packAll, pack, hn, Nat.mul_div_cancel_left _ (by decide), List.length_append,
      List.length_append, List.length_append, List.length_append]
    exact Nat.add_le_add (Nat.add_le_add (length_packSize_le (by decide) h) ihitems) ih

end DistExp.Msgpack.Pack
