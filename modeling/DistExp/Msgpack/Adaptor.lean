import DistExp.Msgpack.Sound

namespace DistExp.Msgpack.Adaptor

open DistExp.Library.Bytes DistExp.Msgpack.Format DistExp.Msgpack.Parse DistExp.Msgpack.Pack

/-- A type with its adaptors `pack`, which throws `container_size_overflow`, and `convert`, which
throws `type_error` and else overwrites a value that is there already, and without an adaptor `as`
(`has_as` is false). What is packed is converted back, over any value. -/
structure Packable where
  Val : Type
  init : Val
  pack : Val → Option (List UInt8)
  convert : Obj → Val → Option Val
  encodes {v : Val} {bs : List UInt8} (h : pack v = some bs) :
    ∃ o, Encodes [o] bs ∧ ∀ u, convert o u = some v

section Integers

def convertInteger (lo hi : Int) : Obj → Option Int
  | .integer v => if lo ≤ v ∧ v ≤ hi then some v else none
  | _ => none

theorem tag_mono {fix limit n : Nat} {few sized : List (UInt8 × Nat)} {tag : List UInt8}
    (hsub : few ⊆ sized) (h : Tag fix limit few n tag) : Tag fix limit sized n tag := by
  obtain h | ⟨cw, hcw, hlt, rfl⟩ := h
  · exact .inl h
  · exact .inr ⟨cw, hsub hcw, hlt, rfl⟩

theorem scalar_packUnsigned {sized : List (UInt8 × Nat)} {n : Nat} (hsub : sized ⊆ uintCodes)
    (hmono : sized.Pairwise fun a b => a.2 ≤ b.2) (h : ∃ cw ∈ sized, n < 256 ^ cw.2) :
    Scalar (.integer n) (packUnsigned sized n) :=
  .uint (tag_mono hsub (packSize_tag (fun n _ => by simp) h hmono))

theorem scalar_packSigned {negative sized : List (UInt8 × Nat)} {d : Int}
    (hnegative : negative ⊆ intCodes) (hsized : sized ⊆ uintCodes)
    (hmono : ∀ rows ∈ [negative, sized], rows.Pairwise fun a b => a.2 ≤ b.2)
    (hlow : ∃ cw ∈ negative, -(2 ^ (8 * cw.2 - 1) : Nat) ≤ d)
    (hhigh : 128 ≤ d → ∃ cw ∈ sized, d.toNat < 256 ^ cw.2) :
    Scalar (.integer d) (packSigned negative sized d) := by
  rw [packSigned]
  by_cases hneg : d < -32
  · obtain ⟨cw, hcw, hle, heq, -⟩ := firstRow_mem
      (p := fun w => -(2 ^ (8 * w - 1) : Nat) ≤ d)
      (f := fun cw => cw.1 :: bigEndian cw.2 (d % (256 ^ cw.2 : Nat)).toNat) hlow
      (hmono _ (by simp))
    rw [if_pos hneg, negativeBytes, heq]
    exact .int (hnegative hcw) hle (by omega)
  rw [if_neg hneg]
  by_cases hbig : d < 128
  · rw [if_pos hbig]
    by_cases hnonneg : 0 ≤ d
    · obtain ⟨n, rfl⟩ := Int.eq_ofNat_of_zero_le hnonneg
      have hmod : ((n : Int) % 256).toNat = 0 + n := by omega
      rw [hmod]
      exact .uint (.inl ⟨by omega, rfl⟩)
    · have hmod : d % 256 = 256 + d := by omega
      rw [hmod]
      exact .negative (not_lt.mp hneg) (not_le.mp hnonneg)
  · obtain ⟨n, rfl⟩ := Int.eq_ofNat_of_zero_le (show 0 ≤ d by omega)
    obtain ⟨cw, hcw, hlt, heq, -⟩ := firstRow_mem (p := fun w => n < 256 ^ w)
      (f := fun cw => cw.1 :: bigEndian cw.2 n) (hhigh (not_lt.mp hbig)) (hmono _ (by simp))
    rw [if_neg hbig, Int.toNat_natCast, sizedBytes, heq]
    exact .uint (.inr ⟨cw, hsized hcw, hlt, rfl⟩)

theorem toNat_lt {d : Int} {m n : Nat} (hm : 0 < m) (hmn : m ≤ n) (h : d < m) : d.toNat < n := by
  omega

/-- The adaptors of an integer type: its values by `toInt`, and `ofInt` for the cast. -/
def integer (α : Type) (lo hi : Int) (zero : α) (toInt : α → Int) (ofInt : Int → α)
    (packImp : α → List UInt8) (hscalar : ∀ v, Scalar (.integer (toInt v)) (packImp v))
    (hrange : ∀ v, lo ≤ toInt v ∧ toInt v ≤ hi) (hinv : ∀ v, ofInt (toInt v) = v) : Packable where
  Val := α
  init := zero
  pack v := some (packImp v)
  convert o _ := (convertInteger lo hi o).map ofInt
  encodes h := by
    obtain rfl := Option.some.inj h
    refine ⟨_, encodes_singleton (hscalar _), fun _ => ?_⟩
    rw [convertInteger, if_pos (hrange _), Option.map_some, hinv]

def int8 : Packable :=
  integer Int8 (-2 ^ 7) (2 ^ 7 - 1) 0 Int8.toInt Int8.ofInt packImpInt8
    (fun v => scalar_packSigned (by decide) (by decide) (by decide)
      ⟨(0xd0, 1), by decide, v.le_toInt⟩ fun h => absurd v.toInt_lt (by omega))
    (fun v => ⟨v.le_toInt, Int.le_sub_one_of_lt v.toInt_lt⟩) fun v => v.ofInt_toInt

def int16 : Packable :=
  integer Int16 (-2 ^ 15) (2 ^ 15 - 1) 0 Int16.toInt Int16.ofInt packImpInt16
    (fun v => scalar_packSigned (by decide) (by decide) (by decide)
      ⟨(0xd1, 2), by decide, v.le_toInt⟩
      fun _ => ⟨(0xcd, 2), by decide, toNat_lt (by decide) (by decide) v.toInt_lt⟩)
    (fun v => ⟨v.le_toInt, Int.le_sub_one_of_lt v.toInt_lt⟩) fun v => v.ofInt_toInt

def int32 : Packable :=
  integer Int32 (-2 ^ 31) (2 ^ 31 - 1) 0 Int32.toInt Int32.ofInt packImpInt32
    (fun v => scalar_packSigned (by decide) (by decide) (by decide)
      ⟨(0xd2, 4), by decide, v.le_toInt⟩
      fun _ => ⟨(0xce, 4), by decide, toNat_lt (by decide) (by decide) v.toInt_lt⟩)
    (fun v => ⟨v.le_toInt, Int.le_sub_one_of_lt v.toInt_lt⟩) fun v => v.ofInt_toInt

def int64 : Packable :=
  integer Int64 (-2 ^ 63) (2 ^ 63 - 1) 0 Int64.toInt Int64.ofInt packImpInt64
    (fun v => scalar_packSigned (by decide) (by decide) (by decide)
      ⟨(0xd3, 8), by decide, v.le_toInt⟩
      fun _ => ⟨(0xcf, 8), by decide, toNat_lt (by decide) (by decide) v.toInt_lt⟩)
    (fun v => ⟨v.le_toInt, Int.le_sub_one_of_lt v.toInt_lt⟩) fun v => v.ofInt_toInt

def uint8 : Packable :=
  integer UInt8 0 (2 ^ 8 - 1) 0 (fun v => v.toNat) (fun v => UInt8.ofNat v.toNat) packImpUint8
    (fun v => scalar_packUnsigned (by decide) (by decide) ⟨(0xcc, 1), by decide, v.toNat_lt⟩)
    (fun v => ⟨by omega, by have := v.toNat_lt; omega⟩) fun v => by simp

def uint16 : Packable :=
  integer UInt16 0 (2 ^ 16 - 1) 0 (fun v => v.toNat) (fun v => UInt16.ofNat v.toNat) packImpUint16
    (fun v => scalar_packUnsigned (by decide) (by decide) ⟨(0xcd, 2), by decide, v.toNat_lt⟩)
    (fun v => ⟨by omega, by have := v.toNat_lt; omega⟩) fun v => by simp

def uint32 : Packable :=
  integer UInt32 0 (2 ^ 32 - 1) 0 (fun v => v.toNat) (fun v => UInt32.ofNat v.toNat) packImpUint32
    (fun v => scalar_packUnsigned (by decide) (by decide) ⟨(0xce, 4), by decide, v.toNat_lt⟩)
    (fun v => ⟨by omega, by have := v.toNat_lt; omega⟩) fun v => by simp

def uint64 : Packable :=
  integer UInt64 0 (2 ^ 64 - 1) 0 (fun v => v.toNat) (fun v => UInt64.ofNat v.toNat) packImpUint64
    (fun v => scalar_packUnsigned (by decide) (by decide) ⟨(0xcf, 8), by decide, v.toNat_lt⟩)
    (fun v => ⟨by omega, by have := v.toNat_lt; omega⟩) fun v => by simp

end Integers

def bool : Packable where
  Val := Bool
  init := false
  pack v := some (if v then [0xc3] else [0xc2])
  convert
    | .boolean b, _ => some b
    | _, _ => none
  encodes {v _} h := by
    obtain rfl := Option.some.inj h
    cases v with
    | false => exact ⟨_, encodes_singleton .false, fun _ => rfl⟩
    | true => exact ⟨_, encodes_singleton .true, fun _ => rfl⟩

/-- `std::string`, packed as `STR` and converted from `STR` and `BIN`. -/
def string : Packable where
  Val := List UInt8
  init := []
  pack v := if v.length < 2 ^ 32 then some (packStr v.length ++ v) else none
  convert
    | .bin s, _ => some s
    | .str s, _ => some s
    | _, _ => none
  encodes {v _} h := by
    split at h
    · obtain rfl := Option.some.inj h
      exact ⟨.str v, encodes_singleton (.str (strTag_packStr (by assumption))), fun _ => rfl⟩
    · cases h

section Tuple

def Tuple : List Packable → Type
  | [] => Unit
  | p :: ps => p.Val × Tuple ps

def Tuple.init : (ps : List Packable) → Tuple ps
  | [] => ()
  | p :: ps => (p.init, Tuple.init ps)

def Tuple.append : {ps qs : List Packable} → Tuple ps → Tuple qs → Tuple (ps ++ qs)
  | [], _, _, w => w
  | _ :: _, _, (v, vs), w => (v, append vs w)

/-- `StdTuplePacker`. -/
def packElems : (ps : List Packable) → Tuple ps → Option (List UInt8)
  | [], _ => some []
  | p :: ps, (v, vs) => do
    let bs ← p.pack v
    let cs ← packElems ps vs
    return bs ++ cs

/-- `StdTupleConverter`: an element that the array has no item for keeps its value, and an item
past the last element is not looked at. Where an element type had an adaptor `as`, the tuple would
have one too, and `StdTupleAs` would take the last items of the array instead. -/
def convertElems : (ps : List Packable) → List Obj → Tuple ps → Option (Tuple ps)
  | [], _, u => some u
  | _ :: _, [], u => some u
  | p :: ps, o :: os, (u, us) => do
    let v ← p.convert o u
    let vs ← convertElems ps os us
    return (v, vs)

variable {p : Packable} {ps qs : List Packable} {bs : List UInt8}

theorem packElems_cons {v : p.Val} {vs : Tuple ps} (h : packElems (p :: ps) (v, vs) = some bs) :
    ∃ cs ds, p.pack v = some cs ∧ packElems ps vs = some ds ∧ bs = cs ++ ds := by
  simp only [packElems, Option.bind_eq_bind, Option.bind_eq_some_iff, Option.pure_def,
    Option.some.injEq] at h
  obtain ⟨cs, hcs, ds, hds, rfl⟩ := h
  exact ⟨cs, ds, hcs, hds, rfl⟩

theorem packElems_of_cons {v : p.Val} {vs : Tuple ps} {cs ds : List UInt8} (hv : p.pack v = some cs)
    (hvs : packElems ps vs = some ds) : packElems (p :: ps) (v, vs) = some (cs ++ ds) := by
  simp [packElems, hv, hvs]

theorem packElems_append {v : Tuple ps} {w : Tuple qs}
    (h : packElems (ps ++ qs) (v.append w) = some bs) :
    ∃ cs ds, packElems ps v = some cs ∧ packElems qs w = some ds ∧ bs = cs ++ ds := by
  induction ps generalizing bs with
  | nil => exact ⟨[], bs, rfl, h, rfl⟩
  | cons p ps ih =>
    obtain ⟨v, vs⟩ := v
    obtain ⟨cs, ds, hcs, hds, rfl⟩ := packElems_cons h
    obtain ⟨ds, es, hvs, hes, rfl⟩ := ih hds
    exact ⟨cs ++ ds, es, packElems_of_cons hcs hvs, hes, by rw [List.append_assoc]⟩

theorem encodes_packElems {v : Tuple ps} (h : packElems ps v = some bs) :
    ∃ os, os.length = ps.length ∧ Encodes os bs ∧
      (∀ u more, convertElems ps (os ++ more) u = some v) ∧
      ∀ (qs : List Packable) (u : Tuple ps) (w : Tuple qs),
        convertElems (ps ++ qs) os (u.append w) = some (v.append w) := by
  induction ps generalizing bs with
  | nil =>
    obtain rfl := Option.some.inj h
    refine ⟨[], rfl, .nil, fun _ _ => rfl, fun qs _ w => ?_⟩
    cases qs <;> rfl
  | cons p ps ih =>
    obtain ⟨v, vs⟩ := v
    obtain ⟨cs, ds, hcs, hds, rfl⟩ := packElems_cons h
    obtain ⟨o, ho, hconvert⟩ := p.encodes hcs
    obtain ⟨os, hlen, hos, hmore, hless⟩ := ih hds
    refine ⟨o :: os, by rw [List.length_cons, hlen, List.length_cons], ho.append hos, ?_, ?_⟩
    · intro u more
      obtain ⟨u, us⟩ := u
      simp only [List.cons_append, convertElems, hconvert, hmore]
      rfl
    · intro qs u w
      obtain ⟨u, us⟩ := u
      simp only [List.cons_append, Tuple.append, convertElems, hconvert, hless]
      rfl

def packTuple (ps : List Packable) (v : Tuple ps) : Option (List UInt8) :=
  if ps.length < 2 ^ 32 then (packElems ps v).map (packArray ps.length ++ ·) else none

def convertTuple (ps : List Packable) : Obj → Tuple ps → Option (Tuple ps)
  | .array os, u => convertElems ps os u
  | _, _ => none

theorem packTuple_some {v : Tuple ps} (h : packTuple ps v = some bs) :
    ps.length < 2 ^ 32 ∧ ∃ cs, packElems ps v = some cs ∧ bs = packArray ps.length ++ cs := by
  rw [packTuple] at h
  split at h
  case isTrue hlen =>
    obtain ⟨cs, hcs, rfl⟩ := Option.map_eq_some_iff.mp h
    exact ⟨hlen, cs, hcs, rfl⟩
  case isFalse => cases h

theorem encodes_array {os : List Obj} {n : Nat} (hn : n < 2 ^ 32) (hlen : os.length = n)
    (hos : Encodes os bs) : Encodes [.array os] (packArray n ++ bs) := by
  have h := Encodes.array (hlen ▸ arrayTag_packArray hn) hos .nil
  rwa [List.append_nil, hlen] at h

def tuple (ps : List Packable) : Packable where
  Val := Tuple ps
  init := Tuple.init ps
  pack := packTuple ps
  convert := convertTuple ps
  encodes h := by
    obtain ⟨hps, cs, hcs, rfl⟩ := packTuple_some h
    obtain ⟨os, hlen, hos, hmore, -⟩ := encodes_packElems hcs
    refine ⟨.array os, encodes_array hps hlen hos, fun u => ?_⟩
    rw [convertTuple, ← hmore u [], List.append_nil]

end Tuple

end DistExp.Msgpack.Adaptor
