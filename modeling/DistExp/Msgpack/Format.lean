import DistExp.Library.Bytes

namespace DistExp.Msgpack.Format

open DistExp.Library.Bytes

/-- `msgpack::object`. The sign of an integer tells `POSITIVE_INTEGER` and `NEGATIVE_INTEGER`
apart, floats are kept by their bits, and the keys and values of a map alternate as they do in
memory. -/
inductive Obj where
  | nil
  | boolean (b : Bool)
  | integer (v : Int)
  | float32 (bits : UInt32)
  | float64 (bits : UInt64)
  | str (s : List UInt8)
  | bin (s : List UInt8)
  | ext (type : UInt8) (s : List UInt8)
  | array (items : List Obj)
  | map (items : List Obj)

/-- The headers of a size or of an unsigned value `n`: in the header byte itself below `limit`, or
in a number of bytes after a header byte. -/
def Tag (fix limit : Nat) (sized : List (UInt8 × Nat)) (n : Nat) (tag : List UInt8) : Prop :=
  (n < limit ∧ tag = [UInt8.ofNat (fix + n)]) ∨
    ∃ cw ∈ sized, n < 256 ^ cw.2 ∧ tag = cw.1 :: bigEndian cw.2 n

def uintCodes : List (UInt8 × Nat) := [(0xcc, 1), (0xcd, 2), (0xce, 4), (0xcf, 8)]

def intCodes : List (UInt8 × Nat) := [(0xd0, 1), (0xd1, 2), (0xd2, 4), (0xd3, 8)]

def strCodes : List (UInt8 × Nat) := [(0xd9, 1), (0xda, 2), (0xdb, 4)]

def binCodes : List (UInt8 × Nat) := [(0xc4, 1), (0xc5, 2), (0xc6, 4)]

def fixextCodes : List (UInt8 × Nat) := [(0xd4, 1), (0xd5, 2), (0xd6, 4), (0xd7, 8), (0xd8, 16)]

def extCodes : List (UInt8 × Nat) := [(0xc7, 1), (0xc8, 2), (0xc9, 4)]

def arrayCodes : List (UInt8 × Nat) := [(0xdc, 2), (0xdd, 4)]

def mapCodes : List (UInt8 × Nat) := [(0xde, 2), (0xdf, 4)]

abbrev UintTag := Tag 0 128 uintCodes
abbrev StrTag := Tag 0xa0 32 strCodes
abbrev BinTag := Tag 0 0 binCodes
abbrev ArrayTag := Tag 0x90 16 arrayCodes
abbrev MapTag := Tag 0x80 16 mapCodes

inductive Scalar : Obj → List UInt8 → Prop where
  | nil : Scalar .nil [0xc0]
  | false : Scalar (.boolean false) [0xc2]
  | true : Scalar (.boolean true) [0xc3]
  | uint {n : Nat} {tag : List UInt8} (h : UintTag n tag) : Scalar (.integer n) tag
  | negative {v : Int} (hlow : -32 ≤ v) (hneg : v < 0) :
      Scalar (.integer v) [UInt8.ofNat (256 + v).toNat]
  | int {v : Int} {cw : UInt8 × Nat} (hcw : cw ∈ intCodes) (hlow : -(2 ^ (8 * cw.2 - 1) : Nat) ≤ v)
      (hhigh : v < (2 ^ (8 * cw.2 - 1) : Nat)) :
      Scalar (.integer v) (cw.1 :: bigEndian cw.2 (v % (256 ^ cw.2 : Nat)).toNat)
  | float32 (bits : UInt32) : Scalar (.float32 bits) (0xca :: bigEndian 4 bits.toNat)
  | float64 (bits : UInt64) : Scalar (.float64 bits) (0xcb :: bigEndian 8 bits.toNat)
  | str {s tag : List UInt8} (h : StrTag s.length tag) : Scalar (.str s) (tag ++ s)
  | bin {s tag : List UInt8} (h : BinTag s.length tag) : Scalar (.bin s) (tag ++ s)
  | fixext {type : UInt8} {s : List UInt8} {cw : UInt8 × Nat} (hcw : cw ∈ fixextCodes)
      (h : s.length = cw.2) : Scalar (.ext type s) (cw.1 :: type :: s)
  | ext {type : UInt8} {s : List UInt8} {cw : UInt8 × Nat} (hcw : cw ∈ extCodes)
      (h : s.length < 256 ^ cw.2) :
      Scalar (.ext type s) (cw.1 :: bigEndian cw.2 s.length ++ type :: s)

/-- The encodings of a sequence of objects: the format of MessagePack. -/
inductive Encodes : List Obj → List UInt8 → Prop where
  | nil : Encodes [] []
  | scalar {o : Obj} {os : List Obj} {bs cs : List UInt8} (h : Scalar o bs) (hos : Encodes os cs) :
      Encodes (o :: os) (bs ++ cs)
  | array {items os : List Obj} {tag bs cs : List UInt8} (h : ArrayTag items.length tag)
      (hitems : Encodes items bs) (hos : Encodes os cs) :
      Encodes (.array items :: os) (tag ++ bs ++ cs)
  | map {items os : List Obj} {n : Nat} {tag bs cs : List UInt8} (hn : items.length = 2 * n)
      (h : MapTag n tag) (hitems : Encodes items bs) (hos : Encodes os cs) :
      Encodes (.map items :: os) (tag ++ bs ++ cs)

def Obj.FitsScalar : Obj → Prop
  | .nil | .boolean _ | .float32 _ | .float64 _ => True
  | .integer v => -2 ^ 63 ≤ v ∧ v < 2 ^ 64
  | .str s | .bin s | .ext _ s => s.length < 2 ^ 32
  | .array _ | .map _ => False

inductive Fits : List Obj → Prop where
  | nil : Fits []
  | scalar {o : Obj} {os : List Obj} (h : o.FitsScalar) (hos : Fits os) : Fits (o :: os)
  | array {items os : List Obj} (h : items.length < 2 ^ 32) (hitems : Fits items)
      (hos : Fits os) : Fits (.array items :: os)
  | map {items os : List Obj} {n : Nat} (hn : items.length = 2 * n) (h : n < 2 ^ 32)
      (hitems : Fits items) (hos : Fits os) : Fits (.map items :: os)

theorem encodes_singleton {o : Obj} {bs : List UInt8} (h : Scalar o bs) : Encodes [o] bs := by
  have hos := Encodes.scalar h Encodes.nil
  rwa [List.append_nil] at hos

theorem Encodes.append {os ps : List Obj} {bs cs : List UInt8} (hos : Encodes os bs)
    (hps : Encodes ps cs) : Encodes (os ++ ps) (bs ++ cs) := by
  induction hos with
  | nil => exact hps
  | scalar h _ ih =>
    rw [List.append_assoc]
    exact .scalar h ih
  | array h hitems _ _ ih =>
    rw [List.append_assoc]
    exact .array h hitems ih
  | map hn h hitems _ _ ih =>
    rw [List.append_assoc]
    exact .map hn h hitems ih

theorem Tag.ne_nil {fix limit n : Nat} {sized : List (UInt8 × Nat)} {tag : List UInt8}
    (h : Tag fix limit sized n tag) : tag ≠ [] := by
  obtain ⟨-, rfl⟩ | ⟨cw, -, -, rfl⟩ := h <;> exact List.cons_ne_nil _ _

theorem Tag.lt {fix limit n m : Nat} {sized : List (UInt8 × Nat)} {tag : List UInt8}
    (h : Tag fix limit sized n tag) (hlimit : limit ≤ 256 ^ m) (hsized : ∀ cw ∈ sized, cw.2 ≤ m) :
    n < 256 ^ m := by
  obtain ⟨hlt, -⟩ | ⟨cw, hcw, hlt, -⟩ := h
  · exact hlt.trans_le hlimit
  · exact hlt.trans_le (Nat.pow_le_pow_right (by decide) (hsized cw hcw))

end DistExp.Msgpack.Format
