import Mathlib

namespace DistExp.Rpc.Md5

structure IntermediateData where
  a : UInt32
  b : UInt32
  c : UInt32
  d : UInt32
  deriving DecidableEq

def kConstants : List UInt32 :=
  [0xd76aa478, 0xe8c7b756, 0x242070db, 0xc1bdceee, 0xf57c0faf, 0x4787c62a,
    0xa8304613, 0xfd469501, 0x698098d8, 0x8b44f7af, 0xffff5bb1, 0x895cd7be,
    0x6b901122, 0xfd987193, 0xa679438e, 0x49b40821, 0xf61e2562, 0xc040b340,
    0x265e5a51, 0xe9b6c7aa, 0xd62f105d, 0x02441453, 0xd8a1e681, 0xe7d3fbc8,
    0x21e1cde6, 0xc33707d6, 0xf4d50d87, 0x455a14ed, 0xa9e3e905, 0xfcefa3f8,
    0x676f02d9, 0x8d2a4c8a, 0xfffa3942, 0x8771f681, 0x6d9d6122, 0xfde5380c,
    0xa4beea44, 0x4bdecfa9, 0xf6bb4b60, 0xbebfbc70, 0x289b7ec6, 0xeaa127fa,
    0xd4ef3085, 0x04881d05, 0xd9d4d039, 0xe6db99e5, 0x1fa27cf8, 0xc4ac5665,
    0xf4292244, 0x432aff97, 0xab9423a7, 0xfc93a039, 0x655b59c3, 0x8f0ccc92,
    0xffeff47d, 0x85845dd1, 0x6fa87e4f, 0xfe2ce6e0, 0xa3014314, 0x4e0811a1,
    0xf7537e82, 0xbd3af235, 0x2ad7d2bb, 0xeb86d391]

def kShifts : List UInt32 := [7, 12, 17, 22, 5, 9, 14, 20, 4, 11, 16, 23, 6, 10, 15, 21]

def kInitialIntermediateData : IntermediateData :=
  ⟨0x67452301, 0xefcdab89, 0x98badcfe, 0x10325476⟩

section Padding

def getPaddedMessageLength (n : UInt32) : UInt32 := (((n + 1 + 8) + 63) / 64) * 64

def extractByte (value : UInt64) (i : UInt32) : UInt8 :=
  ((value >>> (i * 8).toUInt64) &&& 0xff).toUInt8

def getPaddedMessageByte (data : List UInt8) (n m i : UInt32) : UInt8 :=
  if i < n then data.getD i.toNat 0
  else if i = n then 0x80
  else if m - 8 ≤ i then extractByte (n * 8).toUInt64 (i - (m - 8))
  else 0

def getPaddedMessageWord (data : List UInt8) (n m i : UInt32) : UInt32 :=
  (getPaddedMessageByte data n m i).toUInt32 |||
    (getPaddedMessageByte data n m (i + 1)).toUInt32 <<< 8 |||
    (getPaddedMessageByte data n m (i + 2)).toUInt32 <<< 16 |||
    (getPaddedMessageByte data n m (i + 3)).toUInt32 <<< 24

def getRoundData (data : List UInt8) (n m i : UInt32) : List UInt32 :=
  (List.range 16).map fun k => getPaddedMessageWord data n m (i + UInt32.ofNat (4 * k))

end Padding

section Steps

def calcF (i : Nat) (b c d : UInt32) : UInt32 :=
  if i < 16 then d ^^^ (b &&& (c ^^^ d))
  else if i < 32 then c ^^^ (d &&& (b ^^^ c))
  else if i < 48 then b ^^^ c ^^^ d
  else c ^^^ (b ||| ~~~d)

def calcG (i : Nat) : Nat :=
  if i < 16 then i
  else if i < 32 then (5 * i + 1) % 16
  else if i < 48 then (3 * i + 5) % 16
  else (7 * i) % 16

def getShift (i : Nat) : UInt32 := kShifts.getD (i / 16 * 4 + i % 4) 0

def leftRotate (value bits : UInt32) : UInt32 := (value <<< bits) ||| (value >>> (32 - bits))

def applyStep (i : Nat) (data : List UInt32) (s : IntermediateData) : IntermediateData :=
  let f := calcF i s.b s.c s.d + s.a + kConstants.getD i 0 + data.getD (calcG i) 0
  ⟨s.d, s.b + leftRotate f (getShift i), s.b, s.c⟩

def add (s t : IntermediateData) : IntermediateData := ⟨s.a + t.a, s.b + t.b, s.c + t.c, s.d + t.d⟩

def processMessage (message : List UInt8) (n : UInt32) : IntermediateData :=
  let m := getPaddedMessageLength n
  (List.range (m.toNat / 64)).foldl
    (fun s k =>
      let data := getRoundData message n m (UInt32.ofNat (64 * k))
      add s ((List.range 64).foldl (fun t i => applyStep i data t) s))
    kInitialIntermediateData

end Steps

def swapEndian (a : UInt32) : UInt32 :=
  ((a &&& 0xff) <<< 24) ||| (((a >>> 8) &&& 0xff) <<< 16) ||| (((a >>> 16) &&& 0xff) <<< 8) |||
    ((a >>> 24) &&& 0xff)

def hash32 (data : List UInt8) (n : UInt32) : UInt32 := swapEndian (processMessage data n).a

def stringLength (string : List UInt8) : UInt32 :=
  UInt32.ofNat (string.takeWhile fun b => b ≠ 0).length

def md5Hash32 (string : List UInt8) : UInt32 := hash32 string (stringLength string)

end DistExp.Rpc.Md5
