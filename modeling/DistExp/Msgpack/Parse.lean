import DistExp.Msgpack.Format

namespace DistExp.Msgpack.Parse

open DistExp.Library.Bytes DistExp.Msgpack.Format

inductive ContainerType where
  | arrayItem
  | mapKey
  | mapValue
  deriving DecidableEq

/-- An element of `unpack_stack`, with what the visitor has put into the container, last first. -/
structure StackElem where
  type : ContainerType
  rest : Nat
  items : List Obj

/-- What the parser expects after a header: the `MSGPACK_CS_` and `MSGPACK_ACS_` codes, those that
differ in a number of bytes only being one code with that number. -/
inductive Cs where
  | bin (w : Nat)
  | ext (w : Nat)
  | float
  | double
  | uint (w : Nat)
  | int (w : Nat)
  | fixext (n : Nat)
  | str (w : Nat)
  | array (w : Nat)
  | map (w : Nat)
  | strValue
  | binValue
  | extValue
  deriving DecidableEq

/-- `m_cs` and `m_trail`: the parser is in front of a header, or of the bytes after one. -/
inductive Mode where
  | header
  | trail (cs : Cs) (trail : Nat)

structure Context where
  mode : Mode
  stack : List StackElem

/-- `PARSE_SUCCESS` leaves the rest of the data, `PARSE_CONTINUE` is thrown as
`insufficient_bytes`, and `PARSE_PARSE_ERROR` as `parse_error`. -/
inductive ParseReturn where
  | success (o : Obj) (rest : List UInt8)
  | insufficientBytes
  | parseError

inductive Iteration where
  | go (c : Context) (rest : List UInt8)
  | finish (ret : ParseReturn)

/-- `unpack_stack::consume` after an object has been visited. -/
def consume : List StackElem → Obj → Obj ⊕ List StackElem
  | [], o => .inl o
  | e :: stack, o =>
    match e.type with
    | .arrayItem =>
      if e.rest - 1 = 0 then consume stack (.array (o :: e.items).reverse)
      else .inr ({ e with rest := e.rest - 1, items := o :: e.items } :: stack)
    | .mapKey => .inr ({ e with type := .mapValue, items := o :: e.items } :: stack)
    | .mapValue =>
      if e.rest - 1 = 0 then consume stack (.map (o :: e.items).reverse)
      else .inr (⟨.mapKey, e.rest - 1, o :: e.items⟩ :: stack)

def afterVisit (stack : List StackElem) (o : Obj) (rest : List UInt8) : Iteration :=
  match consume stack o with
  | .inl o => .finish (.success o rest)
  | .inr stack => .go ⟨.header, stack⟩ rest

def startArray (stack : List StackElem) (size : Nat) (rest : List UInt8) : Iteration :=
  if size = 0 then afterVisit stack (.array []) rest
  else .go ⟨.header, ⟨.arrayItem, size, []⟩ :: stack⟩ rest

def startMap (stack : List StackElem) (size : Nat) (rest : List UInt8) : Iteration :=
  if size = 0 then afterVisit stack (.map []) rest
  else .go ⟨.header, ⟨.mapKey, size, []⟩ :: stack⟩ rest

/-- The table `trail`, with the codes that `next_cs` gives, from `0xc4` to `0xdf`. -/
def trails : List (Cs × Nat) :=
  [(.bin 1, 1), (.bin 2, 2), (.bin 4, 4), (.ext 1, 1), (.ext 2, 2), (.ext 4, 4), (.float, 4),
    (.double, 8), (.uint 1, 1), (.uint 2, 2), (.uint 4, 4), (.uint 8, 8), (.int 1, 1), (.int 2, 2),
    (.int 4, 4), (.int 8, 8), (.fixext 1, 2), (.fixext 2, 3), (.fixext 4, 5), (.fixext 8, 9),
    (.fixext 16, 17), (.str 1, 1), (.str 2, 2), (.str 4, 4), (.array 2, 2), (.array 4, 4),
    (.map 2, 2), (.map 4, 4)]

def header (stack : List StackElem) (selector : UInt8) (rest : List UInt8) : Iteration :=
  let n := selector.toNat
  if n ≤ 0x7f then afterVisit stack (.integer n) rest
  else if 0xe0 ≤ n then afterVisit stack (.integer selector.toInt8.toInt) rest
  else if 0xc4 ≤ n then
    match trails[n - 0xc4]? with
    | some (cs, trail) => .go ⟨.trail cs trail, stack⟩ rest
    | none => .finish .parseError
  else if 0xa0 ≤ n ∧ n ≤ 0xbf then
    if n % 32 = 0 then afterVisit stack (.str []) rest
    else .go ⟨.trail .strValue (n % 32), stack⟩ rest
  else if 0x90 ≤ n ∧ n ≤ 0x9f then startArray stack (n % 16) rest
  else if n ≤ 0x8f then startMap stack (n % 16) rest
  else if n = 0xc2 then afterVisit stack (.boolean false) rest
  else if n = 0xc3 then afterVisit stack (.boolean true) rest
  else if n = 0xc0 then afterVisit stack .nil rest
  else .finish .parseError

/-- A size and then as many bytes: `value` is the code for these bytes, `empty` what is visited
when there are none. -/
def sized (stack : List StackElem) (value : Cs) (size : Nat) (empty : Obj) (rest : List UInt8) :
    Iteration :=
  if size = 0 then afterVisit stack empty rest else .go ⟨.trail value size, stack⟩ rest

def visitExt (stack : List StackElem) (bytes rest : List UInt8) : Iteration :=
  afterVisit stack (.ext (bytes.headD 0) bytes.tail) rest

def signed (bytes : List UInt8) : Int :=
  Int.bmod (ofBigEndian bytes) (256 ^ bytes.length)

/-- An iteration in front of the bytes after a header, once all of them are there. The sizes in
these bytes are those of a `size_t`: no size that data shorter than `2 ^ 32` bytes has room for is
cut down, and no limit of `unpack_limit` is met. -/
def trailing (stack : List StackElem) (cs : Cs) (bytes rest : List UInt8) : Iteration :=
  match cs with
  | .float => afterVisit stack (.float32 (UInt32.ofNat (ofBigEndian bytes))) rest
  | .double => afterVisit stack (.float64 (UInt64.ofNat (ofBigEndian bytes))) rest
  | .uint _ => afterVisit stack (.integer (ofBigEndian bytes)) rest
  | .int _ => afterVisit stack (.integer (signed bytes)) rest
  | .fixext _ => visitExt stack bytes rest
  | .str _ => sized stack .strValue (ofBigEndian bytes) (.str []) rest
  | .bin _ => sized stack .binValue (ofBigEndian bytes) (.bin []) rest
  | .ext _ => sized stack .extValue (ofBigEndian bytes + 1) (.ext 0 []) rest
  | .strValue => afterVisit stack (.str bytes) rest
  | .binValue => afterVisit stack (.bin bytes) rest
  | .extValue => visitExt stack bytes rest
  | .array _ => startArray stack (ofBigEndian bytes) rest
  | .map _ => startMap stack (ofBigEndian bytes) rest

def iterate (c : Context) : List UInt8 → Iteration
  | [] => .finish .insufficientBytes
  | b :: bs =>
    match c.mode with
    | .header => header c.stack b bs
    | .trail cs trail =>
      if (b :: bs).length < trail then .finish .insufficientBytes
      else trailing c.stack cs ((b :: bs).take trail) ((b :: bs).drop trail)

def execute : Nat → Context → List UInt8 → ParseReturn
  | 0, _, _ => .insufficientBytes
  | fuel + 1, c, bs =>
    match iterate c bs with
    | .go c rest => execute fuel c rest
    | .finish ret => ret

/-- `msgpack::unpack`: every round takes a byte at least. -/
def unpack (data : List UInt8) : ParseReturn := execute (data.length + 1) ⟨.header, []⟩ data

end DistExp.Msgpack.Parse
