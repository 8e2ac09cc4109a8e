import DistExp.Msgpack.Adaptor

namespace DistExp.Rpc.Codec

open DistExp.Msgpack DistExp.Msgpack.Format DistExp.Msgpack.Adaptor

def text (s : String) : List UInt8 := s.toList.map fun c => UInt8.ofNat c.toNat

/-- The exceptions of the library and of the handlers, with their `what()`. -/
inductive Exception where
  | invalidArgument (what : List UInt8)
  | logicError (what : List UInt8)
  | runtimeError (what : List UInt8)
  deriving DecidableEq

def Exception.what : Exception → List UInt8
  | .invalidArgument what | .logicError what | .runtimeError what => what

/-- `result_code`. -/
inductive ResultCode where
  | ok
  | fail
  deriving DecidableEq

def ResultCode.toInt : ResultCode → Int32
  | .ok => 0
  | .fail => 1

section Codec

def containerSizeOverflow : Exception := .runtimeError (text "container size overflow")

def packArgs (ps : List Packable) (args : Tuple ps) : Except Exception (List UInt8) :=
  match packTuple ps args with
  | some bs => .ok bs
  | none => .error containerSizeOverflow

def packArgsStr (ps : List Packable) (code : ResultCode) (args : Tuple ps) :
    Except Exception (List UInt8) :=
  packArgs (int32 :: ps) (code.toInt, args)

def argsNotMatch : Exception := .invalidArgument (text "unpack failed: Args not match!")

/-- `msgpack_codec::unpack`: whatever is thrown becomes one exception. -/
def unpack (p : Packable) (data : List UInt8) : Except Exception p.Val :=
  match Parse.unpack data with
  | .success o _ =>
    match p.convert o p.init with
    | some v => .ok v
    | none => .error argsNotMatch
  | _ => .error argsNotMatch

variable {p : Packable} {ps qs : List Packable} {bs rest : List UInt8}

theorem packArgs_ok {v : Tuple ps} (h : packArgs ps v = .ok bs) : packTuple ps v = some bs := by
  rw [packArgs] at h
  split at h
  · obtain rfl := Except.ok.inj h
    assumption
  · cases h

theorem packArgs_of_elems {v : Tuple ps} (hps : ps.length < 2 ^ 32) (h : packElems ps v = some bs) :
    packArgs ps v = .ok (Pack.packArray ps.length ++ bs) := by
  rw [packArgs, packTuple, if_pos hps, h]
  rfl

theorem packArgs_error {v : Tuple ps} {e : Exception} (h : packArgs ps v = .error e) :
    e = containerSizeOverflow := by
  rw [packArgs] at h
  split at h
  · cases h
  · exact (Except.error.inj h).symm

theorem packArgs_ne_nil {v : Tuple ps} (h : packArgs ps v = .ok bs) : bs ≠ [] := by
  obtain ⟨hps, cs, -, rfl⟩ := packTuple_some (packArgs_ok h)
  exact List.append_ne_nil_of_left_ne_nil (Pack.arrayTag_packArray hps).ne_nil _

theorem unpack_of_encodes {o : Obj} {v : p.Val} (h : Encodes [o] bs)
    (hconvert : p.convert o p.init = some v) : unpack p (bs ++ rest) = .ok v := by
  rw [unpack, Accepts.unpack_of_encodes h rest]
  dsimp only
  rw [hconvert]

theorem unpack_ok_iff {data : List UInt8} {v : p.Val} :
    unpack p data = .ok v ↔
      ∃ o bs rest, data = bs ++ rest ∧ Encodes [o] bs ∧ p.convert o p.init = some v := by
  constructor
  · intro h
    rw [unpack] at h
    split at h
    case h_1 o rest hunpack =>
      obtain ⟨bs, rfl, ho⟩ := Sound.encodes_of_unpack hunpack
      split at h
      case h_1 w hconvert => exact ⟨o, bs, rest, rfl, ho, by rw [hconvert, Except.ok.inj h]⟩
      case h_2 => cases h
    case h_2 => cases h
  · rintro ⟨o, bs, rest, rfl, ho, hconvert⟩
    exact unpack_of_encodes ho hconvert

theorem unpack_error {data : List UInt8} {e : Exception} (h : unpack p data = .error e) :
    e = argsNotMatch := by
  rw [unpack] at h
  split at h
  · split at h
    · cases h
    · exact (Except.error.inj h).symm
  · exact (Except.error.inj h).symm

theorem unpack_fewer {v : Tuple ps} {w : Tuple qs}
    (h : packArgs (ps ++ qs) (v.append w) = .ok bs) : unpack (tuple ps) (bs ++ rest) = .ok v := by
  obtain ⟨hlen, cs, hcs, rfl⟩ := packTuple_some (packArgs_ok h)
  obtain ⟨ds, es, hds, hes, rfl⟩ := packElems_append hcs
  obtain ⟨os, hos, hosds, hmore, -⟩ := encodes_packElems hds
  obtain ⟨more, hms, hmses, -, -⟩ := encodes_packElems hes
  refine unpack_of_encodes (encodes_array hlen ?_ (hosds.append hmses)) (hmore _ more)
  rw [List.length_append, List.length_append, hos, hms]

theorem unpack_more {v : Tuple ps} (h : packArgs ps v = .ok bs) :
    unpack (tuple (ps ++ qs)) (bs ++ rest) = .ok (v.append (Tuple.init qs)) := by
  obtain ⟨hlen, cs, hcs, rfl⟩ := packTuple_some (packArgs_ok h)
  obtain ⟨os, hos, hosds, -, hless⟩ := encodes_packElems hcs
  refine unpack_of_encodes (p := tuple (ps ++ qs)) (encodes_array hlen hos hosds) ?_
  have hinit : Tuple.init (ps ++ qs) = (Tuple.init ps).append (Tuple.init qs) := by
    clear * -
    induction ps with
    | nil => rfl
    | cons p ps ih => exact congrArg (Prod.mk p.init) ih
  exact (congrArg (convertElems _ os) hinit).trans (hless qs _ _)

/-- A receiver that asks for fewer elements than were packed gets the first of them, one that asks
for more gets its initial values after them, and bytes after the tuple are never looked at. -/
theorem unpack_packArgs {v : Tuple ps} {w : Tuple qs} :
    (packArgs (ps ++ qs) (v.append w) = .ok bs → unpack (tuple ps) (bs ++ rest) = .ok v) ∧
    (packArgs ps v = .ok bs →
      unpack (tuple (ps ++ qs)) (bs ++ rest) = .ok (v.append (Tuple.init qs))) :=
  ⟨unpack_fewer, unpack_more⟩

theorem unpack_tuple {v : Tuple ps} (h : packArgs ps v = .ok bs) :
    unpack (tuple ps) (bs ++ rest) = .ok v := by
  obtain ⟨o, ho, hconvert⟩ := (tuple ps).encodes (packArgs_ok h)
  exact unpack_of_encodes ho (hconvert _)

end Codec

section Results

def hasError (result : List UInt8) : Except Exception Bool :=
  if result = [] then .ok true
  else do
    let tp ← unpack (tuple [int32]) result
    let code : Int32 := tp.1
    return code != 0

def getResult (p : Packable) (result : List UInt8) : Except Exception p.Val := do
  let tp ← unpack (tuple [int32, p]) result
  return tp.2.1

def getErrorMsg (result : List UInt8) : Except Exception (List UInt8) := do
  let tp ← unpack (tuple [int32, string]) result
  return tp.2.1

/-- `req_result::as` for a function without a result. -/
def asVoid (data : List UInt8) : Except Exception Unit := do
  if ← hasError data then
    let errMsg ← if data = [] then pure data else getErrorMsg data
    throw (.logicError errMsg)

/-- `req_result::as`. -/
def as (p : Packable) (data : List UInt8) : Except Exception p.Val := do
  asVoid data
  getResult p data

variable {p : Packable} {code : ResultCode} {ps : List Packable} {data : List UInt8}

end Results

end DistExp.Rpc.Codec
