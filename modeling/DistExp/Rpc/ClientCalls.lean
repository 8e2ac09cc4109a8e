import DistExp.Library.FieldMap

namespace DistExp.Rpc.ClientCalls

open DistExp.Library.FieldMap

/-- The error codes that `rpc_client` passes on, those of the sockets by their value. -/
inductive ErrorCode where
  | timedOut
  | connectionAborted
  | socket (value : Int)
  deriving DecidableEq

inductive CallModel where
  | future
  | callback
  deriving DecidableEq

/-- The calls of a client that have no result yet: a promise is known by its id, and a callback has
its `has_timeout_`. -/
structure Calls where
  fuId : UInt64
  callbackId : UInt64
  futureMap : List UInt64
  callbackMap : List (UInt64 × Bool)
  deriving DecidableEq

/-- How a call ended: the value of a future, or the arguments of a callback. -/
structure Completion where
  reqId : UInt64
  ec : Option ErrorCode
  data : List UInt8
  deriving DecidableEq

namespace Calls

def init : Calls := ⟨0, 0, [], []⟩

def cbBit : UInt64 := (1 : UInt64) <<< (63 : UInt64)

def cbFlag (id : UInt64) : Bool := id >>> 63 ≠ 0

def begin (c : Calls) : CallModel → UInt64 × Calls
  | .future =>
    let fuId := c.fuId + 1
    (fuId, { c with
      fuId := fuId
      futureMap := if fuId ∈ c.futureMap then c.futureMap else c.futureMap ++ [fuId] })
  | .callback =>
    let id := (c.callbackId + 1) ||| cbBit
    (id, { c with
      callbackId := id
      callbackMap :=
        if id ∈ keys c.callbackMap then c.callbackMap else c.callbackMap ++ [(id, false)] })

def expire (c : Calls) (id : UInt64) : Calls :=
  { c with callbackMap := c.callbackMap.map fun e => if e.1 = id then (e.1, true) else e }

/-- `call_back` for a C++ client, `none` where an assertion fails. -/
def callBack (c : Calls) (reqId : UInt64) (ec : Option ErrorCode) (data : List UInt8) :
    Option (Calls × Completion) :=
  if cbFlag reqId then
    match hget c.callbackMap reqId with
    | none => none
    | some hasTimeout =>
      let c' := { c with callbackMap := hdel c.callbackMap reqId }
      if hasTimeout then some (c', ⟨reqId, some .timedOut, []⟩) else some (c', ⟨reqId, ec, data⟩)
  else if reqId ∈ c.futureMap then
    some ({ c with futureMap := c.futureMap.erase reqId },
      ⟨reqId, none, if ec = none then data else []⟩)
  else none

/-- The maps of `clear_cache`: promises that have no value are broken. -/
def clear (c : Calls) : Calls := { c with futureMap := [], callbackMap := [] }

def waiting (c : Calls) : List UInt64 := c.futureMap ++ keys c.callbackMap

structure Sorted (c : Calls) : Prop where
  future : ∀ id ∈ c.futureMap, cbFlag id = false
  callback : ∀ id ∈ keys c.callbackMap, cbFlag id = true

variable {c c' : Calls} {id reqId : UInt64} {ec : Option ErrorCode} {data : List UInt8}
  {comp : Completion}

theorem cbFlag_iff : cbFlag id = true ↔ 2 ^ 63 ≤ id.toNat := by
  have hlt := id.toNat_lt
  have hshift : (id >>> 63).toNat = id.toNat / 2 ^ 63 := by
    rw [UInt64.toNat_shiftRight, Nat.shiftRight_eq_div_pow]
    rfl
  rw [cbFlag, decide_eq_true_iff, ne_eq, ← UInt64.toNat_inj, hshift]
  constructor
  · intro h
    by_contra hsmall
    exact h (Nat.div_eq_of_lt (not_le.mp hsmall))
  · intro h hzero
    have hpos : 0 < id.toNat / 2 ^ 63 := Nat.div_pos h (by decide)
    exact hpos.ne' hzero

theorem cbFlag_false_iff : cbFlag id = false ↔ id.toNat < 2 ^ 63 := by
  rw [← Bool.not_eq_true, cbFlag_iff, not_le]

structure Counts (c : Calls) (taken : List UInt64) : Prop where
  future : ∀ id ∈ taken, cbFlag id = false → id.toNat ≤ c.fuId.toNat
  callback : ∀ id ∈ taken, cbFlag id = true → id.toNat ≤ c.callbackId.toNat
  fuId_le : c.fuId.toNat ≤ taken.length
  callbackId_le : c.callbackId.toNat ≤ 2 ^ 63 + taken.length
  callbackId_flag : c.callbackId = 0 ∨ cbFlag c.callbackId = true

theorem toNat_add_one (h : id.toNat < 2 ^ 64 - 1) : (id + 1).toNat = id.toNat + 1 := by
  rw [UInt64.toNat_add, UInt64.toNat_one]
  exact Nat.mod_eq_of_lt (by omega)

theorem toNat_callbackId (hle : c.callbackId.toNat < 2 ^ 64 - 1)
    (hflag : c.callbackId = 0 ∨ cbFlag c.callbackId = true) :
    ((c.callbackId + 1) ||| cbBit).toNat =
      (if c.callbackId = 0 then 2 ^ 63 else c.callbackId.toNat) + 1 := by
  have hbit : cbBit.toNat = 2 ^ 63 := by decide
  have hadd : (c.callbackId + 1).toNat = c.callbackId.toNat + 1 := toNat_add_one hle
  rw [UInt64.toNat_or, hbit, hadd]
  obtain hzero | hflag := hflag
  · rw [if_pos hzero, hzero]
    rfl
  · have hge := cbFlag_iff.mp hflag
    have hne : c.callbackId ≠ 0 := by
      intro hzero
      rw [hzero] at hge
      exact absurd hge (by decide)
    obtain ⟨k, hk⟩ : ∃ k, c.callbackId.toNat + 1 = 2 ^ 63 + k :=
      ⟨_, (Nat.add_sub_of_le (by omega)).symm⟩
    have hk' : k < 2 ^ 63 := by omega
    have hor : (2 ^ 63 + k) ||| 2 ^ 63 = 2 ^ 63 + k := by
      rw [Nat.add_comm, show k + 2 ^ 63 = 2 ^ 63 * 1 + k by omega,
        Nat.two_pow_add_eq_or_of_lt hk' 1, Nat.mul_one, Nat.or_right_comm, Nat.or_self]
    rw [if_neg hne, hk, hor]

theorem begin_counts {taken : List UInt64} (h : Counts c taken) (hlt : taken.length + 1 < 2 ^ 63)
    (model : CallModel) :
    Counts (c.begin model).2 (taken ++ [(c.begin model).1]) ∧ (c.begin model).1 ∉ taken ∧
      (cbFlag (c.begin model).1 = true ↔ model = .callback) := by
  have hfu := h.fuId_le
  have hcb := h.callbackId_le
  cases model with
  | future =>
    have hid : (c.fuId + 1).toNat = c.fuId.toNat + 1 := toNat_add_one (by omega)
    have hflag : cbFlag (c.fuId + 1) = false := cbFlag_false_iff.mpr (by omega)
    refine ⟨⟨fun id hid' hf => ?_, fun id hid' hf => ?_, ?_, ?_, h.callbackId_flag⟩, fun hmem => ?_,
      by simp [begin, hflag]⟩
    · change id.toNat ≤ (c.fuId + 1).toNat
      obtain hid' | hid' := List.mem_append.mp hid'
      · have := h.future id hid' hf
        omega
      · rw [List.mem_singleton.mp hid']
        exact le_refl _
    · obtain hid' | hid' := List.mem_append.mp hid'
      · exact h.callback id hid' hf
      · rw [List.mem_singleton.mp hid'] at hf
        exact absurd (hflag.symm.trans hf) (by decide)
    · change (c.fuId + 1).toNat ≤ _
      rw [List.length_append, List.length_singleton]
      omega
    · change c.callbackId.toNat ≤ _
      rw [List.length_append, List.length_singleton]
      omega
    · have := h.future _ hmem hflag
      change (c.fuId + 1).toNat ≤ _ at this
      omega
  | callback =>
    have hid := toNat_callbackId (by omega) h.callbackId_flag
    set newId := (c.callbackId + 1) ||| cbBit with hnew
    have hzero : c.callbackId = 0 → c.callbackId.toNat = 0 := fun h => by rw [h]; rfl
    have hge : 2 ^ 63 ≤ newId.toNat ∧ c.callbackId.toNat < newId.toNat ∧
        newId.toNat ≤ 2 ^ 63 + taken.length + 1 := by
      by_cases h0 : c.callbackId = 0
      · rw [if_pos h0] at hid
        have := hzero h0
        omega
      · have := cbFlag_iff.mp (h.callbackId_flag.resolve_left h0)
        rw [if_neg h0] at hid
        omega
    have hflag : cbFlag newId = true := cbFlag_iff.mpr hge.1
    refine ⟨⟨fun id hid' hf => ?_, fun id hid' hf => ?_, ?_, ?_, .inr hflag⟩, fun hmem => ?_,
      by simp [begin, ← hnew, hflag]⟩
    · obtain hid' | hid' := List.mem_append.mp hid'
      · exact h.future id hid' hf
      · rw [List.mem_singleton.mp hid'] at hf
        exact absurd (hf.symm.trans hflag) (by decide)
    · change id.toNat ≤ newId.toNat
      obtain hid' | hid' := List.mem_append.mp hid'
      · have := h.callback id hid' hf
        omega
      · rw [List.mem_singleton.mp hid']
        exact le_refl _
    · change c.fuId.toNat ≤ _
      rw [List.length_append, List.length_singleton]
      omega
    · change newId.toNat ≤ _
      rw [List.length_append, List.length_singleton]
      omega
    · have := h.callback _ hmem hflag
      change newId.toNat ≤ _ at this
      omega

theorem begin_waiting {model : CallModel} (hsorted : c.Sorted) (hnew : (c.begin model).1 ∉ c.waiting)
    (hflag : cbFlag (c.begin model).1 = true ↔ model = .callback) :
    (c.begin model).2.Sorted ∧ (c.begin model).2.waiting.Perm ((c.begin model).1 :: c.waiting) := by
  rw [waiting, List.mem_append, not_or] at hnew
  cases model with
  | future =>
    have hmap : (c.begin .future).2.futureMap = c.futureMap ++ [c.fuId + 1] := if_neg hnew.1
    have hid : cbFlag (c.fuId + 1) = false := by simpa [begin] using hflag
    refine ⟨⟨fun id hid' => ?_, hsorted.callback⟩, ?_⟩
    · rw [hmap] at hid'
      obtain hid' | hid' := List.mem_append.mp hid'
      · exact hsorted.future id hid'
      · rw [List.mem_singleton.mp hid']
        exact hid
    · rw [waiting, hmap, List.append_assoc]
      exact List.perm_middle
  | callback =>
    set newId := (c.callbackId + 1) ||| cbBit
    have hmap : (c.begin .callback).2.callbackMap = c.callbackMap ++ [(newId, false)] :=
      if_neg hnew.2
    have hid : cbFlag newId = true := hflag.mpr rfl
    have hkeys : keys (c.begin .callback).2.callbackMap = keys c.callbackMap ++ [newId] := by
      rw [hmap, keys, List.map_append]
      rfl
    refine ⟨⟨hsorted.future, fun id hid' => ?_⟩, ?_⟩
    · rw [hkeys] at hid'
      obtain hid' | hid' := List.mem_append.mp hid'
      · exact hsorted.callback id hid'
      · rw [List.mem_singleton.mp hid']
        exact hid
    · rw [waiting, hkeys, ← List.append_assoc]
      exact List.perm_append_singleton _ _

theorem hget_of_mem_keys {V : Type} {h : List (UInt64 × V)} (hid : id ∈ keys h) :
    ∃ v, hget h id = some v := by
  obtain ⟨e, he, rfl⟩ := List.mem_map.mp hid
  cases hv : hget h e.1 with
  | some v => exact ⟨v, rfl⟩
  | none =>
    rw [hget, Option.map_eq_none_iff, List.find?_eq_none] at hv
    exact absurd (decide_eq_true rfl) (hv e he)

theorem keys_hdel {V : Type} {h : List (UInt64 × V)} (hnodup : (keys h).Nodup) (id : UInt64) :
    keys (hdel h id) = (keys h).erase id := by
  have hne : ∀ x ∈ keys h, decide (x ≠ id) = (x != id) := fun x _ => decide_not
  rw [hnodup.erase_eq_filter, ← List.filter_congr hne, keys, keys, hdel, List.filter_map]
  rfl

theorem waiting_expire (c : Calls) (id : UInt64) : (c.expire id).waiting = c.waiting := by
  have hkeys : keys (c.expire id).callbackMap = keys c.callbackMap := by
    rw [keys, keys, expire, List.map_map]
    refine List.map_congr_left fun e _ => ?_
    rw [Function.comp_apply]
    split <;> rfl
  rw [waiting, waiting, hkeys]
  rfl

theorem sorted_expire (h : c.Sorted) : (c.expire id).Sorted := by
  refine ⟨h.future, fun id' hid' => ?_⟩
  have hmem : id' ∈ (c.expire id).waiting := List.mem_append_right _ hid'
  rw [waiting_expire] at hmem
  obtain hmem | hmem := List.mem_append.mp hmem
  · have hkeys : id' ∈ keys c.callbackMap := by
      obtain ⟨e, he, rfl⟩ := List.mem_map.mp hid'
      obtain ⟨d, hd, rfl⟩ := List.mem_map.mp he
      refine List.mem_map.mpr ⟨d, hd, ?_⟩
      split <;> rfl
    exact h.callback id' hkeys
  · exact h.callback id' hmem

/-- How `call_back` ends a call: with the data, or with a timeout that has come before it. -/
structure Ends (comp : Completion) (reqId : UInt64) (data : List UInt8) : Prop where
  reqId_eq : comp.reqId = reqId
  result : (comp.ec = none ∧ comp.data = data) ∨
    (cbFlag reqId = true ∧ comp.ec = some .timedOut ∧ comp.data = [])

theorem callBack_waiting (hsorted : c.Sorted) (hnodup : c.waiting.Nodup) (hid : reqId ∈ c.waiting)
    (data : List UInt8) :
    ∃ c' comp, c.callBack reqId none data = some (c', comp) ∧ c'.Sorted ∧
      c.waiting.Perm (reqId :: c'.waiting) ∧ Ends comp reqId data ∧
      c'.fuId = c.fuId ∧ c'.callbackId = c.callbackId := by
  obtain hid | hid := List.mem_append.mp hid
  · have hflag := hsorted.future _ hid
    refine ⟨{ c with futureMap := c.futureMap.erase reqId }, ⟨reqId, none, data⟩, ?_,
      ⟨fun id hid' => hsorted.future id (List.mem_of_mem_erase hid'), hsorted.callback⟩, ?_,
      ⟨rfl, .inl ⟨rfl, rfl⟩⟩, rfl, rfl⟩
    · rw [callBack, if_neg (by rw [hflag]; decide), if_pos hid]
      rfl
    · exact (List.perm_cons_erase hid).append_right _
  · have hflag := hsorted.callback _ hid
    obtain ⟨hasTimeout, hget⟩ := hget_of_mem_keys hid
    have hmap : (keys c.callbackMap).Perm (reqId :: keys (hdel c.callbackMap reqId)) := by
      have hkeys : (keys c.callbackMap).Nodup := (List.nodup_append.mp hnodup).2.1
      rw [keys_hdel hkeys]
      exact List.perm_cons_erase hid
    have hperm : c.waiting.Perm
        (reqId :: { c with callbackMap := hdel c.callbackMap reqId }.waiting) :=
      (hmap.append_left c.futureMap).trans List.perm_middle
    have hsorted' : { c with callbackMap := hdel c.callbackMap reqId }.Sorted :=
      ⟨hsorted.future, fun id hid' => hsorted.callback id (mem_keys_hdel.mp hid').1⟩
    cases hasTimeout with
    | false =>
      refine ⟨_, ⟨reqId, none, data⟩, ?_, hsorted', hperm, ⟨rfl, .inl ⟨rfl, rfl⟩⟩, rfl, rfl⟩
      rw [callBack, if_pos hflag, hget]
      rfl
    | true =>
      refine ⟨_, ⟨reqId, some .timedOut, []⟩, ?_, hsorted', hperm,
        ⟨rfl, .inr ⟨hflag, rfl, rfl⟩⟩, rfl, rfl⟩
      rw [callBack, if_pos hflag, hget]
      rfl

end Calls

end DistExp.Rpc.ClientCalls
