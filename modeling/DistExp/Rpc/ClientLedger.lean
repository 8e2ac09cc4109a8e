import DistExp.Rpc.ClientFailures

namespace DistExp.Rpc.ClientLedger

open DistExp.Library.FieldMap DistExp.Library.Runs DistExp.Rpc.ClientCalls DistExp.Rpc.ClientLoop
  DistExp.Rpc.ClientFailures DistExp.Rpc.Wire

section Ledger

variable {calls calls' : Calls} {l l' : Ledger} {reqId id : UInt64} {ec : Option ErrorCode}
  {data : List UInt8} {comp : Completion}

inductive Takes (calls : Calls) (reqId : UInt64) (data : List UInt8) : Calls → Completion → Prop where
  | callback (ec : Option ErrorCode) (d : List UInt8) (hflag : Calls.cbFlag reqId = true)
      (hid : reqId ∈ keys calls.callbackMap) :
    Takes calls reqId data { calls with callbackMap := hdel calls.callbackMap reqId } ⟨reqId, ec, d⟩
  | future {d : List UInt8} (hflag : Calls.cbFlag reqId = false) (hid : reqId ∈ calls.futureMap)
      (hd : d = data ∨ d = []) :
    Takes calls reqId data { calls with futureMap := calls.futureMap.erase reqId } ⟨reqId, none, d⟩

theorem mem_keys_of_hget {V : Type} {h : List (UInt64 × V)} {v : V} (hv : hget h id = some v) :
    id ∈ keys h :=
  List.mem_map.mpr ⟨_, mem_of_hget hv, rfl⟩

theorem takes_of_callBack (h : calls.callBack reqId ec data = some (calls', comp)) :
    Takes calls reqId data calls' comp := by
  rw [Calls.callBack] at h
  split at h
  case isTrue hflag =>
    split at h
    case h_1 => cases h
    case h_2 hasTimeout hget =>
      have hid := mem_keys_of_hget hget
      dsimp only at h
      split at h <;> cases h <;> exact .callback _ _ hflag hid
  case isFalse hflag =>
    have hflag := Bool.eq_false_of_not_eq_true hflag
    split at h
    case isTrue hid =>
      cases h
      refine .future hflag hid ?_
      split
      · exact .inl rfl
      · exact .inr rfl
    case isFalse => cases h

theorem callBack_eq_none_iff (hsorted : calls.Sorted) :
    calls.callBack reqId ec data = none ↔ reqId ∉ calls.waiting := by
  rw [Calls.waiting, List.mem_append, not_or, Calls.callBack]
  by_cases hflag : Calls.cbFlag reqId = true
  · rw [if_pos hflag]
    have hfuture : reqId ∉ calls.futureMap := fun hid => by
      rw [hsorted.future _ hid] at hflag
      exact Bool.false_ne_true hflag
    cases hget : hget calls.callbackMap reqId with
    | none =>
      refine iff_of_true rfl ⟨hfuture, fun hid => ?_⟩
      obtain ⟨v, hv⟩ := Calls.hget_of_mem_keys hid
      rw [hget] at hv
      cases hv
    | some hasTimeout =>
      have hid := mem_keys_of_hget hget
      refine iff_of_false ?_ fun h => h.2 hid
      cases hasTimeout <;> exact Option.some_ne_none _
  · rw [if_neg hflag]
    have hcallback : reqId ∉ keys calls.callbackMap := fun hid => hflag (hsorted.callback _ hid)
    by_cases hid : reqId ∈ calls.futureMap
    · rw [if_pos hid]
      exact iff_of_false (Option.some_ne_none _) fun h => h.1 hid
    · rw [if_neg hid]
      exact iff_of_true rfl ⟨hid, hcallback⟩

/-- Every id that has been given to a future is in its map or settled, and only callbacks are
called. -/
structure Consistent (l : Ledger) : Prop where
  counts : l.calls.Counts l.issued
  sorted : l.calls.Sorted
  nodup : l.issued.Nodup
  futures : (l.calls.futureMap ++ l.settled.map Prod.fst).Perm
    (l.issued.filter fun id => Calls.cbFlag id = false)
  callbacks : (keys l.calls.callbackMap).Nodup
  waits : ∀ id ∈ keys l.calls.callbackMap, id ∈ l.issued
  called : ∀ comp ∈ l.called, Calls.cbFlag comp.reqId = true ∧ comp.reqId ∈ l.issued

theorem consistent_init : Consistent ⟨.init, [], [], []⟩ where
  counts := ⟨nofun, nofun, Nat.zero_le _, Nat.zero_le _, .inl rfl⟩
  sorted := ⟨nofun, nofun⟩
  nodup := .nil
  futures := .nil
  callbacks := .nil
  waits := nofun
  called := nofun

theorem mem_issued (h : Consistent l) (hid : id ∈ l.calls.waiting) : id ∈ l.issued := by
  obtain hid | hid := List.mem_append.mp hid
  · have hmem := h.futures.mem_iff.mp (List.mem_append_left _ hid)
    exact (List.mem_filter.mp hmem).1
  · exact h.waits id hid

theorem consistent_begin (h : Consistent l) (model : CallModel) (hlt : l.issued.length + 1 < 2 ^ 63) :
    Consistent (l.begin model) := by
  obtain ⟨hcounts, hnew, hflag⟩ := Calls.begin_counts h.counts hlt model
  have hfree : (l.calls.begin model).1 ∉ l.calls.waiting := fun hid => hnew (mem_issued h hid)
  obtain ⟨hsorted, hwaiting⟩ := Calls.begin_waiting h.sorted hfree hflag
  have hnodup : (l.issued ++ [(l.calls.begin model).1]).Nodup :=
    h.nodup.append (List.nodup_singleton _) (by simpa using hnew)
  have hcalled : ∀ comp ∈ l.called, Calls.cbFlag comp.reqId = true ∧
      comp.reqId ∈ l.issued ++ [(l.calls.begin model).1] :=
    fun comp hcomp => ⟨(h.called comp hcomp).1, List.mem_append_left _ (h.called comp hcomp).2⟩
  have hkeep : ∀ id ∈ keys l.calls.callbackMap, id ∈ l.issued ++ [(l.calls.begin model).1] :=
    fun id hid => List.mem_append_left _ (h.waits id hid)
  cases model with
  | future =>
    have hmap : (l.calls.begin .future).2.futureMap = l.calls.futureMap ++ [l.calls.fuId + 1] :=
      if_neg fun hid => hfree (List.mem_append_left _ hid)
    have hflag' : Calls.cbFlag (l.calls.fuId + 1) = false := by simpa [Calls.begin] using hflag
    refine ⟨hcounts, hsorted, hnodup, ?_, h.callbacks, hkeep, hcalled⟩
    change ((l.calls.begin .future).2.futureMap ++ l.settled.map Prod.fst).Perm
      ((l.issued ++ [l.calls.fuId + 1]).filter _)
    rw [hmap, List.filter_append, List.filter_singleton, hflag', List.append_assoc]
    exact (List.perm_middle.trans (h.futures.cons _)).trans (List.perm_append_singleton _ _).symm
  | callback =>
    set newId := (l.calls.callbackId + 1) ||| Calls.cbBit with hid
    have hmap : (l.calls.begin .callback).2.callbackMap = l.calls.callbackMap ++ [(newId, false)] :=
      if_neg fun hid => hfree (List.mem_append_right _ hid)
    have hkeys : keys (l.calls.begin .callback).2.callbackMap =
        keys l.calls.callbackMap ++ [newId] := by
      rw [hmap, keys, List.map_append]
      rfl
    have hflag' : Calls.cbFlag newId = true := hflag.mpr rfl
    refine ⟨hcounts, hsorted, hnodup, ?_, ?_, fun id hid => ?_, hcalled⟩
    · change (l.calls.futureMap ++ l.settled.map Prod.fst).Perm ((l.issued ++ [newId]).filter _)
      rw [List.filter_append, List.filter_singleton, hflag']
      exact h.futures.trans (.of_eq (List.append_nil _).symm)
    · change (keys (l.calls.begin .callback).2.callbackMap).Nodup
      have hfresh : newId ∉ keys l.calls.callbackMap := fun hid =>
        hfree (List.mem_append_right _ hid)
      rw [hkeys]
      exact h.callbacks.append (List.nodup_singleton _) (by simpa using hfresh)
    · change id ∈ keys (l.calls.begin .callback).2.callbackMap at hid
      rw [hkeys] at hid
      obtain hid | hid := List.mem_append.mp hid
      · exact hkeep id hid
      · exact List.mem_append_right _ hid

theorem consistent_expire (h : Consistent l) (id : UInt64) : Consistent (l.expire id) := by
  have hkeys : keys (l.calls.expire id).callbackMap = keys l.calls.callbackMap :=
    List.append_cancel_left (Calls.waiting_expire l.calls id)
  exact
    { h with
      counts := ⟨h.counts.future, h.counts.callback, h.counts.fuId_le, h.counts.callbackId_le,
        h.counts.callbackId_flag⟩
      sorted := Calls.sorted_expire h.sorted
      callbacks := hkeys ▸ h.callbacks
      waits := hkeys ▸ h.waits }

theorem consistent_fail (h : Consistent l) (ec : ErrorCode) : Consistent (l.fail ec) := by
  refine { h with called := fun comp hcomp => ?_ }
  obtain hcomp | hcomp := List.mem_append.mp hcomp
  · exact h.called comp hcomp
  · obtain ⟨id, hid, rfl⟩ := List.mem_map.mp hcomp
    exact ⟨h.sorted.callback id hid, h.waits id hid⟩

theorem consistent_clear (h : Consistent l) : Consistent l.clear := by
  refine
    { counts := ⟨h.counts.future, h.counts.callback, h.counts.fuId_le, h.counts.callbackId_le,
        h.counts.callbackId_flag⟩
      sorted := ⟨nofun, nofun⟩
      nodup := h.nodup
      futures := ?_
      callbacks := .nil
      waits := nofun
      called := h.called }
  change (l.settled ++ l.calls.futureMap.map fun id => (id, none)).map Prod.fst |>.Perm _
  rw [List.map_append, List.map_map]
  have hid : l.calls.futureMap.map (Prod.fst ∘ fun id => (id, (none : Option (List UInt8)))) =
      l.calls.futureMap := List.map_id _
  rw [hid]
  exact List.perm_append_comm.trans h.futures

theorem ledger_callBack (h : l.callBack reqId ec data = some l') :
    ∃ calls' comp, Takes l.calls reqId data calls' comp ∧
      l' = if Calls.cbFlag reqId then { l with calls := calls', called := l.called ++ [comp] }
        else { l with calls := calls', settled := l.settled ++ [(reqId, some comp.data)] } := by
  rw [Ledger.callBack] at h
  split at h
  case h_1 => cases h
  case h_2 calls' comp hcall =>
    refine ⟨calls', comp, takes_of_callBack hcall, ?_⟩
    split at h <;> cases h <;> split <;> first | rfl | contradiction

theorem ledger_callBack_none (hsorted : l.calls.Sorted) :
    l.callBack reqId ec data = none ↔ reqId ∉ l.calls.waiting := by
  have hcalls : l.calls.callBack reqId ec data = none ↔ reqId ∉ l.calls.waiting :=
    callBack_eq_none_iff hsorted
  rw [← hcalls, Ledger.callBack]
  split
  case h_1 hnone => exact iff_of_true rfl hnone
  case h_2 hsome =>
    rw [hsome]
    split <;> exact iff_of_false nofun nofun

theorem consistent_callBack (h : Consistent l) (hl : l.callBack reqId ec data = some l') :
    Consistent l' := by
  obtain ⟨calls', comp, htakes, rfl⟩ := ledger_callBack hl
  cases htakes with
  | callback ec d hflag hid =>
    have hkeys := Calls.keys_hdel h.callbacks reqId
    rw [if_pos hflag]
    refine
      { h with
        counts := ⟨h.counts.future, h.counts.callback, h.counts.fuId_le, h.counts.callbackId_le,
          h.counts.callbackId_flag⟩
        sorted := ⟨h.sorted.future, fun id hid => h.sorted.callback id (mem_keys_hdel.mp hid).1⟩
        callbacks := ?_
        waits := fun id hid => h.waits id (mem_keys_hdel.mp hid).1
        called := fun comp hcomp => ?_ }
    · change (keys (hdel l.calls.callbackMap reqId)).Nodup
      rw [hkeys]
      exact h.callbacks.erase _
    · obtain hcomp | hcomp := List.mem_append.mp hcomp
      · exact h.called comp hcomp
      · rw [List.mem_singleton.mp hcomp]
        exact ⟨hflag, h.waits reqId hid⟩
  | future hflag hid hd =>
    rename_i d
    rw [if_neg (by rw [hflag]; exact Bool.false_ne_true)]
    refine
      { h with
        counts := ⟨h.counts.future, h.counts.callback, h.counts.fuId_le, h.counts.callbackId_le,
          h.counts.callbackId_flag⟩
        sorted := ⟨fun id hid => h.sorted.future id (List.mem_of_mem_erase hid), h.sorted.callback⟩
        futures := ?_ }
    change (l.calls.futureMap.erase reqId ++ (l.settled ++ [(reqId, some d)]).map Prod.fst).Perm _
    refine List.Perm.trans ?_ h.futures
    rw [List.map_append, ← List.append_assoc]
    refine (List.perm_append_singleton _ _).trans ?_
    exact (List.perm_cons_erase hid).symm.append_right _

end Ledger

section Runs

variable {c c' last : Client} {e : Event} {ops : List Event} {b : Bool} {n : Int}

theorem issued_prefix_of_step (h : step c e = some c') : c.ledger.issued <+: c'.ledger.issued := by
  obtain ⟨-, v, hv, heffect⟩ := effect_of_step h
  rw [ledger_eq hv]
  cases heffect with
  | begins model => exact List.prefix_append _ _
  | answers _ _ hl =>
    obtain ⟨calls', comp, -, rfl⟩ := ledger_callBack hl
    split <;> exact List.prefix_refl _
  | _ => exact List.prefix_refl _

theorem consistent_of_step (h : step c e = some c') (hlt : c'.ledger.issued.length < 2 ^ 63)
    (hc : Consistent c.ledger) : Consistent c'.ledger := by
  obtain ⟨-, v, hv, heffect⟩ := effect_of_step h
  rw [ledger_eq hv] at hlt ⊢
  cases heffect with
  | begins model =>
    refine consistent_begin hc model ?_
    change (c.ledger.issued ++ [_]).length < 2 ^ 63 at hlt
    rwa [List.length_append, List.length_singleton] at hlt
  | expires id => exact consistent_expire hc id
  | headFails ec => exact consistent_fail hc ec
  | headCloses ec => exact consistent_clear (consistent_fail hc ec)
  | closes => exact consistent_clear hc
  | answers _ _ hl => exact consistent_callBack hc hl
  | _ => exact hc

theorem consistent_of_passes (hs : Passes step (start b n) ops c)
    (hlt : c.ledger.issued.length < 2 ^ 63) : Consistent c.ledger :=
  passes_invariant' (I := fun c => c.ledger.issued.length < 2 ^ 63 → Consistent c.ledger)
    (fun _ _ _ hc h hlt =>
      consistent_of_step h hlt (hc ((issued_prefix_of_step h).length_le.trans_lt hlt)))
    (fun _ => consistent_init) hs hlt

theorem issued_lt_of_passes {init : Client} (hrun : ops.foldlM step init = some last)
    (hlt : last.ledger.issued.length < 2 ^ 63) (hs : Passes step init ops c) :
    c.ledger.issued.length < 2 ^ 63 :=
  (passes_le (f := fun c => c.ledger.issued.length)
    (fun _ _ _ h => (issued_prefix_of_step h).length_le) hrun hs).trans_lt hlt

def Answered (ops : List Event) (s : UInt64 × Option (List UInt8)) : Prop :=
  ∀ data, s.2 = some data → ∃ q r, .body q r ∈ ops ∧ q.reqId = s.1 ∧ (r = .ok data ∨ data = [])

theorem answered_of_run (hrun : ops.foldlM step (start b n) = some c) :
    ∀ s ∈ c.ledger.settled, Answered ops s := by
  induction ops using List.reverseRecOn generalizing c with
  | nil =>
    cases hrun
    exact nofun
  | append_singleton ops e ih =>
    obtain ⟨d, hd, he⟩ := exists_of_foldlM_snoc hrun
    have hkeep : ∀ s ∈ d.ledger.settled, Answered (ops ++ [e]) s := by
      intro s hs data hdata
      obtain ⟨q, r, hmem, hq⟩ := ih hd s hs data hdata
      exact ⟨q, r, List.mem_append_left _ hmem, hq⟩
    have hclear : ∀ (l : Ledger), l.settled = d.ledger.settled →
        ∀ s ∈ l.clear.settled, Answered (ops ++ [e]) s := by
      intro l hl s hs
      obtain hs | hs := List.mem_append.mp hs
      · exact hkeep s (hl ▸ hs)
      · obtain ⟨id, -, rfl⟩ := List.mem_map.mp hs
        exact nofun
    obtain ⟨-, v, hv, heffect⟩ := effect_of_step he
    rw [ledger_eq hv]
    cases heffect with
    | headCloses => exact hclear _ rfl
    | closes => exact hclear _ rfl
    | @answers q r ec data ledger hq _ hl hr =>
      obtain ⟨calls', comp, htakes, rfl⟩ := ledger_callBack hl
      cases htakes with
      | callback _ _ hflag =>
        rw [if_pos hflag]
        exact hkeep
      | future hflag _ hdata =>
        rw [if_neg (by rw [hflag]; exact Bool.false_ne_true)]
        intro s hs
        obtain hs | hs := List.mem_append.mp hs
        · exact hkeep s hs
        · rw [List.mem_singleton.mp hs]
          rintro data' hdata'
          cases hdata'
          refine ⟨q, r, List.mem_append_right _ List.mem_cons_self, rfl, ?_⟩
          obtain rfl | hnil := hdata
          · exact hr
          · exact .inr hnil
    | _ => exact hkeep

/-- No future is lost and none is settled twice: what `async_call` has given out is in the map or
settled, with the body of a response to it, with an empty one, or without a value. -/
theorem futures_of_run (hrun : ops.foldlM step (start b n) = some c)
    (hlt : c.ledger.issued.length < 2 ^ 63) :
    (c.ledger.calls.futureMap ++ c.ledger.settled.map Prod.fst).Perm
        (c.ledger.issued.filter fun id => Calls.cbFlag id = false) ∧
      c.ledger.issued.Nodup ∧ ∀ s ∈ c.ledger.settled, Answered ops s := by
  have hconsistent := consistent_of_passes ⟨ops, List.prefix_refl _, hrun⟩ hlt
  exact ⟨hconsistent.futures, hconsistent.nodup, answered_of_run hrun⟩

/-- The first future is settled without a value when the connection is lost, the second with its
response. -/
theorem futures_exchange : ∃ c, exchange.foldlM step (start true 1) = some c ∧
    c.ledger.settled = [(1, none), (2, some [0x92, 0, 43])] ∧
    (c.ledger.calls.futureMap ++ c.ledger.settled.map Prod.fst).Perm
        (c.ledger.issued.filter fun id => Calls.cbFlag id = false) ∧
      c.ledger.issued.Nodup ∧ ∀ s ∈ c.ledger.settled, Answered exchange s :=
  ⟨_, exchange_run, by decide +kernel, futures_of_run exchange_run (by decide +kernel)⟩

section Callbacks

/-- No callback has been called twice, and none waits that has been called. -/
structure CalledOnce (l : Ledger) : Prop where
  nodup : (l.called.map Completion.reqId).Nodup
  waits : ∀ comp ∈ l.called, comp.reqId ∉ keys l.calls.callbackMap

/-- The steps in which a head cannot be read while callbacks wait, and nothing is closed. -/
def repeats (c : Client) : Event → Bool
  | .head (.error _) => c.isOpen ∧ ¬c.hasConnected ∧ c.ledger.calls.callbackMap ≠ []
  | _ => false

variable {l : Ledger}

theorem calledOnce_init : CalledOnce ⟨.init, [], [], []⟩ := ⟨.nil, nofun⟩

theorem calledOnce_begin (h : CalledOnce l) (hl : Consistent l) {model : CallModel}
    (hl' : Consistent (l.begin model)) : CalledOnce (l.begin model) := by
  have hnew : (l.calls.begin model).1 ∉ l.issued := by
    have hnodup : (l.issued ++ [(l.calls.begin model).1]).Nodup := hl'.nodup
    exact fun hmem => (List.nodup_append.mp hnodup).2.2 _ hmem _ List.mem_cons_self rfl
  refine ⟨h.nodup, fun comp hcomp hid => ?_⟩
  have hne : comp.reqId ≠ (l.calls.begin model).1 := fun heq =>
    hnew (heq ▸ (hl.called comp hcomp).2)
  cases model with
  | future => exact h.waits comp hcomp hid
  | callback =>
    change comp.reqId ∈ keys (l.calls.begin .callback).2.callbackMap at hid
    rw [Calls.begin] at hid
    dsimp only at hid
    split at hid
    · exact h.waits comp hcomp hid
    · rw [keys, List.map_append] at hid
      obtain hid | hid := List.mem_append.mp hid
      · exact h.waits comp hcomp hid
      · exact hne (List.mem_singleton.mp hid)

theorem calledOnce_callBack (h : CalledOnce l) {l' : Ledger} {reqId : UInt64}
    {ec : Option ErrorCode} {data : List UInt8} (hl : l.callBack reqId ec data = some l') :
    CalledOnce l' := by
  obtain ⟨calls', comp, htakes, rfl⟩ := ledger_callBack hl
  cases htakes with
  | callback ec d hflag hid =>
    have hnew : reqId ∉ l.called.map Completion.reqId := by
      intro hmem
      obtain ⟨comp, hcomp, rfl⟩ := List.mem_map.mp hmem
      exact h.waits comp hcomp hid
    rw [if_pos hflag]
    refine ⟨?_, fun comp hcomp hid' => ?_⟩
    · change ((l.called ++ [(⟨reqId, ec, d⟩ : Completion)]).map Completion.reqId).Nodup
      rw [List.map_append]
      exact h.nodup.append (List.nodup_singleton _) (by simpa using hnew)
    · obtain ⟨hid', hne⟩ := mem_keys_hdel.mp hid'
      obtain hcomp | hcomp := List.mem_append.mp hcomp
      · exact h.waits comp hcomp hid'
      · exact hne (congrArg Completion.reqId (List.mem_singleton.mp hcomp))
  | future hflag =>
    rw [if_neg (by rw [hflag]; exact Bool.false_ne_true)]
    exact ⟨h.nodup, h.waits⟩

theorem calledOnce_fail_clear (h : CalledOnce l) (hl : Consistent l) (ec : ErrorCode) :
    CalledOnce (l.fail ec).clear := by
  refine ⟨?_, fun _ _ => List.not_mem_nil⟩
  change ((l.called ++ (keys l.calls.callbackMap).map fun id => (⟨id, some ec, []⟩ : Completion)).map
    Completion.reqId).Nodup
  have hids : (keys l.calls.callbackMap).map
      (Completion.reqId ∘ fun id => (⟨id, some ec, []⟩ : Completion)) = keys l.calls.callbackMap :=
    List.map_id _
  rw [List.map_append, List.map_map, hids]
  refine h.nodup.append hl.callbacks fun id hid hid' => ?_
  obtain ⟨comp, hcomp, rfl⟩ := List.mem_map.mp hid
  exact h.waits comp hcomp hid'

theorem calledOnce_of_step (h : step c e = some c') (hc : Consistent c.ledger)
    (hc' : Consistent c'.ledger) (honce : CalledOnce c.ledger) (hrepeats : repeats c e = false) :
    CalledOnce c'.ledger := by
  obtain ⟨-, v, hv, heffect⟩ := effect_of_step h
  rw [ledger_eq hv] at hc' ⊢
  cases heffect with
  | begins model => exact calledOnce_begin honce hc hc'
  | expires id =>
    have hkeys : keys (c.ledger.calls.expire id).callbackMap = keys c.ledger.calls.callbackMap :=
      List.append_cancel_left (Calls.waiting_expire c.ledger.calls id)
    exact ⟨honce.nodup, hkeys ▸ honce.waits⟩
  | headFails ec hopen hconnected =>
    have hempty : c.ledger.calls.callbackMap = [] := by
      simpa [repeats, hopen, hconnected] using hrepeats
    have hfail : c.ledger.fail ec = c.ledger := by
      rw [Ledger.fail, hempty, keys, List.map_nil, List.map_nil, List.append_nil]
    change CalledOnce (c.ledger.fail ec)
    rw [hfail]
    exact honce
  | headCloses ec => exact calledOnce_fail_clear honce hc ec
  | closes => exact ⟨honce.nodup, fun _ _ => List.not_mem_nil⟩
  | answers _ _ hl => exact calledOnce_callBack honce hl
  | _ => exact honce

/-- No callback is called twice, nor waits for its result when it has been called, exactly when no
head fails to be read while the client counts as not connected and callbacks wait. -/
theorem calledOnce_iff (hrun : ops.foldlM step (start b n) = some last)
    (hlt : last.ledger.issued.length < 2 ^ 63) :
    (∀ c, Passes step (start b n) ops c → CalledOnce c.ledger) ↔
      EachStep step (fun c e => repeats c e = false) (start b n) ops := by
  refine safe_iff_of_passes (I := fun c => Consistent c.ledger ∧ CalledOnce c.ledger)
    (fun _ h => h.2) (fun c e c' hs hI hC h => ?_) (fun c e c' hI hC h hsafe => ?_)
    ⟨consistent_init, calledOnce_init⟩ hrun
  · have hc' := consistent_of_step h (issued_lt_of_passes hrun hlt hs) hI.1
    exact ⟨hc', calledOnce_of_step h hI.1 hc' hI.2 hC⟩
  · rw [Bool.not_eq_false] at hC
    obtain ⟨-, v, hv, heffect⟩ := effect_of_step h
    rw [ledger_eq hv] at hsafe
    match e, hC, heffect with
    | .head (.error ec), hC, heffect =>
      obtain ⟨hopen, hconnected, hne⟩ := of_decide_eq_true hC
      cases heffect with
      | writes hw => cases hw
      | keeps hw => simp [quiet, hopen] at hw
      | headCloses _ hw => simp [closes, hconnected] at hw
      | closes hw => simp [closes, hconnected] at hw
      | headFails =>
        obtain ⟨x, xs, hmap⟩ := List.exists_cons_of_ne_nil hne
        have hid : x.1 ∈ keys c.ledger.calls.callbackMap := by
          rw [hmap]
          exact List.mem_cons_self
        have hcomp : (⟨x.1, some ec, []⟩ : Completion) ∈ (c.ledger.fail ec).called :=
          List.mem_append_right _ (List.mem_map.mpr ⟨x.1, hid, rfl⟩)
        exact hsafe.waits _ hcomp hid

/-- One callback gets its response, the other the error that ends the connection. -/
theorem calledOnce_exchange : ∃ last, exchange.foldlM step (start true 1) = some last ∧
    last.ledger.called = [⟨firstId, none, [0x92, 0, 42]⟩,
      ⟨firstId + 1, some .connectionAborted, []⟩] ∧
    ∀ c, Passes step (start true 1) exchange c → CalledOnce c.ledger :=
  ⟨_, exchange_run, by decide +kernel,
    (calledOnce_iff exchange_run (by decide +kernel)).mpr (by decide +kernel)⟩

end Callbacks

section Waiting

variable {id : UInt64}

def ends (id : UInt64) (c : Client) : Event → Bool
  | .body q r => q.reqId = id ∧ callsBack c q r
  | _ => false

theorem nodup_futureMap (h : Consistent c.ledger) : c.ledger.calls.futureMap.Nodup := by
  have hnodup := h.futures.nodup_iff.mpr (h.nodup.filter _)
  exact (List.nodup_append.mp hnodup).1

theorem mem_futureMap_callBack {l l' : Ledger} {reqId : UInt64} {ec : Option ErrorCode}
    {data : List UInt8} (hl : l.callBack reqId ec data = some l') :
    (id ∈ l.calls.futureMap → id ≠ reqId → id ∈ l'.calls.futureMap) ∧
      (id = reqId → l.calls.Sorted → l.calls.futureMap.Nodup → id ∉ l'.calls.futureMap) := by
  obtain ⟨calls', comp, htakes, rfl⟩ := ledger_callBack hl
  cases htakes with
  | callback _ _ hflag =>
    rw [if_pos hflag]
    refine ⟨fun hid _ => hid, ?_⟩
    rintro rfl hsorted _ hid
    exact Bool.false_ne_true ((hsorted.future _ hid).symm.trans hflag)
  | future hflag =>
    rw [if_neg (by rw [hflag]; exact Bool.false_ne_true)]
    refine ⟨fun hid hne => (List.mem_erase_of_ne hne).mpr hid, ?_⟩
    rintro rfl _ hnodup
    exact hnodup.not_mem_erase

theorem waits_of_step (h : step c e = some c') (hid : id ∈ c.ledger.calls.futureMap)
    (hcloses : closes c e = false) (hends : ends id c e = false) :
    id ∈ c'.ledger.calls.futureMap := by
  obtain ⟨-, v, hv, heffect⟩ := effect_of_step h
  rw [ledger_eq hv]
  cases heffect with
  | begins model =>
    cases model with
    | future =>
      change id ∈ (c.ledger.calls.begin .future).2.futureMap
      rw [Calls.begin]
      dsimp only
      split
      · exact hid
      · exact List.mem_append_left _ hid
    | callback => exact hid
  | headCloses _ hw => exact absurd (hcloses.symm.trans hw) Bool.false_ne_true
  | closes hw => exact absurd (hcloses.symm.trans hw) Bool.false_ne_true
  | answers hq hcall hl =>
    have hne := of_decide_eq_false hends
    exact (mem_futureMap_callBack hl).1 hid fun heq => hne ⟨heq.symm, hcall⟩
  | _ => exact hid

theorem not_waits_of_ends (h : step c e = some c') (hc : Consistent c.ledger)
    (hid : id ∈ c.ledger.calls.futureMap) (hends : ends id c e = true) :
    id ∉ c'.ledger.calls.futureMap := by
  obtain ⟨-, v, hv, heffect⟩ := effect_of_step h
  rw [ledger_eq hv]
  match e, hends, heffect with
  | .body q r, hends, heffect =>
    obtain ⟨rfl, hcall⟩ := of_decide_eq_true hends
    have hno := closes_of_callsBack hcall
    cases heffect with
    | writes hw => cases hw
    | keeps hw => cases hw
    | closes hw => exact absurd (hno.symm.trans hw) Bool.false_ne_true
    | skips _ _ hskip => exact absurd (hskip.symm.trans hcall) Bool.false_ne_true
    | answers _ _ hl => exact (mem_futureMap_callBack hl).2 rfl hc.sorted (nodup_futureMap hc)
    | aborts _ _ hl =>
      exact absurd (List.mem_append_left _ hid) ((ledger_callBack_none hc.sorted).mp hl)

/-- A future is left waiting exactly when nothing calls back for it and the client is not closed
while it is connected: to connect again does not settle it. -/
theorem waits_iff {past : List Event} (hpast : Passes step (start b n) past c)
    (hid : id ∈ c.ledger.calls.futureMap) (hrun : ops.foldlM step c = some last)
    (hlt : last.ledger.issued.length < 2 ^ 63) :
    (∀ c', Passes step c ops c' → id ∈ c'.ledger.calls.futureMap) ↔
      EachStep step (fun c e => closes c e = false ∧ ends id c e = false) c ops := by
  have hc := consistent_of_passes hpast
    (issued_lt_of_passes hrun hlt ⟨[], List.nil_prefix, rfl⟩)
  refine safe_iff_of_passes
    (I := fun c => Consistent c.ledger ∧ id ∈ c.ledger.calls.futureMap)
    (fun _ h => h.2) (fun c e c' hs hI hC h => ?_) (fun c e c' hI hC h => ?_) ⟨hc, hid⟩ hrun
  · have hc' := consistent_of_step h (issued_lt_of_passes hrun hlt hs) hI.1
    exact ⟨hc', waits_of_step h hI.2 hC.1 hC.2⟩
  · rw [not_and_or, Bool.not_eq_false, Bool.not_eq_false] at hC
    obtain hcloses | hends := hC
    · obtain ⟨-, v, hv, heffect⟩ := effect_of_step h
      rw [ledger_eq hv, (effect_closes heffect hcloses).1]
      exact List.not_mem_nil
    · exact not_waits_of_ends h hI.1 hI.2 hends

/-- The future stays after its write has failed and the client is connected again, and until a
response calls back for it. -/
theorem waits_exchange : ∃ c, Passes step (start true 1) (exchange.take 7) c ∧
    (∀ c', Passes step c [.written (some .connectionAborted), .connected [] none] c' →
      1 ∈ c'.ledger.calls.futureMap) ∧
    ¬ ∀ c', Passes step c [.written none, .head (.ok ⟨1, 0, 3⟩), .body ⟨1, 0, 3⟩ (.ok [0x92, 0, 42])]
      c' → 1 ∈ c'.ledger.calls.futureMap := by
  have hpast : Passes step (start true 1) (exchange.take 7) _ := ⟨_, List.prefix_rfl, rfl⟩
  refine ⟨_, hpast, (waits_iff hpast (by decide +kernel) rfl (by decide +kernel)).mpr
    (by decide +kernel), ?_⟩
  rw [waits_iff hpast (by decide +kernel) rfl (by decide +kernel)]
  decide +kernel

end Waiting

end Runs

end DistExp.Rpc.ClientLedger
