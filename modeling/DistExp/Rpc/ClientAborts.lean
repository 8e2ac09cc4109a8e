import DistExp.Rpc.ClientLedger

namespace DistExp.Rpc.ClientAborts

open DistExp.Library.FieldMap DistExp.Library.Runs DistExp.Rpc.ClientCalls DistExp.Rpc.ClientLoop
  DistExp.Rpc.ClientFailures DistExp.Rpc.ClientLedger DistExp.Rpc.Wire

variable {c c' last : Client} {e : Event} {ops : List Event} {b : Bool} {n : Int}

def asserts (c : Client) : Event → Bool
  | .body q r => callsBack c q r ∧ q.reqId ∉ c.ledger.calls.waiting
  | _ => false

theorem asserts_of_closes (h : closes c e = true) : asserts c e = false := by
  cases e with
  | body q r =>
    refine decide_eq_false fun hasserts => ?_
    exact Bool.false_ne_true ((closes_of_callsBack hasserts.1).symm.trans h)
  | _ => rfl

theorem aborted_of_step (h : step c e = some c') (hc : Consistent c.ledger) :
    c'.aborted = asserts c e := by
  obtain ⟨ha, v, hv, heffect⟩ := effect_of_step h
  rw [aborted_eq hv]
  cases heffect with
  | writes hw => cases e <;> first | exact ha | cases hw
  | keeps hw => cases e <;> first | exact ha | cases hw
  | closes hw => exact ha.trans (asserts_of_closes hw).symm
  | skips q data hskip => exact ha.trans (by simp [asserts, hskip])
  | answers hq hcall hl =>
    have hid := mt (ledger_callBack_none hc.sorted).mpr (by rw [hl]; exact nofun)
    exact ha.trans (decide_eq_false fun hasserts => hid hasserts.2).symm
  | aborts hq hcall hl =>
    have hid := (ledger_callBack_none hc.sorted).mp hl
    exact (decide_eq_true ⟨hcall, hid⟩).symm
  | _ => exact ha

/-- No assertion fails exactly when every body that is called back for has an id that waits. -/
theorem aborts_iff (hrun : ops.foldlM step (start b n) = some last)
    (hlt : last.ledger.issued.length < 2 ^ 63) :
    (∀ c, Passes step (start b n) ops c → c.aborted = false) ↔
      EachStep step (fun c e => asserts c e = false) (start b n) ops := by
  refine safe_iff_of_passes (I := fun c => Consistent c.ledger ∧ c.aborted = false)
    (fun _ h => h.2) (fun c e c' hs hI hC h => ?_) (fun c e c' hI hC h ha => ?_)
    ⟨consistent_init, rfl⟩ hrun
  · have hc' := consistent_of_step h (issued_lt_of_passes hrun hlt hs) hI.1
    exact ⟨hc', (aborted_of_step h hI.1).trans hC⟩
  · exact hC ((aborted_of_step h hI.1).symm.trans ha)

def twiceAnswered : List Event :=
  exchange ++ [.head (.ok ⟨2, 0, 3⟩), .body ⟨2, 0, 3⟩ (.ok [0x92, 0, 43])]

theorem aborts_exchange :
    (∃ last, exchange.foldlM step (start true 1) = some last ∧
      ∀ c, Passes step (start true 1) exchange c → c.aborted = false) ∧
    ∃ last, twiceAnswered.foldlM step (start true 1) = some last ∧
      ¬ ∀ c, Passes step (start true 1) twiceAnswered c → c.aborted = false := by
  obtain ⟨last, hlast⟩ : ∃ last, twiceAnswered.foldlM step (start true 1) = some last := ⟨_, rfl⟩
  have hlt : (twiceAnswered.foldlM step (start true 1)).map (·.ledger.issued.length) = some 4 := by
    decide +kernel
  rw [hlast, Option.map_some, Option.some.injEq] at hlt
  refine ⟨⟨_, exchange_run, (aborts_iff exchange_run (by decide +kernel)).mpr (by decide +kernel)⟩,
    last, hlast, ?_⟩
  rw [aborts_iff hlast (by omega)]
  decide +kernel

section Open

theorem isOpen_errorCallback (h : c.isOpen = true) : c.errorCallback.isOpen = true := by
  rw [Client.errorCallback]
  split
  · rfl
  · exact h

theorem isOpen_close (h : c.isOpen = true) (hc : c.hasConnected = false) : c.close.isOpen = true := by
  rw [Client.close, if_neg (by rw [hc]; exact Bool.false_ne_true)]
  exact h

theorem isOpen_connected {pairs : List (PubSub.Text × PubSub.Text)} {ec : Option ErrorCode}
    (h : next c (.connected pairs ec) = some c') (hopen : c.isOpen = true) : c'.isOpen = true := by
  rw [next] at h
  split at h
  case isFalse => cases h
  case isTrue =>
    cases ec with
    | none =>
      rw [Client.onConnected] at h
      split at h
      · cases h
        exact hopen
      · rw [Client.resendSubscribe] at h
        split at h
        · cases h
        · cases h
          exact hopen
    | some ec =>
      rw [Client.onConnected] at h
      split at h <;> cases h
      · exact hopen
      · rfl

theorem isOpen_head {r : Except ErrorCode Reading} (h : next c (.head r) = some c')
    (hopen : c.isOpen = true) (hc : closes c (.head r) = false) : c'.isOpen = true := by
  rw [next] at h
  split at h
  case isFalse => cases h
  case isTrue =>
    cases h
    rw [Client.onHead.eq_def, if_neg (by simp [hopen])]
    cases r with
    | ok q =>
      dsimp only
      split
      · exact hopen
      split
      case isTrue hlen =>
        have hconnected : c.hasConnected = false := by simpa [closes, hopen, hlen] using hc
        exact isOpen_errorCallback (isOpen_close hopen hconnected)
      case isFalse => exact hopen
    | error ec =>
      have hconnected : c.hasConnected = false := by simpa [closes, hopen] using hc
      exact isOpen_errorCallback (isOpen_close hopen hconnected)

theorem isOpen_callBack {reqId : UInt64} {ec : Option ErrorCode} {data : List UInt8}
    {andThen : Client → Client} (hopen : c.isOpen = true)
    (hk : ∀ d, d.isOpen = true → d.hasConnected = c.hasConnected → (andThen d).isOpen = true) :
    (c.callBack reqId ec data andThen).isOpen = true := by
  rw [Client.callBack]
  split
  · exact hopen
  · exact hk _ hopen rfl

theorem isOpen_callbackSub (h : c.isOpen = true) (result : List UInt8) :
    (c.callbackSub result).isOpen = true := by
  rw [Client.callbackSub]
  split
  · exact h
  · exact isOpen_errorCallback h

theorem isOpen_body {q : Reading} {r : Except ErrorCode (List UInt8)}
    (h : next c (.body q r) = some c') (hopen : c.isOpen = true)
    (hc : closes c (.body q r) = false) : c'.isOpen = true := by
  rw [next] at h
  split at h
  case isFalse => cases h
  case isTrue =>
    cases h
    rw [Client.onBody.eq_def, if_neg (by simp [hopen])]
    cases r with
    | ok data =>
      dsimp only
      split
      case h_1 => exact isOpen_callBack hopen fun d hd _ => hd
      case h_2 =>
        exact isOpen_callbackSub (c := { c with bodies := c.bodies.erase q }) hopen data
      case h_3 htype =>
        have hconnected : c.hasConnected = false := by simpa [closes, hopen, htype] using hc
        exact isOpen_errorCallback (isOpen_close hopen hconnected)
    | error ec =>
      exact isOpen_callBack hopen fun d hd hconnected =>
        isOpen_errorCallback (isOpen_close hd hconnected)

theorem isOpen_of_step (h : step c e = some c') (hopen : c.isOpen = true)
    (hc : closes c e = false) : c'.isOpen = true := by
  replace h := (next_of_step h).2
  cases e with
  | connect =>
    cases h
    split
    · exact hopen
    · rfl
  | call model funcId body =>
    cases h
    rw [Client.call]
    split <;> exact hopen
  | send k =>
    rw [next] at h
    split at h
    · cases h
    · cases h
      exact hopen
  | subscribe key token =>
    rw [next] at h
    split at h
    · cases h
      exact hopen
    split at h
    · cases h
    · cases h
      exact hopen
  | close =>
    cases h
    exact isOpen_close hopen hc
  | heartbeat =>
    cases h
    split <;> exact hopen
  | expire id =>
    cases h
    exact hopen
  | connected pairs ec => exact isOpen_connected h hopen
  | written ec =>
    rw [next] at h
    split at h
    case isFalse => cases h
    case isTrue =>
      cases h
      cases ec with
      | none => exact hopen
      | some ec => exact isOpen_errorCallback (isOpen_close hopen rfl)
  | head r => exact isOpen_head h hopen hc
  | body q r => exact isOpen_body h hopen hc

end Open

section Orderly

variable {id : UInt64}

/-- What the server and the connection do: a response is announced to a call that waits and is not
being answered already, and no publication is cut off. -/
def announces (c : Client) : Event → Bool
  | .head (.ok q) =>
    ¬c.isOpen ∨ q.reqType = 1 ∨
      (q.reqType = 0 ∧ q.reqId ∈ c.ledger.calls.waiting ∧
        ∀ p ∈ c.bodies, p.reqId = q.reqId → p.reqType = 1)
  | .body q (.error _) => q.reqType = 0
  | _ => true

/-- The bodies that are being read are publications, or responses to different calls that wait. -/
structure Expected (c : Client) : Prop where
  waits : ∀ q ∈ c.bodies, q.reqType = 1 ∨ (q.reqType = 0 ∧ q.reqId ∈ c.ledger.calls.waiting)
  distinct : c.bodies.Pairwise fun p q => p.reqId = q.reqId → p.reqType = 1 ∨ q.reqType = 1
  isOpen : c.bodies ≠ [] → c.isOpen = true

theorem mem_waiting_begin {calls : Calls} (hid : id ∈ calls.waiting) (model : CallModel) :
    id ∈ (calls.begin model).2.waiting := by
  obtain hid | hid := List.mem_append.mp hid
  · refine List.mem_append_left _ ?_
    cases model with
    | future =>
      rw [Calls.begin]
      dsimp only
      split
      · exact hid
      · exact List.mem_append_left _ hid
    | callback => exact hid
  · refine List.mem_append_right _ ?_
    cases model with
    | future => exact hid
    | callback =>
      rw [Calls.begin]
      dsimp only
      split
      · exact hid
      · rw [keys, List.map_append]
        exact List.mem_append_left _ hid

theorem mem_waiting_callBack {l l' : Ledger} {reqId : UInt64} {ec : Option ErrorCode}
    {data : List UInt8} (hl : l.callBack reqId ec data = some l') (hid : id ∈ l.calls.waiting)
    (hne : id ≠ reqId) : id ∈ l'.calls.waiting := by
  obtain ⟨calls', comp, htakes, rfl⟩ := ledger_callBack hl
  have hmem : id ∈ calls'.waiting := by
    cases htakes with
    | callback =>
      obtain hid | hid := List.mem_append.mp hid
      · exact List.mem_append_left _ hid
      · exact List.mem_append_right _ (mem_keys_hdel.mpr ⟨hid, hne⟩)
    | future =>
      obtain hid | hid := List.mem_append.mp hid
      · exact List.mem_append_left _ ((List.mem_erase_of_ne hne).mpr hid)
      · exact List.mem_append_right _ hid
  split <;> exact hmem

theorem reqType_of_callsBack (h : Expected c) {q : Reading} {r : Except ErrorCode (List UInt8)}
    (hq : q ∈ c.bodies) (hcall : callsBack c q r = true) (hann : announces c (.body q r) = true) :
    q.reqType = 0 := by
  have hopen := h.isOpen (List.ne_nil_of_mem hq)
  cases r with
  | ok data =>
    obtain hclosed | htype := of_decide_eq_true hcall
    · exact absurd hopen hclosed
    · rw [RequestType.ofByte] at htype
      split at htype
      case isTrue h0 => exact h0
      case isFalse => split at htype <;> cases htype
  | error ec => exact of_decide_eq_true hann

theorem mem_bodies_of_step (h : step c e = some c') : ∀ q r, e = .body q r → q ∈ c.bodies := by
  rintro q r rfl
  have hnext := (next_of_step h).2
  rw [next] at hnext
  split at hnext
  case isTrue hq => exact hq.1
  case isFalse => cases hnext

theorem asserts_eq_false (h : step c e = some c') (hI : Expected c) (hann : announces c e = true) :
    asserts c e = false := by
  cases e with
  | body q r =>
    have hq := mem_bodies_of_step h q r rfl
    refine decide_eq_false ?_
    rintro ⟨hcall, hwaits⟩
    have htype := reqType_of_callsBack hI hq hcall hann
    obtain hone | hzero := hI.waits q hq
    · rw [htype] at hone
      exact absurd hone (by decide)
    · exact hwaits hzero.2
  | _ => rfl

theorem expected_of_sublist (h : Expected c) (hb : c'.bodies.Sublist c.bodies)
    (hw : ∀ q ∈ c'.bodies, q.reqType = 0 → q.reqId ∈ c.ledger.calls.waiting →
      q.reqId ∈ c'.ledger.calls.waiting)
    (hopen : c.isOpen = true → c'.isOpen = true) : Expected c' where
  waits q hq := (h.waits q (hb.subset hq)).imp_right fun hzero => ⟨hzero.1, hw q hq hzero.1 hzero.2⟩
  distinct := h.distinct.sublist hb
  isOpen hne := by
    refine hopen (h.isOpen fun hnil => hne ?_)
    rw [hnil] at hb
    exact List.sublist_nil.mp hb

theorem ne_of_mem_erase (h : Expected c) {p q : Reading} (hq : q ∈ c.bodies)
    (hp : p ∈ c.bodies.erase q) (hp0 : p.reqType = 0) (hq0 : q.reqType = 0) : p.reqId ≠ q.reqId := by
  have hsymm : ∀ {p q : Reading}, (p.reqId = q.reqId → p.reqType = 1 ∨ q.reqType = 1) →
      q.reqId = p.reqId → q.reqType = 1 ∨ p.reqType = 1 := fun h heq => (h heq.symm).symm
  have hdistinct := h.distinct.perm (List.perm_cons_erase hq) hsymm
  intro heq
  have hone := (List.pairwise_cons.mp hdistinct).1 p hp heq.symm
  rw [hp0, hq0] at hone
  exact absurd hone (by decide)

theorem expected_reads (h : Expected c) {q : Reading} (ho : c.isOpen = true)
    (hann : announces c (.head (.ok q)) = true) (hbodies : c'.bodies = c.bodies ++ [q])
    (hledger : c'.ledger = c.ledger) (ho' : c'.isOpen = true) : Expected c' := by
  have hq : q.reqType = 1 ∨ (q.reqType = 0 ∧ q.reqId ∈ c.ledger.calls.waiting ∧
      ∀ p ∈ c.bodies, p.reqId = q.reqId → p.reqType = 1) :=
    (of_decide_eq_true hann).resolve_left fun hclosed => hclosed ho
  refine ⟨fun p hp => ?_, ?_, fun _ => ho'⟩
  · rw [hledger]
    rw [hbodies] at hp
    obtain hp | hp := List.mem_append.mp hp
    · exact h.waits p hp
    · rw [List.mem_singleton.mp hp]
      exact hq.imp_right fun hzero => ⟨hzero.1, hzero.2.1⟩
  · rw [hbodies]
    refine List.pairwise_append.mpr
      ⟨h.distinct, List.pairwise_singleton _ _, fun p hp p' hp' heq => ?_⟩
    rw [List.mem_singleton.mp hp'] at heq ⊢
    obtain hone | hzero := hq
    · exact .inr hone
    · exact .inl (hzero.2.2 p hp heq)

theorem expected_of_step (h : step c e = some c') (hI : Expected c)
    (hcloses : closes c e = true → c.bodies = []) (hann : announces c e = true) : Expected c' := by
  obtain ⟨-, v, hv, heffect⟩ := effect_of_step h
  have hbodies := bodies_eq hv
  have hledger := ledger_eq hv
  cases hc : closes c e with
  | true =>
    have hnil : c'.bodies = [] := by
      have hsub := (effect_closes heffect hc).2
      rw [hcloses hc] at hsub
      rw [hbodies]
      exact List.sublist_nil.mp hsub
    exact ⟨by rw [hnil]; exact nofun, by rw [hnil]; exact .nil, fun hne => absurd hnil hne⟩
  | false =>
    have hopen := fun ho => isOpen_of_step h ho hc
    have hkeep : c'.bodies.Sublist c.bodies → c'.ledger.calls.waiting = c.ledger.calls.waiting →
        Expected c' := fun hb hw => expected_of_sublist hI hb (fun _ _ _ hid => hw ▸ hid) hopen
    cases heffect with
    | begins model =>
      refine expected_of_sublist hI (hbodies ▸ List.Sublist.refl _) (fun q _ _ hid => ?_) hopen
      rw [hledger]
      exact mem_waiting_begin hid model
    | expires id =>
      refine hkeep (hbodies ▸ List.Sublist.refl _) ?_
      rw [hledger]
      exact Calls.waiting_expire _ _
    | reads q ho => exact expected_reads hI ho hann hbodies hledger (hopen ho)
    | headCloses _ hw => exact absurd (hc.symm.trans hw) Bool.false_ne_true
    | closes hw => exact absurd (hc.symm.trans hw) Bool.false_ne_true
    | skips q data => exact hkeep (hbodies ▸ List.erase_sublist) (hledger ▸ rfl)
    | @answers q r ec data ledger hq hcall hl =>
      have hq0 := reqType_of_callsBack hI hq hcall hann
      refine expected_of_sublist hI (hbodies ▸ List.erase_sublist) (fun p hp hp0 hid => ?_) hopen
      rw [hbodies] at hp
      rw [hledger]
      exact mem_waiting_callBack hl hid (ne_of_mem_erase hI hq hp hp0 hq0)
    | aborts => exact hkeep (hbodies ▸ List.erase_sublist) (hledger ▸ rfl)
    | _ => exact hkeep (hbodies ▸ List.Sublist.refl _) (hledger ▸ rfl)

theorem expected_start : Expected (start b n) where
  waits _ hq := absurd hq List.not_mem_nil
  distinct := .nil
  isOpen hne := absurd rfl hne

/-- While the server answers each call that waits once, no publication is cut off and nobody closes
the client in the middle of a body, no assertion of the client fails. -/
theorem not_aborted_of_passes
    (hC : EachStep step (fun c e => (closes c e = true → c.bodies = []) ∧ announces c e = true)
      (start b n) ops)
    (hs : Passes step (start b n) ops c) (hlt : c.ledger.issued.length < 2 ^ 63) :
    c.aborted = false := by
  have hinv := passes_invariant
    (I := fun c => Expected c ∧ (c.ledger.issued.length < 2 ^ 63 →
      Consistent c.ledger ∧ c.aborted = false))
    (fun c e c' hI hC h => ?_) ⟨expected_start, fun _ => ⟨consistent_init, rfl⟩⟩ hC hs
  · exact (hinv.2 hlt).2
  · refine ⟨expected_of_step h hI.1 hC.1 hC.2, fun hlt => ?_⟩
    have hc := (hI.2 ((issued_prefix_of_step h).length_le.trans_lt hlt)).1
    have hno := asserts_eq_false h hI.1 hC.2
    exact ⟨consistent_of_step h hlt hc, (aborted_of_step h hc).trans hno⟩

theorem not_aborted_exchange : ∃ c, exchange.foldlM step (start true 1) = some c ∧
    c.aborted = false := by
  refine ⟨_, exchange_run, ?_⟩
  have hs : Passes step (start true 1) exchange afterExchange := ⟨_, List.prefix_rfl, exchange_run⟩
  exact not_aborted_of_passes (by decide +kernel) hs (by decide +kernel)

end Orderly

end DistExp.Rpc.ClientAborts
