import DistExp.Rpc.ClientLoop

namespace DistExp.Rpc.ClientFailures

open DistExp.Library.FieldMap DistExp.Library.Outbox DistExp.Library.Runs DistExp.Rpc.ClientCalls
  DistExp.Rpc.ClientLoop DistExp.Rpc.Wire

section Effects

structure View where
  writer : Writer ClientMessage
  ledger : Ledger
  bodies : List Reading
  aborted : Bool

def view (c : Client) : View := ⟨c.writer, c.ledger, c.bodies, c.aborted⟩

def closes (c : Client) : Event → Bool
  | .close => c.hasConnected
  | .head (.ok q) => c.hasConnected ∧ c.isOpen ∧ (q.bodyLen = 0 ∨ maxBufLen < q.bodyLen)
  | .head (.error _) => c.hasConnected ∧ c.isOpen
  | .body q (.ok _) => c.hasConnected ∧ c.isOpen ∧ RequestType.ofByte q.reqType = none
  | _ => false

/-- Whether the handler of a body ends with `call_back`. -/
def callsBack (c : Client) (q : Reading) : Except ErrorCode (List UInt8) → Bool
  | .ok _ => ¬c.isOpen ∨ RequestType.ofByte q.reqType = some .reqRes
  | .error _ => true

def writes : Event → Bool
  | .connect | .send _ | .subscribe _ _ | .heartbeat | .connected _ _ => true
  | _ => false

def quiet (c : Client) : Event → Bool
  | .close => ¬c.hasConnected
  | .call .callback _ _ => ¬c.hasConnected
  | .head (.ok q) => ¬closes c (.head (.ok q))
  | .head (.error _) => ¬c.isOpen
  | _ => false

inductive Effect (c : Client) : Event → View → Prop where
  | writes {e} (h : writes e = true) (ms : List ClientMessage) :
    Effect c e ⟨ms.foldl Writer.push c.writer, c.ledger, c.bodies, c.aborted⟩
  | keeps {e} (h : quiet c e = true) : Effect c e ⟨c.writer, c.ledger, c.bodies, c.aborted⟩
  | begins model funcId body :
    Effect c (.call model funcId body) ⟨c.writer, c.ledger.begin model, c.bodies, c.aborted⟩
  | expires id : Effect c (.expire id) ⟨c.writer, c.ledger.expire id, c.bodies, c.aborted⟩
  | written (h : 0 < c.writer.writes) :
    Effect c (.written none) ⟨c.writer.finish.pop, c.ledger, c.bodies, c.aborted⟩
  | writeFails ec (h : 0 < c.writer.writes) :
    Effect c (.written (some ec)) ⟨c.writer.finish, c.ledger, c.bodies, c.aborted⟩
  | reads q (h : c.isOpen = true) (hc : closes c (.head (.ok q)) = false) :
    Effect c (.head (.ok q)) ⟨c.writer, c.ledger, c.bodies ++ [q], c.aborted⟩
  | headFails ec (h : c.isOpen = true) (hc : c.hasConnected = false) :
    Effect c (.head (.error ec)) ⟨c.writer, c.ledger.fail ec, c.bodies, c.aborted⟩
  | headCloses ec (h : closes c (.head (.error ec)) = true) :
    Effect c (.head (.error ec)) ⟨c.writer.clear, (c.ledger.fail ec).clear, c.bodies, c.aborted⟩
  | closes {e bodies} (h : closes c e = true) (hb : bodies.Sublist c.bodies) :
    Effect c e ⟨c.writer.clear, c.ledger.clear, bodies, c.aborted⟩
  | skips q data (h : callsBack c q (.ok data) = false)
      (hc : closes c (.body q (.ok data)) = false) :
    Effect c (.body q (.ok data)) ⟨c.writer, c.ledger, c.bodies.erase q, c.aborted⟩
  | answers {q r ec data ledger} (hq : q ∈ c.bodies) (h : callsBack c q r = true)
      (hl : c.ledger.callBack q.reqId ec data = some ledger) (hr : r = .ok data ∨ data = []) :
    Effect c (.body q r) ⟨c.writer, ledger, c.bodies.erase q, c.aborted⟩
  | aborts {q r ec data} (hq : q ∈ c.bodies) (h : callsBack c q r = true)
      (hl : c.ledger.callBack q.reqId ec data = none) :
    Effect c (.body q r) ⟨c.writer, c.ledger, c.bodies.erase q, true⟩

variable {c c' : Client} {e : Event}

theorem view_errorCallback (c : Client) : view c.errorCallback = view c := by
  rw [Client.errorCallback]
  split <;> rfl

theorem view_close (c : Client) : view c.close =
    if c.hasConnected = true then ⟨c.writer.clear, c.ledger.clear, c.bodies, c.aborted⟩
    else view c := by
  rw [Client.close]
  split <;> rfl

theorem effect_connected {pairs : List (PubSub.Text × PubSub.Text)} {ec : Option ErrorCode}
    (h : next c (.connected pairs ec) = some c') : Effect c (.connected pairs ec) (view c') := by
  have hkeeps : Effect c (.connected pairs ec) (view c) := .writes rfl []
  rw [next] at h
  split at h
  case isFalse => cases h
  case isTrue =>
    cases ec with
    | none =>
      rw [Client.onConnected] at h
      split at h
      · cases h
        exact hkeeps
      · rw [Client.resendSubscribe] at h
        split at h
        · cases h
        · cases h
          exact .writes rfl _
    | some ec =>
      rw [Client.onConnected] at h
      split at h <;> cases h <;> exact hkeeps

theorem effect_written {ec : Option ErrorCode} (h : next c (.written ec) = some c') :
    Effect c (.written ec) (view c') := by
  rw [next] at h
  split at h
  case isFalse => cases h
  case isTrue hpos =>
    cases h
    cases ec with
    | none => exact .written hpos
    | some ec =>
      rw [Client.onWritten, view_errorCallback, view_close, if_neg Bool.false_ne_true]
      exact .writeFails ec hpos

theorem effect_head {r : Except ErrorCode Reading} (h : next c (.head r) = some c') :
    Effect c (.head r) (view c') := by
  rw [next] at h
  split at h
  case isFalse => cases h
  case isTrue =>
    cases h
    rw [Client.onHead.eq_def]
    dsimp only
    split
    case isTrue hopen =>
      have hquiet : quiet c (.head r) = true := by
        cases r <;> simp [quiet, closes, hopen]
      exact .keeps hquiet
    case isFalse hopen =>
      rw [not_not] at hopen
      cases r with
      | ok q =>
        dsimp only
        split
        case isTrue hlen =>
          have hcloses : closes c (.head (.ok q)) = false := by
            have hne : q.bodyLen ≠ 0 := hlen.1.ne'
            have hle : ¬maxBufLen < q.bodyLen := hlen.2.le.not_gt
            simp [closes, hne, hle]
          exact .reads q hopen hcloses
        split
        case isTrue hlen =>
          rw [view_errorCallback, view_close]
          dsimp only
          split
          case isTrue hc => exact .closes (by simp [closes, hc, hopen, hlen]) (List.Sublist.refl _)
          case isFalse hc => exact .keeps (by simp [quiet, closes, hc])
        case isFalse hlen => exact .keeps (by simp [quiet, closes, hlen])
      | error ec =>
        rw [view_errorCallback, view_close]
        dsimp only
        split
        case isTrue hc => exact .headCloses ec (by simp [closes, hc, hopen])
        case isFalse hc => exact .headFails ec hopen (Bool.eq_false_of_not_eq_true hc)

theorem view_callbackSub (c : Client) (result : List UInt8) :
    view (c.callbackSub result) = view c := by
  rw [Client.callbackSub]
  split
  · rfl
  · exact view_errorCallback c

theorem effect_callBack {d : Client} {q : Reading} {r : Except ErrorCode (List UInt8)}
    {ec : Option ErrorCode} {data : List UInt8} {andThen : Client → Client}
    (hd : view d = ⟨c.writer, c.ledger, c.bodies.erase q, c.aborted⟩)
    (hk : ∀ d', d'.hasConnected = d.hasConnected → view (andThen d') = view d')
    (hq : q ∈ c.bodies) (h : callsBack c q r = true) (hr : r = .ok data ∨ data = []) :
    Effect c (.body q r) (view (d.callBack q.reqId ec data andThen)) := by
  obtain ⟨hwriter, hledger, hbodies, haborted⟩ := View.mk.inj hd
  rw [Client.callBack, hledger]
  split
  case h_1 hl =>
    rw [view]
    dsimp only
    rw [hwriter, hbodies]
    exact .aborts hq h hl
  case h_2 ledger hl =>
    have hview := hk { d with ledger := ledger } rfl
    rw [hview, view]
    dsimp only
    rw [hwriter, hbodies, haborted]
    exact .answers hq h hl hr

theorem effect_body {q : Reading} {r : Except ErrorCode (List UInt8)}
    (h : next c (.body q r) = some c') : Effect c (.body q r) (view c') := by
  rw [next] at h
  split at h
  case isFalse => cases h
  case isTrue hq =>
    cases h
    rw [Client.onBody.eq_def]
    dsimp only
    split
    case isTrue hopen =>
      have hcall : callsBack c q r = true := by cases r <;> simp [callsBack, hopen]
      exact effect_callBack rfl (fun _ _ => rfl) hq.1 hcall (.inr rfl)
    case isFalse hopen =>
      rw [not_not] at hopen
      cases r with
      | ok data =>
        dsimp only
        split
        case h_1 htype =>
          have hcall : callsBack c q (.ok data) = true := by simp [callsBack, htype]
          exact effect_callBack rfl (fun _ _ => rfl) hq.1 hcall (.inl rfl)
        case h_2 htype =>
          have hview := view_callbackSub { c with bodies := c.bodies.erase q } data
          change Effect c _ (view (Client.callbackSub _ data))
          rw [hview]
          exact .skips q data (by simp [callsBack, htype, hopen]) (by simp [closes, htype])
        case h_3 htype =>
          rw [view_errorCallback, view_close]
          dsimp only
          split
          case isTrue hc => exact .closes (by simp [closes, hc, hopen, htype]) List.erase_sublist
          case isFalse hc =>
            exact .skips q data (by simp [callsBack, htype, hopen]) (by simp [closes, hc])
      | error ec =>
        refine effect_callBack rfl (fun d' hd' => ?_) hq.1 rfl (.inr rfl)
        rw [view_errorCallback, view_close, hd', if_neg Bool.false_ne_true]

theorem effect_of_next (h : next c e = some c') : Effect c e (view c') := by
  cases e with
  | connect =>
    cases h
    split <;> exact .writes rfl []
  | call model funcId body =>
    cases h
    rw [Client.call]
    split
    case isTrue hc =>
      obtain ⟨rfl, hc⟩ := hc
      exact .keeps (by simp [quiet, hc])
    case isFalse => exact .begins model funcId body
  | send k =>
    rw [next] at h
    split at h
    · cases h
    case h_2 m hm =>
      cases h
      exact .writes rfl [m]
  | subscribe key token =>
    rw [next] at h
    split at h
    · cases h
      exact .writes rfl []
    split at h
    · cases h
    case h_2 m hm =>
      cases h
      exact .writes rfl [m]
  | close =>
    cases h
    rw [view_close]
    split
    case isTrue hc => exact .closes hc (List.Sublist.refl _)
    case isFalse hc => exact .keeps (by simp [quiet, hc])
  | heartbeat =>
    cases h
    split
    · exact .writes rfl [_]
    · exact .writes rfl []
  | expire id =>
    cases h
    exact .expires id
  | connected pairs ec => exact effect_connected h
  | written ec => exact effect_written h
  | head r => exact effect_head h
  | body q r => exact effect_body h

theorem next_of_step (h : step c e = some c') : c.aborted = false ∧ next c e = some c' := by
  rw [step] at h
  split at h
  case isTrue => cases h
  case isFalse ha => exact ⟨Bool.eq_false_of_not_eq_true ha, h⟩

theorem effect_of_step (h : step c e = some c') :
    c.aborted = false ∧ ∃ v, view c' = v ∧ Effect c e v := by
  obtain ⟨ha, hnext⟩ := next_of_step h
  exact ⟨ha, _, rfl, effect_of_next hnext⟩

theorem closes_of_writes (h : writes e = true) : closes c e = false := by
  cases e <;> first | rfl | cases h

theorem closes_of_quiet (h : quiet c e = true) : closes c e = false := by
  match e, h with
  | .close, h => simpa [quiet, closes] using h
  | .call .callback _ _, _ => rfl
  | .head (.ok q), h => simpa [quiet] using h
  | .head (.error _), h =>
    have hopen : c.isOpen = false := by simpa [quiet] using h
    simp [closes, hopen]

theorem closes_of_callsBack {q : Reading} {r : Except ErrorCode (List UInt8)}
    (h : callsBack c q r = true) : closes c (.body q r) = false := by
  cases r with
  | ok data =>
    obtain hopen | htype := of_decide_eq_true h
    · simp [closes, hopen]
    · simp [closes, htype]
  | error ec => rfl

variable {v : View}

theorem effect_closes (h : Effect c e v) (hc : closes c e = true) :
    v.ledger.calls = c.ledger.calls.clear ∧ v.bodies.Sublist c.bodies := by
  have hno : closes c e = false →
      v.ledger.calls = c.ledger.calls.clear ∧ v.bodies.Sublist c.bodies :=
    fun hfalse => absurd (hfalse.symm.trans hc) Bool.false_ne_true
  cases h with
  | headCloses => exact ⟨rfl, List.Sublist.refl _⟩
  | closes _ hb => exact ⟨rfl, hb⟩
  | writes hw => exact hno (closes_of_writes hw)
  | keeps hw => exact hno (closes_of_quiet hw)
  | reads _ _ hfalse => exact hno hfalse
  | headFails _ _ hconnected => exact hno (by simp [closes, hconnected])
  | skips _ _ _ hfalse => exact hno hfalse
  | answers _ hcall => exact hno (closes_of_callsBack hcall)
  | aborts _ hcall => exact hno (closes_of_callsBack hcall)
  | _ => exact hno rfl

theorem writer_eq (hv : view c = v) : c.writer = v.writer := congrArg View.writer hv

theorem ledger_eq (hv : view c = v) : c.ledger = v.ledger := congrArg View.ledger hv

theorem bodies_eq (hv : view c = v) : c.bodies = v.bodies := congrArg View.bodies hv

theorem aborted_eq (hv : view c = v) : c.aborted = v.aborted := congrArg View.aborted hv

end Effects

section Writing

variable {c c' last : Client} {e : Event} {ops : List Event} {b : Bool} {n : Int}

def strands (c : Client) : Event → Bool
  | .written (some _) => c.writer.writes = 1 ∧ c.writer.queue ≠ []
  | _ => false

theorem flowing_of_step (h : step c e = some c') (hw : c.writer.Flowing)
    (hs : strands c e = false) : c'.writer.Flowing := by
  obtain ⟨-, v, hv, heffect⟩ := effect_of_step h
  rw [writer_eq hv]
  cases heffect with
  | writes _ ms => exact Writer.flowing_pushes hw ms
  | written => exact Writer.flowing_begin _
  | writeFails ec hpos =>
    have hstrands : ¬(c.writer.writes = 1 ∧ c.writer.queue ≠ []) := of_decide_eq_false hs
    obtain hempty | hne := em (c.writer.queue = [])
    · exact .inl hempty
    · have hmany : c.writer.writes ≠ 1 := fun hone => hstrands ⟨hone, hne⟩
      exact .inr (show 0 < c.writer.writes - 1 by omega)
  | headCloses | closes => exact .inl rfl
  | _ => exact hw

/-- The queue of a client is written all along a run exactly when no write fails that is the only
one while the queue is not empty. -/
theorem flows_iff (hrun : ops.foldlM step (start b n) = some last) :
    (∀ c, Passes step (start b n) ops c → c.writer.Flowing) ↔
      EachStep step (fun c e => strands c e = false) (start b n) ops := by
  refine safe_iff_eachStep (I := fun c => c.writer.Flowing) (fun _ => id)
    (fun c e c' hw hs h => flowing_of_step h hw hs) (fun c e c' _ hs h => ?_) (.inl rfl) hrun
  rw [Bool.not_eq_false] at hs
  obtain ⟨-, v, hv, heffect⟩ := effect_of_step h
  rw [writer_eq hv]
  match e, hs, heffect with
  | .written (some ec), hs, heffect =>
    obtain ⟨hone, hne⟩ := of_decide_eq_true hs
    cases heffect with
    | writes hw => cases hw
    | keeps hw => cases hw
    | closes hw => cases hw
    | writeFails _ hpos =>
      rintro (hempty | hpos)
      · exact hne hempty
      · exact absurd hpos (show ¬0 < c.writer.writes - 1 by omega)

def firstId : UInt64 := 0x8000000000000001

/-- A callback and a future of which the callback gets its response. Then the connection is lost with
another callback and the future waiting, and the client connects again and makes one more call. -/
def exchange : List Event :=
  [.connect, .connected [] none, .call .callback 7 ⟨[0x90], by decide⟩, .send 0, .written none,
    .call .future 7 ⟨[0x90], by decide⟩, .send 0, .written none,
    .head (.ok ⟨firstId, 0, 3⟩), .body ⟨firstId, 0, 3⟩ (.ok [0x92, 0, 42]),
    .call .callback 7 ⟨[0x90], by decide⟩, .send 0, .written none, .head (.error .connectionAborted),
    .connected [] none, .call .future 7 ⟨[0x90], by decide⟩, .send 0, .written none,
    .head (.ok ⟨2, 0, 3⟩), .body ⟨2, 0, 3⟩ (.ok [0x92, 0, 43])]

def afterExchange : Client := (exchange.foldlM step (start true 1)).getD (start true 1)

theorem exchange_run : exchange.foldlM step (start true 1) = some afterExchange := rfl

def lostWrite : List Event :=
  [.connect, .connected [] none, .heartbeat, .written (some .connectionAborted), .connected [] none]

theorem flows_exchange :
    (∃ last, exchange.foldlM step (start true 1) = some last ∧
      ∀ c, Passes step (start true 1) exchange c → c.writer.Flowing) ∧
    ∃ last, lostWrite.foldlM step (start true 1) = some last ∧
      ¬ ∀ c, Passes step (start true 1) lostWrite c → c.writer.Flowing := by
  refine ⟨⟨_, exchange_run, (flows_iff exchange_run).mpr (by decide +kernel)⟩, _, rfl, ?_⟩
  rw [flows_iff rfl]
  decide +kernel

/-- What a client that is stuck does until it is closed: it queues, and writes nothing. -/
structure Stuck (w w' : Writer ClientMessage) : Prop where
  not_flowing : ¬w'.Flowing
  started_eq : w'.started = w.started
  queue_prefix : w.queue <+: w'.queue

theorem stuck_of_step {w : Writer ClientMessage} (h : step c e = some c') (hw : Stuck w c.writer)
    (hc : closes c e = false) : Stuck w c'.writer := by
  have hzero : ¬0 < c.writer.writes := fun hpos => hw.not_flowing (.inr hpos)
  obtain ⟨-, v, hv, heffect⟩ := effect_of_step h
  rw [writer_eq hv]
  cases heffect with
  | writes _ ms =>
    change Stuck w (ms.foldl Writer.push c.writer)
    rw [Writer.pushes_of_not_flowing hw.not_flowing]
    refine ⟨?_, hw.started_eq, hw.queue_prefix.trans (List.prefix_append _ _)⟩
    rintro (hempty | hpos)
    · exact hw.not_flowing (.inl (List.append_eq_nil_iff.mp hempty).1)
    · exact hzero hpos
  | written hpos => exact absurd hpos hzero
  | writeFails _ hpos => exact absurd hpos hzero
  | headCloses _ hclose => exact absurd (hc.symm.trans hclose) Bool.false_ne_true
  | closes hclose => exact absurd (hc.symm.trans hclose) Bool.false_ne_true
  | _ => exact hw

/-- A client that is stuck writes nothing any more, however often it connects again, until it is
closed while it is connected. -/
theorem stuck_of_passes (hstuck : ¬c.writer.Flowing)
    (hcloses : EachStep step (fun c e => closes c e = false) c ops) (hs : Passes step c ops c') :
    Stuck c.writer c'.writer :=
  passes_invariant (I := fun c' => Stuck c.writer c'.writer)
    (fun _ _ _ hw hc h => stuck_of_step h hw hc) ⟨hstuck, rfl, List.prefix_refl _⟩ hcloses hs

def stranded : Client :=
  { start true 1 with
    isOpen := true
    connects := 1
    writer := ⟨[⟨1, .reqRes, [0x90], 7, by decide⟩], 0, [⟨1, .reqRes, [0x90], 7, by decide⟩]⟩ }

theorem stuck_stranded : ∃ c', [.connected [] none, .heartbeat].foldlM step stranded = some c' ∧
    Stuck stranded.writer c'.writer := by
  refine ⟨_, rfl, ?_⟩
  have hcloses : EachStep step (fun c e => closes c e = false) stranded
      [.connected [] none, .heartbeat] := by decide
  exact stuck_of_passes (by rw [Writer.Flowing]; decide) hcloses ⟨_, List.prefix_refl _, rfl⟩

end Writing

end DistExp.Rpc.ClientFailures
