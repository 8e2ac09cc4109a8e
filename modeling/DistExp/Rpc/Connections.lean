import DistExp.Library.Outbox
import DistExp.Rpc.ClientCalls
import DistExp.Rpc.Codec
import DistExp.Rpc.Wire

namespace DistExp.Rpc.Connections

open DistExp.Library.Outbox DistExp.Msgpack.Adaptor DistExp.Rpc.ClientCalls DistExp.Rpc.Codec
  DistExp.Rpc.Wire

structure ServerMessage where
  reqId : UInt64
  reqType : RequestType
  content : List UInt8
  length_lt : content.length < maxBufLen

inductive NetError where
  | alreadyClosed
  | invalidBodyLen
  | failed (ec : ErrorCode)
  | notUnpacked
  deriving DecidableEq

structure Head where
  magic : UInt8
  reqType : UInt8
  bodyLen : Nat
  reqId : UInt64
  funcId : UInt32
  deriving DecidableEq

/-- A `connection` with the operations whose handlers are still to be called: `heads` and `bodies`
of messages, and the writes. The timer is `armed` while it runs, and `due` counts the handlers of
timers that have run out. -/
structure Connection where
  isOpen : Bool
  hasClosed : Bool
  timeoutSeconds : Nat
  reqId : UInt64
  reqType : UInt8
  writer : Writer ServerMessage
  armed : Bool
  due : Nat
  heads : Nat
  bodies : List Head
  netErrs : List NetError

namespace Connection

def resetTimer (c : Connection) : Connection :=
  if c.timeoutSeconds = 0 then c else { c with armed := true }

def cancelTimer (c : Connection) : Connection :=
  if c.timeoutSeconds = 0 then c else { c with armed := false }

def readHead (c : Connection) : Connection := { c.resetTimer with heads := c.heads + 1 }

def close (c : Connection) : Connection :=
  if c.hasClosed then c else { c with isOpen := false, hasClosed := true }

def netErr (c : Connection) (e : NetError) : Connection := { c with netErrs := c.netErrs ++ [e] }

def start (timeoutSeconds : Nat) : Connection :=
  readHead
    { isOpen := true
      hasClosed := false
      timeoutSeconds := timeoutSeconds
      reqId := 0
      reqType := 0
      writer := .empty
      armed := false
      due := 0
      heads := 0
      bodies := []
      netErrs := [] }

def onHead (c : Connection) (r : Except ErrorCode Head) : Connection :=
  if ¬c.isOpen then c.netErr .alreadyClosed
  else
    match r with
    | .ok h =>
      if h.magic ≠ magicNum then c.close
      else
        let c' := { c with reqId := h.reqId, reqType := h.reqType }
        if 0 < h.bodyLen ∧ h.bodyLen < maxBufLen then { c' with bodies := c'.bodies ++ [h] }
        else if h.bodyLen = 0 then c'.cancelTimer.readHead
        else (c'.netErr .invalidBodyLen).close
    | .error ec => (c.netErr (.failed ec)).close

/-- The handler of `read_body`, where the request itself is routed by the server. Unlike all others
it does not close the connection when it fails. -/
def onBody (c : Connection) (r : Except ErrorCode (List UInt8)) : Connection :=
  let c' := c.cancelTimer
  if ¬c'.isOpen then c'.netErr .alreadyClosed
  else
    match r with
    | .ok data =>
      let c'' := c'.readHead
      if c''.reqType = RequestType.subPub.toByte then
        match unpack (tuple [string, string]) data with
        | .ok _ => c''
        | .error _ => c''.netErr .notUnpacked
      else c''
    | .error ec => c'.netErr (.failed ec)

def onWrite (c : Connection) : Option ErrorCode → Connection
  | some ec => (c.netErr (.failed ec)).close
  | none => if c.hasClosed then c else { c with writer := c.writer.pop }

end Connection

inductive ConnEvent where
  | head (r : Except ErrorCode Head)
  | body (h : Head) (r : Except ErrorCode (List UInt8))
  | response (m : ServerMessage)
  | written (ec : Option ErrorCode)
  | expire
  | timeout

namespace Connection

def step (c : Connection) : ConnEvent → Option Connection
  | .head r => if 0 < c.heads then some ({ c with heads := c.heads - 1 }.onHead r) else none
  | .body h r =>
    if h ∈ c.bodies then some ({ c with bodies := c.bodies.erase h }.onBody r) else none
  | .response m => some { c with writer := c.writer.push m }
  | .written ec =>
    if 0 < c.writer.writes then some ({ c with writer := c.writer.finish }.onWrite ec) else none
  | .expire => if c.armed then some { c with armed := false, due := c.due + 1 } else none
  | .timeout => if 0 < c.due then some { c with due := c.due - 1 }.close else none

end Connection

section Invariant

variable {c c' : Connection} {e : ConnEvent}

/-- One message is read at a time, and `req_id_` and `req_type_` are those of its header; one
message is written at a time until the connection is closed. -/
structure Sound (c : Connection) : Prop where
  closed : c.isOpen = !c.hasClosed
  reads : c.heads + c.bodies.length ≤ 1
  announced : ∀ h ∈ c.bodies, c.reqId = h.reqId ∧ c.reqType = h.reqType
  writes : c.hasClosed = true ∨ c.writer.Single
  armed : c.armed = true → c.timeoutSeconds ≠ 0

theorem sound_close (h : Sound c) : Sound c.close := by
  rw [Connection.close]
  split
  · exact h
  · exact { h with closed := rfl, writes := .inl rfl }

theorem sound_cancelTimer (h : Sound c) : Sound c.cancelTimer := by
  rw [Connection.cancelTimer]
  split
  · exact h
  · exact { h with armed := nofun }

theorem sound_netErr (h : Sound c) (err : NetError) : Sound (c.netErr err) := { h with }

theorem sound_readHead (h : Sound c) (hnone : c.heads + c.bodies.length = 0) : Sound c.readHead := by
  have hreads : c.heads + 1 + c.bodies.length ≤ 1 := by omega
  rw [Connection.readHead, Connection.resetTimer]
  split
  · exact { h with reads := hreads }
  case isFalse htimeout => exact { h with reads := hreads, armed := fun _ => htimeout }

theorem sound_start (timeoutSeconds : Nat) : Sound (Connection.start timeoutSeconds) := by
  refine sound_readHead ⟨rfl, Nat.zero_le _, fun h hh => absurd hh List.not_mem_nil,
    .inr Writer.single_empty, nofun⟩ rfl

theorem sound_onHead (h : Sound c) (hnone : c.heads + c.bodies.length = 0)
    (r : Except ErrorCode Head) : Sound (c.onHead r) := by
  rw [Connection.onHead.eq_def]
  split
  · exact sound_netErr h _
  cases r with
  | error ec => exact sound_close (sound_netErr h _)
  | ok header =>
    have hbodies : c.bodies = [] := List.length_eq_zero_iff.mp (by omega)
    have hheader : Sound { c with reqId := header.reqId, reqType := header.reqType } :=
      { h with announced := fun h' hh => absurd (hbodies ▸ hh) List.not_mem_nil }
    dsimp only
    split
    · exact sound_close h
    split
    · refine
        { hheader with
          reads := ?_
          announced := fun h' hh => ?_ }
      · change c.heads + (c.bodies ++ [header]).length ≤ 1
        rw [List.length_append, List.length_singleton]
        omega
      · rw [hbodies, List.nil_append, List.mem_singleton] at hh
        rw [hh]
        exact ⟨rfl, rfl⟩
    split
    · refine sound_readHead (sound_cancelTimer hheader) ?_
      rw [Connection.cancelTimer]
      split <;> exact hnone
    · exact sound_close (sound_netErr hheader _)

theorem cancelTimer_reads (c : Connection) :
    c.cancelTimer.heads + c.cancelTimer.bodies.length = c.heads + c.bodies.length := by
  rw [Connection.cancelTimer]
  split <;> rfl

theorem sound_onBody (h : Sound c) (hnone : c.heads + c.bodies.length = 0)
    (r : Except ErrorCode (List UInt8)) : Sound (c.onBody r) := by
  have hcancel := sound_cancelTimer h
  have hread := sound_readHead hcancel ((cancelTimer_reads c).trans hnone)
  rw [Connection.onBody.eq_def]
  dsimp only
  split
  · exact sound_netErr hcancel _
  cases r with
  | error ec => exact sound_netErr hcancel _
  | ok data =>
    dsimp only
    split
    · split
      · exact hread
      · exact sound_netErr hread _
    · exact hread

inductive Effect (c : Connection) : ConnEvent → Connection → Prop
  | head (r : Except ErrorCode Head) (hpos : 0 < c.heads) :
    Effect c (.head r) ({ c with heads := c.heads - 1 }.onHead r)
  | body (h : Head) (r : Except ErrorCode (List UInt8)) (hmem : h ∈ c.bodies) :
    Effect c (.body h r) ({ c with bodies := c.bodies.erase h }.onBody r)
  | response (m : ServerMessage) : Effect c (.response m) { c with writer := c.writer.push m }
  | written (ec : Option ErrorCode) (hpos : 0 < c.writer.writes) :
    Effect c (.written ec) ({ c with writer := c.writer.finish }.onWrite ec)
  | expire (harmed : c.armed = true) :
    Effect c .expire { c with armed := false, due := c.due + 1 }
  | timeout (hdue : 0 < c.due) : Effect c .timeout { c with due := c.due - 1 }.close

theorem effect_of_step (h : c.step e = some c') : Effect c e c' := by
  cases e with
  | response m =>
    cases h
    exact .response m
  | head r =>
    rw [Connection.step] at h
    split at h
    case isTrue hpos => exact Option.some.inj h ▸ .head r hpos
    case isFalse => cases h
  | body header r =>
    rw [Connection.step] at h
    split at h
    case isTrue hmem => exact Option.some.inj h ▸ .body header r hmem
    case isFalse => cases h
  | written ec =>
    rw [Connection.step] at h
    split at h
    case isTrue hpos => exact Option.some.inj h ▸ .written ec hpos
    case isFalse => cases h
  | expire =>
    rw [Connection.step] at h
    split at h
    case isTrue harmed => exact Option.some.inj h ▸ .expire harmed
    case isFalse => cases h
  | timeout =>
    rw [Connection.step] at h
    split at h
    case isTrue hdue => exact Option.some.inj h ▸ .timeout hdue
    case isFalse => cases h

theorem sound_of_step (h : c.step e = some c') (hc : Sound c) : Sound c' := by
  have hreads := hc.reads
  cases effect_of_step h with
  | head r hpos =>
    have hnone : c.heads - 1 + c.bodies.length = 0 := by omega
    have hsound : Sound { c with heads := c.heads - 1 } :=
      { hc with reads := hnone.trans_le (Nat.zero_le 1) }
    exact sound_onHead hsound hnone r
  | body header r hmem =>
    have hpos := List.length_pos_of_mem hmem
    have hlen := List.length_erase_of_mem hmem
    have hnone : c.heads + (c.bodies.erase header).length = 0 := by omega
    have hsound : Sound { c with bodies := c.bodies.erase header } :=
      { hc with
        reads := hnone.trans_le (Nat.zero_le 1)
        announced := fun h' hh => hc.announced h' (List.mem_of_mem_erase hh) }
    exact sound_onBody hsound hnone r
  | response m =>
    exact { hc with writes := hc.writes.imp_right fun hw => Writer.single_push hw m }
  | written ec hpos =>
    cases ec with
    | some ec =>
      rw [Connection.onWrite, Connection.close]
      split
      case isTrue hclosed => exact { hc with writes := .inl hclosed }
      case isFalse => exact { hc with closed := rfl, writes := .inl rfl }
    | none =>
      rw [Connection.onWrite]
      split
      case isTrue hclosed => exact { hc with writes := .inl hclosed }
      case isFalse hopen =>
        exact { hc with writes := .inr (Writer.single_pop (hc.writes.resolve_left hopen)) }
  | expire harmed => exact { hc with armed := nofun }
  | timeout hdue => exact sound_close { hc with }

section Order

def responses : ConnEvent → List ServerMessage
  | .response m => [m]
  | .head _ | .body _ _ | .written _ | .expire | .timeout => []

theorem writer_close (c : Connection) : c.close.writer = c.writer := by
  rw [Connection.close]
  split <;> rfl

theorem writer_cancelTimer (c : Connection) : c.cancelTimer.writer = c.writer := by
  rw [Connection.cancelTimer]
  split <;> rfl

theorem writer_readHead (c : Connection) : c.readHead.writer = c.writer := by
  rw [Connection.readHead, Connection.resetTimer]
  split <;> rfl

theorem writer_start (timeoutSeconds : Nat) :
    (Connection.start timeoutSeconds).writer = .empty := writer_readHead _

theorem writer_onHead (c : Connection) (r : Except ErrorCode Head) :
    (c.onHead r).writer = c.writer := by
  rw [Connection.onHead.eq_def]
  split
  · rfl
  cases r with
  | error ec => exact writer_close _
  | ok header =>
    dsimp only
    split
    · exact writer_close _
    split
    · rfl
    split
    · exact (writer_readHead _).trans (writer_cancelTimer _)
    · exact writer_close _

theorem writer_onBody (c : Connection) (r : Except ErrorCode (List UInt8)) :
    (c.onBody r).writer = c.writer := by
  have hread := (writer_readHead c.cancelTimer).trans (writer_cancelTimer c)
  rw [Connection.onBody.eq_def]
  dsimp only
  split
  · exact writer_cancelTimer c
  cases r with
  | error ec => exact writer_cancelTimer c
  | ok data =>
    dsimp only
    split
    · split <;> exact hread
    · exact hread

theorem handed_of_step (h : c.step e = some c') :
    c'.writer.handed = c.writer.handed ++ responses e := by
  cases effect_of_step h with
  | response m => exact Writer.handed_push _ m
  | head r hpos => rw [responses, List.append_nil, writer_onHead]
  | body header r hmem => rw [responses, List.append_nil, writer_onBody]
  | written ec hpos =>
    rw [responses, List.append_nil]
    cases ec with
    | some ec =>
      rw [Connection.onWrite, writer_close]
      rfl
    | none =>
      rw [Connection.onWrite]
      split
      · rfl
      · exact Writer.handed_pop _
  | expire harmed => rw [responses, List.append_nil]
  | timeout hdue => rw [responses, List.append_nil, writer_close]

end Order

/-- The connection is closed, is about to be closed by its timer, or is being read, and its timer
then runs unless there is no timeout. -/
def Watched (c : Connection) : Prop :=
  c.hasClosed = true ∨ 0 < c.due ∨
    (c.heads + c.bodies.length = 1 ∧ (c.timeoutSeconds = 0 ∨ c.armed = true))

/-- Nothing but a write that fails will ever close the connection. -/
structure Abandoned (c : Connection) : Prop where
  hasClosed : c.hasClosed = false
  heads : c.heads = 0
  bodies : c.bodies = []
  armed : c.armed = false
  due : c.due = 0

def abandons (c : Connection) : ConnEvent → Bool
  | .body _ (.error _) => c.isOpen ∧ c.due = 0
  | _ => false

theorem not_abandoned (h : Watched c) : ¬Abandoned c := by
  intro ha
  obtain hclosed | hdue | ⟨hreads, -⟩ := h
  · exact Bool.false_ne_true (ha.hasClosed.symm.trans hclosed)
  · exact hdue.ne' ha.due
  · rw [ha.heads, ha.bodies] at hreads
    exact absurd hreads (by decide)

theorem watched_close (c : Connection) : Watched c.close := by
  rw [Connection.close]
  split
  case isTrue hclosed => exact .inl hclosed
  case isFalse => exact .inl rfl

theorem watched_readHead (hnone : c.heads + c.bodies.length = 0) : Watched c.readHead := by
  have hreads : c.heads + 1 + c.bodies.length = 1 := by omega
  rw [Connection.readHead, Connection.resetTimer]
  split
  case isTrue htimeout => exact .inr (.inr ⟨hreads, .inl htimeout⟩)
  case isFalse => exact .inr (.inr ⟨hreads, .inr rfl⟩)

theorem watched_start (timeoutSeconds : Nat) : Watched (Connection.start timeoutSeconds) :=
  watched_readHead rfl

theorem watched_netErr (h : Watched c) (err : NetError) : Watched (c.netErr err) := h

theorem watched_onHead (hopen : c.isOpen = true) (hnone : c.heads + c.bodies.length = 0)
    (hwatched : c.timeoutSeconds = 0 ∨ c.armed = true ∨ 0 < c.due) (r : Except ErrorCode Head) :
    Watched (c.onHead r) := by
  rw [Connection.onHead.eq_def, if_neg (by simp [hopen])]
  cases r with
  | error ec => exact watched_close _
  | ok header =>
    have hbodies : c.bodies = [] := List.length_eq_zero_iff.mp (by omega)
    dsimp only
    split
    · exact watched_close _
    split
    · have hreads : c.heads + (c.bodies ++ [header]).length = 1 := by
        rw [List.length_append, List.length_singleton]
        omega
      obtain htimeout | harmed | hdue := hwatched
      · exact .inr (.inr ⟨hreads, .inl htimeout⟩)
      · exact .inr (.inr ⟨hreads, .inr harmed⟩)
      · exact .inr (.inl hdue)
    split
    · refine watched_readHead ?_
      rw [cancelTimer_reads]
      exact hnone
    · exact watched_close _

theorem cancelTimer_kept (c : Connection) : c.cancelTimer.isOpen = c.isOpen ∧
    c.cancelTimer.hasClosed = c.hasClosed ∧ c.cancelTimer.due = c.due := by
  rw [Connection.cancelTimer]
  split <;> exact ⟨rfl, rfl, rfl⟩

theorem onBody_of_closed (hopen : c.isOpen = false) (r : Except ErrorCode (List UInt8)) :
    c.onBody r = c.cancelTimer.netErr .alreadyClosed := by
  rw [Connection.onBody.eq_def]
  dsimp only
  rw [(cancelTimer_kept c).1, hopen]
  rfl

theorem onBody_error (hopen : c.isOpen = true) (ec : ErrorCode) :
    c.onBody (.error ec) = c.cancelTimer.netErr (.failed ec) := by
  rw [Connection.onBody.eq_def]
  dsimp only
  rw [(cancelTimer_kept c).1, hopen]
  rfl

theorem watched_onBody (hopen : c.isOpen = true) (hnone : c.heads + c.bodies.length = 0)
    (data : List UInt8) : Watched (c.onBody (.ok data)) := by
  have hread := watched_readHead ((cancelTimer_reads c).trans hnone)
  rw [Connection.onBody.eq_def]
  dsimp only
  rw [if_neg (by simp [(cancelTimer_kept c).1, hopen])]
  split
  · split
    · exact hread
    · exact watched_netErr hread _
  · exact hread

theorem watched_closed (h : c.step e = some c') (hc : Sound c) (hclosed : c.hasClosed = true) :
    Watched c' := by
  have hopen : c.isOpen = false := by rw [hc.closed, hclosed]; rfl
  cases effect_of_step h with
  | head r hpos =>
    rw [Connection.onHead.eq_def, if_pos (by simp [hopen])]
    exact .inl hclosed
  | body header r hmem =>
    rw [onBody_of_closed (c := { c with bodies := c.bodies.erase header }) hopen]
    obtain ⟨-, hclosed', -⟩ := cancelTimer_kept { c with bodies := c.bodies.erase header }
    exact .inl (hclosed'.trans hclosed)
  | response m => exact .inl hclosed
  | written ec hpos =>
    cases ec with
    | some ec => exact watched_close _
    | none =>
      rw [Connection.onWrite, if_pos hclosed]
      exact .inl hclosed
  | expire harmed => exact .inl hclosed
  | timeout hdue => exact watched_close _

theorem watched_of_step (h : c.step e = some c') (hc : Sound c) (hw : Watched c)
    (hno : abandons c e = false) : Watched c' := by
  obtain hclosed | hclosed := Bool.eq_false_or_eq_true c.hasClosed
  · exact watched_closed h hc hclosed
  have hopen : c.isOpen = true := by rw [hc.closed, hclosed]; rfl
  have hreads := hc.reads
  have htimer : c.timeoutSeconds = 0 ∨ c.armed = true ∨ 0 < c.due := by
    obtain hclosed' | hdue | ⟨-, htimeout | harmed⟩ := hw
    · exact absurd (hclosed.symm.trans hclosed') Bool.false_ne_true
    · exact .inr (.inr hdue)
    · exact .inl htimeout
    · exact .inr (.inl harmed)
  cases effect_of_step h with
  | head r hpos =>
    have hnone : c.heads - 1 + c.bodies.length = 0 := by omega
    exact watched_onHead (c := { c with heads := c.heads - 1 }) hopen hnone htimer r
  | body header r hmem =>
    have hlen := List.length_erase_of_mem hmem
    have hpos := List.length_pos_of_mem hmem
    have hnone : c.heads + (c.bodies.erase header).length = 0 := by omega
    cases r with
    | ok data =>
      exact watched_onBody (c := { c with bodies := c.bodies.erase header }) hopen hnone data
    | error ec =>
      -- the timer has run out already, so that its handler will close the connection
      have hdue : 0 < c.due := by
        have hnot := of_decide_eq_false hno
        exact Nat.pos_of_ne_zero fun hzero => hnot ⟨hopen, hzero⟩
      rw [onBody_error (c := { c with bodies := c.bodies.erase header }) hopen]
      obtain ⟨-, -, hdue'⟩ := cancelTimer_kept { c with bodies := c.bodies.erase header }
      exact .inr (.inl (hdue'.trans_gt hdue))
  | response m => exact hw
  | written ec hpos =>
    cases ec with
    | some ec => exact watched_close _
    | none =>
      rw [Connection.onWrite, if_neg (by simp [hclosed])]
      exact hw
  | expire harmed => exact .inr (.inl (Nat.succ_pos _))
  | timeout hdue => exact watched_close _

theorem abandoned_of_abandons (h : c.step e = some c') (hc : Sound c) (hno : abandons c e = true) :
    Abandoned c' := by
  have hreads := hc.reads
  cases effect_of_step h with
  | body header r hmem =>
    cases r with
    | ok data => cases hno
    | error ec =>
      obtain ⟨hopen, hdue⟩ := of_decide_eq_true hno
      have hlen := List.length_erase_of_mem hmem
      have hpos := List.length_pos_of_mem hmem
      have hclosed : c.hasClosed = false := by
        have hnot := hc.closed.symm.trans hopen
        exact Bool.not_eq_true' _ |>.mp hnot
      have hbodies : c.bodies.erase header = [] := List.length_eq_zero_iff.mp (by omega)
      have hheads : c.heads = 0 := by omega
      rw [onBody_error (c := { c with bodies := c.bodies.erase header }) hopen,
        Connection.cancelTimer]
      split
      case isTrue htimeout =>
        have harmed : c.armed = false :=
          Bool.eq_false_of_not_eq_true fun harmed => hc.armed harmed htimeout
        exact ⟨hclosed, hheads, hbodies, harmed, hdue⟩
      case isFalse => exact ⟨hclosed, hheads, hbodies, rfl, hdue⟩
  | _ => cases hno

theorem abandoned_of_step (h : c.step e = some c') (ha : Abandoned c)
    (hno : ∀ ec, e ≠ .written (some ec)) : Abandoned c' := by
  cases effect_of_step h with
  | head r hpos => exact absurd ha.heads hpos.ne'
  | body header r hmem => exact absurd hmem (ha.bodies ▸ List.not_mem_nil)
  | response m => exact { ha with }
  | written ec hpos =>
    cases ec with
    | some ec => exact absurd rfl (hno ec)
    | none =>
      rw [Connection.onWrite, if_neg (by simp [ha.hasClosed])]
      exact { ha with }
  | expire harmed => exact absurd (ha.armed.symm.trans harmed) Bool.false_ne_true
  | timeout hdue => exact absurd ha.due hdue.ne'

end Invariant

end DistExp.Rpc.Connections
