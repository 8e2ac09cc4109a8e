import DistExp.Library.Outbox
import DistExp.Rpc.PubSub
import DistExp.Rpc.Sessions

namespace DistExp.Rpc.ClientLoop

open DistExp.Library.FieldMap DistExp.Library.Outbox DistExp.Msgpack.Adaptor DistExp.Rpc.ClientCalls
  DistExp.Rpc.Codec DistExp.Rpc.Md5 DistExp.Rpc.Sessions DistExp.Rpc.Wire

/-- `client_message_type`: `write` asserts the bound. -/
structure ClientMessage where
  reqId : UInt64
  reqType : RequestType
  content : List UInt8
  funcId : UInt32
  length_lt : content.length < maxBufLen
  deriving DecidableEq

/-- The maps of the calls, all ids that have been given out, what callbacks have been called with,
and how promises have ended: with a value, or without one. -/
structure Ledger where
  calls : Calls
  issued : List UInt64
  called : List Completion
  settled : List (UInt64 × Option (List UInt8))
  deriving DecidableEq

namespace Ledger

def begin (l : Ledger) (model : CallModel) : Ledger :=
  { l with calls := (l.calls.begin model).2, issued := l.issued ++ [(l.calls.begin model).1] }

def callBack (l : Ledger) (reqId : UInt64) (ec : Option ErrorCode) (data : List UInt8) :
    Option Ledger :=
  match l.calls.callBack reqId ec data with
  | none => none
  | some (calls, comp) =>
    if Calls.cbFlag reqId then some { l with calls := calls, called := l.called ++ [comp] }
    else some { l with calls := calls, settled := l.settled ++ [(reqId, some comp.data)] }

def fail (l : Ledger) (ec : ErrorCode) : Ledger :=
  { l with called := l.called ++ (keys l.calls.callbackMap).map fun id => ⟨id, some ec, []⟩ }

def clear (l : Ledger) : Ledger :=
  { l with calls := l.calls.clear, settled := l.settled ++ l.calls.futureMap.map fun id => (id, none) }

def expire (l : Ledger) (id : UInt64) : Ledger := { l with calls := l.calls.expire id }

end Ledger

/-- What the handler of `read_body` keeps of the header. -/
structure Reading where
  reqId : UInt64
  reqType : UInt8
  bodyLen : Nat
  deriving DecidableEq

/-- An `rpc_client`, with `outbox_` and its writes as `writer`, and with the other operations whose
handlers are still to be called: `connects` of the socket, `heads` and `bodies` of messages. -/
structure Client where
  hasConnected : Bool
  isOpen : Bool
  enableReconnect : Bool
  reconnectCnt : Int
  writer : Writer ClientMessage
  ledger : Ledger
  calling : List ClientMessage
  subscriber : PubSub.Client
  connects : Nat
  heads : Nat
  bodies : List Reading
  /-- Whether an assertion has failed. -/
  aborted : Bool

def start (enableReconnect : Bool) (reconnectCnt : Int) : Client where
  hasConnected := false
  isOpen := false
  enableReconnect := enableReconnect
  reconnectCnt := reconnectCnt
  writer := .empty
  ledger := ⟨.init, [], [], []⟩
  calling := []
  subscriber := .init
  connects := 0
  heads := 0
  bodies := []
  aborted := false

def subscription (key token : PubSub.Text) : Option ClientMessage :=
  match PubSub.sendSubscribe key token with
  | .error _ => none
  | .ok body =>
    if h : body.length < maxBufLen then some ⟨0, .subPub, body, md5Hash32 key, h⟩ else none

namespace Client

def write (c : Client) (m : ClientMessage) : Client := { c with writer := c.writer.push m }

def doRead (c : Client) : Client := { c with heads := c.heads + 1 }

def close (c : Client) : Client :=
  if c.hasConnected then
    { c with
      hasConnected := false
      isOpen := false
      writer := c.writer.clear
      ledger := c.ledger.clear }
  else c

def asyncConnect (c : Client) : Client := { c with isOpen := true, connects := c.connects + 1 }

def resetSocket (c : Client) : Client := { c with isOpen := true }

def asyncReconnect (c : Client) : Client := c.resetSocket.asyncConnect

def errorCallback (c : Client) : Client := if c.enableReconnect then c.asyncReconnect else c

def callBack (c : Client) (reqId : UInt64) (ec : Option ErrorCode) (data : List UInt8)
    (andThen : Client → Client) : Client :=
  match c.ledger.callBack reqId ec data with
  | none => { c with aborted := true }
  | some ledger => andThen { c with ledger := ledger }

def callbackSub (c : Client) (result : List UInt8) : Client :=
  match unpack (tuple [int32, string, string]) result with
  | .ok _ => c
  | .error _ => c.errorCallback

/-- `async_call`, up to the message being packed. A callback is told at once that there is no
connection. -/
def call (c : Client) (model : CallModel) (funcId : UInt32) (body : Body) : Client :=
  if model = .callback ∧ ¬c.hasConnected then c
  else
    { c with
      ledger := c.ledger.begin model
      calling := c.calling ++
        [⟨(c.ledger.calls.begin model).1, .reqRes, body.1, funcId, body.length_lt⟩] }

def resendSubscribe (c : Client) (pairs : List (PubSub.Text × PubSub.Text)) : Option Client :=
  match pairs.mapM fun p => subscription p.1 p.2 with
  | none => none
  | some ms => some { c with writer := ms.foldl Writer.push c.writer }

/-- The handler of `async_connect`, with the pairs of `key_token_set_` in their order. -/
def onConnected (c : Client) (pairs : List (PubSub.Text × PubSub.Text)) :
    Option ErrorCode → Option Client
  | none =>
    if c.hasConnected then some c else { c with hasConnected := true }.doRead.resendSubscribe pairs
  | some _ =>
    if c.hasConnected ∨ c.reconnectCnt ≤ 0 then some c
    else some { c with reconnectCnt := c.reconnectCnt - 1 }.asyncReconnect

def onWritten (c : Client) : Option ErrorCode → Client
  | none => { c with writer := c.writer.pop }
  | some _ => { c with hasConnected := false }.close.errorCallback

def onHead (c : Client) (r : Except ErrorCode Reading) : Client :=
  if ¬c.isOpen then { c with hasConnected := false }
  else
    match r with
    | .ok q =>
      if 0 < q.bodyLen ∧ q.bodyLen < maxBufLen then { c with bodies := c.bodies ++ [q] }
      else if q.bodyLen = 0 ∨ maxBufLen < q.bodyLen then c.close.errorCallback
      else c
    | .error ec => { c with ledger := c.ledger.fail ec }.close.errorCallback

def onBody (c : Client) (q : Reading) (r : Except ErrorCode (List UInt8)) : Client :=
  if ¬c.isOpen then c.callBack q.reqId (some .connectionAborted) [] id
  else
    match r with
    | .ok data =>
      match RequestType.ofByte q.reqType with
      | some .reqRes => c.callBack q.reqId none data doRead
      | some .subPub => (c.callbackSub data).doRead
      | none => c.close.errorCallback
    | .error ec =>
      { c with hasConnected := false }.callBack q.reqId (some ec) [] fun c => c.close.errorCallback

end Client

/-- What any of the threads does next: the application calls the client, or an operation is over. -/
inductive Event where
  | connect
  | call (model : CallModel) (funcId : UInt32) (body : Body)
  | send (k : Nat)
  | subscribe (key token : PubSub.Text)
  | close
  | heartbeat
  | expire (id : UInt64)
  | connected (pairs : List (PubSub.Text × PubSub.Text)) (ec : Option ErrorCode)
  | written (ec : Option ErrorCode)
  | head (r : Except ErrorCode Reading)
  | body (q : Reading) (r : Except ErrorCode (List UInt8))

theorem length_heartbeat_lt : ([] : List UInt8).length < maxBufLen := by decide

open Client in
def next (c : Client) : Event → Option Client
  | .connect => some (if c.hasConnected then c else c.asyncConnect)
  | .call model funcId body => some (c.call model funcId body)
  | .send k =>
    match c.calling[k]? with
    | none => none
    | some m => some ({ c with calling := c.calling.eraseIdx k }.write m)
  | .subscribe key token =>
    if c.subscriber.subMap.contains (key ++ token) then some c
    else
      match subscription key token with
      | none => none
      | some m => some ({ c with subscriber := c.subscriber.subscribe key token }.write m)
  | .close => some c.close
  | .heartbeat =>
    some (if c.hasConnected then c.write ⟨0, .reqRes, [], 0, length_heartbeat_lt⟩ else c)
  | .expire id => some { c with ledger := c.ledger.expire id }
  | .connected pairs ec =>
    if 0 < c.connects ∧ pairs.Perm c.subscriber.keyTokenSet then
      { c with connects := c.connects - 1 }.onConnected pairs ec
    else none
  | .written ec =>
    if 0 < c.writer.writes then some ({ c with writer := c.writer.finish }.onWritten ec) else none
  | .head r => if 0 < c.heads then some ({ c with heads := c.heads - 1 }.onHead r) else none
  | .body q r =>
    if q ∈ c.bodies ∧ r.toOption.all fun data => data.length = q.bodyLen then
      some ({ c with bodies := c.bodies.erase q }.onBody q r)
    else none

def step (c : Client) (e : Event) : Option Client := if c.aborted then none else next c e

end DistExp.Rpc.ClientLoop
