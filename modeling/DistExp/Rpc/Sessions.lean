import DistExp.Library.Runs
import DistExp.Rpc.ClientCalls
import DistExp.Rpc.Routing

namespace DistExp.Rpc.Sessions

open DistExp.Library.FieldMap DistExp.Rpc.ClientCalls DistExp.Rpc.Wire DistExp.Rpc.Routing

variable {σ : Type}

structure Request where
  reqId : UInt64
  funcId : UInt32
  body : List UInt8
  deriving DecidableEq

/-- A request that has been routed and the response of `route`, none where an asynchronous handler
has taken the request over. -/
structure Routed where
  request : Request
  response : Option (List UInt8)
  deriving DecidableEq

def Routed.reqId (x : Routed) : UInt64 := x.request.reqId

abbrev Body := { bs : List UInt8 // Sendable bs }

theorem Body.length_lt (body : Body) : body.1.length < maxBufLen := body.2.2

/-- A client and its connection, without the streams between them. `calling` are the calls whose
ids are taken but whose messages are not written yet, and `running` the requests that asynchronous
handlers have still to answer. -/
structure Core where
  calls : Calls
  calling : List Message
  running : List Request
  /-- What has happened, in the order in which it has. -/
  issued : List Request
  sent : List Request
  routed : List Routed
  answered : List (UInt64 × List UInt8)
  delivered : List (UInt64 × List UInt8)
  completed : List Completion

def Core.init : Core := ⟨.init, [], [], [], [], [], [], [], []⟩

def callMessage (reqId : UInt64) (funcId : UInt32) (body : Body) (padding : UInt8 × UInt8) :
    Message :=
  ⟨reqId, .reqRes, body.1, funcId, padding, body.length_lt⟩

def requestOf (m : Message) : Request := ⟨m.reqId, m.funcId, m.content⟩

namespace Core

/-- The first half of `async_call`: the id is taken and the arguments are packed. -/
def call (c : Core) (model : CallModel) (funcId : UInt32) (body : Body) (padding : UInt8 × UInt8) :
    Core :=
  let m := callMessage (c.calls.begin model).1 funcId body padding
  { c with
    calls := (c.calls.begin model).2
    calling := c.calling ++ [m]
    issued := c.issued ++ [requestOf m] }

/-- The second half, for the `k`-th of the calls that have got through the first. -/
def send (c : Core) (k : Nat) : Option (Core × Message) :=
  match c.calling[k]? with
  | none => none
  | some m =>
    some ({ c with calling := c.calling.eraseIdx k, sent := c.sent ++ [requestOf m] }, m)

/-- What the connection does with what it has read, and the response to send, if any. A
subscription is no concern of the calls. -/
def onServerRead (r : Router σ) (s : σ) (c : Core) :
    ServerRead → Option (σ × Core × Option (UInt64 × Body))
  | .request reqId funcId body =>
    match r.route s funcId body with
    | (s', .ok (some response)) =>
      if h : Sendable response then
        some (s', { c with
          routed := c.routed ++ [⟨⟨reqId, funcId, body⟩, some response⟩]
          answered := c.answered ++ [(reqId, response)] }, some (reqId, ⟨response, h⟩))
      else none
    | (s', .ok none) =>
      some (s', { c with
        routed := c.routed ++ [⟨⟨reqId, funcId, body⟩, none⟩]
        running := c.running ++ [⟨reqId, funcId, body⟩] }, none)
    | (_, .error _) => none
  | .subscribe _ => some (s, c, none)
  | .protocolError | .invalidBodyLen => none

/-- `pack_and_response` for the `k`-th of the requests that run. -/
def respond (c : Core) (k : Nat) (body : Body) : Option (Core × UInt64) :=
  match c.running[k]? with
  | none => none
  | some q =>
    some ({ c with
      running := c.running.eraseIdx k
      answered := c.answered ++ [(q.reqId, body.1)] }, q.reqId)

def onClientRead (c : Core) : ClientRead → Option Core
  | .response reqId body =>
    match c.calls.callBack reqId none body with
    | none => none
    | some (calls, comp) =>
      some { c with
        calls := calls
        delivered := c.delivered ++ [(reqId, body)]
        completed := c.completed ++ [comp] }
  | .published _ => some c
  | .messageSize | .invalidArgument => none

end Core

/-- A client and its connection with the two streams as queues. -/
structure Session where
  core : Core
  toServer : List ServerRead
  toClient : List ClientRead

def Session.init : Session := ⟨.init, [], []⟩

/-- What any of the threads does next: `notify` writes a heartbeat or a subscription, `publish`
data for a subscriber. -/
inductive Action where
  | call (model : CallModel) (funcId : UInt32) (body : Body) (padding : UInt8 × UInt8)
  | send (k : Nat)
  | notify (m : Message)
  | serve
  | respond (k : Nat) (body : Body)
  | publish (body : Body)
  | deliver
  | expire (reqId : UInt64)

def IsNotice (m : Message) : Prop := m.content = [] ∨ m.reqType = .subPub

instance (m : Message) : Decidable (IsNotice m) := inferInstanceAs (Decidable (_ ∨ _))

def step (r : Router σ) (s : σ) (t : Session) : Action → Option (σ × Session)
  | .call model funcId body padding =>
    some (s, { t with core := t.core.call model funcId body padding })
  | .send k =>
    match t.core.send k with
    | none => none
    | some (core, m) => some (s, { t with core := core, toServer := t.toServer ++ serverMeaning m })
  | .notify m =>
    if IsNotice m then some (s, { t with toServer := t.toServer ++ serverMeaning m }) else none
  | .serve =>
    match t.toServer with
    | [] => none
    | read :: rest =>
      match t.core.onServerRead r s read with
      | none => none
      | some (s', core, none) => some (s', { t with core := core, toServer := rest })
      | some (s', core, some (reqId, response)) =>
        some (s', ⟨core, rest, t.toClient ++ [.response reqId response.1]⟩)
  | .respond k body =>
    match t.core.respond k body with
    | none => none
    | some (core, reqId) =>
      some (s, { t with core := core, toClient := t.toClient ++ [.response reqId body.1] })
  | .publish body => some (s, { t with toClient := t.toClient ++ [.published body.1] })
  | .deliver =>
    match t.toClient with
    | [] => none
    | read :: rest =>
      match t.core.onClientRead read with
      | none => none
      | some core => some (s, { t with core := core, toClient := rest })
  | .expire reqId => some (s, { t with core := { t.core with calls := t.core.calls.expire reqId } })

section Invariant

def requests (reads : List ServerRead) : List Request :=
  reads.filterMap fun
    | .request reqId funcId body => some ⟨reqId, funcId, body⟩
    | _ => none

def responses (reads : List ClientRead) : List (UInt64 × List UInt8) :=
  reads.filterMap fun
    | .response reqId body => some (reqId, body)
    | _ => none

def IsCall (m : Message) : Prop := m.content ≠ [] ∧ m.reqType = .reqRes

theorem serverMeaning_call {m : Message} (h : IsCall m) :
    serverMeaning m = [.request m.reqId m.funcId m.content] := by
  rw [serverMeaning, if_neg h.1, h.2]

def ServerRead.Valid : ServerRead → Prop
  | .request _ _ _ | .subscribe _ => True
  | .protocolError | .invalidBodyLen => False

def ClientRead.Valid : ClientRead → Prop
  | .response _ _ | .published _ => True
  | .messageSize | .invalidArgument => False

structure Consistent (t : Session) : Prop where
  counts : t.core.calls.Counts (t.core.issued.map Request.reqId)
  sorted : t.core.calls.Sorted
  isCall : ∀ m ∈ t.core.calling, IsCall m
  nodup : (t.core.issued.map Request.reqId).Nodup
  /-- It is about to be sent, is on its way, or has been routed, -/
  located : (t.core.calling.map requestOf ++ t.core.sent).Perm t.core.issued
  ordered : t.core.sent = t.core.routed.map Routed.request ++ requests t.toServer
  /-- it runs if it has been routed but not been answered, -/
  served : (t.core.running.map Request.reqId ++ t.core.answered.map Prod.fst).Perm
    (t.core.routed.map Routed.reqId)
  runs : ∀ q ∈ t.core.running, (⟨q, none⟩ : Routed) ∈ t.core.routed
  /-- with what `route` returned, or with what an asynchronous handler did later, -/
  answers : ∀ a ∈ t.core.answered, ∃ x ∈ t.core.routed, x.reqId = a.1 ∧
    (x.response = some a.2 ∨ x.response = none)
  /-- its answer is on its way or has been delivered, -/
  delivers : t.core.delivered ++ responses t.toClient = t.core.answered
  /-- and it waits in the client until then. -/
  waits : (t.core.calls.waiting ++ t.core.delivered.map Prod.fst).Perm
    (t.core.issued.map Request.reqId)
  ends : List.Forall₂ (fun comp a => Calls.Ends comp a.1 a.2) t.core.completed t.core.delivered
  serverReads : ∀ read ∈ t.toServer, ServerRead.Valid read
  clientReads : ∀ read ∈ t.toClient, ClientRead.Valid read

theorem consistent_init : Consistent .init where
  counts := ⟨nofun, nofun, Nat.zero_le _, Nat.zero_le _, .inl rfl⟩
  sorted := ⟨nofun, nofun⟩
  isCall := nofun
  nodup := .nil
  located := .nil
  ordered := rfl
  served := .nil
  runs := nofun
  answers := nofun
  delivers := rfl
  waits := .nil
  ends := .nil
  serverReads := nofun
  clientReads := nofun

theorem requests_append (as bs : List ServerRead) :
    requests (as ++ bs) = requests as ++ requests bs := List.filterMap_append

theorem responses_append (as bs : List ClientRead) :
    responses (as ++ bs) = responses as ++ responses bs := List.filterMap_append

theorem serverMeaning_valid (m : Message) : ∀ read ∈ serverMeaning m, ServerRead.Valid read := by
  intro read hread
  rw [serverMeaning] at hread
  split at hread
  · exact absurd hread List.not_mem_nil
  · split at hread <;> rw [List.mem_singleton.mp hread] <;> trivial

theorem requests_notice {m : Message} (h : IsNotice m) : requests (serverMeaning m) = [] := by
  rw [serverMeaning]
  obtain h | h := h
  · rw [if_pos h]
    rfl
  · rw [h]
    split <;> rfl

end Invariant

end DistExp.Rpc.Sessions
