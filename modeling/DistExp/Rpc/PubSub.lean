import DistExp.Library.Runs
import DistExp.Rpc.Routing

namespace DistExp.Rpc.PubSub

open DistExp.Msgpack.Adaptor DistExp.Rpc.Codec DistExp.Rpc.Routing

abbrev Text := List UInt8

section Server

variable {κ : Type} [DecidableEq κ]

/-- `sub_map_` and `token_list_` of `rpc_server`. -/
structure Registry (κ : Type) where
  subMap : List (Text × κ)
  tokenList : Finset Text

namespace Registry

def empty : Registry κ := ⟨[], ∅⟩

def subscribe (g : Registry κ) (key token : Text) (conn : κ) : Registry κ where
  subMap := g.subMap ++ [(key ++ token, conn)]
  tokenList := if token = [] then g.tokenList else insert token g.tokenList

/-- The connections that `publish` writes to, one for each entry under the key. -/
def receivers (g : Registry κ) (closed : Finset κ) (key : Text) : List κ :=
  (g.subMap.filter fun e => e.1 = key ∧ e.2 ∉ closed).map Prod.snd

/-- A round of `clean_sub_pub`: with the entry of a closed connection go all tokens that are found
in its key. -/
def cleanSubPub (g : Registry κ) (closed : Finset κ) : Registry κ where
  subMap := g.subMap.filter fun e => e.2 ∉ closed
  tokenList := g.tokenList.filter fun t => ∀ e ∈ g.subMap, e.2 ∈ closed → ¬t <:+: e.1

end Registry

end Server

section Client

/-- The keys of `sub_map_`, and `key_token_set_`, of `rpc_client`. -/
structure Client where
  subMap : List Text
  keyTokenSet : List (Text × Text)

def Client.init : Client := ⟨[], []⟩

def sendSubscribe (key token : Text) : Except Exception Text :=
  packArgs [string, string] (key, token, ())

/-- `subscribe`, when it is not the first under its key, does nothing. -/
def Client.subscribe (c : Client) (key token : Text) : Client :=
  if key ++ token ∈ c.subMap then c
  else ⟨c.subMap ++ [key ++ token], c.keyTokenSet ++ [(key, token)]⟩

def packPublish (key data : Text) : Except Exception Text :=
  packArgsStr [string, string] .ok (key, data, ())

/-- `callback_sub`: the key and the data that a function of the client's is called with, if any. -/
def Client.callbackSub (c : Client) (result : Text) : Option (Text × Text) :=
  match unpack (tuple [int32, string, string]) result with
  | .ok tp =>
    let key : Text := tp.2.1
    if key ∈ c.subMap then some (key, tp.2.2.1) else none
  | .error _ => none

end Client

section System

variable {ι : Type} [DecidableEq ι]

abbrev Conn (ι : Type) := ι × Nat

inductive Event (ι : Type) where
  | registered (conn : Conn ι) (key token : Text)
  | published (key data : Text)
  | closed (conn : Conn ι)
  | cleaned (keys : List Text)
  deriving DecidableEq

/-- A client with the streams of its connection, and what its functions have been called with. -/
structure Link where
  client : Client
  conn : Nat
  toServer : List Text
  toClient : List Text
  got : List (Nat × Text × Text)

structure Broker (ι : Type) where
  registry : Registry (Conn ι)
  closed : Finset (Conn ι)
  links : ι → Link
  log : List (Event ι)

def start : Broker ι := ⟨.empty, ∅, fun _ => ⟨.init, 0, [], [], []⟩, []⟩

inductive Action (ι : Type) where
  | subscribe (i : ι) (key token : Text)
  | serve (i : ι)
  | publish (key token data : Text)
  | deliver (i : ι)
  | close (conn : Conn ι) (written : Nat)
  | clean
  | reconnect (i : ι) (pairs : List (Text × Text))

def push (b : Broker ι) (receivers : List (Conn ι)) (body : Text) (i : ι) : Link :=
  let l := b.links i
  { l with toClient := l.toClient ++ List.replicate (receivers.count (i, l.conn)) body }

/-- Of what is on its way over a connection that is closed only what has been written arrives, and the
rest of `write_queue_` stays there. -/
def cut (b : Broker ι) (conn : Conn ι) (written : Nat) (i : ι) : Link :=
  let l := b.links i
  if (i, l.conn) = conn then { l with toClient := l.toClient.take written } else l

/-- What any of the threads does next. A client subscribes while it is connected, and is connected
again by `reconnect`, which sends its subscriptions once more in the order of `key_token_set_`. -/
def step (b : Broker ι) : Action ι → Option (Broker ι)
  | .subscribe i key token =>
    let l := b.links i
    if key ++ token ∈ l.client.subMap then some b
    else
      match sendSubscribe key token with
      | .error _ => none
      | .ok body =>
        if Sendable body then
          some { b with links := Function.update b.links i { l with
            client := l.client.subscribe key token
            toServer := l.toServer ++ [body] } }
        else none
  | .serve i =>
    let l := b.links i
    match l.toServer with
    | [] => none
    | body :: rest =>
      if (i, l.conn) ∈ b.closed then none
      else
        let links := Function.update b.links i { l with toServer := rest }
        match unpack (tuple [string, string]) body with
        | .error _ => some { b with links := links }
        | .ok tp =>
          some { b with
            registry := b.registry.subscribe tp.1 tp.2.1 (i, l.conn)
            links := links
            log := b.log ++ [.registered (i, l.conn) tp.1 tp.2.1] }
  | .publish key token data =>
    let receivers := b.registry.receivers b.closed (key ++ token)
    let log := b.log ++ [.published (key ++ token) data]
    if receivers = [] then some { b with log := log }
    else
      match packPublish (key ++ token) data with
      | .error _ => none
      | .ok body =>
        if Sendable body then some { b with links := push b receivers body, log := log } else none
  | .deliver i =>
    let l := b.links i
    match l.toClient with
    | [] => none
    | body :: rest =>
      some { b with links := Function.update b.links i { l with
        toClient := rest
        got := l.got ++ (l.client.callbackSub body).toList.map (Prod.mk l.conn) } }
  | .close conn written =>
    if conn.2 ≤ (b.links conn.1).conn then
      some { b with
        closed := insert conn b.closed
        links := cut b conn written
        log := b.log ++ [.closed conn] }
    else none
  | .clean =>
    some { b with
      registry := b.registry.cleanSubPub b.closed
      log := b.log ++ [.cleaned ((b.registry.subMap.filter fun e => e.2 ∈ b.closed).map Prod.fst)] }
  | .reconnect i pairs =>
    let l := b.links i
    if pairs.Perm l.client.keyTokenSet then
      match pairs.mapM fun p => sendSubscribe p.1 p.2 with
      | .error _ => none
      | .ok bodies =>
        some { b with links := Function.update b.links i { l with
          conn := l.conn + 1
          toServer := bodies
          toClient := [] } }
    else none

end System

end DistExp.Rpc.PubSub
