import DistExp.Rpc.Systems

namespace DistExp.Rpc.Networks

open DistExp.Library.Runs DistExp.Library.Stream DistExp.Rpc.ClientCalls DistExp.Rpc.Wire
  DistExp.Rpc.Routing DistExp.Rpc.Sessions DistExp.Rpc.SessionSteps DistExp.Rpc.Systems

variable {σ ι : Type} [DecidableEq ι]

structure Network where
  core : Core
  toServer : Pipe requests
  toClient : Pipe replies

def Network.init : Network := ⟨.init, .empty _, .empty _⟩

abbrev Padding := UInt8 × UInt8

def replyMessage (reqId : UInt64) (reqType : RequestType) (body : Body) (padding : Padding) : Reply :=
  ⟨⟨reqId, reqType, body.1, 0, padding, body.length_lt⟩, body.2.1⟩

/-- What happens next at either end of the two sockets. Any number of bytes may be sent or arrive
at a time, and `written` are the handlers of `async_write`. -/
inductive NetAction where
  | call (model : CallModel) (funcId : UInt32) (body : Body) (padding : Padding)
  | send (k : Nat)
  | notify (m : Message)
  | transmitToServer (n : Nat)
  | writtenToServer
  | arriveAtServer (n : Nat) (padding : UInt64 → Padding)
  | respond (k : Nat) (body : Body) (padding : Padding)
  | publish (body : Body) (padding : Padding)
  | transmitToClient (n : Nat)
  | writtenToClient
  | arriveAtClient (n : Nat)
  | expire (reqId : UInt64)

def serveRead (r : Router σ) (padding : UInt64 → Padding) (st : σ × Core × Pipe replies)
    (read : ServerRead) : Option (σ × Core × Pipe replies) :=
  match st.2.1.onServerRead r st.1 read with
  | none => none
  | some (s', core, none) => some (s', core, st.2.2)
  | some (s', core, some (reqId, response)) =>
    some (s', core, st.2.2.push (replyMessage reqId .reqRes response (padding reqId)))

def step (r : Router σ) (s : σ) (n : Network) : NetAction → Option (σ × Network)
  | .call model funcId body padding =>
    some (s, { n with core := n.core.call model funcId body padding })
  | .send k =>
    match n.core.send k with
    | none => none
    | some (core, m) => some (s, { n with core := core, toServer := n.toServer.push m })
  | .notify m => if IsNotice m then some (s, { n with toServer := n.toServer.push m }) else none
  | .transmitToServer k => some (s, { n with toServer := n.toServer.transmit k })
  | .writtenToServer =>
    if h : n.toServer.left = [] then some (s, { n with toServer := n.toServer.written h }) else none
  | .arriveAtServer k padding =>
    match (n.toServer.arrived k).foldlM (serveRead r padding) (s, n.core, n.toClient) with
    | none => none
    | some (s', core, toClient) => some (s', ⟨core, n.toServer.arrive k, toClient⟩)
  | .respond k body padding =>
    match n.core.respond k body with
    | none => none
    | some (core, reqId) =>
      some (s, { n with
        core := core
        toClient := n.toClient.push (replyMessage reqId .reqRes body padding) })
  | .publish body padding =>
    some (s, { n with toClient := n.toClient.push (replyMessage 0 .subPub body padding) })
  | .transmitToClient k => some (s, { n with toClient := n.toClient.transmit k })
  | .writtenToClient =>
    if h : n.toClient.left = [] then some (s, { n with toClient := n.toClient.written h }) else none
  | .arriveAtClient k =>
    match (n.toClient.arrived k).foldlM Core.onClientRead n.core with
    | none => none
    | some core => some (s, { n with core := core, toClient := n.toClient.arrive k })
  | .expire reqId => some (s, { n with core := { n.core with calls := n.core.calls.expire reqId } })

/-- The queues that the bytes stand for. -/
def Network.session (n : Network) : Session := ⟨n.core, n.toServer.pending, n.toClient.pending⟩

def sessionRun (r : Router σ) (st : σ × Session) (as : List Action) : Option (σ × Session) :=
  as.foldlM (fun st a => Sessions.step r st.1 st.2 a) st

variable {r : Router σ} {s s' : σ} {n n' : Network} {core core' : Core}

section Refinement

theorem sessionRun_one {st st' : σ × Session} {a : Action}
    (h : Sessions.step r st.1 st.2 a = some st') : sessionRun r st [a] = some st' :=
  (bind_pure _).trans h

theorem serve_run {padding : UInt64 → Padding} {reads rest : List ServerRead}
    {toClient toClient' : Pipe replies}
    (h : reads.foldlM (serveRead r padding) (s, core, toClient) = some (s', core', toClient')) :
    sessionRun r (s, ⟨core, reads ++ rest, toClient.pending⟩) (List.replicate reads.length .serve) =
      some (s', ⟨core', rest, toClient'.pending⟩) := by
  induction reads generalizing s core toClient with
  | nil =>
    cases h
    rfl
  | cons read reads ih =>
    rw [List.foldlM_cons] at h
    obtain ⟨⟨s₁, core₁, toClient₁⟩, hread, h⟩ := Option.bind_eq_some_iff.mp h
    have hstep : Sessions.step r s ⟨core, read :: (reads ++ rest), toClient.pending⟩ .serve =
        some (s₁, ⟨core₁, reads ++ rest, toClient₁.pending⟩) := by
      rw [serveRead] at hread
      split at hread
      case h_1 => cases hread
      case h_2 s₂ core₂ hon =>
        cases hread
        rw [step_serve rfl hon]
        simp
      case h_3 s₂ core₂ reqId response hon =>
        cases hread
        rw [step_serve rfl hon, Pipe.pending_push]
        rfl
    rw [List.length_cons, List.replicate_succ, sessionRun, List.foldlM_cons]
    dsimp only [List.cons_append]
    rw [hstep]
    exact ih h

theorem deliver_run {reads rest : List ClientRead} {toServer : List ServerRead}
    (h : reads.foldlM Core.onClientRead core = some core') :
    sessionRun r (s, ⟨core, toServer, reads ++ rest⟩) (List.replicate reads.length .deliver) =
      some (s, ⟨core', toServer, rest⟩) := by
  induction reads generalizing core with
  | nil =>
    cases h
    rfl
  | cons read reads ih =>
    rw [List.foldlM_cons] at h
    obtain ⟨core₁, hread, h⟩ := Option.bind_eq_some_iff.mp h
    have hstep : Sessions.step r s ⟨core, toServer, read :: (reads ++ rest)⟩ .deliver =
        some (s, ⟨core₁, toServer, reads ++ rest⟩) := step_deliver rfl hread
    rw [List.length_cons, List.replicate_succ, sessionRun, List.foldlM_cons]
    dsimp only [List.cons_append]
    rw [hstep]
    exact ih h

theorem step_refines {a : NetAction} (h : step r s n a = some (s', n')) :
    ∃ as, sessionRun r (s, n.session) as = some (s', n'.session) := by
  cases a with
  | call model funcId body padding =>
    cases h
    exact ⟨[.call model funcId body padding], sessionRun_one rfl⟩
  | send k =>
    rw [step] at h
    split at h
    case h_1 => cases h
    case h_2 core m hsend =>
      cases h
      refine ⟨[.send k], sessionRun_one ?_⟩
      rw [Sessions.step]
      dsimp only [Network.session]
      rw [hsend, Pipe.pending_push]
      rfl
  | notify m =>
    rw [step] at h
    split at h
    case isTrue hm =>
      cases h
      refine ⟨[.notify m], sessionRun_one ?_⟩
      rw [Sessions.step, if_pos hm]
      dsimp only [Network.session]
      rw [Pipe.pending_push]
      rfl
    case isFalse => cases h
  | transmitToServer k =>
    cases h
    refine ⟨[], ?_⟩
    dsimp only [Network.session]
    rw [Pipe.pending_transmit]
    rfl
  | writtenToServer =>
    rw [step] at h
    split at h
    · cases h
      refine ⟨[], ?_⟩
      dsimp only [Network.session]
      rw [Pipe.pending_written]
      rfl
    · cases h
  | arriveAtServer k padding =>
    rw [step] at h
    split at h
    case h_1 => cases h
    case h_2 s₁ core toClient hrun =>
      cases h
      refine ⟨List.replicate (n.toServer.arrived k).length .serve, ?_⟩
      dsimp only [Network.session]
      rw [← n.toServer.arrived_append_pending k]
      exact serve_run hrun
  | respond k body padding =>
    rw [step] at h
    split at h
    case h_1 => cases h
    case h_2 core reqId hrespond =>
      cases h
      refine ⟨[.respond k body], sessionRun_one ?_⟩
      rw [Sessions.step]
      dsimp only [Network.session]
      rw [hrespond, Pipe.pending_push]
      rfl
  | publish body padding =>
    cases h
    refine ⟨[.publish body], sessionRun_one ?_⟩
    rw [Sessions.step]
    dsimp only [Network.session]
    rw [Pipe.pending_push]
    rfl
  | transmitToClient k =>
    cases h
    refine ⟨[], ?_⟩
    dsimp only [Network.session]
    rw [Pipe.pending_transmit]
    rfl
  | writtenToClient =>
    rw [step] at h
    split at h
    · cases h
      refine ⟨[], ?_⟩
      dsimp only [Network.session]
      rw [Pipe.pending_written]
      rfl
    · cases h
  | arriveAtClient k =>
    rw [step] at h
    split at h
    case h_1 => cases h
    case h_2 core hrun =>
      cases h
      refine ⟨List.replicate (n.toClient.arrived k).length .deliver, ?_⟩
      dsimp only [Network.session]
      rw [← n.toClient.arrived_append_pending k]
      exact deliver_run hrun
  | expire reqId =>
    cases h
    exact ⟨[.expire reqId], sessionRun_one rfl⟩

end Refinement

/-- A server and its clients, with the bytes between them. -/
structure NetSystem (σ ι : Type) where
  state : σ
  networks : ι → Network

def netStart (s : σ) : NetSystem σ ι := ⟨s, fun _ => .init⟩

def netStep (r : Router σ) (z : NetSystem σ ι) (a : ι × NetAction) : Option (NetSystem σ ι) :=
  match step r z.state (z.networks a.1) a.2 with
  | none => none
  | some (s', n') => some ⟨s', Function.update z.networks a.1 n'⟩

structure Refines (z : NetSystem σ ι) (y : System σ ι) : Prop where
  state : y.state = z.state
  sessions : ∀ i, y.sessions i = (z.networks i).session

variable {init : σ} {z z' : NetSystem σ ι} {y y' : System σ ι} {i : ι}

theorem systemRun {as : List Action} {t' : Session}
    (h : sessionRun r (y.state, y.sessions i) as = some (s', t')) :
    ∃ y', (as.map (Prod.mk i)).foldlM (Systems.step r) y = some y' ∧ y'.state = s' ∧
      y'.sessions = Function.update y.sessions i t' := by
  induction as generalizing y with
  | nil =>
    cases h
    exact ⟨y, rfl, rfl, (Function.update_eq_self i y.sessions).symm⟩
  | cons a as ih =>
    rw [sessionRun, List.foldlM_cons] at h
    obtain ⟨⟨s₁, t₁⟩, hstep, h⟩ := Option.bind_eq_some_iff.mp h
    have hy₁ : Systems.step r y (i, a) = some ⟨s₁, Function.update y.sessions i t₁,
        y.history ++ (t₁.core.routed.drop (y.sessions i).core.routed.length).map (Prod.mk i)⟩ := by
      rw [Systems.step]
      dsimp only at hstep ⊢
      rw [hstep]
    obtain ⟨y', hrun, hstate, hsessions⟩ := ih (y := ⟨s₁, Function.update y.sessions i t₁, _⟩)
      (by dsimp only; rw [Function.update_self]; exact h)
    refine ⟨y', ?_, hstate, ?_⟩
    · rw [List.map_cons, List.foldlM_cons, hy₁]
      exact hrun
    · rw [hsessions, Function.update_idem]

theorem netStep_refines {a : ι × NetAction} (hR : Refines z y) (h : netStep r z a = some z') :
    ∃ (as : List Action) (y' : System σ ι),
      (as.map (Prod.mk a.1)).foldlM (Systems.step r) y = some y' ∧ Refines z' y' := by
  rw [netStep] at h
  split at h
  case h_1 => cases h
  case h_2 s' n' hstep =>
    cases h
    obtain ⟨as, hrun⟩ := step_refines hstep
    rw [← hR.state, ← hR.sessions] at hrun
    obtain ⟨y', hrun', hstate, hsessions⟩ := systemRun hrun
    refine ⟨as, y', hrun', hstate, fun i => ?_⟩
    rw [hsessions]
    dsimp only
    by_cases hi : i = a.1
    · subst hi
      rw [Function.update_self, Function.update_self]
    · rw [Function.update_of_ne hi, Function.update_of_ne hi, hR.sessions]

theorem passes_refines {ops : List (ι × NetAction)}
    (hz : Passes (netStep r) (netStart init) ops z) :
    ∃ ops' y, Passes (Systems.step r) (start init) ops' y ∧ Refines z y := by
  refine passes_invariant' (I := fun z => ∃ ops' y, Passes (Systems.step r) (start init) ops' y ∧
    Refines z y) ?_ ⟨[], start init, ⟨[], List.nil_prefix, rfl⟩, rfl, fun _ => rfl⟩ hz
  rintro z a z' ⟨ops', y, hy, hR⟩ hstep
  obtain ⟨as, y', hrun, hR'⟩ := netStep_refines hR hstep
  obtain ⟨ops'', hy'⟩ := passes_append hy hrun
  exact ⟨ops'', y', hy', hR'⟩

end DistExp.Rpc.Networks
