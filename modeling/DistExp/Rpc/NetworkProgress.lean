import DistExp.Rpc.Networks

namespace DistExp.Rpc.NetworkProgress

open DistExp.Library.Runs DistExp.Library.Stream DistExp.Msgpack.Adaptor DistExp.Rpc.Codec
  DistExp.Rpc.Md5 DistExp.Rpc.ClientCalls DistExp.Rpc.Wire DistExp.Rpc.Routing
  DistExp.Rpc.Sessions DistExp.Rpc.SessionSteps DistExp.Rpc.Systems DistExp.Rpc.Networks

variable {σ ι : Type} [DecidableEq ι] {r : Router σ} {s s' : σ} {n n' : Network} {core core' : Core}
  {toClient toClient' : Pipe replies}

section Reads

theorem serve_step_cases {t' : Session} {read : ServerRead} {rest : List ServerRead}
    {q : List ClientRead} (h : Sessions.step r s ⟨core, read :: rest, q⟩ .serve = some (s', t')) :
    ∃ core' out, core.onServerRead r s read = some (s', core', out) ∧
      t' = ⟨core', rest, q ++ out.elim [] fun a => [.response a.1 a.2.1]⟩ := by
  cases hread : core.onServerRead r s read with
  | none =>
    rw [Sessions.step] at h
    dsimp only at h
    rw [hread] at h
    cases h
  | some result =>
    obtain ⟨s₁, core₁, out⟩ := result
    rw [step_serve rfl hread] at h
    cases h
    exact ⟨core₁, out, rfl, rfl⟩

theorem serveRead_out (padding : UInt64 → Padding) (toClient : Pipe replies) {read : ServerRead}
    {out : Option (UInt64 × Body)} (h : core.onServerRead r s read = some (s', core', out)) :
    ∃ toClient', serveRead r padding (s, core, toClient) read = some (s', core', toClient') ∧
      toClient'.pending = toClient.pending ++ (out.elim [] fun a => [.response a.1 a.2.1]) ∧
      toClient'.load ≤ toClient.load + 5 := by
  rw [serveRead]
  dsimp only
  rw [h]
  cases out with
  | none => exact ⟨toClient, rfl, (List.append_nil _).symm, Nat.le_add_right _ 5⟩
  | some a => exact ⟨_, rfl, Pipe.pending_push _ _, Pipe.load_push _ _⟩

theorem serveReads_succeed (hnames : ShortNames r) (padding : UInt64 → Padding) (s : σ)
    {reads rest : List ServerRead} (h : Consistent ⟨core, reads ++ rest, toClient.pending⟩)
    (hlt : core.issued.length < 2 ^ 63) :
    ∃ s' core' toClient',
      reads.foldlM (serveRead r padding) (s, core, toClient) = some (s', core', toClient') ∧
      core'.issued = core.issued ∧
      6 * work ⟨core', rest, toClient'.pending⟩ + toClient'.load ≤
        6 * work ⟨core, reads ++ rest, toClient.pending⟩ + toClient.load := by
  induction reads generalizing s core toClient with
  | nil => exact ⟨s, core, toClient, rfl, rfl, le_refl _⟩
  | cons read reads ih =>
    obtain ⟨s₁, t₁, hstep, hissued, hwork⟩ := serve_succeeds s hnames h (List.cons_ne_nil _ _)
    obtain ⟨core₁, out, hread, rfl⟩ := serve_step_cases hstep
    obtain ⟨toClient₁, hserve, hpending, hload⟩ :=
      serveRead_out padding toClient hread
    rw [← hpending] at hstep hwork
    have hlt₁ : core₁.issued.length < 2 ^ 63 := by
      rw [show core₁.issued = core.issued from hissued]
      exact hlt
    obtain ⟨s', core', toClient', hrun, hissued', hload'⟩ :=
      ih s₁ (consistent_step h hstep hlt₁) hlt₁
    refine ⟨s', core', toClient', ?_, hissued'.trans hissued, ?_⟩
    · rw [List.foldlM_cons, hserve]
      exact hrun
    · have hless : work ⟨core₁, reads ++ rest, toClient₁.pending⟩ <
          work ⟨core, read :: (reads ++ rest), toClient.pending⟩ := hwork
      rw [List.cons_append]
      omega

theorem deliver_step_cases {t' : Session} {read : ClientRead} {rest : List ClientRead}
    {q : List ServerRead} (h : Sessions.step r s ⟨core, q, read :: rest⟩ .deliver = some (s', t')) :
    ∃ core', core.onClientRead read = some core' ∧ s' = s ∧ t' = ⟨core', q, rest⟩ := by
  cases hread : core.onClientRead read with
  | none =>
    rw [Sessions.step] at h
    dsimp only at h
    rw [hread] at h
    cases h
  | some core₁ =>
    rw [step_deliver rfl hread] at h
    cases h
    exact ⟨core₁, rfl, rfl, rfl⟩

theorem deliverReads_succeed (r : Router σ) (s : σ) {q : List ServerRead}
    {reads rest : List ClientRead} (h : Consistent ⟨core, q, reads ++ rest⟩)
    (hlt : core.issued.length < 2 ^ 63) :
    ∃ core', reads.foldlM Core.onClientRead core = some core' ∧ core'.issued = core.issued ∧
      work ⟨core', q, rest⟩ ≤ work ⟨core, q, reads ++ rest⟩ := by
  induction reads generalizing core with
  | nil => exact ⟨core, rfl, rfl, le_refl _⟩
  | cons read reads ih =>
    obtain ⟨t₁, hstep, hissued, hwork⟩ := deliver_succeeds r s h (List.cons_ne_nil _ _)
    obtain ⟨core₁, hread, -, rfl⟩ := deliver_step_cases hstep
    have hlt₁ : core₁.issued.length < 2 ^ 63 := by
      rw [show core₁.issued = core.issued from hissued]
      exact hlt
    obtain ⟨core', hrun, hissued', hwork'⟩ := ih (consistent_step h hstep hlt₁) hlt₁
    refine ⟨core', ?_, hissued'.trans hissued, hwork'.trans ?_⟩
    · rw [List.foldlM_cons, hread]
      exact hrun
    · rw [List.cons_append]
      exact hwork.le

end Reads

section Arrivals

theorem arriveAtServer_succeeds (hnames : ShortNames r) (s : σ) (h : Consistent n.session)
    (hlt : n.core.issued.length < 2 ^ 63) (k : Nat) (padding : UInt64 → Padding) :
    ∃ s' n', Networks.step r s n (.arriveAtServer k padding) = some (s', n') ∧
      n'.core.issued = n.core.issued ∧ n'.toServer = n.toServer.arrive k ∧
      6 * work n'.session + n'.toClient.load ≤ 6 * work n.session + n.toClient.load := by
  have hpending := n.toServer.arrived_append_pending k
  rw [Network.session, ← hpending] at h
  obtain ⟨s', core', toClient', hrun, hissued, hload⟩ :=
    serveReads_succeed hnames padding s h hlt
  refine ⟨s', ⟨core', n.toServer.arrive k, toClient'⟩, ?_, hissued, rfl, ?_⟩
  · rw [Networks.step, hrun]
  · rw [hpending] at hload
    exact hload

theorem arriveAtClient_succeeds (r : Router σ) (s : σ) (h : Consistent n.session)
    (hlt : n.core.issued.length < 2 ^ 63) (k : Nat) :
    ∃ n', Networks.step r s n (.arriveAtClient k) = some (s, n') ∧
      n'.core.issued = n.core.issued ∧ n'.toServer = n.toServer ∧
      n'.toClient = n.toClient.arrive k ∧ work n'.session ≤ work n.session := by
  have hpending := n.toClient.arrived_append_pending k
  rw [Network.session, ← hpending] at h
  obtain ⟨core', hrun, hissued, hwork⟩ := deliverReads_succeed r s h hlt
  refine ⟨⟨core', n.toServer, n.toClient.arrive k⟩, ?_, hissued, rfl, rfl, ?_⟩
  · rw [Networks.step, hrun]
  · rw [hpending] at hwork
    exact hwork

end Arrivals

section Completion

def total (n : Network) : Nat := 6 * work n.session + n.toServer.load + n.toClient.load

def anyBody : Body := ⟨[0xc0], by decide⟩

def noPadding : Padding := (0, 0)

theorem exists_netStep (hnames : ShortNames r) (s : σ) (h : Consistent n.session)
    (hlt : n.core.issued.length < 2 ^ 63) (htotal : 0 < total n) :
    ∃ a s' n', Networks.step r s n a = some (s', n') ∧ n'.core.issued = n.core.issued ∧
      total n' < total n := by
  -- The stream to the client first, then the one to the server, then what feeds them.
  by_cases hcw : n.toClient.wire = []
  swap
  · obtain ⟨n', hstep, hissued, hserver, hclient, hwork⟩ :=
      arriveAtClient_succeeds r s h hlt n.toClient.wire.length
    have hload := n.toClient.load_arrive hcw
    refine ⟨_, s, n', hstep, hissued, ?_⟩
    rw [total, total, hserver, hclient]
    omega
  by_cases hcl : n.toClient.left = []
  swap
  · have hload := n.toClient.load_transmit hcl
    refine ⟨.transmitToClient n.toClient.left.length, s, _, rfl, rfl, ?_⟩
    rw [total, total, Network.session, Network.session, Pipe.pending_transmit]
    dsimp only
    omega
  by_cases hcq : n.toClient.queue = []
  swap
  · have hload := n.toClient.load_written hcl hcq
    refine ⟨.writtenToClient, s, { n with toClient := n.toClient.written hcl }, dif_pos hcl, rfl, ?_⟩
    rw [total, total, Network.session, Network.session, Pipe.pending_written]
    dsimp only
    omega
  by_cases hsw : n.toServer.wire = []
  swap
  · obtain ⟨s', n', hstep, hissued, hserver, hwork⟩ :=
      arriveAtServer_succeeds hnames s h hlt n.toServer.wire.length fun _ => noPadding
    have hload := n.toServer.load_arrive hsw
    refine ⟨_, s', n', hstep, hissued, ?_⟩
    rw [total, total, hserver]
    omega
  by_cases hsl : n.toServer.left = []
  swap
  · have hload := n.toServer.load_transmit hsl
    refine ⟨.transmitToServer n.toServer.left.length, s, _, rfl, rfl, ?_⟩
    rw [total, total, Network.session, Network.session, Pipe.pending_transmit]
    dsimp only
    omega
  by_cases hsq : n.toServer.queue = []
  swap
  · have hload := n.toServer.load_written hsl hsq
    refine ⟨.writtenToServer, s, { n with toServer := n.toServer.written hsl }, dif_pos hsl, rfl, ?_⟩
    rw [total, total, Network.session, Network.session, Pipe.pending_written]
    dsimp only
    omega
  cases hrunning : n.core.running with
  | cons q running =>
    have hstep : Networks.step r s n (.respond 0 anyBody noPadding) = some (s, { n with
        core := { n.core with
          running := running
          answered := n.core.answered ++ [(q.reqId, anyBody.1)] }
        toClient := n.toClient.push (replyMessage q.reqId .reqRes anyBody noPadding) }) := by
      rw [Networks.step, Core.respond, hrunning]
      rfl
    have hload := n.toClient.load_push (replyMessage q.reqId .reqRes anyBody noPadding)
    refine ⟨_, s, _, hstep, rfl, ?_⟩
    rw [total, total, Network.session, Network.session, Pipe.pending_push]
    simp only [work, hrunning, List.length_append, List.length_cons]
    rw [show (replies.meaning (replyMessage q.reqId .reqRes anyBody noPadding)).length = 1 from rfl]
    omega
  | nil =>
    cases hcalling : n.core.calling with
    | cons m calling =>
      have hstep : Networks.step r s n (.send 0) = some (s, { n with
          core := { n.core with calling := calling, sent := n.core.sent ++ [requestOf m] }
          toServer := n.toServer.push m }) := by
        rw [Networks.step, Core.send, hcalling]
        rfl
      have hload := n.toServer.load_push m
      have hcall := serverMeaning_call (h.isCall m (hcalling ▸ List.mem_cons_self))
      refine ⟨_, s, _, hstep, rfl, ?_⟩
      rw [total, total, Network.session, Network.session, Pipe.pending_push]
      simp only [work, hcalling, List.length_append, List.length_cons]
      rw [show (requests.meaning m).length = 1 from congrArg List.length hcall]
      omega
    | nil =>
      have hserver := n.toServer.pending_drained hsq hsw
      have hclient := n.toClient.pending_drained hcq hcw
      simp only [total, work, Network.session, Pipe.load, hserver, hclient, hrunning, hcalling, hsq,
        hsl, hsw, hcq, hcl, hcw] at htotal
      exact absurd htotal (by decide)

end Completion

section Results

variable {init : σ} {z z' : NetSystem σ ι} {ops : List (ι × NetAction)}

theorem consistent_of_passes (hz : Passes (netStep r) (netStart init) ops z) (i : ι)
    (hlt : (z.networks i).core.issued.length < 2 ^ 63) : Consistent (z.networks i).session := by
  obtain ⟨ops', y, hy, hR⟩ := passes_refines hz
  rw [← hR.sessions]
  exact (invariant_of_passes hy).consistent i (by rw [hR.sessions]; exact hlt)

def addOne : Handler Nat :=
  ⟨.sync, [int32], [int32], fun s v => (s + 1, .ok ((show Int32 from v.1) + 1, ()))⟩

def addOneServer : Router Nat :=
  [Registration.register (text "add_one") addOne].foldl Router.apply .empty

def callAddOne : List (Unit × NetAction) :=
  [.call .future (md5Hash32 (text "add_one")) ⟨[0x91, 41], by decide⟩ noPadding, .send 0,
    .transmitToServer 3, .arriveAtServer 2 fun _ => noPadding, .transmitToServer 30,
    .arriveAtServer 30 fun _ => noPadding, .writtenToServer, .transmitToClient 30,
    .writtenToClient, .arriveAtClient 21, .arriveAtClient 30].map (Prod.mk ())

def addOneAfter (k : Nat) : NetSystem Nat Unit :=
  ((callAddOne.take k).foldlM (netStep addOneServer) (netStart 5)).getD (netStart 5)

theorem passes_addOneAfter {k : Nat}
    (h : ((callAddOne.take k).foldlM (netStep addOneServer) (netStart 5)).isSome) :
    Passes (netStep addOneServer) (netStart 5) callAddOne (addOneAfter k) := by
  obtain ⟨z, hz⟩ := Option.isSome_iff_exists.mp h
  refine ⟨callAddOne.take k, List.take_prefix k _, ?_⟩
  rw [addOneAfter, hz, Option.getD_some]

/-- No call is lost: it is about to be sent, on its way to the server, run by an asynchronous
handler, on its way back or completed, and the client waits for it in all but the last case. -/
theorem located_of_passes (hz : Passes (netStep r) (netStart init) ops z) (i : ι)
    (hlt : (z.networks i).core.issued.length < 2 ^ 63) :
    let n := z.networks i
    let opened := n.core.calling.map Message.reqId ++
      (requests n.toServer.pending).map Request.reqId ++ n.core.running.map Request.reqId ++
      (responses n.toClient.pending).map Prod.fst
    (opened ++ n.core.completed.map Completion.reqId).Perm (n.core.issued.map Request.reqId) ∧
      n.core.calls.waiting.Perm opened :=
  located (consistent_of_passes hz i hlt)

theorem located_addOne : ((addOneAfter 4).networks ()).core.calls.waiting.Perm
    (((addOneAfter 4).networks ()).core.calling.map Message.reqId ++
      (requests ((addOneAfter 4).networks ()).toServer.pending).map Request.reqId ++
      ((addOneAfter 4).networks ()).core.running.map Request.reqId ++
      (responses ((addOneAfter 4).networks ()).toClient.pending).map Prod.fst) :=
  (located_of_passes (passes_addOneAfter (by decide +kernel)) () (by decide +kernel)).2

theorem history_of_passes (hz : Passes (netStep r) (netStart init) ops z) :
    ∃ history : List (ι × Routed),
      (history.map Prod.snd).foldlM (replay r) init = some z.state ∧
      ∀ i, (z.networks i).core.routed = own i history := by
  obtain ⟨ops', y, hy, hR⟩ := passes_refines hz
  have h := invariant_of_passes hy
  refine ⟨y.history, hR.state ▸ h.sequential, fun i => ?_⟩
  rw [← h.own_eq, hR.sessions]
  rfl

/-- The handlers run as if one request were called after the other, those of a client in the order
in which it has sent them. -/
theorem sequential_of_passes (hz : Passes (netStep r) (netStart init) ops z) :
    ∃ history : List (ι × Routed),
      (history.map Prod.snd).foldlM (replay r) init = some z.state ∧
      (∀ i, (z.networks i).core.routed = own i history) ∧
      ∀ i, (z.networks i).core.issued.length < 2 ^ 63 → (z.networks i).core.sent =
        (own i history).map Routed.request ++ requests (z.networks i).toServer.pending := by
  obtain ⟨history, hhistory, hown⟩ := history_of_passes hz
  refine ⟨history, hhistory, hown, fun i hlt => ?_⟩
  rw [← hown]
  exact (consistent_of_passes hz i hlt).ordered

theorem sequential_addOne : ∃ history : List (Unit × Routed),
    (history.map Prod.snd).foldlM (replay addOneServer) 5 = some (addOneAfter 11).state := by
  obtain ⟨history, h, -⟩ := sequential_of_passes (passes_addOneAfter (k := 11) (by decide +kernel))
  exact ⟨history, h⟩

/-- No assertion of `response` or `call_back` fails, whatever has happened before. -/
theorem arrivals_succeed (hnames : ShortNames r) (hz : Passes (netStep r) (netStart init) ops z)
    (i : ι) (hlt : (z.networks i).core.issued.length < 2 ^ 63) (k : Nat)
    (padding : UInt64 → Padding) :
    (∃ z', netStep r z (i, .arriveAtServer k padding) = some z') ∧
      ∃ z', netStep r z (i, .arriveAtClient k) = some z' := by
  have h := consistent_of_passes hz i hlt
  obtain ⟨s', n', hserver, -⟩ := arriveAtServer_succeeds hnames z.state h hlt k padding
  obtain ⟨n'', hclient, -⟩ := arriveAtClient_succeeds r z.state h hlt k
  refine ⟨⟨⟨s', Function.update z.networks i n'⟩, ?_⟩,
    ⟨⟨z.state, Function.update z.networks i n''⟩, ?_⟩⟩
  · rw [netStep, hserver]
  · rw [netStep, hclient]

theorem shortNames_addOneServer : ShortNames addOneServer :=
  shortNames_of_registrations fun name f h => by
    obtain ⟨rfl, -⟩ : name = text "add_one" ∧ f = addOne := by simpa using h
    decide

theorem arrivals_addOne : (∃ z, netStep addOneServer (addOneAfter 5)
      ((), .arriveAtServer 30 fun _ => noPadding) = some z) ∧
    ∃ z, netStep addOneServer (addOneAfter 5) ((), .arriveAtClient 30) = some z :=
  arrivals_succeed shortNames_addOneServer (passes_addOneAfter (by decide +kernel)) ()
    (by decide +kernel) 30 fun _ => noPadding

/-- No state that can be reached is a dead end: all calls of a client can still be completed. -/
theorem can_complete (hnames : ShortNames r) (hz : Passes (netStep r) (netStart init) ops z)
    (i : ι) (hlt : (z.networks i).core.issued.length < 2 ^ 63) :
    ∃ (ops' : List NetAction) (z' : NetSystem σ ι),
      (ops'.map (Prod.mk i)).foldlM (netStep r) z = some z' ∧
      (z'.networks i).core.issued = (z.networks i).core.issued ∧
      (z'.networks i).core.calls.waiting = [] := by
  induction htotal : total (z.networks i) using Nat.strong_induction_on generalizing z ops with
  | h k ih =>
    have h := consistent_of_passes hz i hlt
    by_cases hpos : 0 < total (z.networks i)
    · obtain ⟨a, s', n', hstep, hissued, hless⟩ := exists_netStep hnames z.state h hlt hpos
      obtain ⟨z₁, hz₁, hn'⟩ : ∃ z₁, netStep r z (i, a) = some z₁ ∧ z₁.networks i = n' := by
        refine ⟨⟨s', Function.update z.networks i n'⟩, ?_, Function.update_self ..⟩
        rw [netStep, hstep]
      obtain ⟨ops₁, hpasses⟩ :=
        passes_append hz (show [(i, a)].foldlM _ _ = _ from (bind_pure _).trans hz₁)
      obtain ⟨ops', z', hrun, hissued', hwaiting⟩ := ih (total n') (htotal ▸ hless) hpasses
        (by rw [hn', hissued]; exact hlt) (by rw [hn'])
      refine ⟨a :: ops', z', ?_, ?_, hwaiting⟩
      · rw [List.map_cons, List.foldlM_cons, hz₁]
        exact hrun
      · rw [hissued', hn', hissued]
    · refine ⟨[], z, rfl, rfl, ?_⟩
      have hopen := (located h).2
      have hwork : work (z.networks i).session = 0 := by
        unfold total at hpos
        omega
      unfold work at hwork
      have hcalling : (z.networks i).session.core.calling = [] :=
        List.length_eq_zero_iff.mp (by omega)
      have hserver : (z.networks i).session.toServer = [] := List.length_eq_zero_iff.mp (by omega)
      have hrunning : (z.networks i).session.core.running = [] :=
        List.length_eq_zero_iff.mp (by omega)
      have hclient : (z.networks i).session.toClient = [] := List.length_eq_zero_iff.mp (by omega)
      rw [hcalling, hserver, hrunning, hclient] at hopen
      exact List.perm_nil.mp hopen

theorem can_complete_addOne : ∃ (ops : List NetAction) (z : NetSystem Nat Unit),
    (ops.map (Prod.mk ())).foldlM (netStep addOneServer) (addOneAfter 4) = some z ∧
      (z.networks ()).core.issued = ((addOneAfter 4).networks ()).core.issued ∧
      (z.networks ()).core.calls.waiting = [] :=
  can_complete shortNames_addOneServer (passes_addOneAfter (by decide +kernel)) ()
    (by decide +kernel)

end Results

end DistExp.Rpc.NetworkProgress
