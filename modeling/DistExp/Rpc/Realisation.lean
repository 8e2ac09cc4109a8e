import DistExp.Rpc.NetworkProgress

namespace DistExp.Rpc.Realisation

open DistExp.Library.Runs DistExp.Library.Stream DistExp.Rpc.Wire DistExp.Rpc.Routing
  DistExp.Rpc.Sessions DistExp.Rpc.Systems DistExp.Rpc.Networks DistExp.Rpc.NetworkProgress

variable {σ ι : Type} [DecidableEq ι] {r : Router σ} {s s' : σ} {n n' : Network} {t' : Session}

def networkRun (r : Router σ) (st : σ × Network) (as : List NetAction) : Option (σ × Network) :=
  as.foldlM (fun st a => Networks.step r st.1 st.2 a) st

theorem networkRun_cons {a : NetAction} {as : List NetAction} {st : σ × Network}
    (h : Networks.step r s n a = some (s', n')) (hrun : networkRun r (s', n') as = some st) :
    networkRun r (s, n) (a :: as) = some st := by
  rw [networkRun, List.foldlM_cons]
  dsimp only
  rw [h]
  exact hrun

theorem networkRun_one {a : NetAction} {st : σ × Network}
    (h : Networks.step r s n a = some st) : networkRun r (s, n) [a] = some st :=
  (bind_pure _).trans h

theorem networkRun_append {as bs : List NetAction} {st st' st'' : σ × Network}
    (h : networkRun r st as = some st') (hrun : networkRun r st' bs = some st'') :
    networkRun r st (as ++ bs) = some st'' := by
  rw [networkRun] at h
  rw [networkRun, List.foldlM_append, h]
  exact hrun

section Reads

theorem length_serverHandle_le (st : ReadState) (bs : List UInt8) :
    (Wire.requests.handle st bs).2.length ≤ 1 := by
  cases st with
  | head =>
    simp only [Wire.requests, serverReader, serverHandle]
    split_ifs <;> simp
  | body reqId reqType funcId bodyLen =>
    simp only [Wire.requests, serverReader, serverHandle]
    split <;> simp
  | stopped => exact Nat.zero_le 1

theorem length_clientHandle_le (st : ReadState) (bs : List UInt8) :
    (replies.handle st bs).2.length ≤ 1 := by
  cases st with
  | head =>
    simp only [replies, clientReader, clientHandle]
    split_ifs <;> simp
  | body reqId reqType funcId bodyLen =>
    simp only [replies, clientReader, clientHandle]
    split <;> simp
  | stopped => exact Nat.zero_le 1

theorem unseen_toServer (r : Router σ) (s : σ) {c c' : Pipe requests} (h : Pipe.Unseen c c')
    (n : Network) : ∃ as, networkRun r (s, { n with toServer := c }) as =
      some (s, { n with toServer := c' }) := by
  induction h with
  | refl c => exact ⟨[], rfl⟩
  | transmit k _ ih =>
    obtain ⟨as, has⟩ := ih
    exact ⟨.transmitToServer k :: as, networkRun_cons rfl has⟩
  | written hleft _ ih =>
    obtain ⟨as, has⟩ := ih
    exact ⟨.writtenToServer :: as, networkRun_cons (dif_pos hleft) has⟩
  | arrive k hk _ ih =>
    obtain ⟨as, has⟩ := ih
    refine ⟨.arriveAtServer k (fun _ => noPadding) :: as, networkRun_cons ?_ has⟩
    rw [Networks.step]
    dsimp only
    rw [hk]
    rfl

theorem unseen_toClient (r : Router σ) (s : σ) {c c' : Pipe replies} (h : Pipe.Unseen c c')
    (n : Network) : ∃ as, networkRun r (s, { n with toClient := c }) as =
      some (s, { n with toClient := c' }) := by
  induction h with
  | refl c => exact ⟨[], rfl⟩
  | transmit k _ ih =>
    obtain ⟨as, has⟩ := ih
    exact ⟨.transmitToClient k :: as, networkRun_cons rfl has⟩
  | written hleft _ ih =>
    obtain ⟨as, has⟩ := ih
    exact ⟨.writtenToClient :: as, networkRun_cons (dif_pos hleft) has⟩
  | arrive k hk _ ih =>
    obtain ⟨as, has⟩ := ih
    refine ⟨.arriveAtClient k :: as, networkRun_cons ?_ has⟩
    rw [Networks.step]
    dsimp only
    rw [hk]
    rfl

theorem serve_realised (h : Sessions.step r s n.session .serve = some (s', t')) :
    ∃ as n', networkRun r (s, n) as = some (s', n') ∧ n'.session = t' := by
  cases hpending : n.toServer.pending with
  | nil =>
    rw [Sessions.step, Network.session, hpending] at h
    cases h
  | cons read rest =>
    rw [Network.session, hpending] at h
    obtain ⟨core', out, hread, rfl⟩ := serve_step_cases h
    obtain ⟨c, k, hunseen, harrived, hrest⟩ :=
      n.toServer.exists_unseen length_serverHandle_le hpending
    obtain ⟨as, has⟩ := unseen_toServer r s hunseen n
    obtain ⟨toClient', hserve, hpending', -⟩ :=
      serveRead_out (fun _ => noPadding) n.toClient hread
    have hstep : Networks.step r s { n with toServer := c } (.arriveAtServer k fun _ => noPadding) =
        some (s', ⟨core', c.arrive k, toClient'⟩) := by
      rw [Networks.step]
      dsimp only
      rw [harrived, List.foldlM_cons, hserve]
      rfl
    refine ⟨as ++ [_], _, networkRun_append has (networkRun_one hstep), ?_⟩
    rw [Network.session, hrest, hpending']

theorem deliver_realised (h : Sessions.step r s n.session .deliver = some (s', t')) :
    ∃ as n', networkRun r (s, n) as = some (s', n') ∧ n'.session = t' := by
  cases hpending : n.toClient.pending with
  | nil =>
    rw [Sessions.step, Network.session, hpending] at h
    cases h
  | cons read rest =>
    rw [Network.session, hpending] at h
    obtain ⟨core', hread, rfl, rfl⟩ := deliver_step_cases h
    obtain ⟨c, k, hunseen, harrived, hrest⟩ :=
      n.toClient.exists_unseen length_clientHandle_le hpending
    obtain ⟨as, has⟩ := unseen_toClient r s' hunseen n
    have hstep : Networks.step r s' { n with toClient := c } (.arriveAtClient k) =
        some (s', ⟨core', n.toServer, c.arrive k⟩) := by
      rw [Networks.step]
      dsimp only
      rw [harrived, List.foldlM_cons, hread]
      rfl
    refine ⟨as ++ [_], _, networkRun_append has (networkRun_one hstep), ?_⟩
    rw [Network.session, hrest]

end Reads

section Runs

theorem step_realised {a : Action} (h : Sessions.step r s n.session a = some (s', t')) :
    ∃ as n', networkRun r (s, n) as = some (s', n') ∧ n'.session = t' := by
  cases a with
  | call model funcId body padding =>
    cases h
    exact ⟨[.call model funcId body padding], _, networkRun_one rfl, rfl⟩
  | send k =>
    rw [Sessions.step] at h
    split at h
    case h_1 => cases h
    case h_2 core m hsend =>
      cases h
      refine ⟨[.send k], { n with core := core, toServer := n.toServer.push m }, ?_, ?_⟩
      · refine networkRun_one ?_
        rw [Networks.step, show n.core.send k = some (core, m) from hsend]
      · rw [Network.session, Pipe.pending_push]
        rfl
  | notify m =>
    rw [Sessions.step] at h
    split at h
    case isTrue hm =>
      cases h
      refine ⟨[.notify m], { n with toServer := n.toServer.push m }, ?_, ?_⟩
      · exact networkRun_one (if_pos hm)
      · rw [Network.session, Pipe.pending_push]
        rfl
    case isFalse => cases h
  | serve => exact serve_realised h
  | respond k body =>
    rw [Sessions.step] at h
    split at h
    case h_1 => cases h
    case h_2 core reqId hrespond =>
      cases h
      refine ⟨[.respond k body noPadding], { n with
        core := core
        toClient := n.toClient.push (replyMessage reqId .reqRes body noPadding) }, ?_, ?_⟩
      · refine networkRun_one ?_
        rw [Networks.step, show n.core.respond k body = some (core, reqId) from hrespond]
      · rw [Network.session, Pipe.pending_push]
        rfl
  | publish body =>
    cases h
    refine ⟨[.publish body noPadding], { n with
      toClient := n.toClient.push (replyMessage 0 .subPub body noPadding) }, ?_, ?_⟩
    · exact networkRun_one rfl
    · rw [Network.session, Pipe.pending_push]
      rfl
  | deliver => exact deliver_realised h
  | expire reqId =>
    cases h
    exact ⟨[.expire reqId], _, networkRun_one rfl, rfl⟩

variable {init : σ} {y y' : System σ ι} {z : NetSystem σ ι} {i : ι}

theorem netRun {as : List NetAction} {n' : Network}
    (h : networkRun r (z.state, z.networks i) as = some (s', n')) :
    (as.map (Prod.mk i)).foldlM (netStep r) z =
      some ⟨s', Function.update z.networks i n'⟩ := by
  induction as generalizing z with
  | nil =>
    cases h
    rw [Function.update_eq_self]
    rfl
  | cons a as ih =>
    rw [networkRun, List.foldlM_cons] at h
    obtain ⟨⟨s₁, n₁⟩, hstep, h⟩ := Option.bind_eq_some_iff.mp h
    have hz₁ : netStep r z (i, a) = some ⟨s₁, Function.update z.networks i n₁⟩ := by
      rw [netStep]
      dsimp only at hstep ⊢
      rw [hstep]
    have hrun := ih (z := ⟨s₁, Function.update z.networks i n₁⟩)
      (by dsimp only; rw [Function.update_self]; exact h)
    rw [List.map_cons, List.foldlM_cons, hz₁, Function.update_idem] at *
    exact hrun

theorem step_system_realised {a : ι × Action} (hR : Refines z y)
    (h : Systems.step r y a = some y') :
    ∃ (as : List (ι × NetAction)) (z' : NetSystem σ ι),
      as.foldlM (netStep r) z = some z' ∧ Refines z' y' := by
  rw [Systems.step] at h
  split at h
  case h_1 => cases h
  case h_2 s' t' hstep =>
    cases h
    rw [hR.state, hR.sessions] at hstep
    obtain ⟨as, n', hrun, hn'⟩ := step_realised hstep
    refine ⟨_, _, netRun hrun, rfl, fun j => ?_⟩
    dsimp only
    by_cases hj : j = a.1
    · subst hj
      rw [Function.update_self, Function.update_self, hn']
    · rw [Function.update_of_ne hj, Function.update_of_ne hj, hR.sessions]

theorem passes_realised {ops : List (ι × Action)}
    (hy : Passes (Systems.step r) (start init) ops y) :
    ∃ ops' z, Passes (netStep r) (netStart init) ops' z ∧ Refines z y := by
  refine passes_invariant' (I := fun y => ∃ ops' z, Passes (netStep r) (netStart init) ops' z ∧
    Refines z y) ?_ ⟨[], netStart init, ⟨[], List.nil_prefix, rfl⟩, rfl, fun _ => rfl⟩ hy
  rintro y a y' ⟨ops', z, hz, hR⟩ hstep
  obtain ⟨as, z', hrun, hR'⟩ := step_system_realised hR hstep
  obtain ⟨ops'', hz'⟩ := passes_append hz hrun
  exact ⟨ops'', z', hz', hR'⟩

/-- What the clients and the server can come to is the same on the bytes as on the queues: cutting
the streams into pieces, however it is done, brings nothing new and rules nothing out. -/
theorem reached_iff {t : ι → Session} :
    (∃ ops z, Passes (netStep r) (netStart init) ops z ∧ z.state = s ∧
      ∀ i, (z.networks i).session = t i) ↔
    ∃ ops y, Passes (Systems.step r) (start init) ops y ∧ y.state = s ∧ y.sessions = t := by
  constructor
  · rintro ⟨ops, z, hz, rfl, ht⟩
    obtain ⟨ops', y, hy, hR⟩ := passes_refines hz
    exact ⟨ops', y, hy, hR.state, funext fun i => (hR.sessions i).trans (ht i)⟩
  · rintro ⟨ops, y, hy, rfl, rfl⟩
    obtain ⟨ops', z, hz, hR⟩ := passes_realised hy
    exact ⟨ops', z, hz, hR.state.symm, fun i => (hR.sessions i).symm⟩

end Runs

end DistExp.Rpc.Realisation
