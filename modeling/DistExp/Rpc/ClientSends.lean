import DistExp.Rpc.ClientLedger
import DistExp.Rpc.SessionSteps

namespace DistExp.Rpc.ClientSends

open DistExp.Library.Outbox DistExp.Library.Runs DistExp.Rpc.ClientCalls DistExp.Rpc.ClientLoop
  DistExp.Rpc.ClientFailures DistExp.Rpc.ClientLedger DistExp.Rpc.SessionSteps DistExp.Rpc.Wire
open DistExp.Rpc.Sessions (Body)

variable {c c' : Client} {e : Event} {ops : List Event} {b : Bool} {n : Int}

section Requests

/-- A message of `async_call`, not a subscription or a heartbeat. -/
def isRequest (m : ClientMessage) : Bool := m.reqType = .reqRes ∧ m.content ≠ []

def requestIds (ms : List ClientMessage) : List UInt64 :=
  (ms.filter isRequest).map ClientMessage.reqId

theorem requestIds_append (ms ms' : List ClientMessage) :
    requestIds (ms ++ ms') = requestIds ms ++ requestIds ms' := by
  rw [requestIds, List.filter_append, List.map_append]
  rfl

theorem requestIds_sublist {ms ms' : List ClientMessage} (h : ms.Sublist ms') :
    (requestIds ms).Sublist (requestIds ms') := (h.filter _).map _

theorem requestIds_perm {ms ms' : List ClientMessage} (h : ms.Perm ms') :
    (requestIds ms).Perm (requestIds ms') := (h.filter _).map _

theorem requestIds_subscription {key token : PubSub.Text} {m : ClientMessage}
    (h : subscription key token = some m) : requestIds [m] = [] := by
  rw [subscription] at h
  split at h
  · cases h
  · split at h
    · cases h
      rfl
    · cases h

theorem requestIds_subscriptions {pairs : List (PubSub.Text × PubSub.Text)} {ms : List ClientMessage}
    (h : pairs.mapM (fun p => subscription p.1 p.2) = some ms) : requestIds ms = [] := by
  induction pairs generalizing ms with
  | nil =>
    cases h
    rfl
  | cons p pairs ih =>
    rw [List.mapM_cons] at h
    obtain ⟨m, hm, h⟩ := Option.bind_eq_some_iff.mp h
    obtain ⟨ms', hms', h⟩ := Option.bind_eq_some_iff.mp h
    cases h
    rw [← List.singleton_append, requestIds_append, requestIds_subscription hm, ih hms']
    rfl

end Requests

section Calling

theorem calling_close (c : Client) : c.close.calling = c.calling := by
  rw [Client.close]
  split <;> rfl

theorem calling_errorCallback (c : Client) : c.errorCallback.calling = c.calling := by
  rw [Client.errorCallback]
  split <;> rfl

theorem calling_closed (c : Client) : c.close.errorCallback.calling = c.calling :=
  (calling_errorCallback _).trans (calling_close c)

theorem calling_callBack {reqId : UInt64} {ec : Option ErrorCode} {data : List UInt8}
    {andThen : Client → Client} (h : ∀ d, (andThen d).calling = d.calling) :
    (c.callBack reqId ec data andThen).calling = c.calling := by
  rw [Client.callBack]
  split
  · rfl
  · exact h _

theorem calling_onConnected {pairs : List (PubSub.Text × PubSub.Text)} {ec : Option ErrorCode}
    (h : c.onConnected pairs ec = some c') : c'.calling = c.calling := by
  cases ec with
  | none =>
    rw [Client.onConnected] at h
    split at h
    · cases h
      rfl
    · rw [Client.resendSubscribe] at h
      split at h
      · cases h
      · cases h
        rfl
  | some ec =>
    rw [Client.onConnected] at h
    split at h <;> cases h <;> rfl

theorem calling_onWritten (c : Client) (ec : Option ErrorCode) :
    (c.onWritten ec).calling = c.calling := by
  cases ec with
  | none => rfl
  | some ec => exact calling_closed _

theorem calling_onHead (c : Client) (r : Except ErrorCode Reading) :
    (c.onHead r).calling = c.calling := by
  rw [Client.onHead.eq_def]
  split
  · rfl
  cases r with
  | error ec => exact calling_closed _
  | ok q =>
    dsimp only
    split
    · rfl
    split
    · exact calling_closed c
    · rfl

theorem calling_onBody (c : Client) (q : Reading) (r : Except ErrorCode (List UInt8)) :
    (c.onBody q r).calling = c.calling := by
  rw [Client.onBody.eq_def]
  split
  · exact calling_callBack fun _ => rfl
  cases r with
  | error ec => exact calling_callBack fun d => calling_closed d
  | ok data =>
    dsimp only
    split
    · exact calling_callBack fun _ => rfl
    · rw [Client.callbackSub]
      split
      · rfl
      · exact calling_errorCallback c
    · exact calling_closed c

def isCall : Event → Bool
  | .call _ _ _ | .send _ => true
  | _ => false

theorem calling_of_next (h : next c e = some c') (hcall : isCall e = false) :
    c'.calling = c.calling := by
  cases e with
  | call model funcId body => cases hcall
  | send k => cases hcall
  | connect =>
    cases h
    split <;> rfl
  | subscribe key token =>
    rw [next] at h
    split at h
    · cases h
      rfl
    split at h
    · cases h
    · cases h
      rfl
  | close =>
    cases h
    exact calling_close c
  | heartbeat =>
    cases h
    split <;> rfl
  | expire id =>
    cases h
    rfl
  | connected pairs ec =>
    rw [next] at h
    split at h
    · have hcalling := calling_onConnected h
      exact hcalling
    · cases h
  | written ec =>
    rw [next] at h
    split at h
    · cases h
      exact calling_onWritten _ ec
    · cases h
  | head r =>
    rw [next] at h
    split at h
    · cases h
      exact calling_onHead _ r
    · cases h
  | body q r =>
    rw [next] at h
    split at h
    · cases h
      exact calling_onBody _ q r
    · cases h

end Calling

section Handed

theorem handed_connected {pairs : List (PubSub.Text × PubSub.Text)} {ec : Option ErrorCode}
    (h : c.onConnected pairs ec = some c') :
    requestIds c'.writer.handed = requestIds c.writer.handed := by
  cases ec with
  | none =>
    rw [Client.onConnected] at h
    split at h
    · cases h
      rfl
    · rw [Client.resendSubscribe] at h
      split at h
      · cases h
      case h_2 ms hms =>
        cases h
        change requestIds (ms.foldl Writer.push c.writer).handed = _
        rw [Writer.handed_pushes, requestIds_append, requestIds_subscriptions hms, List.append_nil]
  | some ec =>
    rw [Client.onConnected] at h
    split at h <;> cases h <;> rfl

theorem handed_of_effect {v : View} (h : Effect c e v) (hw : writes e = false) :
    (requestIds v.writer.handed).Sublist (requestIds c.writer.handed) := by
  cases h with
  | writes htrue => exact absurd (hw.symm.trans htrue) Bool.false_ne_true
  | written =>
    rw [Writer.handed_pop]
    exact List.Sublist.refl _
  | headCloses | closes => exact requestIds_sublist (Writer.handed_clear_sublist _)
  | _ => exact List.Sublist.refl _

theorem handed_of_next (h : next c e = some c') (hcall : isCall e = false) :
    (requestIds c'.writer.handed).Sublist (requestIds c.writer.handed) := by
  cases e with
  | call model funcId body => cases hcall
  | send k => cases hcall
  | connect =>
    cases h
    split <;> exact List.Sublist.refl _
  | subscribe key token =>
    rw [next] at h
    split at h
    · cases h
      exact List.Sublist.refl _
    split at h
    · cases h
    case h_2 m hm =>
      cases h
      change (requestIds (c.writer.push m).handed).Sublist _
      rw [Writer.handed_push, requestIds_append, requestIds_subscription hm, List.append_nil]
  | heartbeat =>
    cases h
    split
    · change (requestIds (c.writer.push _).handed).Sublist _
      rw [Writer.handed_push, requestIds_append]
      exact (List.append_nil (requestIds c.writer.handed)).symm ▸ List.Sublist.refl _
    · exact List.Sublist.refl _
  | connected pairs ec =>
    rw [next] at h
    split at h
    · have hhanded := handed_connected h
      exact hhanded ▸ List.Sublist.refl _
    · cases h
  | close | expire | written | head | body =>
    exact handed_of_effect (effect_of_next h) rfl

end Handed

section Runs

def requested (c : Client) : List UInt64 :=
  requestIds c.writer.handed ++ requestIds c.calling

structure SentOnce (c : Client) : Prop where
  nodup : (requested c).Nodup
  issued : requested c ⊆ c.ledger.issued

theorem sentOnce_start : SentOnce (start b n) := ⟨.nil, List.nil_subset _⟩

theorem sentOnce_of_sublist (hs : SentOnce c) (hsub : (requested c').Sublist (requested c))
    (hissued : c.ledger.issued <+: c'.ledger.issued) : SentOnce c' :=
  ⟨hsub.nodup hs.nodup, fun _ hid => hissued.subset (hs.issued (hsub.subset hid))⟩

theorem sentOnce_call (hs : SentOnce c) (hc : Consistent c.ledger) {model : CallModel}
    {funcId : UInt32} {body : Body} (hlt : (c.call model funcId body).ledger.issued.length < 2 ^ 63) :
    SentOnce (c.call model funcId body) := by
  rw [Client.call] at hlt ⊢
  split
  case isTrue => exact hs
  case isFalse hcall =>
    rw [if_neg hcall] at hlt
    change (c.ledger.issued ++ [(c.ledger.calls.begin model).1]).length < 2 ^ 63 at hlt
    rw [List.length_append, List.length_singleton] at hlt
    obtain ⟨-, hnew, -⟩ := Calls.begin_counts hc.counts hlt model
    set m : ClientMessage :=
      ⟨(c.ledger.calls.begin model).1, .reqRes, body.1, funcId, body.length_lt⟩ with hm
    have hrequest : isRequest m = true := decide_eq_true ⟨rfl, body.2.1⟩
    have hids : requestIds [m] = [(c.ledger.calls.begin model).1] := by
      rw [requestIds, List.filter_singleton, hrequest]
      rfl
    have hrequested : requestIds c.writer.handed ++ requestIds (c.calling ++ [m]) =
        requested c ++ [(c.ledger.calls.begin model).1] := by
      rw [requestIds_append, hids, ← List.append_assoc]
      rfl
    refine ⟨?_, ?_⟩
    · change (requestIds c.writer.handed ++ requestIds (c.calling ++ [m])).Nodup
      rw [hrequested]
      refine hs.nodup.append (List.nodup_singleton _) fun id hid hid' => ?_
      exact hnew (List.mem_singleton.mp hid' ▸ hs.issued hid)
    · change requestIds c.writer.handed ++ requestIds (c.calling ++ [m]) ⊆
        c.ledger.issued ++ [(c.ledger.calls.begin model).1]
      rw [hrequested]
      exact List.append_subset.mpr ⟨List.subset_append_of_subset_left _ hs.issued,
        List.subset_append_right _ _⟩

theorem sentOnce_send (hs : SentOnce c) {k : Nat} (h : next c (.send k) = some c') :
    SentOnce c' := by
  rw [next] at h
  split at h
  case h_1 => cases h
  case h_2 m hm =>
    cases h
    have hperm : (requestIds (c.writer.push m).handed ++ requestIds (c.calling.eraseIdx k)).Perm
        (requested c) := by
      rw [Writer.handed_push, requestIds_append, List.append_assoc, ← requestIds_append,
        List.singleton_append]
      exact (requestIds_perm (perm_eraseIdx hm).symm).append_left _
    exact ⟨hperm.nodup_iff.mpr hs.nodup, fun id hid => hs.issued (hperm.subset hid)⟩

theorem sentOnce_of_step (h : step c e = some c') (hc : Consistent c.ledger)
    (hlt : c'.ledger.issued.length < 2 ^ 63) (hs : SentOnce c) : SentOnce c' := by
  have hissued := issued_prefix_of_step h
  have hnext := (next_of_step h).2
  cases e with
  | call model funcId body =>
    cases hnext
    exact sentOnce_call hs hc hlt
  | send k => exact sentOnce_send hs hnext
  | connect | subscribe | close | heartbeat | expire | connected | written | head | body =>
    refine sentOnce_of_sublist hs ?_ hissued
    rw [requested, calling_of_next hnext rfl]
    exact (handed_of_next hnext rfl).append (List.Sublist.refl _)

/-- However often the client loses its connection and connects again, no call is sent a second
time. -/
theorem sentOnce_of_run (hrun : ops.foldlM step (start b n) = some c)
    (hlt : c.ledger.issued.length < 2 ^ 63) :
    (requestIds c.writer.started).Nodup ∧ requestIds c.writer.started ⊆ c.ledger.issued := by
  have h : SentOnce c := by
    induction ops using List.reverseRecOn generalizing c with
    | nil =>
      cases hrun
      exact sentOnce_start
    | append_singleton ops e ih =>
      obtain ⟨d, hd, hstep⟩ := exists_of_foldlM_snoc hrun
      have hlt' := (issued_prefix_of_step hstep).length_le.trans_lt hlt
      have hc := consistent_of_passes ⟨ops, List.prefix_refl _, hd⟩ hlt'
      exact sentOnce_of_step hstep hc hlt (ih hd hlt')
  have hstarted : (requestIds c.writer.started).Sublist (requested c) :=
    (requestIds_sublist (List.sublist_append_left _ _)).trans (List.sublist_append_left _ _)
  exact ⟨hstarted.nodup h.nodup, fun id hid => h.issued (hstarted.subset hid)⟩

theorem sentOnce_exchange : ∃ c, exchange.foldlM step (start true 1) = some c ∧
    requestIds c.writer.started = [firstId, 1, firstId + 1, 2] ∧
    (requestIds c.writer.started).Nodup ∧ requestIds c.writer.started ⊆ c.ledger.issued :=
  ⟨_, exchange_run, by decide +kernel, sentOnce_of_run exchange_run (by decide +kernel)⟩

end Runs

end DistExp.Rpc.ClientSends
