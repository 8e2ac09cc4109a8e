import DistExp.Rpc.ClientFailures

namespace DistExp.Rpc.ClientReads

open DistExp.Library.Runs DistExp.Rpc.ClientCalls DistExp.Rpc.ClientLoop DistExp.Rpc.ClientFailures
  DistExp.Rpc.Wire

def reads (c : Client) : Nat := c.heads + c.bodies.length

variable {c c' last : Client} {e : Event} {ops : List Event} {b : Bool} {n : Int}

section Handlers

theorem reads_close (c : Client) : reads c.close = reads c := by
  rw [Client.close]
  split <;> rfl

theorem reads_errorCallback (c : Client) : reads c.errorCallback = reads c := by
  rw [Client.errorCallback]
  split <;> rfl

theorem reads_closed (c : Client) : reads c.close.errorCallback = reads c :=
  (reads_errorCallback _).trans (reads_close c)

theorem reads_doRead (c : Client) : reads c.doRead = reads c + 1 := Nat.add_right_comm ..

theorem reads_callBack_le {reqId : UInt64} {ec : Option ErrorCode} {data : List UInt8}
    {andThen : Client → Client} (h : ∀ d, reads (andThen d) ≤ reads d + 1) :
    reads (c.callBack reqId ec data andThen) ≤ reads c + 1 := by
  rw [Client.callBack]
  split
  · exact Nat.le_succ _
  · exact h _

theorem reads_onHead_le (c : Client) (r : Except ErrorCode Reading) :
    reads (c.onHead r) ≤ reads c + 1 := by
  rw [Client.onHead.eq_def]
  split
  · exact Nat.le_succ _
  cases r with
  | error ec => exact (reads_closed _).trans_le (Nat.le_succ _)
  | ok q =>
    dsimp only
    split
    · rw [reads, List.length_append]
      exact le_refl _
    split
    · exact (reads_closed c).trans_le (Nat.le_succ _)
    · exact Nat.le_succ _

theorem reads_onBody_le (c : Client) (q : Reading) (r : Except ErrorCode (List UInt8)) :
    reads (c.onBody q r) ≤ reads c + 1 := by
  rw [Client.onBody.eq_def]
  split
  · exact reads_callBack_le fun d => Nat.le_succ _
  cases r with
  | error ec => exact reads_callBack_le fun d => (reads_closed d).trans_le (Nat.le_succ _)
  | ok data =>
    dsimp only
    split
    · exact reads_callBack_le fun d => (reads_doRead d).le
    · rw [reads_doRead, Client.callbackSub]
      split
      · exact le_refl _
      · exact (congrArg (· + 1) (reads_errorCallback c)).le
    · exact (reads_closed c).trans_le (Nat.le_succ _)

theorem reads_onConnected {pairs : List (PubSub.Text × PubSub.Text)} {ec : Option ErrorCode}
    (h : c.onConnected pairs ec = some c') :
    reads c' = if ec = none ∧ c.hasConnected = false then reads c + 1 else reads c := by
  cases ec with
  | none =>
    rw [Client.onConnected] at h
    split at h
    case isTrue hconnected =>
      cases h
      rw [if_neg fun hno => Bool.false_ne_true (hno.2.symm.trans hconnected)]
    case isFalse hconnected =>
      rw [Client.resendSubscribe] at h
      split at h
      · cases h
      · cases h
        rw [if_pos ⟨rfl, Bool.eq_false_of_not_eq_true hconnected⟩]
        exact reads_doRead c
  | some ec =>
    rw [if_neg fun hno => Option.some_ne_none _ hno.1]
    rw [Client.onConnected] at h
    split at h <;> cases h <;> rfl

end Handlers

/-- The steps in which a connection is made before what was read over the last one is done with. -/
def overlaps (c : Client) : Event → Bool
  | .connected _ none => c.hasConnected = false ∧ 0 < reads c
  | _ => false

theorem reads_of_connected {pairs : List (PubSub.Text × PubSub.Text)} {ec : Option ErrorCode}
    (h : next c (.connected pairs ec) = some c') :
    reads c' = if ec = none ∧ c.hasConnected = false then reads c + 1 else reads c := by
  rw [next] at h
  split at h
  · have hreads := reads_onConnected h
    exact hreads
  · cases h

def connects : Event → Bool
  | .connected _ _ => true
  | _ => false

theorem reads_of_next (h : next c e = some c') (hconnects : connects e = false) :
    reads c' ≤ reads c := by
  cases e with
  | connected pairs ec => cases hconnects
  | connect =>
    cases h
    split <;> exact le_refl _
  | call model funcId body =>
    cases h
    rw [Client.call]
    split <;> exact le_refl _
  | send k =>
    rw [next] at h
    split at h
    · cases h
    · cases h
      exact le_refl _
  | subscribe key token =>
    rw [next] at h
    split at h
    · cases h
      exact le_refl _
    split at h
    · cases h
    · cases h
      exact le_refl _
  | close =>
    cases h
    exact (reads_close c).le
  | heartbeat =>
    cases h
    split <;> exact le_refl _
  | expire id =>
    cases h
    exact le_refl _
  | written ec =>
    rw [next] at h
    split at h
    · cases h
      cases ec with
      | none => exact le_refl _
      | some ec => exact (reads_closed _).le
    · cases h
  | head r =>
    rw [next] at h
    split at h
    case isTrue hpos =>
      cases h
      refine (reads_onHead_le _ r).trans ?_
      rw [reads, reads]
      dsimp only
      omega
    case isFalse => cases h
  | body q r =>
    rw [next] at h
    split at h
    case isTrue hq =>
      cases h
      refine (reads_onBody_le _ q r).trans ?_
      have hpos := List.length_pos_of_mem hq.1
      rw [reads, reads]
      dsimp only
      rw [List.length_erase_of_mem hq.1]
      omega
    case isFalse => cases h

theorem reads_of_step (h : step c e = some c') (hc : reads c ≤ 1) :
    reads c' ≤ 1 ↔ overlaps c e = false := by
  have hnext := (next_of_step h).2
  cases e with
  | connected pairs ec =>
    rw [reads_of_connected hnext]
    cases ec with
    | some ec => exact iff_of_true hc rfl
    | none =>
      rw [overlaps, decide_eq_false_iff_not]
      by_cases hconnected : c.hasConnected = false
      · rw [if_pos ⟨rfl, hconnected⟩]
        constructor
        · rintro hle ⟨-, hpos⟩
          omega
        · intro hno
          have hzero : ¬0 < reads c := fun hpos => hno ⟨hconnected, hpos⟩
          omega
      · rw [if_neg fun h => hconnected h.2]
        exact iff_of_true hc fun h => hconnected h.1
  | connect | call | send | subscribe | close | heartbeat | expire | written | head | body =>
    exact iff_of_true ((reads_of_next hnext rfl).trans hc) rfl

/-- A client reads one message at a time all along a run exactly when no connection is made while
what was read over the last one is still under way. -/
theorem reads_iff (hrun : ops.foldlM step (start b n) = some last) :
    (∀ c, Passes step (start b n) ops c → reads c ≤ 1) ↔
      EachStep step (fun c e => overlaps c e = false) (start b n) ops :=
  safe_iff_eachStep (I := fun c => reads c ≤ 1) (fun _ => id)
    (fun _ _ _ hc hno h => (reads_of_step h hc).mpr hno)
    (fun _ _ _ hc hno h hsafe => hno ((reads_of_step h hc).mp hsafe)) (Nat.zero_le 1) hrun

def reconnection : List Event :=
  [.connect, .connected [] none, .heartbeat, .written (some .connectionAborted),
    .connected [] none]

theorem reads_reconnection : ∃ last, reconnection.foldlM step (start true 1) = some last ∧
    ¬∀ c, Passes step (start true 1) reconnection c → reads c ≤ 1 := by
  have hrun : reconnection.foldlM step (start true 1) = some _ := rfl
  refine ⟨_, hrun, ?_⟩
  rw [reads_iff hrun]
  decide

end DistExp.Rpc.ClientReads
