import DistExp.Library.Runs
import DistExp.Rpc.Connections

namespace DistExp.Rpc.ConnectionMap

open DistExp.Library.Outbox DistExp.Library.Runs DistExp.Rpc.ClientCalls DistExp.Rpc.Connections

/-- The connections of `rpc_server`, with those that `conn_timeout_callback_` has been called for.
A connection that has left the map is not followed any further. -/
structure Server where
  timeoutSeconds : Nat
  connId : Nat
  connections : Nat → Option Connection
  erased : List Nat

namespace Server

def start (timeoutSeconds : Nat) : Server := ⟨timeoutSeconds, 0, fun _ => none, []⟩

def closedAt (s : Server) (id : Nat) : Bool := (s.connections id).any Connection.hasClosed

def accept (s : Server) : Server :=
  { s with
    connId := s.connId + 1
    connections := Function.update s.connections s.connId (some (.start s.timeoutSeconds)) }

def clean (s : Server) : Server :=
  { s with
    connections := fun id => if s.closedAt id then none else s.connections id
    erased := s.erased ++ (List.range s.connId).filter s.closedAt }

end Server

inductive ServerEvent where
  | accept
  | conn (id : Nat) (e : ConnEvent)
  | clean

def step (s : Server) : ServerEvent → Option Server
  | .accept => some s.accept
  | .conn id e =>
    match s.connections id with
    | none => none
    | some c =>
      match c.step e with
      | none => none
      | some c' => some { s with connections := Function.update s.connections id (some c') }
  | .clean => some s.clean

variable {s s' last : Server} {a : ServerEvent} {ops : List ServerEvent} {id timeoutSeconds : Nat}
  {c c' : Connection}

theorem step_conn {e : ConnEvent} (h : step s (.conn id e) = some s') :
    ∃ c c', s.connections id = some c ∧ c.step e = some c' ∧
      s' = { s with connections := Function.update s.connections id (some c') } := by
  rw [step] at h
  split at h
  · cases h
  case h_2 c hc =>
    split at h
    · cases h
    case h_2 c' hc' => exact ⟨c, c', hc, hc', (Option.some.inj h).symm⟩

theorem connections_of_step (h : step s a = some s') (hc : s'.connections id = some c') :
    s.connections id = some c' ∨ c' = .start s.timeoutSeconds ∨
      ∃ c e, a = .conn id e ∧ s.connections id = some c ∧ c.step e = some c' := by
  cases a with
  | accept =>
    cases h
    change Function.update s.connections s.connId _ id = some c' at hc
    by_cases hid : id = s.connId
    · rw [hid, Function.update_self] at hc
      exact .inr (.inl (Option.some.inj hc).symm)
    · rw [Function.update_of_ne hid] at hc
      exact .inl hc
  | conn id' e =>
    obtain ⟨c, c₁, hget, hstep, rfl⟩ := step_conn h
    change Function.update s.connections id' _ id = some c' at hc
    by_cases hid : id = id'
    · subst hid
      rw [Function.update_self] at hc
      cases hc
      exact .inr (.inr ⟨c, e, rfl, hget, hstep⟩)
    · rw [Function.update_of_ne hid] at hc
      exact .inl hc
  | clean =>
    cases h
    change (if s.closedAt id then none else s.connections id) = some c' at hc
    split at hc
    · cases hc
    · exact .inl hc

/-- The ids that have been given out are those of the map and those that have been reported. -/
structure Accounted (s : Server) : Prop where
  ids : ∀ id, id < s.connId ↔ (s.connections id).isSome ∨ id ∈ s.erased
  apart : ∀ id ∈ s.erased, s.connections id = none
  nodup : s.erased.Nodup
  sound : ∀ id c, s.connections id = some c → Sound c

theorem accounted_start (timeoutSeconds : Nat) : Accounted (.start timeoutSeconds) where
  ids id := by simp [Server.start]
  apart _ hid := absurd hid List.not_mem_nil
  nodup := .nil
  sound _ _ hc := by cases hc

theorem accounted_of_step (h : step s a = some s') (hs : Accounted s) : Accounted s' := by
  have hsound : ∀ id c, s'.connections id = some c → Sound c := by
    intro id c' hc'
    obtain hc | rfl | ⟨c, e, -, hc, hstep⟩ := connections_of_step h hc'
    · exact hs.sound id c' hc
    · exact sound_start _
    · exact sound_of_step hstep (hs.sound id c hc)
  cases a with
  | accept =>
    cases h
    have hfresh : s.connId ∉ s.erased := fun hid =>
      absurd ((hs.ids _).mpr (.inr hid)) (Nat.lt_irrefl _)
    refine ⟨fun id => ?_, fun id hid => ?_, hs.nodup, hsound⟩
    · change id < s.connId + 1 ↔
        (Function.update s.connections s.connId (some _) id).isSome ∨ id ∈ s.erased
      by_cases heq : id = s.connId
      · rw [heq, Function.update_self]
        exact iff_of_true (Nat.lt_succ_self _) (.inl rfl)
      · rw [Function.update_of_ne heq, ← hs.ids id]
        omega
    · have hne : id ≠ s.connId := fun heq => hfresh (heq ▸ hid)
      exact (Function.update_of_ne hne _ _).trans (hs.apart id hid)
  | conn id' e =>
    obtain ⟨c, c', hget, -, rfl⟩ := step_conn h
    refine ⟨fun id => ?_, fun id hid => ?_, hs.nodup, hsound⟩
    · change id < s.connId ↔
        (Function.update s.connections id' (some c') id).isSome ∨ id ∈ s.erased
      by_cases heq : id = id'
      · rw [hs.ids id, heq, hget, Function.update_self]
        rfl
      · rw [Function.update_of_ne heq]
        exact hs.ids id
    · have hne : id ≠ id' := by
        rintro rfl
        rw [hs.apart id hid] at hget
        cases hget
      exact (Function.update_of_ne hne _ _).trans (hs.apart id hid)
  | clean =>
    cases h
    have hclosed : ∀ {id}, s.closedAt id = true → (s.connections id).isSome := by
      intro id hid
      rw [Server.closedAt] at hid
      cases hc : s.connections id with
      | none =>
        rw [hc] at hid
        cases hid
      | some c => rfl
    have hmem : ∀ {id}, id ∈ (List.range s.connId).filter s.closedAt ↔ s.closedAt id = true := by
      intro id
      rw [List.mem_filter, List.mem_range, and_iff_right_iff_imp]
      exact fun hid => (hs.ids id).mpr (.inl (hclosed hid))
    refine ⟨fun id => ?_, fun id hid => ?_, ?_, hsound⟩
    · change id < s.connId ↔ (if s.closedAt id then none else s.connections id).isSome ∨
        id ∈ s.erased ++ (List.range s.connId).filter s.closedAt
      rw [List.mem_append, hmem, hs.ids id]
      split
      case isTrue hid => exact iff_of_true (.inl (hclosed hid)) (.inr (.inr hid))
      case isFalse hid => simp [hid]
    · change (if s.closedAt id then none else s.connections id) = none
      split
      · rfl
      case isFalse hopen =>
        obtain hid | hid := List.mem_append.mp hid
        · exact hs.apart id hid
        · exact absurd (hmem.mp hid) hopen
    · refine hs.nodup.append (List.nodup_range.filter _) fun id hid hid' => ?_
      have hsome := hclosed (hmem.mp hid')
      rw [hs.apart id hid] at hsome
      cases hsome

def cutOff : List ServerEvent :=
  [.accept, .conn 0 (.head (.ok ⟨39, 0, 8, 1, 7⟩)),
    .conn 0 (.body ⟨39, 0, 8, 1, 7⟩ (.error .timedOut)), .clean]

/-- However connections come and go and whatever fails: ids are given out once, and each is in the
map or has been reported once; a connection in the map reads and writes one message at a time, and
what it has queued is being written unless it is closed. -/
theorem connections_of_passes (hs : Passes step (.start timeoutSeconds) ops s) :
    Accounted s ∧ ∀ id c, s.connections id = some c → c.hasClosed = true ∨ c.writer.Flowing := by
  have h := passes_invariant' (fun _ _ _ hs h => accounted_of_step h hs)
    (accounted_start timeoutSeconds) hs
  exact ⟨h, fun id c hc => (h.sound id c hc).writes.imp_right Writer.flowing_of_single⟩

theorem connections_cutOff : ∃ s, cutOff.foldlM step (.start 15) = some s ∧ Accounted s ∧
    ∀ id c, s.connections id = some c → c.hasClosed = true ∨ c.writer.Flowing := by
  have hs : Passes step (.start 15) cutOff _ := ⟨cutOff, List.prefix_refl _, rfl⟩
  exact ⟨_, rfl, connections_of_passes hs⟩

section Order

/-- What has been given to a connection to write. -/
def given (id : Nat) (ops : List ServerEvent) : List ServerMessage :=
  ops.flatMap fun
    | .conn id' e => if id' = id then responses e else []
    | _ => []

theorem given_snoc : given id (ops ++ [a]) = given id ops ++ given id [a] := List.flatMap_append

theorem given_conn (id' : Nat) (e : ConnEvent) :
    given id [.conn id' e] = if id' = id then responses e else [] := List.append_nil _

structure Ordered (s : Server) (ops : List ServerEvent) : Prop where
  fresh : ∀ id, s.connId ≤ id → given id ops = []
  ordered : ∀ id c, s.connections id = some c → given id ops = c.writer.handed

theorem ordered_of_step (h : step s a = some s') (hs : Accounted s) (ho : Ordered s ops) :
    Ordered s' (ops ++ [a]) := by
  cases a with
  | accept =>
    cases h
    have hsame : ∀ id, given id (ops ++ [.accept]) = given id ops := fun id => by
      rw [given_snoc]
      exact List.append_nil _
    refine ⟨fun id hid => ?_, fun id c hc => ?_⟩
    · rw [hsame]
      exact ho.fresh id (Nat.le_of_succ_le hid)
    · rw [hsame]
      change Function.update s.connections s.connId _ id = some c at hc
      by_cases hid : id = s.connId
      · rw [hid, Function.update_self] at hc
        cases hc
        rw [ho.fresh id hid.ge, writer_start]
        rfl
      · rw [Function.update_of_ne hid] at hc
        exact ho.ordered id c hc
  | conn id' e =>
    obtain ⟨c₁, c', hget, hstep, rfl⟩ := step_conn h
    have hlt : id' < s.connId := (hs.ids id').mpr (.inl (by rw [hget]; rfl))
    refine ⟨fun id hid => ?_, fun id c hc => ?_⟩
    · rw [given_snoc, given_conn, if_neg (hlt.trans_le hid).ne, List.append_nil]
      exact ho.fresh id hid
    · rw [given_snoc, given_conn]
      change Function.update s.connections id' _ id = some c at hc
      by_cases hid : id' = id
      · subst hid
        rw [Function.update_self] at hc
        cases hc
        rw [if_pos rfl, ho.ordered _ _ hget]
        exact (handed_of_step hstep).symm
      · rw [Function.update_of_ne (Ne.symm hid)] at hc
        rw [if_neg hid, List.append_nil]
        exact ho.ordered id c hc
  | clean =>
    cases h
    have hsame : ∀ id, given id (ops ++ [.clean]) = given id ops := fun id => by
      rw [given_snoc]
      exact List.append_nil _
    refine ⟨fun id hid => ?_, fun id c hc => ?_⟩
    · rw [hsame]
      exact ho.fresh id hid
    · rw [hsame]
      change (if s.closedAt id then none else s.connections id) = some c at hc
      split at hc
      · cases hc
      · exact ho.ordered id c hc

/-- Whatever has been given to a connection to write is being written or has been, in its order and
once, but for what waits in its queue behind the message that is being written. -/
theorem given_of_run (hrun : ops.foldlM step (.start timeoutSeconds) = some s)
    (hc : s.connections id = some c) : given id ops = c.writer.started ++ c.writer.queue.tail := by
  have h : Accounted s ∧ Ordered s ops := by
    clear hc
    induction ops using List.reverseRecOn generalizing s with
    | nil =>
      cases hrun
      exact ⟨accounted_start timeoutSeconds, fun _ _ => rfl, fun _ _ hc => by cases hc⟩
    | append_singleton ops a ih =>
      obtain ⟨s₁, hs₁, hstep⟩ := exists_of_foldlM_snoc hrun
      obtain ⟨hacc, hord⟩ := ih hs₁
      exact ⟨accounted_of_step hstep hacc, ordered_of_step hstep hacc hord⟩
  exact h.2.ordered id c hc

def twoResponses : List ServerEvent :=
  [.accept, .conn 0 (.response ⟨1, .reqRes, [0x92, 0, 42], by decide⟩),
    .conn 0 (.response ⟨2, .reqRes, [0x91, 0], by decide⟩), .conn 0 (.written none)]

theorem given_twoResponses : ∃ s c, twoResponses.foldlM step (.start 15) = some s ∧
    s.connections 0 = some c ∧
    given 0 twoResponses = c.writer.started ++ c.writer.queue.tail := by
  have hrun : twoResponses.foldlM step (.start 15) = some _ := rfl
  exact ⟨_, _, hrun, rfl, given_of_run hrun rfl⟩

end Order

def Server.abandons (s : Server) : ServerEvent → Bool
  | .conn id e => (s.connections id).any fun c => Connections.abandons c e
  | _ => false

/-- No connection of the map is ever abandoned exactly when every body that cannot be read belongs
to a connection that is closed or about to be closed by its timer. -/
theorem abandoned_iff (hrun : ops.foldlM step (.start timeoutSeconds) = some last) :
    (∀ s, Passes step (.start timeoutSeconds) ops s →
        ∀ id c, s.connections id = some c → ¬Abandoned c) ↔
      EachStep step (fun s a => s.abandons a = false) (.start timeoutSeconds) ops := by
  refine safe_iff_eachStep
    (I := fun s => Accounted s ∧ ∀ id c, s.connections id = some c → Watched c)
    (fun s h id c hc => not_abandoned (h.2 id c hc)) (fun s a s' hI hno h => ?_)
    (fun s a s' hI hno h hsafe => ?_) ⟨accounted_start _, fun _ _ hc => by cases hc⟩ hrun
  · refine ⟨accounted_of_step h hI.1, fun id c' hc' => ?_⟩
    obtain hc | rfl | ⟨c, e, rfl, hc, hstep⟩ := connections_of_step h hc'
    · exact hI.2 id c' hc
    · exact watched_start _
    · rw [Server.abandons, hc] at hno
      exact watched_of_step hstep (hI.1.sound id c hc) (hI.2 id c hc) hno
  · rw [Bool.not_eq_false] at hno
    match a, hno with
    | .conn id e, hno =>
      obtain ⟨c, c', hc, hstep, rfl⟩ := step_conn h
      rw [Server.abandons, hc] at hno
      refine hsafe id c' ?_ (abandoned_of_abandons hstep (hI.1.sound id c hc) hno)
      exact Function.update_self ..

theorem abandons_cutOff : ∃ last, cutOff.foldlM step (.start 15) = some last ∧
    ¬∀ s, Passes step (.start 15) cutOff s → ∀ id c, s.connections id = some c → ¬Abandoned c := by
  have hrun : ∃ last, cutOff.foldlM step (.start 15) = some last := ⟨_, rfl⟩
  obtain ⟨last, hrun⟩ := hrun
  refine ⟨last, hrun, ?_⟩
  rw [abandoned_iff hrun]
  decide

def writeFails (id : Nat) : ServerEvent → Bool
  | .conn id' (.written (some _)) => id = id'
  | _ => false

theorem abandoned_step (h : step s a = some s') (hs : Accounted s)
    (hc : s.connections id = some c) (ha : Abandoned c) (hno : writeFails id a = false) :
    ∃ c', s'.connections id = some c' ∧ Abandoned c' := by
  cases a with
  | accept =>
    cases h
    have hlt : id < s.connId := (hs.ids id).mpr (.inl (by rw [hc]; rfl))
    exact ⟨c, (Function.update_of_ne hlt.ne _ _).trans hc, ha⟩
  | conn id' e =>
    obtain ⟨c₁, c', hget, hstep, rfl⟩ := step_conn h
    by_cases hid : id = id'
    · subst hid
      cases hget.symm.trans hc
      refine ⟨c', Function.update_self .., abandoned_of_step hstep ha fun ec he => ?_⟩
      subst he
      exact absurd hno (by simp [writeFails])
    · exact ⟨c, (Function.update_of_ne hid _ _).trans hc, ha⟩
  | clean =>
    cases h
    have hopen : s.closedAt id = false := by
      rw [Server.closedAt, hc]
      exact ha.hasClosed
    refine ⟨c, ?_, ha⟩
    change (if s.closedAt id then none else s.connections id) = some c
    rw [hopen]
    exact hc

/-- A connection that has been abandoned stays in the map for good, unclosed and unread, unless one
of its writes fails. -/
theorem abandoned_of_passes {past : List ServerEvent}
    (hpast : Passes step (.start timeoutSeconds) past s) (hc : s.connections id = some c)
    (ha : Abandoned c) (hno : ∀ a ∈ ops, writeFails id a = false) (hs : Passes step s ops s') :
    ∃ c', s'.connections id = some c' ∧ Abandoned c' := by
  have hstart := passes_invariant' (fun _ _ _ hs h => accounted_of_step h hs)
    (accounted_start timeoutSeconds) hpast
  have hwrites : EachStep step (fun _ a => writeFails id a = false) s ops :=
    fun pre a _ hp _ => hno a (hp.subset (List.mem_append_right pre (List.mem_singleton_self a)))
  refine (passes_invariant
    (I := fun s => Accounted s ∧ ∃ c, s.connections id = some c ∧ Abandoned c) ?_
    ⟨hstart, c, hc, ha⟩ hwrites hs).2
  rintro s a s' ⟨hs, c, hc, ha⟩ hno h
  exact ⟨accounted_of_step h hs, abandoned_step h hs hc ha hno⟩

theorem abandoned_cutOff : ∃ s, cutOff.foldlM step (.start 15) = some s ∧
    ∃ c, s.connections 0 = some c ∧ Abandoned c := by
  have hpast : Passes step (.start 15) cutOff _ := ⟨cutOff.take 3, List.take_prefix 3 _, rfl⟩
  refine ⟨_, rfl, ?_⟩
  exact abandoned_of_passes hpast rfl ⟨rfl, rfl, rfl, rfl, rfl⟩ (by decide)
    ⟨[.clean], List.prefix_refl _, rfl⟩

end DistExp.Rpc.ConnectionMap
