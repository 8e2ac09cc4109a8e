import DistExp.Rpc.SessionSteps

namespace DistExp.Rpc.Systems

open DistExp.Library.FieldMap DistExp.Library.Runs DistExp.Rpc.ClientCalls DistExp.Rpc.Wire
  DistExp.Rpc.Routing DistExp.Rpc.Sessions DistExp.Rpc.SessionSteps DistExp.Rpc.Codec
  DistExp.Rpc.Md5

variable {σ ι : Type} [DecidableEq ι]

/-- A server and its clients, each with a connection of its own. The handlers share the state of
the server, and one runs at a time. -/
structure System (σ ι : Type) where
  state : σ
  sessions : ι → Session
  /-- The requests that have been routed, and for whom. -/
  history : List (ι × Routed)

def start (s : σ) : System σ ι := ⟨s, fun _ => .init, []⟩

def step (r : Router σ) (y : System σ ι) (a : ι × Action) : Option (System σ ι) :=
  let t := y.sessions a.1
  match Sessions.step r y.state t a.2 with
  | none => none
  | some (s', t') =>
    some ⟨s', Function.update y.sessions a.1 t',
      y.history ++ (t'.core.routed.drop t.core.routed.length).map (Prod.mk a.1)⟩

def replay (r : Router σ) (s : σ) (x : Routed) : Option σ :=
  match r.route s x.request.funcId x.request.body with
  | (s', .ok response) => if response = x.response then some s' else none
  | (_, .error _) => none

variable {r : Router σ} {init s s' : σ} {t t' : Session} {y y' : System σ ι} {i : ι}

theorem replay_of_route {x : Routed}
    (h : r.route s x.request.funcId x.request.body = (s', .ok x.response)) :
    replay r s x = some s' := by
  rw [replay, h]
  exact if_pos rfl

section Steps

theorem step_routed {a : Action} (h : Sessions.step r s t a = some (s', t')) :
    ((t'.core.routed = t.core.routed ∧ s' = s) ∨
      ∃ x, t'.core.routed = t.core.routed ++ [x] ∧ replay r s x = some s') ∧
    t.core.issued <+: t'.core.issued := by
  cases effect_of_step h with
  | call model funcId body padding => exact ⟨.inl ⟨rfl, rfl⟩, List.prefix_append _ _⟩
  | answered ht hroute => exact ⟨.inr ⟨_, rfl, replay_of_route hroute⟩, List.prefix_refl _⟩
  | running ht hroute => exact ⟨.inr ⟨_, rfl, replay_of_route hroute⟩, List.prefix_refl _⟩
  | _ => exact ⟨.inl ⟨rfl, rfl⟩, List.prefix_refl _⟩

theorem step_cases {a : ι × Action} (h : step r y a = some y') :
    ∃ s' t', Sessions.step r y.state (y.sessions a.1) a.2 = some (s', t') ∧
      y' = ⟨s', Function.update y.sessions a.1 t',
        y.history ++ (t'.core.routed.drop (y.sessions a.1).core.routed.length).map (Prod.mk a.1)⟩ := by
  rw [step] at h
  split at h
  case h_1 => cases h
  case h_2 s' t' hstep => exact ⟨s', t', hstep, (Option.some.inj h).symm⟩

end Steps

def own (i : ι) (history : List (ι × Routed)) : List Routed :=
  history.filterMap fun e => if e.1 = i then some e.2 else none

theorem own_append (i : ι) (as bs : List (ι × Routed)) : own i (as ++ bs) = own i as ++ own i bs :=
  List.filterMap_append

theorem own_self (i : ι) (xs : List Routed) : own i (xs.map (Prod.mk i)) = xs := by
  rw [own, List.filterMap_map]
  refine (List.filterMap_congr fun x _ => ?_).trans (List.filterMap_some (l := xs))
  exact if_pos rfl

theorem own_other {i j : ι} (h : j ≠ i) (xs : List Routed) : own i (xs.map (Prod.mk j)) = [] := by
  rw [own, List.filterMap_map, List.filterMap_eq_nil_iff]
  exact fun x _ => if_neg h

/-- The sessions are consistent while their counters last, and the history is one sequential run
of the handlers. -/
structure Invariant (r : Router σ) (init : σ) (y : System σ ι) : Prop where
  consistent : ∀ i, (y.sessions i).core.issued.length < 2 ^ 63 → Consistent (y.sessions i)
  own_eq : ∀ i, (y.sessions i).core.routed = own i y.history
  sequential : (y.history.map Prod.snd).foldlM (replay r) init = some y.state

theorem invariant_start : Invariant r init (start init : System σ ι) where
  consistent _ _ := consistent_init
  own_eq _ := rfl
  sequential := rfl

theorem invariant_step {a : ι × Action} (h : Invariant r init y) (hstep : step r y a = some y') :
    Invariant r init y' := by
  obtain ⟨s', t', hsession, rfl⟩ := step_cases hstep
  obtain ⟨hrouted, hissued⟩ := step_routed hsession
  have hlen := hissued.length_le
  constructor
  · intro i hlt
    by_cases hi : i = a.1
    · subst hi
      simp only [Function.update_self] at hlt ⊢
      exact consistent_step (h.consistent _ (by omega)) hsession hlt
    · simp only [Function.update_of_ne hi] at hlt ⊢
      exact h.consistent i hlt
  · intro i
    have hdrop : (y.sessions a.1).core.routed ++
        t'.core.routed.drop (y.sessions a.1).core.routed.length = t'.core.routed := by
      obtain ⟨heq, -⟩ | ⟨x, heq, -⟩ := hrouted
      · rw [heq, List.drop_length, List.append_nil]
      · rw [heq, List.drop_left]
    dsimp only
    rw [own_append]
    by_cases hi : i = a.1
    · subst hi
      rw [Function.update_self, own_self, ← h.own_eq, hdrop]
    · rw [Function.update_of_ne hi, own_other (Ne.symm hi), List.append_nil, h.own_eq]
  · dsimp only
    rw [List.map_append, List.map_map, List.foldlM_append, h.sequential]
    obtain ⟨heq, rfl⟩ | ⟨x, heq, hreplay⟩ := hrouted
    · rw [heq, List.drop_length]
      rfl
    · rw [heq, List.drop_left]
      exact (bind_pure _).trans hreplay

theorem invariant_of_passes {ops : List (ι × Action)}
    (hy : Passes (step r) (start init) ops y) : Invariant r init y :=
  passes_invariant' (fun _ _ _ h => invariant_step h) invariant_start hy

section Progress

/-- The names under which functions are called leave room for an error message. -/
def ShortNames (r : Router σ) : Prop := ∀ key, (r.getNameByKey key).length + 64 < maxBufLen

theorem length_repr_key (key : UInt32) : (text (Nat.repr key.toNat)).length + 64 < maxBufLen := by
  have hdigits : (Nat.repr key.toNat).length ≤ 10 :=
    (Nat.length_repr_le_iff (by decide)).mpr (lt_trans key.toNat_lt (by decide))
  have hmax : 74 < maxBufLen := by decide
  rw [length_text]
  omega

theorem ShortNames.apply (h : ShortNames r) {op : Registration σ}
    (hop : ∀ name f, op = .register name f → name.length + 64 < maxBufLen) :
    ShortNames (r.apply op) := by
  intro key
  have hold := h key
  cases op with
  | register name f =>
    rw [Router.apply, Router.getNameByKey, Router.registerHandler]
    dsimp only
    by_cases hkey : key = md5Hash32 name
    · subst hkey
      rw [Function.update_self, Option.getD_some]
      rw [Router.getNameByKey] at hold
      cases hr : r.key2funcName (md5Hash32 name) with
      | none => exact hop name f rfl
      | some first =>
        rw [hr] at hold
        exact hold
    · rw [Function.update_of_ne hkey]
      exact hold
  | remove name =>
    rw [Router.apply, Router.getNameByKey, Router.removeHandler]
    dsimp only
    by_cases hkey : key = md5Hash32 name
    · subst hkey
      rw [Function.update_self]
      exact length_repr_key _
    · rw [Function.update_of_ne hkey]
      exact hold

theorem shortNames_of_registrations {ops : List (Registration σ)}
    (h : ∀ name f, .register name f ∈ ops → name.length + 64 < maxBufLen) :
    ShortNames (ops.foldl Router.apply .empty) := by
  induction ops using List.reverseRecOn with
  | nil => exact length_repr_key
  | append_singleton ops op ih =>
    rw [List.foldl_append]
    refine ShortNames.apply (ih fun name f hmem => h name f (by simp [hmem])) fun name f hop => ?_
    exact h name f (by simp [hop])

def work (t : Session) : Nat :=
  4 * t.core.calling.length + 3 * t.toServer.length + 2 * t.core.running.length + t.toClient.length

theorem step_serve {read : ServerRead} {rest : List ServerRead} {core : Core}
    {out : Option (UInt64 × Body)} (ht : t.toServer = read :: rest)
    (h : t.core.onServerRead r s read = some (s', core, out)) :
    Sessions.step r s t .serve = some (s', ⟨core, rest,
      t.toClient ++ out.elim [] fun a => [.response a.1 a.2.1]⟩) := by
  rw [Sessions.step, ht]
  dsimp only
  rw [h]
  cases out with
  | none => simp
  | some a => rfl

theorem serve_succeeds (s : σ) (hnames : ShortNames r) (h : Consistent t) (ht : t.toServer ≠ []) :
    ∃ s' t', Sessions.step r s t .serve = some (s', t') ∧ t'.core.issued = t.core.issued ∧
      work t' < work t := by
  obtain ⟨read, rest, ht⟩ := List.exists_cons_of_ne_nil ht
  have hvalid := h.serverReads read (ht ▸ List.mem_cons_self)
  have hlen : t.toServer.length = rest.length + 1 := by rw [ht, List.length_cons]
  cases read with
  | request reqId funcId body =>
    obtain ⟨response, hroute, hsendable⟩ := route_response s body (hnames funcId)
    have hpair : r.route s funcId body = ((r.route s funcId body).1, .ok response) :=
      Prod.ext rfl hroute
    cases response with
    | none =>
      have hread : t.core.onServerRead r s (.request reqId funcId body) =
          some ((r.route s funcId body).1, { t.core with
            routed := t.core.routed ++ [⟨⟨reqId, funcId, body⟩, none⟩]
            running := t.core.running ++ [⟨reqId, funcId, body⟩] }, none) := by
        rw [Core.onServerRead, hpair]
      refine ⟨_, _, step_serve ht hread, rfl, ?_⟩
      simp only [work, List.length_append, List.length_singleton, Option.elim_none,
        List.length_nil, hlen]
      omega
    | some response =>
      have hsend : Sendable response := hsendable response rfl
      have hread : t.core.onServerRead r s (.request reqId funcId body) =
          some ((r.route s funcId body).1, { t.core with
            routed := t.core.routed ++ [⟨⟨reqId, funcId, body⟩, some response⟩]
            answered := t.core.answered ++ [(reqId, response)] },
            some (reqId, ⟨response, hsend⟩)) := by
        rw [Core.onServerRead, hpair]
        exact dif_pos hsend
      refine ⟨_, _, step_serve ht hread, rfl, ?_⟩
      simp only [work, List.length_append, List.length_singleton, Option.elim_some, hlen]
      omega
  | subscribe body =>
    have hread : t.core.onServerRead r s (.subscribe body) = some (s, t.core, none) := rfl
    refine ⟨_, _, step_serve ht hread, rfl, ?_⟩
    simp only [work, List.length_append, Option.elim_none, List.length_nil, hlen]
    omega
  | protocolError => exact absurd hvalid not_false
  | invalidBodyLen => exact absurd hvalid not_false

theorem step_deliver {read : ClientRead} {rest : List ClientRead} {core : Core}
    (ht : t.toClient = read :: rest) (h : t.core.onClientRead read = some core) :
    Sessions.step r s t .deliver = some (s, ⟨core, t.toServer, rest⟩) := by
  rw [Sessions.step, ht]
  dsimp only
  rw [h]

theorem deliver_succeeds (r : Router σ) (s : σ) (h : Consistent t) (ht : t.toClient ≠ []) :
    ∃ t', Sessions.step r s t .deliver = some (s, t') ∧ t'.core.issued = t.core.issued ∧
      work t' < work t := by
  obtain ⟨read, rest, ht⟩ := List.exists_cons_of_ne_nil ht
  have hvalid := h.clientReads read (ht ▸ List.mem_cons_self)
  have hlen : t.toClient.length = rest.length + 1 := by rw [ht, List.length_cons]
  cases read with
  | response reqId body =>
    have hnodup : t.core.calls.waiting.Nodup :=
      (List.nodup_append.mp (h.waits.nodup_iff.mpr h.nodup)).1
    obtain ⟨calls, comp, hcall, -⟩ :=
      Calls.callBack_waiting h.sorted hnodup (mem_waiting h ht) body
    have hread : t.core.onClientRead (.response reqId body) = some { t.core with
        calls := calls
        delivered := t.core.delivered ++ [(reqId, body)]
        completed := t.core.completed ++ [comp] } := by
      rw [Core.onClientRead, hcall]
    refine ⟨_, step_deliver ht hread, rfl, ?_⟩
    simp only [work, hlen]
    omega
  | published body =>
    have hread : t.core.onClientRead (.published body) = some t.core := rfl
    refine ⟨_, step_deliver ht hread, rfl, ?_⟩
    simp only [work, hlen]
    omega
  | messageSize => exact absurd hvalid not_false
  | invalidArgument => exact absurd hvalid not_false

end Progress

end DistExp.Rpc.Systems
