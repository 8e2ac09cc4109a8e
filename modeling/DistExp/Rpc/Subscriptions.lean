import DistExp.Rpc.PubSub

namespace DistExp.Rpc.Subscriptions

open DistExp.Library.Runs DistExp.Msgpack.Adaptor DistExp.Rpc.Codec DistExp.Rpc.Routing
  DistExp.Rpc.PubSub

variable {ι : Type} [DecidableEq ι] {c : Conn ι} {seen es fs log : List (Event ι)} {e : Event ι}

section Due

def registered (c : Conn ι) (log : List (Event ι)) : List Text :=
  log.filterMap fun
    | .registered conn key token => if conn = c then some (key ++ token) else none
    | _ => none

def dueNow (c : Conn ι) (seen : List (Event ι)) : Event ι → List (Text × Text)
  | .published key data =>
    if (registered c seen).contains key ∧ .closed c ∉ seen then [(key, data)] else []
  | _ => []

/-- What is due to a connection of the events after `seen`. -/
def due (c : Conn ι) : List (Event ι) → List (Event ι) → List (Text × Text)
  | _, [] => []
  | seen, e :: es => dueNow c seen e ++ due c (seen ++ [e]) es

theorem due_append : due c seen (es ++ fs) = due c seen es ++ due c (seen ++ es) fs := by
  induction es generalizing seen with
  | nil => rw [List.append_nil]; rfl
  | cons e es ih => rw [List.cons_append, due, due, ih, List.append_assoc, List.append_assoc]; rfl

theorem due_snoc : due c [] (log ++ [e]) = due c [] log ++ dueNow c log e := by
  rw [due_append, List.nil_append, due, due, List.append_nil]

theorem registered_snoc : registered c (log ++ [e]) = registered c log ++ registered c [e] := by
  rw [registered, List.filterMap_append]
  rfl

theorem registered_one (conn : Conn ι) (key token : Text) :
    registered c [.registered conn key token] = if conn = c then [key ++ token] else [] := by
  by_cases h : conn = c
  · simp [registered, h]
  · simp [registered, h]

theorem due_of_unregistered (h : registered c log = []) : due c [] log = [] := by
  induction log using List.reverseRecOn with
  | nil => rfl
  | append_singleton log e ih =>
    rw [registered_snoc, List.append_eq_nil_iff] at h
    rw [due_snoc, ih h.1, List.nil_append]
    cases e with
    | published key data =>
      refine if_neg fun hdue => ?_
      rw [h.1] at hdue
      exact Bool.false_ne_true hdue.1
    | registered | closed | cleaned => rfl

theorem key_of_mem_due {p : Text × Text} (h : p ∈ due c [] log) : p.1 ∈ registered c log := by
  induction log using List.reverseRecOn with
  | nil => exact absurd h List.not_mem_nil
  | append_singleton log e ih =>
    rw [registered_snoc, List.mem_append]
    rw [due_snoc, List.mem_append] at h
    obtain h | h := h
    · exact .inl (ih h)
    · cases e with
      | published key data =>
        rw [dueNow] at h
        split at h
        case isTrue hdue =>
          obtain rfl := List.mem_singleton.mp h
          exact .inl (List.contains_iff_mem.mp hdue.1)
        case isFalse => exact absurd h List.not_mem_nil
      | registered | closed | cleaned => exact absurd h List.not_mem_nil

end Due

section Invariant

variable {b b' : Broker ι} {i : ι} {l : Link}

/-- What the functions of a client have been called with over one of its connections. -/
def received (l : Link) (n : Nat) : List (Text × Text) :=
  l.got.filterMap fun g => if g.1 = n then some g.2 else none

def Packs (pack : Text → Text → Except Exception Text) : List (Text × Text) → List Text → Prop :=
  List.Forall₂ fun p body => pack p.1 p.2 = .ok body

def composite (p : Text × Text) : Text := p.1 ++ p.2

structure LinkOk (log : List (Event ι)) (i : ι) (l : Link) : Prop where
  nodup : l.client.subMap.Nodup
  pairs : l.client.keyTokenSet.map composite = l.client.subMap
  /-- No key is registered twice for a connection, and all are the client's. -/
  subscriptions : ∃ ps, Packs sendSubscribe ps l.toServer ∧
    (registered (i, l.conn) log ++ ps.map composite).Nodup ∧
    registered (i, l.conn) log ++ ps.map composite ⊆ l.client.subMap
  /-- What has been received or is on its way is a beginning of what is due to the connection, and
  all of it until the server closes the connection. -/
  publications : ∃ ps, Packs packPublish ps l.toClient ∧
    received l l.conn ++ ps <+: due (i, l.conn) [] log ∧
    (.closed (i, l.conn) ∉ log → received l l.conn ++ ps = due (i, l.conn) [] log)
  received_due : ∀ n, received l n <+: due (i, n) [] log
  later : ∀ n, l.conn < n → registered (i, n) log = [] ∧ received l n = []

structure Invariant (b : Broker ι) : Prop where
  links : ∀ i, LinkOk b.log i (b.links i)
  entries : ∀ c, c ∉ b.closed →
    (b.registry.subMap.filter fun e => e.2 = c).map Prod.fst = registered c b.log
  closed_iff : ∀ c, c ∈ b.closed ↔ .closed c ∈ b.log

theorem invariant_start : Invariant (start : Broker ι) where
  links i :=
    { nodup := List.nodup_nil
      pairs := rfl
      subscriptions := ⟨[], .nil, List.nodup_nil, List.nil_subset _⟩
      publications := ⟨[], .nil, List.prefix_rfl, fun _ => rfl⟩
      received_due _ := List.nil_prefix
      later _ _ := ⟨rfl, rfl⟩ }
  entries c _ := rfl
  closed_iff c := by simp [start]

theorem LinkOk.snoc (h : LinkOk log i l) (hreg : ∀ n, registered (i, n) [e] = [])
    (hdue : ∀ n, dueNow (i, n) log e = []) : LinkOk (log ++ [e]) i l := by
  have hregistered : ∀ n, registered (i, n) (log ++ [e]) = registered (i, n) log := fun n => by
    rw [registered_snoc, hreg, List.append_nil]
  have hdue' : ∀ n, due (i, n) [] (log ++ [e]) = due (i, n) [] log := fun n => by
    rw [due_snoc, hdue, List.append_nil]
  refine ⟨h.nodup, h.pairs, ?_, ?_, fun n => ?_, fun n hn => ?_⟩
  · rw [hregistered]
    exact h.subscriptions
  · obtain ⟨ps, hps, hstart, hall⟩ := h.publications
    rw [hdue']
    exact ⟨ps, hps, hstart, fun hopen => hall fun hmem => hopen (List.mem_append_left _ hmem)⟩
  · rw [hdue']
    exact h.received_due n
  · rw [hregistered]
    exact h.later n hn

theorem linkOk_update {f : ι → Link} {l' : Link} (h : ∀ j, j ≠ i → LinkOk log j (f j))
    (hi : LinkOk log i l') (j : ι) : LinkOk log j (Function.update f i l' j) := by
  by_cases hj : j = i
  · subst hj
    rwa [Function.update_self]
  · rw [Function.update_of_ne hj]
    exact h j hj

end Invariant

section Steps

variable {b b' : Broker ι} {i : ι} {l : Link} {key token data body : Text} {rest : List Text}

theorem unpack_subscribe {p : Text × Text} (h : sendSubscribe p.1 p.2 = .ok body) :
    unpack (tuple [string, string]) body = .ok (p.1, p.2, ()) := by
  have hunpack : unpack (tuple [string, string]) (body ++ []) = .ok (p.1, p.2, ()) := unpack_tuple h
  rwa [List.append_nil] at hunpack

theorem callbackSub_publish {p : Text × Text} (h : packPublish p.1 p.2 = .ok body)
    (hp : p.1 ∈ l.client.subMap) : l.client.callbackSub body = some p := by
  have hunpack : unpack (tuple [int32, string, string]) (body ++ []) =
      .ok (ResultCode.ok.toInt, p.1, p.2, ()) := unpack_tuple h
  rw [List.append_nil] at hunpack
  rw [Client.callbackSub, hunpack]
  exact if_pos hp

theorem invariant_subscribe (h : Invariant b) (hnew : key ++ token ∉ (b.links i).client.subMap)
    (hbody : sendSubscribe key token = .ok body) :
    Invariant { b with links := Function.update b.links i { b.links i with
      client := (b.links i).client.subscribe key token
      toServer := (b.links i).toServer ++ [body] } } where
  links := by
    refine linkOk_update (fun j _ => h.links j) ?_
    have hi := h.links i
    obtain ⟨ps, hps, hnodup, hsub⟩ := hi.subscriptions
    rw [Client.subscribe, if_neg hnew]
    exact
      { nodup := hi.nodup.append (List.nodup_singleton _) (by simpa using hnew)
        pairs := by rw [List.map_append, hi.pairs]; rfl
        subscriptions := by
          refine ⟨ps ++ [(key, token)], List.rel_append hps (.cons hbody .nil), ?_, ?_⟩
          · rw [List.map_append, ← List.append_assoc]
            refine hnodup.append (List.nodup_singleton _) ?_
            exact List.disjoint_singleton.mpr fun hmem => hnew (hsub hmem)
          · rw [List.map_append, ← List.append_assoc]
            exact List.append_subset.mpr ⟨fun k hk => List.mem_append_left _ (hsub hk),
              List.subset_append_right _ _⟩
        publications := hi.publications
        received_due := hi.received_due
        later := hi.later }
  entries := h.entries
  closed_iff := h.closed_iff

theorem invariant_serve (h : Invariant b) (hserver : (b.links i).toServer = body :: rest) :
    ∃ p : Text × Text, unpack (tuple [string, string]) body = .ok (p.1, p.2, ()) ∧
      Invariant { b with
        registry := b.registry.subscribe p.1 p.2 (i, (b.links i).conn)
        links := Function.update b.links i { b.links i with toServer := rest }
        log := b.log ++ [.registered (i, (b.links i).conn) p.1 p.2] } := by
  have hi := h.links i
  obtain ⟨ps, hps, hnodup, hsub⟩ := hi.subscriptions
  rw [hserver] at hps
  obtain ⟨p, ps, hp, hps', rfl⟩ := List.forall₂_cons_right_iff.mp hps
  refine ⟨p, unpack_subscribe hp, ?_, ?_, ?_⟩
  · refine linkOk_update (fun j hj => ?_) ?_
    · refine (h.links j).snoc (fun n => ?_) fun _ => rfl
      rw [registered_one, if_neg fun heq => hj (congrArg Prod.fst heq).symm]
    · have hsame : registered (i, (b.links i).conn)
          (b.log ++ [.registered (i, (b.links i).conn) p.1 p.2]) =
          registered (i, (b.links i).conn) b.log ++ [composite p] := by
        rw [registered_snoc, registered_one, if_pos rfl]
        rfl
      have hdue : ∀ n, due (i, n) [] (b.log ++ [.registered (i, (b.links i).conn) p.1 p.2]) =
          due (i, n) [] b.log := fun n => by
        rw [due_snoc]
        exact List.append_nil _
      refine ⟨hi.nodup, hi.pairs, ⟨ps, hps', ?_, ?_⟩, ?_, fun n => ?_, fun n hn => ?_⟩
      · rw [hsame, List.append_assoc]
        exact hnodup
      · rw [hsame, List.append_assoc]
        exact hsub
      · obtain ⟨ps, hps, hstart, hall⟩ := hi.publications
        rw [hdue]
        exact ⟨ps, hps, hstart, fun hopen => hall fun hmem => hopen (List.mem_append_left _ hmem)⟩
      · rw [hdue]
        exact hi.received_due n
      · rw [registered_snoc, registered_one, if_neg fun heq => hn.ne (congrArg Prod.snd heq),
          List.append_nil]
        exact hi.later n hn
  · intro c hc
    dsimp only [Registry.subscribe]
    rw [registered_snoc, registered_one, List.filter_append, List.map_append, h.entries c hc]
    by_cases hconn : (i, (b.links i).conn) = c
    · rw [if_pos hconn, List.filter_singleton, decide_eq_true hconn]
      rfl
    · rw [if_neg hconn, List.filter_singleton, decide_eq_false hconn]
      rfl
  · intro c
    rw [List.mem_append]
    simpa using h.closed_iff c

theorem count_receivers (h : Invariant b) {c : Conn ι} (hnodup : (registered c b.log).Nodup)
    (key data : Text) : (b.registry.receivers b.closed key).count c =
      (dueNow c b.log (.published key data)).length := by
  have hcount : (b.registry.receivers b.closed key).count c = if c ∈ b.closed then 0
      else ((b.registry.subMap.filter fun e => e.2 = c).map Prod.fst).count key := by
    rw [Registry.receivers, List.count_eq_countP, List.countP_map, List.countP_filter,
      List.count_eq_countP, List.countP_map, List.countP_filter]
    split_ifs with hclosed
    · refine List.countP_eq_zero.mpr fun e _ => ?_
      simp only [Function.comp_apply, Bool.and_eq_true, beq_iff_eq, decide_eq_true_eq]
      rintro ⟨rfl, -, hopen⟩
      exact hopen hclosed
    · refine List.countP_congr fun e _ => ?_
      simp only [Function.comp_apply, Bool.and_eq_true, beq_iff_eq, decide_eq_true_eq]
      constructor
      · rintro ⟨hc, hk, -⟩
        exact ⟨hk, hc⟩
      · rintro ⟨hk, rfl⟩
        exact ⟨rfl, hk, hclosed⟩
  rw [hcount, dueNow]
  by_cases hclosed : c ∈ b.closed
  · rw [if_pos hclosed, if_neg fun hdue => hdue.2 ((h.closed_iff c).mp hclosed)]
    rfl
  · have hlog : .closed c ∉ b.log := fun hmem => hclosed ((h.closed_iff c).mpr hmem)
    rw [if_neg hclosed, h.entries c hclosed]
    by_cases hkey : key ∈ registered c b.log
    · rw [if_pos ⟨List.contains_iff_mem.mpr hkey, hlog⟩, List.count_eq_one_of_mem hnodup hkey]
      rfl
    · rw [if_neg fun hdue => hkey (List.contains_iff_mem.mp hdue.1),
        List.count_eq_zero_of_not_mem hkey]
      rfl

theorem linkOk_publish (h : Invariant b) (hbody : b.registry.receivers b.closed key ≠ [] →
      packPublish key data = .ok body) (i : ι) :
    LinkOk (b.log ++ [.published key data]) i
      (push b (b.registry.receivers b.closed key) body i) := by
  have hi := h.links i
  have hregistered : ∀ n, registered (i, n) (b.log ++ [.published key data]) =
      registered (i, n) b.log := fun n => by
    rw [registered_snoc]
    exact List.append_nil _
  obtain ⟨ps, hps, hstart, hall⟩ := hi.publications
  obtain ⟨ss, hss, hnodup, hsub⟩ := hi.subscriptions
  have hcount := count_receivers h (List.nodup_append.mp hnodup).1 key data
  refine ⟨hi.nodup, hi.pairs, ?_, ⟨ps ++ dueNow (i, (b.links i).conn) b.log (.published key data),
    ?_, ?_, fun hopen => ?_⟩, fun n => ?_, fun n hn => ?_⟩
  · change ∃ ps, Packs sendSubscribe ps (b.links i).toServer ∧ _
    rw [show (push b (b.registry.receivers b.closed key) body i).conn = (b.links i).conn from rfl,
      hregistered]
    exact ⟨ss, hss, hnodup, hsub⟩
  · refine List.rel_append hps ?_
    rw [hcount]
    rw [dueNow] at hcount ⊢
    split
    case isTrue hnow =>
      rw [if_pos hnow] at hcount
      refine .cons (hbody fun hnil => ?_) .nil
      rw [hnil] at hcount
      cases hcount
    case isFalse => exact .nil
  · rw [due_snoc, ← List.append_assoc]
    change received (b.links i) (b.links i).conn ++ ps ++
      dueNow (i, (b.links i).conn) b.log (.published key data) <+: due (i, (b.links i).conn) [] b.log ++
        dueNow (i, (b.links i).conn) b.log (.published key data)
    by_cases hclosed : .closed (i, (b.links i).conn) ∈ b.log
    · have hnone : dueNow (i, (b.links i).conn) b.log (.published key data) = [] :=
        if_neg fun hnow => hnow.2 hclosed
      rw [hnone, List.append_nil, List.append_nil]
      exact hstart
    · rw [hall hclosed]
  · rw [due_snoc, ← List.append_assoc]
    exact congrArg (· ++ _) (hall fun hmem => hopen (List.mem_append_left _ hmem))
  · rw [due_snoc]
    exact (hi.received_due n).trans (List.prefix_append _ _)
  · rw [hregistered]
    exact hi.later n hn

theorem invariant_publish (h : Invariant b)
    (hbody : b.registry.receivers b.closed key ≠ [] → packPublish key data = .ok body) :
    Invariant { b with
      links := push b (b.registry.receivers b.closed key) body
      log := b.log ++ [.published key data] } where
  links := linkOk_publish h hbody
  entries c hc := by
    rw [registered_snoc]
    exact (h.entries c hc).trans (List.append_nil _).symm
  closed_iff c := by
    rw [List.mem_append]
    simpa using h.closed_iff c

theorem received_snoc (n : Nat) (p : Text × Text) :
    received { l with toClient := rest, got := l.got ++ [(l.conn, p)] } n =
      received l n ++ if l.conn = n then [p] else [] := by
  rw [received, received, List.filterMap_append]
  congr 1
  by_cases hn : l.conn = n
  · simp [hn]
  · simp [hn]

theorem invariant_deliver (h : Invariant b) (hclient : (b.links i).toClient = body :: rest) :
    Invariant { b with links := Function.update b.links i { b.links i with
      toClient := rest
      got := (b.links i).got ++
        ((b.links i).client.callbackSub body).toList.map (Prod.mk (b.links i).conn) } } where
  links := by
    refine linkOk_update (fun j _ => h.links j) ?_
    have hi := h.links i
    obtain ⟨ps, hps, hstart, hall⟩ := hi.publications
    obtain ⟨_, -, -, hsub⟩ := hi.subscriptions
    rw [hclient] at hps
    obtain ⟨p, ps, hp, hps', rfl⟩ := List.forall₂_cons_right_iff.mp hps
    have hmem : p ∈ due (i, (b.links i).conn) [] b.log :=
      hstart.subset (List.mem_append_right _ List.mem_cons_self)
    have hcall := callbackSub_publish hp
      (hsub (List.mem_append_left _ (key_of_mem_due hmem)))
    have hreceived : ∀ n, received { b.links i with
        toClient := rest
        got := (b.links i).got ++
          ((b.links i).client.callbackSub body).toList.map (Prod.mk (b.links i).conn) } n =
        received (b.links i) n ++ if (b.links i).conn = n then [p] else [] := fun n => by
      rw [hcall]
      exact received_snoc n p
    refine ⟨hi.nodup, hi.pairs, hi.subscriptions, ⟨ps, hps', ?_⟩, fun n => ?_, fun n hn => ?_⟩
    · dsimp only at hreceived ⊢
      rw [hreceived, if_pos rfl, List.append_assoc]
      exact ⟨hstart, hall⟩
    · rw [hreceived]
      split_ifs with hn
      · rw [← hn]
        refine List.IsPrefix.trans ?_ hstart
        exact ⟨ps, by rw [List.append_assoc]; rfl⟩
      · rw [List.append_nil]
        exact hi.received_due n
    · rw [hreceived, if_neg hn.ne, List.append_nil]
      exact hi.later n hn
  entries := h.entries
  closed_iff := h.closed_iff

theorem cut_of_ne (b : Broker ι) {conn : Conn ι} (written : Nat) (hne : (i, (b.links i).conn) ≠ conn) :
    cut b conn written i = b.links i := if_neg hne

theorem cut_self (b : Broker ι) (written : Nat) : cut b (i, (b.links i).conn) written i =
    { b.links i with toClient := (b.links i).toClient.take written } := if_pos rfl

theorem linkOk_close (h : LinkOk log i l) (written : Nat) :
    LinkOk (log ++ [.closed (i, l.conn)]) i { l with toClient := l.toClient.take written } := by
  have hsnoc := h.snoc (e := .closed (i, l.conn)) (fun _ => rfl) fun _ => rfl
  obtain ⟨ps, hps, hstart, -⟩ := hsnoc.publications
  refine ⟨hsnoc.nodup, hsnoc.pairs, hsnoc.subscriptions,
    ⟨ps.take written, List.forall₂_take written hps, ?_, fun hopen => ?_⟩, hsnoc.received_due,
    hsnoc.later⟩
  · exact ((List.prefix_append_right_inj _).mpr (List.take_prefix _ _)).trans hstart
  · exact absurd (List.mem_append_right _ (List.mem_singleton_self _)) hopen

theorem invariant_close (h : Invariant b) (c : Conn ι) (written : Nat) :
    Invariant { b with
      closed := insert c b.closed
      links := cut b c written
      log := b.log ++ [.closed c] } where
  links i := by
    by_cases hc : (i, (b.links i).conn) = c
    · subst hc
      dsimp only
      rw [cut_self]
      exact linkOk_close (h.links i) written
    · dsimp only
      rw [cut_of_ne b written hc]
      exact (h.links i).snoc (fun _ => rfl) fun _ => rfl
  entries c' hc' := by
    rw [registered_snoc]
    exact (h.entries c' fun hmem => hc' (Finset.mem_insert_of_mem hmem)).trans
      (List.append_nil _).symm
  closed_iff c' := by
    have hiff := h.closed_iff c'
    rw [List.mem_append, List.mem_singleton, Finset.mem_insert, hiff, Event.closed.injEq]
    exact or_comm

theorem invariant_clean (h : Invariant b) (keys : List Text) :
    Invariant { b with
      registry := b.registry.cleanSubPub b.closed
      log := b.log ++ [.cleaned keys] } where
  links i := (h.links i).snoc (fun _ => rfl) fun _ => rfl
  entries c hc := by
    rw [registered_snoc]
    refine Eq.trans ?_ ((h.entries c hc).trans (List.append_nil _).symm)
    dsimp only [Registry.cleanSubPub]
    rw [List.filter_filter]
    congr 1
    refine List.filter_congr fun e _ => ?_
    by_cases hconn : e.2 = c
    · simp [hconn, show c ∉ b.closed from hc]
    · simp [hconn]
  closed_iff c := by
    rw [List.mem_append]
    simpa using h.closed_iff c

theorem invariant_reconnect (h : Invariant b) {pairs : List (Text × Text)} {bodies : List Text}
    (hperm : pairs.Perm (b.links i).client.keyTokenSet)
    (hbodies : pairs.mapM (fun p => sendSubscribe p.1 p.2) = .ok bodies) :
    Invariant { b with links := Function.update b.links i { b.links i with
      conn := (b.links i).conn + 1
      toServer := bodies
      toClient := [] } } where
  links := by
    refine linkOk_update (fun j _ => h.links j) ?_
    have hi := h.links i
    obtain ⟨hreg, hgot⟩ := hi.later _ (Nat.lt_succ_self _)
    have hkeys : (pairs.map composite).Perm (b.links i).client.subMap :=
      hi.pairs ▸ hperm.map composite
    have hnothing : received (b.links i) ((b.links i).conn + 1) ++ [] =
        due (i, (b.links i).conn + 1) [] b.log := by
      rw [due_of_unregistered hreg, List.append_nil]
      exact hgot
    refine ⟨hi.nodup, hi.pairs, ⟨pairs, forall₂_of_mapM hbodies, ?_, ?_⟩,
      ⟨[], .nil, hnothing ▸ List.prefix_rfl, fun _ => hnothing⟩, hi.received_due,
      fun n hn => hi.later n (Nat.lt_of_succ_lt hn)⟩
    · rw [hreg]
      exact hkeys.nodup_iff.mpr hi.nodup
    · rw [hreg]
      exact hkeys.subset
  entries := h.entries
  closed_iff := h.closed_iff

inductive Effect (b : Broker ι) : Action ι → Broker ι → Prop
  | known {i : ι} {key token : Text} (hold : key ++ token ∈ (b.links i).client.subMap) :
    Effect b (.subscribe i key token) b
  | subscribed {i : ι} {key token body : Text}
      (hnew : key ++ token ∉ (b.links i).client.subMap)
      (hbody : sendSubscribe key token = .ok body) :
    Effect b (.subscribe i key token)
      { b with links := Function.update b.links i { b.links i with
        client := (b.links i).client.subscribe key token
        toServer := (b.links i).toServer ++ [body] } }
  | garbled {i : ι} {body : Text} {rest : List Text} {err : Exception}
      (hserver : (b.links i).toServer = body :: rest)
      (herr : unpack (tuple [string, string]) body = .error err) :
    Effect b (.serve i)
      { b with links := Function.update b.links i { b.links i with toServer := rest } }
  | registered {i : ι} {body key token : Text} {rest : List Text}
      (hserver : (b.links i).toServer = body :: rest)
      (hok : unpack (tuple [string, string]) body = .ok (key, token, ())) :
    Effect b (.serve i) { b with
      registry := b.registry.subscribe key token (i, (b.links i).conn)
      links := Function.update b.links i { b.links i with toServer := rest }
      log := b.log ++ [.registered (i, (b.links i).conn) key token] }
  | unheard (key token data : Text) (hnil : b.registry.receivers b.closed (key ++ token) = []) :
    Effect b (.publish key token data) { b with log := b.log ++ [.published (key ++ token) data] }
  | published {key token data body : Text} (hbody : packPublish (key ++ token) data = .ok body) :
    Effect b (.publish key token data) { b with
      links := push b (b.registry.receivers b.closed (key ++ token)) body
      log := b.log ++ [.published (key ++ token) data] }
  | delivered {i : ι} {body : Text} {rest : List Text}
      (hclient : (b.links i).toClient = body :: rest) :
    Effect b (.deliver i) { b with links := Function.update b.links i { b.links i with
      toClient := rest
      got := (b.links i).got ++
        ((b.links i).client.callbackSub body).toList.map (Prod.mk (b.links i).conn) } }
  | closed (conn : Conn ι) (written : Nat) :
    Effect b (.close conn written) { b with
      closed := insert conn b.closed
      links := cut b conn written
      log := b.log ++ [.closed conn] }
  | cleaned : Effect b .clean { b with
      registry := b.registry.cleanSubPub b.closed
      log := b.log ++ [.cleaned ((b.registry.subMap.filter fun e => e.2 ∈ b.closed).map Prod.fst)] }
  | reconnected {i : ι} {pairs : List (Text × Text)} {bodies : List Text}
      (hperm : pairs.Perm (b.links i).client.keyTokenSet)
      (hbodies : pairs.mapM (fun p => sendSubscribe p.1 p.2) = .ok bodies) :
    Effect b (.reconnect i pairs)
      { b with links := Function.update b.links i { b.links i with
        conn := (b.links i).conn + 1
        toServer := bodies
        toClient := [] } }

theorem effect_of_step {a : Action ι} (h : step b a = some b') : Effect b a b' := by
  cases a with
  | subscribe i key token =>
    rw [step] at h
    split at h
    case isTrue hold =>
      cases h
      exact .known hold
    case isFalse hnew =>
      split at h
      case h_1 => cases h
      case h_2 body hbody =>
        split at h
        · cases h
          exact .subscribed hnew hbody
        · cases h
  | serve i =>
    rw [step] at h
    split at h
    case h_1 => cases h
    case h_2 body rest hserver =>
      split at h
      · cases h
      · dsimp only at h
        split at h
        case h_1 err herr =>
          cases h
          exact .garbled hserver herr
        case h_2 tp hok =>
          cases h
          exact .registered hserver hok
  | publish key token data =>
    rw [step] at h
    split at h
    case isTrue hnil =>
      cases h
      exact .unheard key token data hnil
    case isFalse =>
      split at h
      case h_1 => cases h
      case h_2 body hbody =>
        split at h
        · cases h
          exact .published hbody
        · cases h
  | deliver i =>
    rw [step] at h
    split at h
    case h_1 => cases h
    case h_2 body rest hclient =>
      cases h
      exact .delivered hclient
  | close conn written =>
    rw [step] at h
    split at h
    · cases h
      exact .closed conn written
    · cases h
  | clean =>
    cases h
    exact .cleaned
  | reconnect i pairs =>
    rw [step] at h
    split at h
    case isTrue hperm =>
      split at h
      case h_1 => cases h
      case h_2 bodies hbodies =>
        cases h
        exact .reconnected hperm hbodies
    case isFalse => cases h

theorem invariant_step {a : Action ι} (h : Invariant b) (hstep : step b a = some b') :
    Invariant b' := by
  cases effect_of_step hstep with
  | known hold => exact h
  | subscribed hnew hbody => exact invariant_subscribe h hnew hbody
  | garbled hserver herr =>
    obtain ⟨p, hp, -⟩ := invariant_serve h hserver
    cases herr.symm.trans hp
  | registered hserver hok =>
    obtain ⟨p, hp, hinv⟩ := invariant_serve h hserver
    cases hok.symm.trans hp
    exact hinv
  | unheard key token data hnil =>
    have hbody : b.registry.receivers b.closed (key ++ token) ≠ [] →
        packPublish (key ++ token) data = .ok [] := fun hne => absurd hnil hne
    have hinv := invariant_publish h hbody
    rw [hnil] at hinv
    have hpush : push b [] [] = b.links := funext fun i => by
      rw [push, List.count_nil, List.replicate_zero, List.append_nil]
    rwa [hpush] at hinv
  | published hbody => exact invariant_publish h fun _ => hbody
  | delivered hclient => exact invariant_deliver h hclient
  | closed conn written => exact invariant_close h conn written
  | cleaned => exact invariant_clean h _
  | reconnected hperm hbodies => exact invariant_reconnect h hperm hbodies

end Steps

section Results

variable {b b' : Broker ι} {ops : List (Action ι)}

theorem invariant_of_passes (hb : Passes step start ops b) : Invariant b :=
  passes_invariant' (fun _ _ _ h => invariant_step h) invariant_start hb

end Results

section Tokens

variable {b b' : Broker ι} {ops : List (Action ι)} {t : Text}

end Tokens

end DistExp.Rpc.Subscriptions
