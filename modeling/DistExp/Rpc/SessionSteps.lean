import DistExp.Rpc.Sessions

namespace DistExp.Rpc.SessionSteps

open DistExp.Library.FieldMap DistExp.Rpc.ClientCalls DistExp.Rpc.Wire DistExp.Rpc.Routing
  DistExp.Rpc.Sessions

variable {σ : Type} {r : Router σ} {s s' : σ} {t t' : Session}

theorem perm_eraseIdx {α : Type} {l : List α} {k : Nat} {a : α} (h : l[k]? = some a) :
    l.Perm (a :: l.eraseIdx k) := by
  obtain ⟨hk, rfl⟩ := List.getElem?_eq_some_iff.mp h
  exact (List.getElem_cons_eraseIdx_perm hk).symm

theorem consistent_call (h : Consistent t) (model : CallModel) (funcId : UInt32) (body : Body)
    (padding : UInt8 × UInt8) (hlt : t.core.issued.length + 1 < 2 ^ 63) :
    Consistent { t with core := t.core.call model funcId body padding } := by
  set m := callMessage (t.core.calls.begin model).1 funcId body padding with hm
  obtain ⟨hcounts, hnew, hflag⟩ := Calls.begin_counts h.counts (by rwa [List.length_map]) model
  have hids : (t.core.issued ++ [requestOf m]).map Request.reqId =
      t.core.issued.map Request.reqId ++ [(t.core.calls.begin model).1] := by
    rw [List.map_append]
    rfl
  have hfree : (t.core.calls.begin model).1 ∉ t.core.calls.waiting := fun hmem =>
    hnew (h.waits.mem_iff.mp (List.mem_append_left _ hmem))
  obtain ⟨hsorted, hwaiting⟩ := Calls.begin_waiting h.sorted hfree hflag
  refine { h with
    counts := hids ▸ hcounts
    sorted := hsorted
    isCall := fun m' hm' => ?_
    nodup := ?_
    located := ?_
    waits := ?_ }
  · obtain hm' | hm' := List.mem_append.mp hm'
    · exact h.isCall m' hm'
    · rw [List.mem_singleton.mp hm']
      exact ⟨body.2.1, rfl⟩
  · change ((t.core.issued ++ [requestOf m]).map Request.reqId).Nodup
    rw [hids]
    exact h.nodup.append (List.nodup_singleton _) (by simpa using hnew)
  · change ((t.core.calling ++ [m]).map requestOf ++ t.core.sent).Perm
      (t.core.issued ++ [requestOf m])
    refine List.perm_iff_count.mpr fun q => ?_
    have hcount := List.perm_iff_count.mp h.located q
    simp only [List.map_append, List.map_cons, List.map_nil, List.count_append] at hcount ⊢
    omega
  · change ((t.core.calls.begin model).2.waiting ++ t.core.delivered.map Prod.fst).Perm
      ((t.core.issued ++ [requestOf m]).map Request.reqId)
    rw [hids]
    exact (hwaiting.append_right _).trans ((h.waits.cons _).trans
      (List.perm_append_singleton _ _).symm)

theorem consistent_send (h : Consistent t) {k : Nat} {m : Message} (hk : t.core.calling[k]? = some m) :
    Consistent { t with
      core := { t.core with
        calling := t.core.calling.eraseIdx k
        sent := t.core.sent ++ [requestOf m] }
      toServer := t.toServer ++ serverMeaning m } := by
  have hperm := (perm_eraseIdx hk).map requestOf
  have hcall := h.isCall m (List.mem_of_getElem? hk)
  refine { h with
    isCall := fun m' hm' => h.isCall m' (List.mem_of_mem_eraseIdx hm')
    located := ?_
    ordered := ?_
    serverReads := fun read hread => ?_ }
  · refine List.perm_iff_count.mpr fun q => ?_
    have hcount := List.perm_iff_count.mp h.located q
    have hcount' := List.perm_iff_count.mp hperm q
    simp only [List.map_cons, List.count_append, List.count_cons, List.count_nil] at hcount hcount' ⊢
    omega
  · rw [requests_append, serverMeaning_call hcall, ← List.append_assoc, ← h.ordered]
    rfl
  · obtain hread | hread := List.mem_append.mp hread
    · exact h.serverReads read hread
    · exact serverMeaning_valid m read hread

theorem consistent_notify (h : Consistent t) {m : Message} (hm : IsNotice m) :
    Consistent { t with toServer := t.toServer ++ serverMeaning m } := by
  refine { h with
    ordered := ?_
    serverReads := fun read hread => ?_ }
  · rw [requests_append, requests_notice hm, List.append_nil]
    exact h.ordered
  · obtain hread | hread := List.mem_append.mp hread
    · exact h.serverReads read hread
    · exact serverMeaning_valid m read hread

theorem consistent_expire (h : Consistent t) (reqId : UInt64) :
    Consistent { t with core := { t.core with calls := t.core.calls.expire reqId } } :=
  { h with
    counts := ⟨h.counts.future, h.counts.callback, h.counts.fuId_le, h.counts.callbackId_le,
      h.counts.callbackId_flag⟩
    sorted := Calls.sorted_expire h.sorted
    waits := by
      rw [Calls.waiting_expire]
      exact h.waits }

theorem consistent_publish (h : Consistent t) (data : List UInt8) :
    Consistent { t with toClient := t.toClient ++ [.published data] } := by
  refine { h with
    delivers := ?_
    clientReads := fun read hread => ?_ }
  · rw [responses_append]
    exact (congrArg _ (List.append_nil _)).trans h.delivers
  · obtain hread | hread := List.mem_append.mp hread
    · exact h.clientReads read hread
    · rw [List.mem_singleton.mp hread]
      trivial

section Serve

variable {reqId : UInt64} {funcId : UInt32} {body response : List UInt8} {rest : List ServerRead}

theorem ordered_routed (h : Consistent t) (ht : t.toServer = .request reqId funcId body :: rest)
    (x : Routed) (hx : x.request = ⟨reqId, funcId, body⟩) :
    t.core.sent = (t.core.routed ++ [x]).map Routed.request ++ requests rest := by
  rw [h.ordered, ht, List.map_append, List.append_assoc, List.map_singleton, hx]
  rfl

theorem consistent_answered (h : Consistent t)
    (ht : t.toServer = .request reqId funcId body :: rest) :
    Consistent
      { core := { t.core with
          routed := t.core.routed ++ [⟨⟨reqId, funcId, body⟩, some response⟩]
          answered := t.core.answered ++ [(reqId, response)] }
        toServer := rest
        toClient := t.toClient ++ [.response reqId response] } := by
  refine { h with
    ordered := ordered_routed h ht _ rfl
    served := ?_
    runs := fun q hq => List.mem_append_left _ (h.runs q hq)
    answers := fun a ha => ?_
    delivers := ?_
    serverReads := fun read hread => h.serverReads read (ht ▸ List.mem_cons_of_mem _ hread)
    clientReads := fun read hread => ?_ }
  · change (t.core.running.map Request.reqId ++
      (t.core.answered ++ [(reqId, response)]).map Prod.fst).Perm
      ((t.core.routed ++ [(⟨⟨reqId, funcId, body⟩, some response⟩ : Routed)]).map Routed.reqId)
    rw [List.map_append, List.map_append, ← List.append_assoc]
    exact h.served.append_right _
  · obtain ha | ha := List.mem_append.mp ha
    · obtain ⟨x, hx, hid⟩ := h.answers a ha
      exact ⟨x, List.mem_append_left _ hx, hid⟩
    · rw [List.mem_singleton.mp ha]
      exact ⟨_, List.mem_append_right _ (List.mem_singleton_self _), rfl, .inl rfl⟩
  · change t.core.delivered ++ responses (t.toClient ++ [.response reqId response]) =
      t.core.answered ++ [(reqId, response)]
    rw [responses_append, ← List.append_assoc, h.delivers]
    rfl
  · obtain hread | hread := List.mem_append.mp hread
    · exact h.clientReads read hread
    · rw [List.mem_singleton.mp hread]
      trivial

theorem consistent_running (h : Consistent t)
    (ht : t.toServer = .request reqId funcId body :: rest) :
    Consistent { t with
      core := { t.core with
        routed := t.core.routed ++ [⟨⟨reqId, funcId, body⟩, none⟩]
        running := t.core.running ++ [⟨reqId, funcId, body⟩] }
      toServer := rest } := by
  refine { h with
    ordered := ordered_routed h ht _ rfl
    served := ?_
    runs := fun q hq => ?_
    answers := fun a ha => ?_
    serverReads := fun read hread => h.serverReads read (ht ▸ List.mem_cons_of_mem _ hread) }
  · change ((t.core.running ++ [(⟨reqId, funcId, body⟩ : Request)]).map Request.reqId ++
      t.core.answered.map Prod.fst).Perm
      ((t.core.routed ++ [(⟨⟨reqId, funcId, body⟩, none⟩ : Routed)]).map Routed.reqId)
    refine List.perm_iff_count.mpr fun q => ?_
    have hcount := List.perm_iff_count.mp h.served q
    simp only [List.map_append, List.map_cons, List.map_nil, List.count_append, Routed.reqId]
      at hcount ⊢
    omega
  · obtain hq | hq := List.mem_append.mp hq
    · exact List.mem_append_left _ (h.runs q hq)
    · rw [List.mem_singleton.mp hq]
      exact List.mem_append_right _ (List.mem_singleton_self _)
  · obtain ⟨x, hx, hid⟩ := h.answers a ha
    exact ⟨x, List.mem_append_left _ hx, hid⟩

theorem consistent_rest {read : ServerRead} (h : Consistent t) (ht : t.toServer = read :: rest)
    (hread : requests [read] = []) : Consistent { t with toServer := rest } := by
  have hrequests : requests t.toServer = requests rest := by
    rw [ht, ← List.singleton_append, requests_append, hread, List.nil_append]
  exact { h with
    ordered := hrequests ▸ h.ordered
    serverReads := fun read hread => h.serverReads read (ht ▸ List.mem_cons_of_mem _ hread) }

end Serve

theorem consistent_respond (h : Consistent t) {k : Nat} {q : Request} (data : List UInt8)
    (hk : t.core.running[k]? = some q) :
    Consistent { t with
      core := { t.core with
        running := t.core.running.eraseIdx k
        answered := t.core.answered ++ [(q.reqId, data)] }
      toClient := t.toClient ++ [.response q.reqId data] } := by
  have hperm := (perm_eraseIdx hk).map Request.reqId
  refine { h with
    served := ?_
    runs := fun q' hq' => h.runs q' (List.mem_of_mem_eraseIdx hq')
    answers := fun a ha => ?_
    delivers := ?_
    clientReads := fun read hread => ?_ }
  · change ((t.core.running.eraseIdx k).map Request.reqId ++
      (t.core.answered ++ [(q.reqId, data)]).map Prod.fst).Perm
      (t.core.routed.map Routed.reqId)
    refine List.perm_iff_count.mpr fun id => ?_
    have hcount := List.perm_iff_count.mp h.served id
    have hcount' := List.perm_iff_count.mp hperm id
    simp only [List.map_append, List.map_cons, List.map_nil, List.count_append, List.count_cons,
      List.count_nil] at hcount hcount' ⊢
    omega
  · obtain ha | ha := List.mem_append.mp ha
    · exact h.answers a ha
    · rw [List.mem_singleton.mp ha]
      exact ⟨_, h.runs q (List.mem_of_getElem? hk), rfl, .inr rfl⟩
  · change t.core.delivered ++ responses (t.toClient ++ [.response q.reqId data]) =
      t.core.answered ++ [(q.reqId, data)]
    rw [responses_append, ← List.append_assoc, h.delivers]
    rfl
  · obtain hread | hread := List.mem_append.mp hread
    · exact h.clientReads read hread
    · rw [List.mem_singleton.mp hread]
      trivial

section Deliver

variable {reqId : UInt64} {body : List UInt8} {rest : List ClientRead}

theorem mem_waiting (h : Consistent t) (ht : t.toClient = .response reqId body :: rest) :
    reqId ∈ t.core.calls.waiting := by
  have hanswered : t.core.answered = t.core.delivered ++ (reqId, body) :: responses rest := by
    rw [← h.delivers, ht]
    rfl
  -- The id is answered once more than it is delivered, and is issued at most once.
  have hserved := List.perm_iff_count.mp h.served reqId
  have hlocated := List.perm_iff_count.mp (h.located.map Request.reqId) reqId
  rw [h.ordered] at hlocated
  have hwaits := List.perm_iff_count.mp h.waits reqId
  have hnodup := List.nodup_iff_count_le_one.mp h.nodup reqId
  rw [hanswered] at hserved
  have hrouted : (t.core.routed.map Routed.request).map Request.reqId =
      t.core.routed.map Routed.reqId := List.map_map ..
  simp only [List.map_append, List.map_cons, List.count_append, List.count_cons_self, hrouted]
    at hserved hlocated hwaits
  refine List.count_pos_iff.mp ?_
  have hpos : 0 < List.count reqId (t.core.issued.map Request.reqId) := by omega
  omega

theorem consistent_response {calls : Calls} {comp : Completion} (h : Consistent t)
    (ht : t.toClient = .response reqId body :: rest)
    (hcall : t.core.calls.callBack reqId none body = some (calls, comp)) :
    Consistent { t with
      core := { t.core with
        calls := calls
        delivered := t.core.delivered ++ [(reqId, body)]
        completed := t.core.completed ++ [comp] }
      toClient := rest } := by
  have hnodup : t.core.calls.waiting.Nodup :=
    (List.nodup_append.mp (h.waits.nodup_iff.mpr h.nodup)).1
  obtain ⟨calls', comp', hcall', hsorted, hperm, hends, hfu, hcb⟩ :=
    Calls.callBack_waiting h.sorted hnodup (mem_waiting h ht) body
  obtain ⟨rfl, rfl⟩ : calls' = calls ∧ comp' = comp := by
    simpa using hcall'.symm.trans hcall
  refine { h with
    counts := ⟨hfu ▸ h.counts.future, hcb ▸ h.counts.callback, hfu ▸ h.counts.fuId_le,
      hcb ▸ h.counts.callbackId_le, hcb ▸ h.counts.callbackId_flag⟩
    sorted := hsorted
    delivers := ?_
    waits := ?_
    ends := List.rel_append h.ends (.cons hends .nil)
    clientReads := fun read hread => h.clientReads read (ht ▸ List.mem_cons_of_mem _ hread) }
  · change t.core.delivered ++ [(reqId, body)] ++ responses rest = t.core.answered
    rw [← h.delivers, ht, List.append_assoc]
    rfl
  · change (calls'.waiting ++ (t.core.delivered ++ [(reqId, body)]).map Prod.fst).Perm
      (t.core.issued.map Request.reqId)
    refine List.perm_iff_count.mpr fun id => ?_
    have hcount := List.perm_iff_count.mp h.waits id
    have hcount' := List.perm_iff_count.mp hperm id
    simp only [List.map_append, List.map_cons, List.map_nil, List.count_append, List.count_cons,
      List.count_nil] at hcount hcount' ⊢
    omega

theorem consistent_published (h : Consistent t) (ht : t.toClient = .published body :: rest) :
    Consistent { t with toClient := rest } :=
  { h with
    delivers := by
      rw [← h.delivers, ht]
      rfl
    clientReads := fun read hread => h.clientReads read (ht ▸ List.mem_cons_of_mem _ hread) }

end Deliver

inductive Effect (r : Router σ) (s : σ) (t : Session) : Action → σ → Session → Prop
  | call (model : CallModel) (funcId : UInt32) (body : Body) (padding : UInt8 × UInt8) :
    Effect r s t (.call model funcId body padding) s
      { t with core := t.core.call model funcId body padding }
  | send {k : Nat} {m : Message} (hk : t.core.calling[k]? = some m) :
    Effect r s t (.send k) s { t with
      core := { t.core with
        calling := t.core.calling.eraseIdx k
        sent := t.core.sent ++ [requestOf m] }
      toServer := t.toServer ++ serverMeaning m }
  | notify {m : Message} (hm : IsNotice m) :
    Effect r s t (.notify m) s { t with toServer := t.toServer ++ serverMeaning m }
  | answered {s' : σ} {reqId : UInt64} {funcId : UInt32} {body : List UInt8} {response : Body}
      {rest : List ServerRead} (ht : t.toServer = .request reqId funcId body :: rest)
      (hroute : r.route s funcId body = (s', .ok (some response.1))) :
    Effect r s t .serve s'
      { core := { t.core with
          routed := t.core.routed ++ [⟨⟨reqId, funcId, body⟩, some response.1⟩]
          answered := t.core.answered ++ [(reqId, response.1)] }
        toServer := rest
        toClient := t.toClient ++ [.response reqId response.1] }
  | running {s' : σ} {reqId : UInt64} {funcId : UInt32} {body : List UInt8}
      {rest : List ServerRead} (ht : t.toServer = .request reqId funcId body :: rest)
      (hroute : r.route s funcId body = (s', .ok none)) :
    Effect r s t .serve s' { t with
      core := { t.core with
        routed := t.core.routed ++ [⟨⟨reqId, funcId, body⟩, none⟩]
        running := t.core.running ++ [⟨reqId, funcId, body⟩] }
      toServer := rest }
  | subscribed {body : List UInt8} {rest : List ServerRead}
      (ht : t.toServer = .subscribe body :: rest) :
    Effect r s t .serve s { t with toServer := rest }
  | respond {k : Nat} {q : Request} (body : Body) (hk : t.core.running[k]? = some q) :
    Effect r s t (.respond k body) s { t with
      core := { t.core with
        running := t.core.running.eraseIdx k
        answered := t.core.answered ++ [(q.reqId, body.1)] }
      toClient := t.toClient ++ [.response q.reqId body.1] }
  | publish (body : Body) :
    Effect r s t (.publish body) s { t with toClient := t.toClient ++ [.published body.1] }
  | response {reqId : UInt64} {body : List UInt8} {rest : List ClientRead} {calls : Calls}
      {comp : Completion} (ht : t.toClient = .response reqId body :: rest)
      (hcall : t.core.calls.callBack reqId none body = some (calls, comp)) :
    Effect r s t .deliver s { t with
      core := { t.core with
        calls := calls
        delivered := t.core.delivered ++ [(reqId, body)]
        completed := t.core.completed ++ [comp] }
      toClient := rest }
  | published {body : List UInt8} {rest : List ClientRead}
      (ht : t.toClient = .published body :: rest) :
    Effect r s t .deliver s { t with toClient := rest }
  | expire (reqId : UInt64) :
    Effect r s t (.expire reqId) s
      { t with core := { t.core with calls := t.core.calls.expire reqId } }

theorem effect_of_serve (h : step r s t .serve = some (s', t')) : Effect r s t .serve s' t' := by
  rw [step] at h
  split at h
  case h_1 => cases h
  case h_2 read rest ht =>
    cases read with
    | request reqId funcId body =>
      rw [Core.onServerRead] at h
      cases hroute : r.route s funcId body with
      | mk s₁ result =>
        rw [hroute] at h
        match result with
        | .error e => cases h
        | .ok none =>
          cases h
          exact .running ht hroute
        | .ok (some response) =>
          dsimp only at h
          by_cases hsendable : Sendable response
          · rw [dif_pos hsendable] at h
            cases h
            have hroute' :
                r.route s funcId body = (s', .ok (some (⟨response, hsendable⟩ : Body).1)) := hroute
            exact .answered ht hroute'
          · rw [dif_neg hsendable] at h
            cases h
    | subscribe body =>
      cases h
      exact .subscribed ht
    | protocolError => cases h
    | invalidBodyLen => cases h

theorem effect_of_deliver (h : step r s t .deliver = some (s', t')) :
    Effect r s t .deliver s' t' := by
  rw [step] at h
  split at h
  case h_1 => cases h
  case h_2 read rest ht =>
    cases read with
    | response reqId body =>
      rw [Core.onClientRead] at h
      cases hcall : t.core.calls.callBack reqId none body with
      | none =>
        rw [hcall] at h
        cases h
      | some result =>
        rw [hcall] at h
        cases h
        exact .response ht hcall
    | published body =>
      cases h
      exact .published ht
    | messageSize => cases h
    | invalidArgument => cases h

theorem effect_of_step {a : Action} (h : step r s t a = some (s', t')) : Effect r s t a s' t' := by
  cases a with
  | call model funcId body padding =>
    cases h
    exact .call model funcId body padding
  | send k =>
    rw [step, Core.send] at h
    cases hk : t.core.calling[k]? with
    | none =>
      rw [hk] at h
      cases h
    | some m =>
      rw [hk] at h
      cases h
      exact .send hk
  | notify m =>
    rw [step] at h
    split at h
    case isTrue hm =>
      cases h
      exact .notify hm
    case isFalse => cases h
  | serve => exact effect_of_serve h
  | respond k body =>
    rw [step, Core.respond] at h
    cases hk : t.core.running[k]? with
    | none =>
      rw [hk] at h
      cases h
    | some q =>
      rw [hk] at h
      cases h
      exact .respond body hk
  | publish body =>
    cases h
    exact .publish body
  | deliver => exact effect_of_deliver h
  | expire reqId =>
    cases h
    exact .expire reqId

theorem consistent_step {a : Action} (h : Consistent t) (hstep : step r s t a = some (s', t'))
    (hlt : t'.core.issued.length < 2 ^ 63) : Consistent t' := by
  cases effect_of_step hstep with
  | call model funcId body padding =>
    refine consistent_call h model funcId body padding ?_
    have hlen : (t.core.call model funcId body padding).issued.length = t.core.issued.length + 1 :=
      List.length_append
    rwa [hlen] at hlt
  | send hk => exact consistent_send h hk
  | notify hm => exact consistent_notify h hm
  | answered ht hroute => exact consistent_answered h ht
  | running ht hroute => exact consistent_running h ht
  | subscribed ht => exact consistent_rest h ht rfl
  | respond body hk => exact consistent_respond h body.1 hk
  | publish body => exact consistent_publish h body.1
  | response ht hcall => exact consistent_response h ht hcall
  | published ht => exact consistent_published h ht
  | expire reqId => exact consistent_expire h reqId

section Completed

theorem map_reqId_completed (h : Consistent t) :
    t.core.completed.map Completion.reqId = t.core.delivered.map Prod.fst := by
  refine List.forall₂_eq_eq_eq ▸ List.forall₂_map_left_iff.mpr (List.forall₂_map_right_iff.mpr ?_)
  exact h.ends.imp fun _ _ hends => hends.reqId_eq

theorem exists_delivered (h : Consistent t) {comp : Completion} (hcomp : comp ∈ t.core.completed) :
    ∃ a ∈ t.core.delivered, Calls.Ends comp a.1 a.2 := by
  obtain ⟨n, hn, rfl⟩ := List.getElem_of_mem hcomp
  have hlen := h.ends.length_eq
  exact ⟨t.core.delivered[n], List.getElem_mem _, h.ends.get hn (hlen ▸ hn)⟩

theorem completed (h : Consistent t) :
    (t.core.completed.map Completion.reqId).Nodup ∧
    ∀ c ∈ t.core.completed, ∃ x ∈ t.core.routed, x.request ∈ t.core.issued ∧ x.reqId = c.reqId ∧
      ((c.ec = none ∧ (x.response = some c.data ∨ x.response = none)) ∨
        (Calls.cbFlag c.reqId = true ∧ c.ec = some .timedOut ∧ c.data = [])) := by
  refine ⟨?_, fun c hc => ?_⟩
  · rw [map_reqId_completed h]
    exact (List.nodup_append.mp (h.waits.nodup_iff.mpr h.nodup)).2.1
  · obtain ⟨a, ha, hends⟩ := exists_delivered h hc
    have hanswered : a ∈ t.core.answered := h.delivers ▸ List.mem_append_left _ ha
    obtain ⟨x, hx, hid, hresponse⟩ := h.answers a hanswered
    have hsent : x.request ∈ t.core.sent :=
      h.ordered ▸ List.mem_append_left _ (List.mem_map_of_mem hx)
    refine ⟨x, hx, h.located.mem_iff.mp (List.mem_append_right _ hsent),
      hid.trans hends.reqId_eq.symm, ?_⟩
    obtain ⟨hec, hdata⟩ | ⟨hflag, hec, hdata⟩ := hends.result
    · exact .inl ⟨hec, hdata ▸ hresponse⟩
    · exact .inr ⟨hends.reqId_eq ▸ hflag, hec, hdata⟩

theorem located (h : Consistent t) :
    let opened := t.core.calling.map Message.reqId ++ (requests t.toServer).map Request.reqId ++
      t.core.running.map Request.reqId ++ (responses t.toClient).map Prod.fst
    (opened ++ t.core.completed.map Completion.reqId).Perm (t.core.issued.map Request.reqId) ∧
      t.core.calls.waiting.Perm opened := by
  have hcount : ∀ id,
      List.count id (t.core.calling.map Message.reqId) +
        List.count id ((requests t.toServer).map Request.reqId) +
        List.count id (t.core.running.map Request.reqId) +
        List.count id ((responses t.toClient).map Prod.fst) +
        List.count id (t.core.delivered.map Prod.fst) =
      List.count id (t.core.issued.map Request.reqId) := by
    intro id
    have hserved := List.perm_iff_count.mp h.served id
    have hlocated := List.perm_iff_count.mp (h.located.map Request.reqId) id
    have hcalling : (t.core.calling.map requestOf).map Request.reqId =
        t.core.calling.map Message.reqId := List.map_map ..
    have hrouted : (t.core.routed.map Routed.request).map Request.reqId =
        t.core.routed.map Routed.reqId := List.map_map ..
    rw [h.ordered] at hlocated
    rw [← h.delivers] at hserved
    simp only [List.map_append, List.count_append, hcalling, hrouted] at hserved hlocated
    omega
  refine ⟨List.perm_iff_count.mpr fun id => ?_, List.perm_iff_count.mpr fun id => ?_⟩
  · rw [map_reqId_completed h]
    simp only [List.count_append]
    exact hcount id
  · have hwaits := List.perm_iff_count.mp h.waits id
    have := hcount id
    simp only [List.count_append] at hwaits ⊢
    omega

end Completed

end DistExp.Rpc.SessionSteps
