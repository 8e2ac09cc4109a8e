import Mathlib

namespace DistExp.Library.Runs

variable {σ τ α ε : Type}

theorem exists_of_bind_ok {β : Type} {x : Except ε α} {f : α → Except ε β} {b : β}
    (h : (x >>= f) = .ok b) : ∃ a, x = .ok a ∧ f a = .ok b := by
  cases x with
  | error e => cases h
  | ok a => exact ⟨a, rfl, h⟩

theorem foldlM_simulates (f : σ → α → Except ε σ) (g : τ → α → τ) (R : σ → τ → Prop)
    (ops : List α) (h : ∀ s t, ∀ a ∈ ops, R s t → ∃ s', f s a = .ok s' ∧ R s' (g t a))
    {s : σ} {t : τ} (hR : R s t) : ∃ s', ops.foldlM f s = .ok s' ∧ R s' (ops.foldl g t) := by
  induction ops generalizing s t with
  | nil => exact ⟨s, rfl, hR⟩
  | cons a ops ih =>
    obtain ⟨s₁, h₁, hR₁⟩ := h s t a (by simp) hR
    obtain ⟨s₂, h₂, hR₂⟩ := ih (fun s t b hb => h s t b (by simp [hb])) hR₁
    refine ⟨s₂, ?_, hR₂⟩
    rw [List.foldlM_cons, h₁]
    exact h₂

theorem foldlM_invariant (f : σ → α → Except ε σ) (I : σ → Prop) (ops : List α)
    (h : ∀ s, ∀ a ∈ ops, I s → ∃ s', f s a = .ok s' ∧ I s') {s : σ} (hI : I s) :
    ∃ s', ops.foldlM f s = .ok s' ∧ I s' :=
  foldlM_simulates f (fun (t : Unit) _ => t) (fun s _ => I s) ops (fun s _ => h s) (t := ()) hI

theorem foldlM_preserves {f : σ → α → Except ε σ} {I : σ → Prop} {ops : List α}
    (h : ∀ s, ∀ a ∈ ops, ∀ s', I s → f s a = .ok s' → I s') {s s' : σ} (hI : I s)
    (hrun : ops.foldlM f s = .ok s') : I s' := by
  induction ops generalizing s with
  | nil =>
    cases hrun
    exact hI
  | cons a ops ih =>
    rw [List.foldlM_cons] at hrun
    obtain ⟨s₁, h₁, hrun⟩ := exists_of_bind_ok hrun
    have hI₁ : I s₁ := h s a (by simp) s₁ hI h₁
    exact ih (fun s b hb => h s b (by simp [hb])) hI₁ hrun

theorem foldlM_marks {κ : Type} {f : σ → α → Except ε σ} {M : σ → κ → Prop} {K : α → κ → Prop}
    {I : σ → Prop} (h : ∀ s a s', I s → f s a = .ok s' →
      I s' ∧ (∀ k, M s k → M s' k) ∧ ∀ k, K a k → M s' k) {ops : List α} {s s' : σ} (hI : I s)
    (hrun : ops.foldlM f s = .ok s') :
    I s' ∧ (∀ k, M s k → M s' k) ∧ ∀ a ∈ ops, ∀ k, K a k → M s' k := by
  induction ops generalizing s with
  | nil =>
    cases hrun
    exact ⟨hI, fun _ hk => hk, by simp⟩
  | cons a ops ih =>
    rw [List.foldlM_cons] at hrun
    obtain ⟨s₁, h₁, hrun⟩ := exists_of_bind_ok hrun
    obtain ⟨hI₁, hkeep, hown⟩ := h s a s₁ hI h₁
    obtain ⟨hI', hkeep', hown'⟩ := ih hI₁ hrun
    refine ⟨hI', fun k hk => hkeep' k (hkeep k hk), fun b hb k hk => ?_⟩
    obtain rfl | hb := List.mem_cons.mp hb
    · exact hkeep' k (hown k hk)
    · exact hown' b hb k hk

theorem foldl_snoc (f : α → τ) (as : List α) (ts : List τ) :
    as.foldl (fun ts a => ts ++ [f a]) ts = ts ++ as.map f := by
  induction as generalizing ts with
  | nil => simp
  | cons a as ih => rw [List.foldl_cons, ih, List.map_cons, List.append_assoc, List.singleton_append]

theorem foldlM_assign (f : α → Except ε τ) (as : List α) (t : τ) :
    as.foldlM (fun _ a => f a) t = do
      let ts ← as.mapM f
      return ts.getLastD t := by
  induction as generalizing t with
  | nil => rfl
  | cons a as ih =>
    rw [List.foldlM_cons, List.mapM_cons, bind_assoc]
    refine bind_congr fun b => ?_
    rw [ih, bind_assoc]
    exact bind_congr fun ts => by rw [pure_bind, List.getLastD_cons]

theorem getLastD_of_mapM {f : α → Except ε τ} {as : List α} {a : α} {ts : List τ}
    (h : (as ++ [a]).mapM f = .ok ts) (t : τ) : f a = .ok (ts.getLastD t) := by
  have hrun : (as ++ [a]).foldlM (fun _ a => f a) t = .ok (ts.getLastD t) := by
    rw [foldlM_assign, h]
    rfl
  rw [List.foldlM_append] at hrun
  obtain ⟨_, -, ha⟩ := exists_of_bind_ok hrun
  exact (bind_pure (f a)).symm.trans ha

theorem forall₂_of_mapM {f : α → Except ε τ} {as : List α} {ts : List τ} (h : as.mapM f = .ok ts) :
    List.Forall₂ (fun a t => f a = .ok t) as ts := by
  induction as generalizing ts with
  | nil =>
    cases h
    exact .nil
  | cons a as ih =>
    rw [List.mapM_cons] at h
    obtain ⟨t, ht, h⟩ := exists_of_bind_ok h
    obtain ⟨ts', hts, h⟩ := exists_of_bind_ok h
    cases h
    exact .cons ht (ih hts)

section Outcomes

variable {ω : Type} {f : σ → α → Except ε (σ × ω)} {s s' : σ} {a : α} {out : ω}

def outcomes (f : σ → α → Except ε (σ × ω)) : σ → List α → List (Except ε ω)
  | _, [] => []
  | s, a :: ops =>
    match f s a with
    | .error e => [.error e]
    | .ok (s', out) => .ok out :: outcomes f s' ops

theorem outcomes_cons (h : f s a = .ok (s', out)) (ops : List α) :
    outcomes f s (a :: ops) = .ok out :: outcomes f s' ops := by
  rw [outcomes, h]

theorem outcomes_singleton (s : σ) (a : α) : outcomes f s [a] = [(f s a).map Prod.snd] := by
  rw [outcomes]
  cases f s a with
  | error e => rfl
  | ok r => rfl

end Outcomes

section Calls

inductive Call (α β : Type) where
  | update (a : α)
  | ask (b : β)

variable {β ω : Type} (update : σ → α → Except ε σ) (ask : σ → β → Except ε ω)

def Call.run (s : σ) : Call α β → Except ε (σ × Option ω)
  | .update a => do return (← update s a, none)
  | .ask b => do return (s, some (← ask s b))

def Alike (s s' : σ) (past : List α) : Prop :=
  (∃ t t', past.foldlM update s = .ok t ∧ past.foldlM update s' = .ok t' ∧
    ∀ b, ask t b = ask t' b) ∨
  ∃ e, past.foldlM update s = .error e ∧ past.foldlM update s' = .error e

variable {update ask} {s s' t t' : σ} {a : α}

theorem outcomes_update (h : update s a = .ok t) (ops : List (Call α β)) :
    outcomes (Call.run update ask) s (.update a :: ops) =
      .ok none :: outcomes (Call.run update ask) t ops := by
  refine outcomes_cons ?_ ops
  rw [Call.run, h]
  rfl

theorem outcomes_update_error {e : ε} (h : update s a = .error e) (ops : List (Call α β)) :
    outcomes (Call.run update ask) s (.update a :: ops) = [.error e] := by
  rw [outcomes, Call.run, h]
  rfl

theorem alike_refl (s : σ) (past : List α) : Alike update ask s s past := by
  rw [Alike]
  cases past.foldlM update s with
  | error e => exact Or.inr ⟨e, rfl, rfl⟩
  | ok t => exact Or.inl ⟨t, t, rfl, rfl, fun b => rfl⟩

theorem alike_cons (h : update s a = .ok t) (h' : update s' a = .ok t') (past : List α) :
    Alike update ask s s' (a :: past) ↔ Alike update ask t t' past := by
  rw [Alike, Alike, List.foldlM_cons, List.foldlM_cons, h, h']
  rfl

theorem alike_update (h : Alike update ask s s' [a]) :
    (∃ t t', update s a = .ok t ∧ update s' a = .ok t') ∨
      ∃ e, update s a = .error e ∧ update s' a = .error e := by
  have hone (s : σ) : [a].foldlM update s = update s a := bind_pure _
  rw [Alike, hone, hone] at h
  obtain ⟨t, t', ht, ht', -⟩ | herr := h
  · exact Or.inl ⟨t, t', ht, ht'⟩
  · exact Or.inr herr

theorem outcomes_eq_iff : (∀ ops, outcomes (Call.run update ask) s ops =
    outcomes (Call.run update ask) s' ops) ↔ ∀ past, Alike update ask s s' past := by
  constructor
  · intro h past
    induction past generalizing s s' with
    | nil =>
      refine Or.inl ⟨s, s', rfl, rfl, fun b => ?_⟩
      have hb := h [.ask b]
      rw [outcomes_singleton, outcomes_singleton, List.singleton_inj, Call.run, Call.run] at hb
      cases hs : ask s b <;> cases hs' : ask s' b <;> rw [hs, hs'] at hb <;> cases hb <;> rfl
    | cons a past ih =>
      have ha := h [.update a]
      cases hs : update s a with
      | error e =>
        cases hs' : update s' a with
        | error e' =>
          rw [outcomes_update_error hs, outcomes_update_error hs'] at ha
          cases ha
          refine Or.inr ⟨e, ?_, ?_⟩ <;> rw [List.foldlM_cons]
          · rw [hs]
            rfl
          · rw [hs']
            rfl
        | ok t' =>
          rw [outcomes_update_error hs, outcomes_update hs'] at ha
          cases ha
      | ok t =>
        cases hs' : update s' a with
        | error e' =>
          rw [outcomes_update hs, outcomes_update_error hs'] at ha
          cases ha
        | ok t' =>
          refine (alike_cons hs hs' past).mpr (ih fun ops => ?_)
          have htail := h (.update a :: ops)
          rw [outcomes_update hs, outcomes_update hs'] at htail
          exact (List.cons.inj htail).2
  · intro h ops
    induction ops generalizing s s' with
    | nil => rfl
    | cons c ops ih =>
      cases c with
      | update a =>
        obtain ⟨t, t', ht, ht'⟩ | ⟨e, he, he'⟩ := alike_update (h [a])
        · rw [outcomes_update ht, outcomes_update ht']
          exact congrArg _ (ih fun past => (alike_cons ht ht' past).mp (h (a :: past)))
        · rw [outcomes_update_error he, outcomes_update_error he']
      | ask b =>
        obtain ⟨t, t', ht, ht', hask⟩ | ⟨e, he, -⟩ := h []
        · cases ht
          cases ht'
          have hrest := ih h
          rw [outcomes, outcomes, Call.run, Call.run, hask b]
          cases ask s' b with
          | error e => rfl
          | ok out => exact congrArg _ hrest
        · cases he

end Calls

section Steps

variable {step : σ → α → Option σ} {init last s s' : σ} {ops pre : List α} {a : α}

/-- The states that a run goes through: those its prefixes lead to. -/
def Passes (step : σ → α → Option σ) (init : σ) (ops : List α) (s : σ) : Prop :=
  ∃ pre, pre <+: ops ∧ pre.foldlM step init = some s

/-- Every step of a run is taken in a state where it meets the condition. -/
def EachStep (step : σ → α → Option σ) (C : σ → α → Prop) (init : σ) (ops : List α) : Prop :=
  ∀ pre a s, pre ++ [a] <+: ops → pre.foldlM step init = some s → C s a

theorem exists_of_foldlM_snoc (h : (pre ++ [a]).foldlM step init = some s') :
    ∃ s, pre.foldlM step init = some s ∧ step s a = some s' := by
  rw [List.foldlM_append] at h
  obtain ⟨s, hs, ha⟩ := Option.bind_eq_some_iff.mp h
  exact ⟨s, hs, (bind_pure (step s a)).symm.trans ha⟩

theorem foldlM_prefix (hrun : ops.foldlM step init = some last) (hp : pre <+: ops) :
    ∃ s, pre.foldlM step init = some s := by
  obtain ⟨post, rfl⟩ := hp
  rw [List.foldlM_append] at hrun
  obtain ⟨s, hs, -⟩ := Option.bind_eq_some_iff.mp hrun
  exact ⟨s, hs⟩

theorem passes_append {ops' : List α} (hs : Passes step init ops s)
    (hrun : ops'.foldlM step s = some s') : ∃ ops, Passes step init ops s' := by
  obtain ⟨pre, -, hpre⟩ := hs
  refine ⟨pre ++ ops', pre ++ ops', List.prefix_refl _, ?_⟩
  rw [List.foldlM_append, hpre]
  exact hrun

variable {C : σ → α → Prop} {I Safe : σ → Prop}

theorem eachStep_nil : EachStep step C init [] :=
  fun pre _ _ hp _ => absurd (List.prefix_nil.mp hp) (by simp)

theorem eachStep_cons : EachStep step C s (a :: ops) ↔
    C s a ∧ ∀ s', step s a = some s' → EachStep step C s' ops := by
  constructor
  · intro h
    refine ⟨h [] a s ⟨ops, rfl⟩ rfl, fun s' hs' pre b s₁ hp hs₁ => ?_⟩
    refine h (a :: pre) b s₁ (List.cons_prefix_cons.mpr ⟨rfl, hp⟩) ?_
    rw [List.foldlM_cons, hs']
    exact hs₁
  · rintro ⟨ha, h⟩ pre b s₁ hp hs₁
    cases pre with
    | nil =>
      obtain ⟨rfl, -⟩ := List.cons_prefix_cons.mp hp
      cases hs₁
      exact ha
    | cons c pre =>
      obtain ⟨rfl, hp'⟩ := List.cons_prefix_cons.mp hp
      obtain ⟨s', hs', hs₂⟩ := Option.bind_eq_some_iff.mp hs₁
      exact h s' hs' pre b s₁ hp' hs₂

instance decidableEachStep [∀ s a, Decidable (C s a)] :
    (ops : List α) → (s : σ) → Decidable (EachStep step C s ops)
  | [], _ => .isTrue eachStep_nil
  | a :: ops, s =>
    have : Decidable (∀ s', step s a = some s' → EachStep step C s' ops) :=
      match hs : step s a with
      | none => .isTrue nofun
      | some s' =>
        have := decidableEachStep ops s'
        decidable_of_iff (EachStep step C s' ops) (by simp)
    decidable_of_iff _ eachStep_cons.symm

theorem passes_invariant (hstep : ∀ s a s', I s → C s a → step s a = some s' → I s') (h0 : I init)
    (hC : EachStep step C init ops) (hs : Passes step init ops s) : I s := by
  obtain ⟨pre, hp, hs⟩ := hs
  induction pre using List.reverseRecOn generalizing s with
  | nil =>
    cases hs
    exact h0
  | append_singleton pre a ih =>
    obtain ⟨s₁, h₁, ha⟩ := exists_of_foldlM_snoc hs
    exact hstep s₁ a s (ih ((List.prefix_append pre [a]).trans hp) h₁) (hC pre a s₁ hp h₁) ha

theorem passes_invariant' (hstep : ∀ s a s', I s → step s a = some s' → I s') (h0 : I init)
    (hs : Passes step init ops s) : I s :=
  passes_invariant (C := fun _ _ => True) (fun s a s' hI _ ha => hstep s a s' hI ha) h0
    (fun _ _ _ _ _ => trivial) hs

/-- When the condition keeps the invariant and any other step leads out of the safe states, a run
is safe all along exactly when all of its steps meet the condition. Only the states that the run
goes through matter. -/
theorem safe_iff_of_passes (hI : ∀ s, I s → Safe s)
    (hstep : ∀ s a s', Passes step init ops s' → I s → C s a → step s a = some s' → I s')
    (hbad : ∀ s a s', I s → ¬ C s a → step s a = some s' → ¬ Safe s') (h0 : I init)
    (hrun : ops.foldlM step init = some last) :
    (∀ s, Passes step init ops s → Safe s) ↔ EachStep step C init ops := by
  have hall : (∀ pre a s, pre ++ [a] <+: ops → pre.foldlM step init = some s → I s → C s a) →
      ∀ pre s, pre <+: ops → pre.foldlM step init = some s → I s := by
    intro hC pre
    induction pre using List.reverseRecOn with
    | nil =>
      intro s _ hs
      cases hs
      exact h0
    | append_singleton pre a ih =>
      intro s hp hs
      obtain ⟨s₁, h₁, ha⟩ := exists_of_foldlM_snoc hs
      have hI₁ := ih s₁ ((List.prefix_append pre [a]).trans hp) h₁
      exact hstep s₁ a s ⟨_, hp, hs⟩ hI₁ (hC pre a s₁ hp h₁ hI₁) ha
  constructor
  · intro hsafe
    have hC : ∀ pre a s, pre ++ [a] <+: ops → pre.foldlM step init = some s → I s → C s a := by
      intro pre a s hp hs hIs
      by_contra hn
      obtain ⟨s', hs'⟩ := foldlM_prefix hrun hp
      obtain ⟨s₁, h₁, ha⟩ := exists_of_foldlM_snoc hs'
      cases h₁.symm.trans hs
      exact hbad s a s' hIs hn ha (hsafe s' ⟨_, hp, hs'⟩)
    exact fun pre a s hp hs =>
      hC pre a s hp hs (hall hC pre s ((List.prefix_append pre [a]).trans hp) hs)
  · rintro hC s ⟨pre, hp, hs⟩
    exact hI s (hall (fun pre a s hp hs _ => hC pre a s hp hs) pre s hp hs)

theorem safe_iff_eachStep (hI : ∀ s, I s → Safe s)
    (hstep : ∀ s a s', I s → C s a → step s a = some s' → I s')
    (hbad : ∀ s a s', I s → ¬ C s a → step s a = some s' → ¬ Safe s') (h0 : I init)
    (hrun : ops.foldlM step init = some last) :
    (∀ s, Passes step init ops s → Safe s) ↔ EachStep step C init ops :=
  safe_iff_of_passes hI (fun s a s' _ => hstep s a s') hbad h0 hrun

theorem passes_le {f : σ → Nat} (hstep : ∀ s a s', step s a = some s' → f s ≤ f s')
    (hrun : ops.foldlM step init = some last) (hs : Passes step init ops s) : f s ≤ f last := by
  obtain ⟨pre, ⟨post, rfl⟩, hs⟩ := hs
  rw [List.foldlM_append, hs] at hrun
  exact passes_invariant' (I := fun x => f s ≤ f x)
    (fun x a x' hx ha => hx.trans (hstep x a x' ha)) (le_refl _) ⟨post, List.prefix_refl _, hrun⟩

end Steps

end DistExp.Library.Runs
