import DistExp.Library.Runs

namespace DistExp.Library.CallTree

open DistExp.Library.Runs

variable {α σ ε β : Type}

/-- The calls of a recursion, each with the number of calls it is nested in, where `calls c` are
those that `c` makes itself. -/
inductive Made (calls : α → List α) (root : α) : Nat → α → Prop
  | root : Made calls root 0 root
  | call {n : Nat} {c c' : α} (h : Made calls root n c) (hc : c' ∈ calls c) :
      Made calls root (n + 1) c'

/-- No more than `n` calls are ever nested, the first one included. -/
def Within (calls : α → List α) : Nat → α → Prop
  | 0, _ => False
  | n + 1, c => ∀ c' ∈ calls c, Within calls n c'

/-- The calls in the order in which they are made, as long as no more than `n` are nested. -/
def trace (calls : α → List α) : Nat → α → List α
  | 0, _ => []
  | n + 1, c => c :: (calls c).flatMap (trace calls n)

variable {calls : α → List α} {root c c' : α} {d n fuel : Nat}

theorem Made.prepend (hc : c' ∈ calls c) (h : Made calls c' n root) :
    Made calls c (n + 1) root := by
  induction h with
  | root => exact .call .root hc
  | call _ hc' ih => exact .call ih hc'

theorem made_invariant {I : Nat → α → Prop} (h0 : I 0 root)
    (hstep : ∀ n c c', I n c → c' ∈ calls c → I (n + 1) c') (h : Made calls root n c) : I n c := by
  induction h with
  | root => exact h0
  | call _ hc ih => exact hstep _ _ _ ih hc

theorem made_of_calls_nil (hc : calls root = []) (h : Made calls root n c) : c = root := by
  refine made_invariant (I := fun _ c => c = root) rfl (fun _ d d' hd hd' => ?_) h
  rw [hd, hc] at hd'
  cases hd'

theorem Within.made (hw : Within calls d root) (h : Made calls root n c) :
    ∃ k, d = n + k + 1 ∧ Within calls (k + 1) c := by
  induction h with
  | root =>
    cases d with
    | zero => exact hw.elim
    | succ d => exact ⟨d, by omega, hw⟩
  | call _ hc ih =>
    obtain ⟨k, hd, hk⟩ := ih
    cases k with
    | zero => exact (hk _ hc).elim
    | succ k => exact ⟨k, by omega, hk _ hc⟩

theorem Within.lt (hw : Within calls d root) (h : Made calls root n c) : n < d := by
  obtain ⟨k, hd, -⟩ := hw.made h
  omega

theorem Within.trace_eq (hw : Within calls d c) (hd : d ≤ fuel) :
    trace calls fuel c = trace calls d c := by
  induction d generalizing fuel c with
  | zero => exact hw.elim
  | succ d ih =>
    obtain ⟨fuel, rfl⟩ : ∃ f, fuel = f + 1 := ⟨fuel - 1, by omega⟩
    have hcalls : (calls c).flatMap (trace calls fuel) = (calls c).flatMap (trace calls d) :=
      List.flatMap_congr fun c' hc => ih (hw c' hc) (by omega)
    rw [trace, trace, hcalls]

def Avoids (bad : ε → Prop) (x : Except ε β) : Prop := ∀ e, x = .error e → ¬ bad e

theorem avoids_ok (bad : ε → Prop) (b : β) : Avoids bad (.ok b : Except ε β) := by
  intro e he
  cases he

theorem Avoids.bind {γ : Type} {bad : ε → Prop} {x : Except ε β} {f : β → Except ε γ}
    (hx : Avoids bad x) (hf : ∀ b, x = .ok b → Avoids bad (f b)) : Avoids bad (x >>= f) := by
  cases x with
  | error e => exact fun e' he => hx e' (by cases he; rfl)
  | ok b => exact hf b rfl

theorem exists_ok_of_avoids {x : Except ε β} (h : Avoids (fun _ => True) x) : ∃ b, x = .ok b := by
  cases x with
  | error e => exact absurd trivial (h e rfl)
  | ok b => exact ⟨b, rfl⟩

def collect [Add β] (calls : α → List α) (own : α → Except ε β) (out : ε) : Nat → α → Except ε β
  | 0, _ => .error out
  | n + 1, c => do
    let sum ← own c
    (calls c).foldlM (fun sum c' => do return sum + (← collect calls own out n c')) sum

def visit (calls : α → List α) (act : σ → α → Except ε σ) (out : ε) : Nat → σ → α → Except ε σ
  | 0, _, _ => .error out
  | n + 1, s, c => do
    let s ← act s c
    (calls c).foldlM (visit calls act out n) s

variable {bad : ε → Prop} {out : ε}

theorem visit_eq_foldlM_trace {act : σ → α → Except ε σ} (hw : Within calls d c) (hd : d ≤ fuel)
    (s : σ) : visit calls act out fuel s c = (trace calls fuel c).foldlM act s := by
  induction d generalizing fuel c s with
  | zero => exact hw.elim
  | succ d ih =>
    obtain ⟨fuel, rfl⟩ : ∃ f, fuel = f + 1 := ⟨fuel - 1, by omega⟩
    rw [visit, trace, List.foldlM_cons]
    refine bind_congr fun s => ?_
    have hcalls (cs : List α) (hcs : ∀ c' ∈ cs, Within calls d c') (s : σ) :
        cs.foldlM (visit calls act out fuel) s = (cs.flatMap (trace calls fuel)).foldlM act s := by
      induction cs generalizing s with
      | nil => rfl
      | cons c' cs ihcs =>
        rw [List.foldlM_cons, List.flatMap_cons, List.foldlM_append,
          ih (hcs c' List.mem_cons_self) (by omega)]
        exact bind_congr fun s => ihcs (fun c'' hc => hcs c'' (List.mem_cons_of_mem _ hc)) s
    exact hcalls (calls c) hw s

theorem avoids_foldlM {γ : Type} {f : γ → α → Except ε γ} {P : γ → Prop} {cs : List α}
    (h : ∀ c ∈ cs, ∀ x, P x → Avoids bad (f x c) ∧ ∀ x', f x c = .ok x' → P x') {x : γ}
    (hx : P x) : Avoids bad (cs.foldlM f x) ∧ ∀ x', cs.foldlM f x = .ok x' → P x' := by
  induction cs generalizing x with
  | nil =>
    refine ⟨avoids_ok bad x, fun x' hx' => ?_⟩
    cases hx'
    exact hx
  | cons c cs ih =>
    obtain ⟨hav, hP⟩ := h c List.mem_cons_self x hx
    rw [List.foldlM_cons]
    cases hc : f x c with
    | error e => exact ⟨fun e' he => hav e' (hc.trans he), fun x' hx' => by cases hx'⟩
    | ok x₁ => exact ih (fun c hm => h c (List.mem_cons_of_mem _ hm)) (hP x₁ hc)

theorem collect_avoids [Add β] {own : α → Except ε β} (hw : Within calls d c) (hd : d ≤ fuel)
    (h : ∀ n c', Made calls c n c' → Avoids bad (own c')) :
    Avoids bad (collect calls own out fuel c) := by
  induction d generalizing fuel c with
  | zero => exact hw.elim
  | succ d ih =>
    obtain ⟨fuel, rfl⟩ : ∃ f, fuel = f + 1 := ⟨fuel - 1, by omega⟩
    rw [collect]
    refine (h 0 c .root).bind fun sum _ => ?_
    refine (avoids_foldlM (P := fun _ => True) (fun c' hc x _ => ⟨?_, fun _ _ => trivial⟩)
      trivial).1
    refine (ih (hw c' hc) (by omega) fun n d' hm => h (n + 1) d' (hm.prepend hc)).bind ?_
    exact fun b _ => avoids_ok bad _

theorem visit_avoids {act : σ → α → Except ε σ} {P : σ → Prop} (hw : Within calls d c)
    (hd : d ≤ fuel)
    (h : ∀ n c', Made calls c n c' → ∀ s, P s →
      Avoids bad (act s c') ∧ ∀ s', act s c' = .ok s' → P s') {s : σ} (hs : P s) :
    Avoids bad (visit calls act out fuel s c) ∧
      ∀ s', visit calls act out fuel s c = .ok s' → P s' := by
  induction d generalizing fuel c s with
  | zero => exact hw.elim
  | succ d ih =>
    obtain ⟨fuel, rfl⟩ : ∃ f, fuel = f + 1 := ⟨fuel - 1, by omega⟩
    obtain ⟨hav, hP⟩ := h 0 c .root s hs
    rw [visit]
    cases hc : act s c with
    | error e => exact ⟨fun e' he => hav e' (hc.trans he), fun s' hs' => by cases hs'⟩
    | ok s₁ =>
      exact avoids_foldlM (fun c' hm x hx =>
        ih (hw c' hm) (by omega) (fun n d' hd' => h (n + 1) d' (hd'.prepend hm)) hx) (hP s₁ hc)

theorem visit_succeeds {act : σ → α → Except ε σ} {P : σ → Prop} (hw : Within calls d c)
    (hd : d ≤ fuel)
    (h : ∀ n c', Made calls c n c' → ∀ s, P s → ∃ s', act s c' = .ok s' ∧ P s') {s : σ}
    (hs : P s) : ∃ s', visit calls act out fuel s c = .ok s' ∧ P s' := by
  have hcall : ∀ n c', Made calls c n c' → ∀ s, P s →
      Avoids (fun _ => True) (act s c') ∧ ∀ s', act s c' = .ok s' → P s' := by
    intro n c' hm s hs
    obtain ⟨s', hact, hP⟩ := h n c' hm s hs
    rw [hact]
    exact ⟨avoids_ok _ s', fun x hx => Except.ok.inj hx ▸ hP⟩
  have hvisit : Avoids (fun _ => True) (visit calls act out fuel s c) ∧
      ∀ s', visit calls act out fuel s c = .ok s' → P s' := visit_avoids hw hd hcall hs
  obtain ⟨s', hs'⟩ := exists_ok_of_avoids hvisit.1
  exact ⟨s', hs', hvisit.2 s' hs'⟩

theorem visit_invariant {act : σ → α → Except ε σ} {P : σ → Prop}
    (h : ∀ s c s', P s → act s c = .ok s' → P s') {s s' : σ} (hs : P s)
    (hv : visit calls act out fuel s c = .ok s') : P s' := by
  induction fuel generalizing c s s' with
  | zero => cases hv
  | succ fuel ih =>
    rw [visit] at hv
    obtain ⟨s₁, hact, hv⟩ := exists_of_bind_ok hv
    have hP : P s₁ := h s c s₁ hs hact
    exact foldlM_preserves (fun x c' _ x' hx hx' => ih hx hx') hP hv

end DistExp.Library.CallTree
