import Mathlib

namespace DistExp.Library.AgedCounter

variable {α κ ι : Type}

/-- What a family of counters lives through: an item is recorded, or every counter is halved. -/
inductive Event (α : Type) where
  | hit (a : α)
  | halve
  deriving DecidableEq

/-- One event, as seen by a counter that an item raises by its weight but never above `cap`. -/
def step (cap : Nat) (w : α → Nat) (x : Nat) : Event α → Nat
  | .hit a => min cap (x + w a)
  | .halve => x / 2

def aged (cap : Nat) (w : α → Nat) (evs : List (Event α)) : Nat := evs.foldl (step cap w) 0

theorem aged_snoc (cap : Nat) (w : α → Nat) (evs : List (Event α)) (e : Event α) :
    aged cap w (evs ++ [e]) = step cap w (aged cap w evs) e := by
  simp only [aged, List.foldl_append, List.foldl_cons, List.foldl_nil]

theorem step_le_cap (cap : Nat) (w : α → Nat) (x : Nat) (hx : x ≤ cap) (e : Event α) :
    step cap w x e ≤ cap := by
  cases e with
  | hit a => exact Nat.min_le_left _ _
  | halve => exact (Nat.div_le_self x 2).trans hx

theorem aged_le_cap (cap : Nat) (w : α → Nat) (evs : List (Event α)) : aged cap w evs ≤ cap := by
  induction evs using List.reverseRecOn with
  | nil => exact Nat.zero_le _
  | append_singleton evs e ih =>
    rw [aged_snoc]
    exact step_le_cap cap w _ ih e

theorem aged_mono (cap : Nat) {w v : α → Nat} (evs : List (Event α))
    (h : ∀ a, Event.hit a ∈ evs → w a ≤ v a) : aged cap w evs ≤ aged cap v evs := by
  induction evs using List.reverseRecOn with
  | nil => exact Nat.le_refl _
  | append_singleton evs e ih =>
    have hle := ih (fun a ha => h a (List.mem_append_left _ ha))
    rw [aged_snoc, aged_snoc]
    cases e with
    | hit a =>
      have ha := h a (by simp)
      simp only [step]
      omega
    | halve => exact Nat.div_le_div_right hle

theorem aged_congr (cap : Nat) {w v : α → Nat} (evs : List (Event α))
    (h : ∀ a, Event.hit a ∈ evs → w a = v a) : aged cap w evs = aged cap v evs :=
  Nat.le_antisymm (aged_mono cap evs fun a ha => (h a ha).le)
    (aged_mono cap evs fun a ha => (h a ha).ge)

theorem aged_hits (cap : Nat) (w : α → Nat) (as : List α) :
    aged cap w (as.map Event.hit) = min cap (as.map w).sum := by
  induction as using List.reverseRecOn with
  | nil => simp [aged]
  | append_singleton as a ih =>
    rw [List.map_append, List.map_singleton, aged_snoc, ih]
    simp only [step, List.map_append, List.map_singleton, List.sum_append, List.sum_singleton]
    omega

def age (w : α → Nat) (x : Nat) : Event α → Nat
  | .hit a => x + w a
  | .halve => x / 2

def uncapped (w : α → Nat) (evs : List (Event α)) : Nat := evs.foldl (age w) 0

theorem uncapped_snoc (w : α → Nat) (evs : List (Event α)) (e : Event α) :
    uncapped w (evs ++ [e]) = age w (uncapped w evs) e := by
  simp only [uncapped, List.foldl_append, List.foldl_cons, List.foldl_nil]

theorem uncapped_le_length {w : α → Nat} (hw : ∀ a, w a ≤ 1) (evs : List (Event α)) :
    uncapped w evs ≤ evs.length := by
  induction evs using List.reverseRecOn with
  | nil => exact Nat.le_refl _
  | append_singleton evs e ih =>
    rw [uncapped_snoc, List.length_append, List.length_singleton]
    cases e with
    | hit a => exact Nat.add_le_add ih (hw a)
    | halve => exact (Nat.div_le_self _ 2).trans (ih.trans (Nat.le_succ _))

theorem min_sum_le (cap : Nat) (xs : List Nat) : min cap xs.sum ≤ (xs.map (min cap)).sum := by
  induction xs with
  | nil => simp
  | cons x xs ih =>
    simp only [List.sum_cons, List.map_cons]
    omega

theorem sum_sum_comm {β : Type} (xs : List α) (ys : List β) (f : α → β → Nat) :
    (xs.map fun x => (ys.map (f x)).sum).sum = (ys.map fun y => (xs.map fun x => f x y).sum).sum := by
  induction xs with
  | nil => simp
  | cons x xs ih =>
    simp only [List.map_cons, List.sum_cons, ih, List.sum_map_add]

section Cells

variable [DecidableEq ι]

/-- Raise one counter of an array by `v`, capped; the other counters stay. -/
def raise (cap v : Nat) (f : ι → Nat) (c : ι) : ι → Nat := Function.update f c (min cap (f c + v))

def raiseAll (cap : Nat) (f : ι → Nat) (cs : List ι) : ι → Nat := cs.foldl (raise cap 1) f

def halveAll (f : ι → Nat) : ι → Nat := fun c => f c / 2

theorem raiseAll_append (cap : Nat) (f : ι → Nat) (cs ds : List ι) :
    raiseAll cap f (cs ++ ds) = raiseAll cap (raiseAll cap f cs) ds := List.foldl_append

theorem raiseAll_apply (cap : Nat) (f : ι → Nat) (cs : List ι) (c : ι) (hf : f c ≤ cap) :
    raiseAll cap f cs c = min cap (f c + cs.count c) := by
  induction cs generalizing f with
  | nil => simp [raiseAll, hf]
  | cons d cs ih =>
    change raiseAll cap (raise cap 1 f d) cs c = _
    by_cases h : c = d
    · subst h
      have hc : raise cap 1 f c c = min cap (f c + 1) := by simp [raise]
      rw [ih _ (by rw [hc]; exact Nat.min_le_left _ _), hc, List.count_cons_self]
      omega
    · have hc : raise cap 1 f d c = f c := by simp [raise, h]
      rw [ih _ (by rw [hc]; exact hf), hc, List.count_cons_of_ne (Ne.symm h)]

theorem le_raiseAll (cap : Nat) (f : ι → Nat) (cs : List ι) (c : ι) (hf : f c ≤ cap) :
    f c ≤ raiseAll cap f cs c := by
  rw [raiseAll_apply cap f cs c hf]
  exact Nat.le_min.mpr ⟨hf, Nat.le_add_right _ _⟩

theorem raiseAll_pos (cap : Nat) (f : ι → Nat) {cs : List ι} {c : ι} (hcap : 0 < cap)
    (hf : f c ≤ cap) (hc : c ∈ cs) : 0 < raiseAll cap f cs c := by
  have hcount := List.count_pos_iff.mpr hc
  rw [raiseAll_apply cap f cs c hf]
  omega

theorem raiseAll_of_not_mem (cap : Nat) (f : ι → Nat) (cs : List ι) {c : ι} (hf : f c ≤ cap)
    (hc : c ∉ cs) : raiseAll cap f cs c = f c := by
  rw [raiseAll_apply cap f cs c hf, List.count_eq_zero_of_not_mem hc, Nat.add_zero,
    Nat.min_eq_right hf]

theorem raiseAll_map {τ : Type} [DecidableEq τ] (cap : Nat) (f : ι → Nat) (cs : List τ) {g : τ → ι}
    (hg : Function.Injective g) (c : τ) (hf : f (g c) ≤ cap) :
    raiseAll cap f (cs.map g) (g c) = raiseAll cap (fun d => f (g d)) cs c := by
  rw [raiseAll_apply cap f _ _ hf, raiseAll_apply cap (fun d => f (g d)) cs c hf,
    List.count_map_of_injective _ _ hg]

def rowMin (top : Nat) (f : ι → Nat) (cs : List ι) : Nat := cs.foldl (fun m c => min m (f c)) top

omit [DecidableEq ι] in
theorem le_rowMin (f : ι → Nat) (cs : List ι) {r top : Nat} (ht : r ≤ top)
    (h : ∀ c ∈ cs, r ≤ f c) : r ≤ rowMin top f cs := by
  induction cs generalizing top with
  | nil => exact ht
  | cons c cs ih =>
    exact ih (Nat.le_min.mpr ⟨ht, h c (by simp)⟩) fun d hd => h d (by simp [hd])

omit [DecidableEq ι] in
theorem rowMin_le_top (f : ι → Nat) (cs : List ι) (top : Nat) : rowMin top f cs ≤ top := by
  induction cs generalizing top with
  | nil => exact Nat.le_refl _
  | cons c cs ih => exact (ih (min top (f c))).trans (Nat.min_le_left _ _)

omit [DecidableEq ι] in
theorem rowMin_le (f : ι → Nat) (cs : List ι) (top : Nat) {c : ι} (hc : c ∈ cs) :
    rowMin top f cs ≤ f c := by
  induction cs generalizing top with
  | nil => simp at hc
  | cons d cs ih =>
    obtain rfl | hm := List.mem_cons.mp hc
    · exact (rowMin_le_top f cs (min top (f c))).trans (Nat.min_le_right _ _)
    · exact ih (min top (f d)) hm

omit [DecidableEq ι] in
theorem rowMin_mono {f f' : ι → Nat} (h : ∀ c, f c ≤ f' c) (cs : List ι) (top : Nat) :
    rowMin top f cs ≤ rowMin top f' cs :=
  le_rowMin f' cs (rowMin_le_top f cs top) fun c hc => (rowMin_le f cs top hc).trans (h c)

omit [DecidableEq ι] in
theorem exists_rowMin (f : ι → Nat) (cs : List ι) (top : Nat) (h : rowMin top f cs < top) :
    ∃ c ∈ cs, rowMin top f cs = f c := by
  induction cs generalizing top with
  | nil => exact absurd h (Nat.lt_irrefl top)
  | cons c cs ih =>
    rw [rowMin, List.foldl_cons]
    change ∃ d ∈ c :: cs, rowMin (min top (f c)) f cs = f d
    by_cases hlt : rowMin (min top (f c)) f cs < min top (f c)
    · obtain ⟨d, hd, he⟩ := ih _ hlt
      exact ⟨d, List.mem_cons_of_mem c hd, he⟩
    · refine ⟨c, List.mem_cons_self, ?_⟩
      have hle := rowMin_le_top f cs (min top (f c))
      have hstep : rowMin top f (c :: cs) = rowMin (min top (f c)) f cs := rfl
      omega

omit [DecidableEq ι] in
theorem rowMin_halveAll (f : ι → Nat) (cs : List ι) (top : Nat) (h : rowMin top f cs < top) :
    rowMin top (halveAll f) cs = rowMin top f cs / 2 := by
  refine Nat.le_antisymm ?_ ?_
  · obtain ⟨c, hc, hval⟩ := exists_rowMin f cs top h
    rw [hval]
    exact rowMin_le (halveAll f) cs top hc
  · refine le_rowMin (halveAll f) cs ((Nat.div_le_self _ 2).trans h.le) fun c hc => ?_
    exact Nat.div_le_div_right (rowMin_le f cs top hc)

/-- What an array kept from before does not show in a row of counters: one that is raised least
often kept nothing, or all of them are full without it. -/
def Silent (cap : Nat) (kept : ι → Nat) (raised row : List ι) : Prop :=
  (∀ c ∈ row, cap ≤ raised.count c) ∨
    ∃ c ∈ row, kept c = 0 ∧ ∀ d ∈ row, raised.count c ≤ raised.count d

theorem rowMin_raiseAll_eq_iff {cap top : Nat} (ht : cap ≤ top) {kept : ι → Nat}
    (hkept : ∀ c, kept c ≤ cap) (raised row : List ι) :
    rowMin top (raiseAll cap kept raised) row = rowMin top (raiseAll cap (fun _ => 0) raised) row ↔
      Silent cap kept raised row := by
  have happly (c : ι) := raiseAll_apply cap kept raised c (hkept c)
  have hempty (c : ι) := raiseAll_apply cap (fun _ => 0) raised c (Nat.zero_le cap)
  constructor
  · intro heq
    by_cases hfull : ∀ c ∈ row, cap ≤ raised.count c
    · exact Or.inl hfull
    · push Not at hfull
      obtain ⟨d, hd, hlt⟩ := hfull
      have hmin := rowMin_le (raiseAll cap (fun _ => 0) raised) row top hd
      rw [hempty] at hmin
      obtain ⟨c, hc, hval⟩ := exists_rowMin (raiseAll cap kept raised) row top (by omega)
      have hle := rowMin_le (raiseAll cap (fun _ => 0) raised) row top hc
      rw [hempty] at hle
      rw [happly] at hval
      refine Or.inr ⟨c, hc, by omega, fun b hb => ?_⟩
      have hbound := rowMin_le (raiseAll cap (fun _ => 0) raised) row top hb
      rw [hempty] at hbound
      omega
  · intro hsilent
    refine Nat.le_antisymm ?_ (rowMin_mono (fun c => ?_) row top)
    · obtain hfull | ⟨c, hc, hzero, hleast⟩ := hsilent
      · refine le_rowMin _ row (rowMin_le_top _ row top) fun d hd => ?_
        have hcap := rowMin_le (raiseAll cap kept raised) row top hd
        have hfd := hfull d hd
        rw [happly] at hcap
        rw [hempty]
        omega
      · refine le_rowMin _ row (rowMin_le_top _ row top) fun d hd => ?_
        have hcap := rowMin_le (raiseAll cap kept raised) row top hc
        have hcd := hleast d hd
        rw [happly, hzero] at hcap
        rw [hempty]
        omega
    · rw [happly, hempty]
      omega

theorem silent_zero (cap : Nat) (raised row : List ι) : Silent cap (fun _ => 0) raised row :=
  (rowMin_raiseAll_eq_iff le_rfl (fun _ => Nat.zero_le cap) raised row).mp rfl

end Cells

section CountMin

variable [DecidableEq κ] [DecidableEq ι]

/-- An item stands for some keys and every key owns one counter in each row; `present` is the
weight of an exact counter kept for one key, `load` the weight of one shared counter. -/
def present (keys : α → List κ) (k : κ) (a : α) : Nat := if k ∈ keys a then 1 else 0

def load (keys : α → List κ) (rows : κ → List ι) (c : ι) (a : α) : Nat :=
  ((keys a).flatMap rows).count c

variable (cap : Nat) (keys : α → List κ) (rows : κ → List ι)

omit [DecidableEq ι] in
theorem present_eq_ite {k : κ} {a : α} {p : Prop} [Decidable p] (h : k ∈ keys a ↔ p) :
    present keys k a = if p then 1 else 0 := if_congr h rfl rfl

theorem present_le_load {k : κ} {c : ι} (hc : c ∈ rows k) (a : α) :
    present keys k a ≤ load keys rows c a := by
  by_cases h : k ∈ keys a
  · have hm : c ∈ (keys a).flatMap rows := List.mem_flatMap.mpr ⟨k, h, hc⟩
    simpa [present, h, load] using List.count_pos_iff.mpr hm
  · simp [present, h]

theorem count_flatMap_private (ks : List κ) {k : κ} {c : ι} (hr : (rows k).Nodup) (hc : c ∈ rows k)
    (hp : ∀ k' ∈ ks, k' ≠ k → c ∉ rows k') : (ks.flatMap rows).count c = ks.count k := by
  induction ks with
  | nil => rfl
  | cons k' ks ih =>
    have hi := ih fun k'' hk => hp k'' (by simp [hk])
    rw [List.flatMap_cons, List.count_append, hi]
    by_cases h : k' = k
    · subst h
      rw [List.count_eq_one_of_mem hr hc, List.count_cons_self, Nat.add_comm]
    · rw [List.count_eq_zero_of_not_mem (hp k' (by simp) h), List.count_cons_of_ne h, Nat.zero_add]

theorem load_eq_present {k : κ} {c : ι} (hr : (rows k).Nodup) (hc : c ∈ rows k) (a : α)
    (hn : (keys a).Nodup) (hp : ∀ k' ∈ keys a, k' ≠ k → c ∉ rows k') :
    load keys rows c a = present keys k a := by
  rw [load, count_flatMap_private rows (keys a) hr hc hp, present]
  by_cases h : k ∈ keys a
  · rw [if_pos h, List.count_eq_one_of_mem hn h]
  · rw [if_neg h, List.count_eq_zero_of_not_mem h]

omit [DecidableEq κ] in
theorem raiseAll_tracks {f : ι → Nat} {evs : List (Event α)}
    (hf : ∀ c, f c = aged cap (load keys rows c) evs) (a : α) (c : ι) :
    raiseAll cap f ((keys a).flatMap rows) c = aged cap (load keys rows c) (evs ++ [.hit a]) := by
  have hle : f c ≤ cap := by rw [hf c]; exact aged_le_cap cap _ evs
  rw [raiseAll_apply cap f _ c hle, aged_snoc, hf c]
  rfl

omit [DecidableEq κ] in
theorem raiseAll_hits {f : ι → Nat} {ks : List κ}
    (hf : ∀ c, f c = aged cap (load (fun k => [k]) rows c) (ks.map Event.hit)) (ks' : List κ)
    (c : ι) :
    raiseAll cap f (ks'.flatMap rows) c =
      aged cap (load (fun k => [k]) rows c) ((ks ++ ks').map Event.hit) := by
  have hle : f c ≤ cap := by rw [hf c]; exact aged_le_cap cap _ _
  have hload : (ks'.flatMap rows).count c = (ks'.map (load (fun k => [k]) rows c)).sum := by
    rw [List.count_flatMap]
    refine congrArg List.sum (List.map_congr_left fun k _ => ?_)
    rw [load, List.flatMap_singleton, Function.comp_apply]
  rw [raiseAll_apply cap f _ c hle, hf c, aged_hits, aged_hits, hload, List.map_append,
    List.sum_append]
  omega

omit [DecidableEq κ] in
theorem halveAll_tracks {f : ι → Nat} {evs : List (Event α)}
    (hf : ∀ c, f c = aged cap (load keys rows c) evs) (c : ι) :
    halveAll f c = aged cap (load keys rows c) (evs ++ [.halve]) := by
  rw [aged_snoc, ← hf c]
  rfl

theorem present_le_rowMin {top : Nat} (ht : cap ≤ top) (evs : List (Event α)) (k : κ) :
    aged cap (present keys k) evs ≤
      rowMin top (fun c => aged cap (load keys rows c) evs) (rows k) := by
  apply le_rowMin _ _ ((aged_le_cap cap _ evs).trans ht)
  intro c hc
  exact aged_mono cap evs fun a _ => present_le_load keys rows hc a

theorem rowMin_eq_present {top : Nat} (ht : cap ≤ top) (evs : List (Event α)) (k : κ) {c : ι}
    (hr : (rows k).Nodup) (hc : c ∈ rows k) (hn : ∀ a, Event.hit a ∈ evs → (keys a).Nodup)
    (hp : ∀ a, Event.hit a ∈ evs → ∀ k' ∈ keys a, k' ≠ k → c ∉ rows k') :
    rowMin top (fun c => aged cap (load keys rows c) evs) (rows k) =
      aged cap (present keys k) evs := by
  apply Nat.le_antisymm
  · refine (rowMin_le _ _ top hc).trans (le_of_eq ?_)
    exact aged_congr cap evs fun a ha => load_eq_present keys rows hr hc a (hn a ha) (hp a ha)
  · exact present_le_rowMin cap keys rows ht evs k

end CountMin

end DistExp.Library.AgedCounter
