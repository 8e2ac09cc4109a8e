import DistExp.Library.HalvingTree

namespace DistExp.Library.HalvingTree

/-- The nodes met on the way down to the canonical decomposition of `[l, r)`, the decomposition
included, each with the length of its part of the range. -/
def descent : Nat → Nat → Nat → Nat → Nat → List (Seg × Nat)
  | 0, _, _, _, _ => []
  | d + 1, l, r, a, b => (⟨d, a, b⟩, r - l) ::
      if l = a ∧ r = b then [] else
        (if l < mid a b then descent d l (min (mid a b) r) a (mid a b) else []) ++
        (if mid a b < r then descent d (max l (mid a b)) r (mid a b) b else [])

/-- A mark for every node of a descent: `true` where it stops, `false` where it goes on and `add`
holds of the bounds there. -/
def marks (add : Nat → Nat → Nat → Nat → Bool) : Nat → Nat → Nat → Nat → Nat → List (Seg × Bool)
  | 0, _, _, _, _ => []
  | d + 1, l, r, a, b =>
      if l = a ∧ r = b then [(⟨d, a, b⟩, true)] else
        (if add l r a b then [(⟨d, a, b⟩, false)] else []) ++
        ((if l < mid a b then marks add d l (min (mid a b) r) a (mid a b) else []) ++
          (if mid a b < r then marks add d (max l (mid a b)) r (mid a b) b else []))

variable {add : Nat → Nat → Nat → Nat → Bool} {d l r k a b : Nat}

theorem ite_sublist {p : Prop} [Decidable p] {β : Type} {xs ys : List β} (h : p → xs.Sublist ys) :
    (if p then xs else []).Sublist (if p then ys else []) := by
  split
  · exact h ‹p›
  · exact List.Sublist.refl []

theorem map_ite_nil {p : Prop} [Decidable p] {β γ : Type} (f : β → γ) (xs : List β) :
    (if p then xs else []).map f = if p then xs.map f else [] := by
  split <;> rfl

theorem marks_sublist_touched (h : Fits d a b) (hal : a ≤ l) (hlr : l < r) (hrb : r ≤ b) :
    ((marks add d l r a b).map Prod.fst).Sublist (touched d l r a b) := by
  induction d generalizing l r a b with
  | zero => exact List.Sublist.refl []
  | succ d ih =>
    simp only [marks, touched]
    by_cases hc : l = a ∧ r = b
    · rw [if_pos hc, List.map_singleton]
      exact List.Sublist.cons_cons _ (List.nil_sublist _)
    · have hb : b ≠ a + 1 := by omega
      rw [if_neg hc, if_neg hb, List.map_append, List.map_append, map_ite_nil, map_ite_nil,
        map_ite_nil]
      change List.Sublist _ ([(⟨d, a, b⟩ : Seg)] ++ _)
      refine List.Sublist.append ?_ (List.Sublist.append ?_ ?_)
      · split
        · exact List.Sublist.refl _
        · exact List.nil_sublist _
      · exact ite_sublist fun hm => ih (h.left hb) hal (by omega) (Nat.min_le_left _ _)
      · exact ite_sublist fun hm => ih (h.right hb) (Nat.le_max_right _ _) (by omega) hrb

theorem marks_nodup (h : Fits d a b) (hal : a ≤ l) (hlr : l < r) (hrb : r ≤ b) :
    (marks add d l r a b).Nodup :=
  List.Nodup.of_map Prod.fst
    ((touched_nodup h hal hlr hrb).sublist (marks_sublist_touched h hal hlr hrb))

theorem mem_marks_true (s : Seg) : (s, true) ∈ marks add d l r a b ↔ s ∈ cover d l r a b := by
  induction d generalizing l r a b with
  | zero => simp [marks, cover]
  | succ d ih =>
    simp only [marks, cover]
    by_cases hc : l = a ∧ r = b
    · simp [hc]
    · have hroot : (s, true) ∉ (if add l r a b then [((⟨d, a, b⟩ : Seg), false)] else []) := by
        split <;> simp
      simp only [if_neg hc, List.mem_append, hroot, false_or]
      refine or_congr ?_ ?_
      · split
        · exact ih
        · simp
      · split
        · exact ih
        · simp

theorem size_of_mem_marks_false (h : Fits d a b) (hal : a ≤ l) (hlr : l < r) (hrb : r ≤ b)
    {s : Seg} (hs : (s, false) ∈ marks add d l r a b) : s.hi ≠ s.lo + 1 := by
  induction d generalizing l r a b with
  | zero => simp [marks] at hs
  | succ d ih =>
    simp only [marks] at hs
    by_cases hc : l = a ∧ r = b
    · simp [hc] at hs
    · have hb : b ≠ a + 1 := by omega
      rw [if_neg hc, List.mem_append, List.mem_append] at hs
      obtain hs | hs | hs := hs
      · split at hs
        · cases List.mem_singleton.mp hs
          exact hb
        · cases hs
      · split at hs
        · exact ih (h.left hb) hal (by omega) (Nat.min_le_left _ _) hs
        · cases hs
      · split at hs
        · exact ih (h.right hb) (Nat.le_max_right _ _) (by omega) hrb hs
        · cases hs

theorem mem_descent_of_marks {s : Seg} {m : Bool} (hs : (s, m) ∈ marks add d l r a b) :
    s ∈ (descent d l r a b).map Prod.fst := by
  induction d generalizing l r a b with
  | zero => simp [marks] at hs
  | succ d ih =>
    simp only [marks] at hs
    rw [descent, List.map_cons, List.mem_cons]
    by_cases hc : l = a ∧ r = b
    · rw [if_pos hc, List.mem_singleton] at hs
      exact Or.inl (congrArg Prod.fst hs)
    · rw [if_neg hc, List.mem_append, List.mem_append] at hs
      rw [if_neg hc, List.map_append, List.mem_append]
      obtain hs | hs | hs := hs
      · split at hs
        · exact Or.inl (congrArg Prod.fst (List.mem_singleton.mp hs))
        · cases hs
      · split at hs
        · next hm => exact Or.inr (Or.inl (by rw [if_pos hm]; exact ih hs))
        · cases hs
      · split at hs
        · next hm => exact Or.inr (Or.inr (by rw [if_pos hm]; exact ih hs))
        · cases hs

theorem descent_single (h : Fits d a b) (hak : a ≤ k) (hkb : k < b) :
    descent d k (k + 1) a b = (path d k a b).map fun s => (s, 1) := by
  induction d generalizing a b with
  | zero => rfl
  | succ d ih =>
    simp only [descent, path, List.map_cons, Nat.add_sub_cancel_left]
    congr 1
    by_cases hb : b = a + 1
    · rw [if_pos (by omega), if_pos hb]
      rfl
    · rw [if_neg (by omega), if_neg hb]
      by_cases hm : k < mid a b
      · have hmin : min (mid a b) (k + 1) = k + 1 := by omega
        rw [if_pos hm, if_neg (by omega), if_pos hm, hmin, ih (h.left hb) hak hm, List.append_nil]
      · have hmax : max k (mid a b) = k := by omega
        rw [if_neg hm, if_pos (by omega), if_neg hm, hmax, ih (h.right hb) (by omega) hkb,
          List.nil_append]

theorem descent_sublist_touched (h : Fits d a b) (hal : a ≤ l) (hlr : l < r) (hrb : r ≤ b) :
    ((descent d l r a b).map Prod.fst).Sublist (touched d l r a b) := by
  induction d generalizing l r a b with
  | zero => exact List.Sublist.refl []
  | succ d ih =>
    simp only [descent, touched, List.map_cons]
    apply List.Sublist.cons_cons
    by_cases hc : l = a ∧ r = b
    · rw [if_pos hc]
      exact List.nil_sublist _
    · have hb : b ≠ a + 1 := by omega
      rw [if_neg hc, if_neg hb, List.map_append, map_ite_nil, map_ite_nil]
      refine List.Sublist.append ?_ ?_
      · exact ite_sublist fun hm => ih (h.left hb) hal (by omega) (Nat.min_le_left _ _)
      · exact ite_sublist fun hm => ih (h.right hb) (Nat.le_max_right _ _) (by omega) hrb

theorem path_nodup (h : Fits d a b) (hak : a ≤ k) (hkb : k < b) : (path d k a b).Nodup := by
  have hs := descent_sublist_touched h hak (Nat.lt_succ_self k) hkb
  rw [descent_single h hak hkb, List.map_map] at hs
  have hn := (touched_nodup h hak (Nat.lt_succ_self k) hkb).sublist hs
  simpa only [Function.comp_def, List.map_id'] using hn

theorem path_length_le : (path d k a b).length ≤ d := by
  induction d generalizing a b with
  | zero => exact Nat.le_refl 0
  | succ d ih =>
    rw [path, List.length_cons]
    apply Nat.succ_le_succ
    split
    · exact Nat.zero_le d
    · split
      · exact ih
      · exact ih

theorem marks_eq_cover :
    (marks (fun _ _ _ _ => false) d l r a b).map Prod.fst = cover d l r a b := by
  induction d generalizing l r a b with
  | zero => rfl
  | succ d ih =>
    simp only [marks, cover]
    by_cases hc : l = a ∧ r = b
    · rw [if_pos hc, if_pos hc]
      rfl
    · rw [if_neg hc, if_neg hc, List.map_append, List.map_append, map_ite_nil, map_ite_nil,
        map_ite_nil, ih, ih]
      rfl

theorem cover_nodup (h : Fits d a b) (hal : a ≤ l) (hlr : l < r) (hrb : r ≤ b) :
    (cover d l r a b).Nodup := by
  rw [← marks_eq_cover]
  exact (touched_nodup h hal hlr hrb).sublist (marks_sublist_touched h hal hlr hrb)

theorem sum_mem_comm {β : Type} [DecidableEq β] {xs ys : List β} (hx : xs.Nodup) (hy : ys.Nodup) :
    (xs.map fun x => if x ∈ ys then 1 else 0).sum = (ys.map fun y => if y ∈ xs then 1 else 0).sum := by
  rw [← List.sum_toFinset _ hx, ← List.sum_toFinset _ hy, Finset.sum_boole, Finset.sum_boole]
  congr 2
  ext x
  simp [and_comm]

theorem sum_path_cover (h : Fits d a b) (hal : a ≤ l) (hlr : l < r) (hrb : r ≤ b) (hak : a ≤ k)
    (hkb : k < b) :
    ((path d k a b).map fun s => if s ∈ cover d l r a b then 1 else 0).sum =
      if l ≤ k ∧ k < r then 1 else 0 := by
  have hs := sum_cover h hal hlr hrb fun c => if c = k then 1 else 0
  simp only [Finset.sum_ite_eq', Finset.mem_Ico] at hs
  rw [sum_mem_comm (path_nodup h hak hkb) (cover_nodup h hal hlr hrb), ← hs]
  congr 1
  apply List.map_congr_left
  intro s hm
  have hn := (mem_cover h hal hlr hrb hm).1
  refine if_congr ?_ rfl rfl
  rw [mem_path h hak hkb]
  exact and_iff_right hn

theorem sum_descent_le (h : Fits d a b) (hal : a ≤ l) (hlr : l < r) (hrb : r ≤ b) :
    ((descent d l r a b).map Prod.snd).sum ≤ d * (r - l) := by
  induction d generalizing l r a b with
  | zero => exact Nat.zero_le _
  | succ d ih =>
    rw [descent, List.map_cons, List.sum_cons]
    by_cases hc : l = a ∧ r = b
    · rw [if_pos hc, List.map_nil, List.sum_nil, Nat.succ_mul]
      omega
    · have hb : b ≠ a + 1 := by omega
      have hlow : ((if l < mid a b then descent d l (min (mid a b) r) a (mid a b) else []).map
          Prod.snd).sum ≤ d * (min (mid a b) r - l) := by
        split
        · next hm => exact ih (h.left hb) hal (by omega) (Nat.min_le_left _ _)
        · exact Nat.zero_le _
      have hupp : ((if mid a b < r then descent d (max l (mid a b)) r (mid a b) b else []).map
          Prod.snd).sum ≤ d * (r - max l (mid a b)) := by
        split
        · next hm => exact ih (h.right hb) (Nat.le_max_right _ _) (by omega) hrb
        · exact Nat.zero_le _
      have hsplit : min (mid a b) r - l + (r - max l (mid a b)) = r - l := by omega
      rw [if_neg hc, List.map_append, List.sum_append, Nat.succ_mul, ← hsplit, Nat.mul_add]
      omega

/-- The nodes at the left end of a tree that a descent meets whose range starts at `l` and ends
before the tree does. -/
def leftSpine : Nat → Nat → Nat → List Seg
  | 0, _, _ => []
  | d + 1, l, b => ⟨d, 0, b⟩ :: if l < mid 0 b then leftSpine d l (mid 0 b) else []

theorem leftSpine_length_le : (leftSpine d l b).length ≤ d := by
  induction d generalizing b with
  | zero => exact Nat.le_refl 0
  | succ d ih =>
    rw [leftSpine, List.length_cons]
    apply Nat.succ_le_succ
    split
    · exact ih
    · exact Nat.zero_le d

end DistExp.Library.HalvingTree
