import Mathlib

namespace DistExp.Library.HalvingTree

/-- One node of a tree that keeps halving an interval: the points `[lo, hi)` at a depth that is
counted down to the leaves. -/
structure Seg where
  level : Nat
  lo : Nat
  hi : Nat
  deriving DecidableEq

def Seg.size (s : Seg) : Nat := s.hi - s.lo

def mid (a b : Nat) : Nat := a + (b - a) / 2

/-- All nodes of the tree over `[a, b)` with at most `d` levels. -/
def nodes : Nat → Nat → Nat → List Seg
  | 0, _, _ => []
  | d + 1, a, b => ⟨d, a, b⟩ ::
      if b = a + 1 then [] else nodes d a (mid a b) ++ nodes d (mid a b) b

/-- The nodes met on the way down to every point of `[l, r)`. -/
def touched : Nat → Nat → Nat → Nat → Nat → List Seg
  | 0, _, _, _, _ => []
  | d + 1, l, r, a, b => ⟨d, a, b⟩ ::
      if b = a + 1 then [] else
        (if l < mid a b then touched d l (min (mid a b) r) a (mid a b) else []) ++
        (if mid a b < r then touched d (max l (mid a b)) r (mid a b) b else [])

/-- The nodes of the canonical decomposition of `[l, r)`. -/
def cover : Nat → Nat → Nat → Nat → Nat → List Seg
  | 0, _, _, _, _ => []
  | d + 1, l, r, a, b =>
      if l = a ∧ r = b then [⟨d, a, b⟩] else
        (if l < mid a b then cover d l (min (mid a b) r) a (mid a b) else []) ++
        (if mid a b < r then cover d (max l (mid a b)) r (mid a b) b else [])

/-- The nodes from the root down to the leaf of the point `k`. -/
def path : Nat → Nat → Nat → Nat → List Seg
  | 0, _, _, _ => []
  | d + 1, k, a, b => ⟨d, a, b⟩ ::
      if b = a + 1 then [] else
        if k < mid a b then path d k a (mid a b) else path d k (mid a b) b

/-- The tree over `[a, b)` reaches single points within `d` levels. -/
def Fits (d a b : Nat) : Prop := a < b ∧ b - a ≤ 2 ^ (d - 1) ∧ 0 < d

theorem fits_clog {n : Nat} (hn : 1 ≤ n) : Fits (Nat.clog 2 n + 1) 0 n := by
  refine ⟨hn, ?_, Nat.succ_pos _⟩
  rw [Nat.add_sub_cancel, Nat.sub_zero]
  exact Nat.le_pow_clog (by decide) n

theorem Fits.mid_bounds {d a b : Nat} (h : Fits (d + 1) a b) (hb : b ≠ a + 1) :
    a < mid a b ∧ mid a b < b := by
  have hab := h.1
  unfold mid
  omega

theorem Fits.left {d a b : Nat} (h : Fits (d + 1) a b) (hb : b ≠ a + 1) : Fits d a (mid a b) := by
  obtain ⟨hm, _⟩ := h.mid_bounds hb
  obtain ⟨hab, hle, _⟩ := h
  rw [Nat.add_sub_cancel] at hle
  cases d with
  | zero => omega
  | succ d =>
    rw [Nat.pow_succ] at hle
    refine ⟨hm, ?_, by omega⟩
    rw [Nat.add_sub_cancel, mid]
    omega

theorem Fits.right {d a b : Nat} (h : Fits (d + 1) a b) (hb : b ≠ a + 1) : Fits d (mid a b) b := by
  obtain ⟨_, hm⟩ := h.mid_bounds hb
  obtain ⟨hab, hle, _⟩ := h
  rw [Nat.add_sub_cancel] at hle
  cases d with
  | zero => omega
  | succ d =>
    rw [Nat.pow_succ] at hle
    refine ⟨hm, ?_, by omega⟩
    rw [Nat.add_sub_cancel, mid]
    omega

theorem mem_nodes_bounds {d a b : Nat} (h : Fits d a b) {s : Seg} (hs : s ∈ nodes d a b) :
    a ≤ s.lo ∧ s.lo < s.hi ∧ s.hi ≤ b ∧ s.level < d := by
  induction d generalizing a b with
  | zero => simp [nodes] at hs
  | succ d ih =>
    simp only [nodes, List.mem_cons] at hs
    obtain rfl | hs := hs
    · exact ⟨le_rfl, h.1, le_rfl, Nat.lt_succ_self d⟩
    · by_cases hb : b = a + 1
      · simp [hb] at hs
      · obtain ⟨hma, hmb⟩ := h.mid_bounds hb
        rw [if_neg hb, List.mem_append] at hs
        obtain hs | hs := hs
        · obtain ⟨h1, h2, h3, h4⟩ := ih (h.left hb) hs
          omega
        · obtain ⟨h1, h2, h3, h4⟩ := ih (h.right hb) hs
          omega

theorem nodes_nodup {d a b : Nat} (h : Fits d a b) : (nodes d a b).Nodup := by
  induction d generalizing a b with
  | zero => simp [nodes]
  | succ d ih =>
    simp only [nodes, List.nodup_cons]
    by_cases hb : b = a + 1
    · simp [hb]
    · rw [if_neg hb]
      constructor
      · intro hs
        obtain hs | hs := List.mem_append.mp hs
        · exact Nat.lt_irrefl d (mem_nodes_bounds (h.left hb) hs).2.2.2
        · exact Nat.lt_irrefl d (mem_nodes_bounds (h.right hb) hs).2.2.2
      · rw [List.nodup_append]
        refine ⟨ih (h.left hb), ih (h.right hb), ?_⟩
        intro s hs t ht hst
        have hl := mem_nodes_bounds (h.left hb) hs
        have hr := mem_nodes_bounds (h.right hb) ht
        subst hst
        omega

theorem nodes_unique {d a b : Nat} (h : Fits d a b) {s t : Seg} (hs : s ∈ nodes d a b)
    (ht : t ∈ nodes d a b) (hlo : s.lo = t.lo) (hhi : s.hi = t.hi) : s = t := by
  induction d generalizing a b with
  | zero => simp [nodes] at hs
  | succ d ih =>
    simp only [nodes, List.mem_cons] at hs ht
    by_cases hb : b = a + 1
    · simp only [if_pos hb, List.not_mem_nil, or_false] at hs ht
      rw [hs, ht]
    · obtain ⟨hma, hmb⟩ := h.mid_bounds hb
      rw [if_neg hb, List.mem_append] at hs ht
      have hl : ∀ {s}, s ∈ nodes d a (mid a b) → a ≤ s.lo ∧ s.lo < s.hi ∧ s.hi ≤ mid a b :=
        fun hs => let hbd := mem_nodes_bounds (h.left hb) hs; ⟨hbd.1, hbd.2.1, hbd.2.2.1⟩
      have hr : ∀ {s}, s ∈ nodes d (mid a b) b → mid a b ≤ s.lo ∧ s.lo < s.hi ∧ s.hi ≤ b :=
        fun hs => let hbd := mem_nodes_bounds (h.right hb) hs; ⟨hbd.1, hbd.2.1, hbd.2.2.1⟩
      rcases hs with rfl | hs | hs <;> rcases ht with rfl | ht | ht
      · rfl
      · have := hl ht; simp only at hlo hhi; omega
      · have := hr ht; simp only at hlo hhi; omega
      · have := hl hs; simp only at hlo hhi; omega
      · exact ih (h.left hb) hs ht
      · have := hl hs; have := hr ht; omega
      · have := hr hs; simp only at hlo hhi; omega
      · have := hr hs; have := hl ht; omega
      · exact ih (h.right hb) hs ht

theorem eq_root_of_level {d a b : Nat} (h : Fits (d + 1) a b) {s : Seg} (hs : s ∈ nodes (d + 1) a b)
    (hl : s.level = d) : s = ⟨d, a, b⟩ := by
  simp only [nodes, List.mem_cons] at hs
  obtain rfl | hs := hs
  · rfl
  · by_cases hb : b = a + 1
    · simp [hb] at hs
    · rw [if_neg hb, List.mem_append] at hs
      obtain hs | hs := hs
      · have := (mem_nodes_bounds (h.left hb) hs).2.2.2; omega
      · have := (mem_nodes_bounds (h.right hb) hs).2.2.2; omega

theorem nodes_unique_of_level {d a b : Nat} (h : Fits d a b) {s t : Seg} (hs : s ∈ nodes d a b)
    (ht : t ∈ nodes d a b) (hlevel : s.level = t.level) (hlo : s.lo = t.lo) : s = t := by
  induction d generalizing a b with
  | zero => simp [nodes] at hs
  | succ d ih =>
    by_cases hroot : s.level = d
    · rw [eq_root_of_level h hs hroot, eq_root_of_level h ht (hlevel ▸ hroot)]
    · simp only [nodes, List.mem_cons] at hs ht
      obtain rfl | hs := hs
      · exact absurd rfl hroot
      obtain rfl | ht := ht
      · exact absurd hlevel hroot
      by_cases hb : b = a + 1
      · rw [if_pos hb] at hs
        cases hs
      · rw [if_neg hb, List.mem_append] at hs ht
        have hl := fun {s} => @mem_nodes_bounds _ _ _ (h.left hb) s
        have hr := fun {s} => @mem_nodes_bounds _ _ _ (h.right hb) s
        obtain hs | hs := hs <;> obtain ht | ht := ht
        · exact ih (h.left hb) hs ht
        · have hs := hl hs
          have ht := hr ht
          omega
        · have hs := hr hs
          have ht := hl ht
          omega
        · exact ih (h.right hb) hs ht

theorem touched_eq_filter {d l r a b : Nat} (h : Fits d a b) (hal : a ≤ l) (hlr : l < r)
    (hrb : r ≤ b) :
    touched d l r a b = (nodes d a b).filter (fun s => s.lo < r ∧ l < s.hi) := by
  induction d generalizing l r a b with
  | zero => rfl
  | succ d ih =>
    have hroot : a < r ∧ l < b := by omega
    simp only [touched, nodes]
    rw [List.filter_cons_of_pos (by simpa using hroot)]
    congr 1
    by_cases hb : b = a + 1
    · simp [hb]
    · rw [if_neg hb, if_neg hb, List.filter_append]
      obtain ⟨hma, hmb⟩ := h.mid_bounds hb
      congr 1
      · by_cases hm : l < mid a b
        · rw [if_pos hm, ih (h.left hb) hal (by omega) (by omega)]
          apply List.filter_congr
          intro s hs
          have hbd := mem_nodes_bounds (h.left hb) hs
          simp only [decide_eq_decide]
          omega
        · rw [if_neg hm, eq_comm, List.filter_eq_nil_iff]
          intro s hs
          have hbd := mem_nodes_bounds (h.left hb) hs
          simp only [decide_eq_true_eq]
          omega
      · by_cases hm : mid a b < r
        · rw [if_pos hm, ih (h.right hb) (by omega) (by omega) hrb]
          apply List.filter_congr
          intro s hs
          have hbd := mem_nodes_bounds (h.right hb) hs
          simp only [decide_eq_decide]
          omega
        · rw [if_neg hm, eq_comm, List.filter_eq_nil_iff]
          intro s hs
          have hbd := mem_nodes_bounds (h.right hb) hs
          simp only [decide_eq_true_eq]
          omega

theorem mem_touched {d l r a b : Nat} (h : Fits d a b) (hal : a ≤ l) (hlr : l < r) (hrb : r ≤ b)
    (s : Seg) : s ∈ touched d l r a b ↔ s ∈ nodes d a b ∧ s.lo < r ∧ l < s.hi := by
  rw [touched_eq_filter h hal hlr hrb, List.mem_filter, decide_eq_true_eq]

theorem touched_nodup {d l r a b : Nat} (h : Fits d a b) (hal : a ≤ l) (hlr : l < r) (hrb : r ≤ b) :
    (touched d l r a b).Nodup := by
  rw [touched_eq_filter h hal hlr hrb]
  exact (nodes_nodup h).filter _

theorem mem_cover {d l r a b : Nat} (h : Fits d a b) (hal : a ≤ l) (hlr : l < r) (hrb : r ≤ b)
    {s : Seg} (hs : s ∈ cover d l r a b) : s ∈ nodes d a b ∧ l ≤ s.lo ∧ s.hi ≤ r := by
  induction d generalizing l r a b with
  | zero => simp [cover] at hs
  | succ d ih =>
    simp only [cover] at hs
    by_cases hc : l = a ∧ r = b
    · rw [if_pos hc, List.mem_singleton] at hs
      subst hs
      exact ⟨by simp [nodes], hc.1.le, hc.2.ge⟩
    · have hb : b ≠ a + 1 := by omega
      rw [if_neg hc, List.mem_append] at hs
      simp only [nodes, if_neg hb, List.mem_cons, List.mem_append]
      obtain hs | hs := hs
      · by_cases hm : l < mid a b
        · rw [if_pos hm] at hs
          obtain ⟨h1, h2, h3⟩ := ih (h.left hb) hal (by omega) (by omega) hs
          exact ⟨Or.inr (Or.inl h1), h2, by omega⟩
        · simp [hm] at hs
      · by_cases hm : mid a b < r
        · rw [if_pos hm] at hs
          obtain ⟨h1, h2, h3⟩ := ih (h.right hb) (by omega) (by omega) hrb hs
          exact ⟨Or.inr (Or.inr h1), by omega, h3⟩
        · simp [hm] at hs

theorem sum_cover {d l r a b : Nat} (h : Fits d a b) (hal : a ≤ l) (hlr : l < r) (hrb : r ≤ b)
    (f : Nat → Nat) :
    ((cover d l r a b).map (fun s => ∑ c ∈ Finset.Ico s.lo s.hi, f c)).sum =
      ∑ c ∈ Finset.Ico l r, f c := by
  induction d generalizing l r a b with
  | zero => exact absurd h.2.2 (Nat.lt_irrefl 0)
  | succ d ih =>
    simp only [cover]
    by_cases hc : l = a ∧ r = b
    · rw [if_pos hc, hc.1, hc.2]
      simp
    · have hb : b ≠ a + 1 := by omega
      obtain ⟨hma, hmb⟩ := h.mid_bounds hb
      rw [if_neg hc, List.map_append, List.sum_append]
      by_cases hl : l < mid a b
      · rw [if_pos hl, ih (h.left hb) hal (by omega) (by omega)]
        by_cases hr : mid a b < r
        · rw [if_pos hr, ih (h.right hb) (by omega) (by omega) hrb, Nat.min_eq_left hr.le,
            Nat.max_eq_right hl.le]
          exact Finset.sum_Ico_consecutive f hl.le hr.le
        · rw [if_neg hr, Nat.min_eq_right (by omega)]
          simp
      · rw [if_neg hl, if_pos (by omega), ih (h.right hb) (by omega) (by omega) hrb,
          Nat.max_eq_left (by omega)]
        simp

theorem sum_size_cover {d l r a b : Nat} (h : Fits d a b) (hal : a ≤ l) (hlr : l < r)
    (hrb : r ≤ b) : ((cover d l r a b).map Seg.size).sum = r - l := by
  have hs := sum_cover h hal hlr hrb fun _ => 1
  simp only [Finset.sum_const, Nat.card_Ico, smul_eq_mul, mul_one] at hs
  exact hs

def weigh (w : Seg → Nat) (segs : List Seg) : Nat := (segs.map fun s => w s * s.size).sum

theorem weigh_append (w : Seg → Nat) (segs segs' : List Seg) :
    weigh w (segs ++ segs') = weigh w segs + weigh w segs' := by
  rw [weigh, weigh, weigh, List.map_append, List.sum_append]

theorem weigh_mono {w w' : Seg → Nat} {segs : List Seg} (h : ∀ s ∈ segs, w s ≤ w' s) :
    weigh w segs ≤ weigh w' segs :=
  List.sum_le_sum fun s hs => Nat.mul_le_mul_right s.size (h s hs)

theorem weigh_cover_halves (w : Seg → Nat) {d l r a b : Nat} (hc : ¬ (l = a ∧ r = b)) :
    weigh w (cover (d + 1) l r a b) =
      (if l < mid a b then weigh w (cover d l (min (mid a b) r) a (mid a b)) else 0) +
        if mid a b < r then weigh w (cover d (max l (mid a b)) r (mid a b) b) else 0 := by
  rw [cover, if_neg hc, weigh_append]
  congr 1
  · split <;> rfl
  · split <;> rfl

theorem weigh_cover_add_le {w : Seg → Nat} (hw : ∀ s t : Seg, s.lo ≤ t.lo → t.hi ≤ s.hi → w t ≤ w s)
    {d l m r a b : Nat} (h : Fits d a b) (hal : a ≤ l) (hlm : l < m) (hmr : m < r) (hrb : r ≤ b) :
    weigh w (cover d l m a b) + weigh w (cover d m r a b) ≤ weigh w (cover d l r a b) := by
  induction d generalizing l m r a b with
  | zero => exact absurd h.2.2 (Nat.lt_irrefl 0)
  | succ d ih =>
    by_cases hc : l = a ∧ r = b
    · -- every node of both parts is below the root
      have hroot {l' r' : Nat} (hal' : a ≤ l') (hlr' : l' < r') (hrb' : r' ≤ b) :
          weigh w (cover (d + 1) l' r' a b) ≤ w ⟨d, a, b⟩ * (r' - l') := by
        rw [← sum_size_cover h hal' hlr' hrb', ← List.sum_map_mul_left]
        refine List.sum_le_sum fun s hs => Nat.mul_le_mul_right s.size (hw _ _ ?_ ?_)
        · exact hal'.trans (mem_cover h hal' hlr' hrb' hs).2.1
        · exact (mem_cover h hal' hlr' hrb' hs).2.2.trans hrb'
      have hwhole : weigh w (cover (d + 1) l r a b) = w ⟨d, a, b⟩ * (b - a) := by
        rw [cover, if_pos hc, weigh, List.map_singleton, List.sum_singleton]
        rfl
      have hlow := hroot hal hlm (hmr.le.trans hrb)
      have hupp := hroot (hal.trans hlm.le) hmr hrb
      obtain ⟨rfl, rfl⟩ := hc
      calc weigh w (cover (d + 1) l m l r) + weigh w (cover (d + 1) m r l r)
          ≤ w ⟨d, l, r⟩ * (m - l) + w ⟨d, l, r⟩ * (r - m) := Nat.add_le_add hlow hupp
        _ = weigh w (cover (d + 1) l r l r) := by
            rw [hwhole, ← Nat.mul_add]
            congr 1
            omega
    · have hone : b ≠ a + 1 := by omega
      have hl := h.left hone
      have hr := h.right hone
      obtain ⟨hma, hmb⟩ := h.mid_bounds hone
      rw [weigh_cover_halves w hc, weigh_cover_halves w (show ¬ (l = a ∧ m = b) by omega),
        weigh_cover_halves w (show ¬ (m = a ∧ r = b) by omega)]
      obtain hcut | hcut | hcut := lt_trichotomy m (mid a b)
      · -- the cut is in the lower half
        have hlow := ih hl hal hlm (show m < min (mid a b) r by omega) (Nat.min_le_left _ _)
        rw [if_pos (hlm.trans hcut), if_pos (hlm.trans hcut), if_pos hcut, if_neg (by omega),
          Nat.min_eq_right hcut.le, Nat.max_eq_right hcut.le, Nat.max_eq_right (by omega)]
        omega
      · -- the cut is between the halves
        subst hcut
        rw [Nat.min_self, Nat.max_self, Nat.min_eq_left hmr.le, Nat.max_eq_right hlm.le, if_pos hlm,
          if_pos hmr, if_neg (Nat.lt_irrefl _), if_neg (Nat.lt_irrefl _)]
        omega
      · -- the cut is in the upper half
        have hupp := ih hr (Nat.le_max_right l (mid a b)) (show max l (mid a b) < m by omega) hmr hrb
        rw [Nat.min_eq_left hcut.le, Nat.min_eq_left (hcut.trans hmr).le, Nat.max_eq_left hcut.le,
          if_pos hcut, if_pos (hcut.trans hmr), if_pos (hcut.trans hmr), if_neg (Nat.lt_asymm hcut)]
        omega

theorem cover_single {d k a b : Nat} (h : Fits d a b) (hak : a ≤ k) (hkb : k < b) :
    ∃ level, ⟨level, k, k + 1⟩ ∈ nodes d a b ∧ cover d k (k + 1) a b = [⟨level, k, k + 1⟩] := by
  induction d generalizing a b with
  | zero => exact absurd h.2.2 (Nat.lt_irrefl 0)
  | succ d ih =>
    simp only [cover, nodes]
    by_cases hc : k = a ∧ k + 1 = b
    · rw [if_pos hc, ← hc.1, ← hc.2]
      exact ⟨d, by simp, rfl⟩
    · have hb : b ≠ a + 1 := by omega
      obtain ⟨hma, hmb⟩ := h.mid_bounds hb
      rw [if_neg hc, if_neg hb]
      by_cases hm : k < mid a b
      · obtain ⟨level, hn, hcv⟩ := ih (h.left hb) hak hm
        have hmin : min (mid a b) (k + 1) = k + 1 := by omega
        rw [if_pos hm, if_neg (by omega), hmin, hcv]
        exact ⟨level, by simp [hn], rfl⟩
      · obtain ⟨level, hn, hcv⟩ := ih (h.right hb) (by omega) hkb
        have hmax : max k (mid a b) = k := by omega
        rw [if_neg hm, if_pos (by omega), hmax, hcv]
        exact ⟨level, by simp [hn], rfl⟩

theorem mem_path {d k a b : Nat} (h : Fits d a b) (hak : a ≤ k) (hkb : k < b) (s : Seg) :
    s ∈ path d k a b ↔ s ∈ nodes d a b ∧ s.lo ≤ k ∧ k < s.hi := by
  induction d generalizing a b with
  | zero => simp [path, nodes]
  | succ d ih =>
    simp only [path, nodes, List.mem_cons]
    by_cases hb : b = a + 1
    · simp only [if_pos hb, List.not_mem_nil, or_false]
      constructor
      · rintro rfl
        exact ⟨rfl, hak, hkb⟩
      · exact fun hs => hs.1
    · obtain ⟨hma, hmb⟩ := h.mid_bounds hb
      simp only [if_neg hb, List.mem_append]
      by_cases hm : k < mid a b
      · rw [if_pos hm, ih (h.left hb) hak hm]
        constructor
        · rintro (rfl | ⟨h1, h2⟩)
          · exact ⟨Or.inl rfl, hak, hkb⟩
          · exact ⟨Or.inr (Or.inl h1), h2⟩
        · rintro ⟨rfl | hs | hs, h2⟩
          · exact Or.inl rfl
          · exact Or.inr ⟨hs, h2⟩
          · have hbd := mem_nodes_bounds (h.right hb) hs
            omega
      · rw [if_neg hm, ih (h.right hb) (by omega) hkb]
        constructor
        · rintro (rfl | ⟨h1, h2⟩)
          · exact ⟨Or.inl rfl, hak, hkb⟩
          · exact ⟨Or.inr (Or.inr h1), h2⟩
        · rintro ⟨rfl | hs | hs, h2⟩
          · exact Or.inl rfl
          · have hbd := mem_nodes_bounds (h.left hb) hs
            omega
          · exact Or.inr ⟨hs, h2⟩

end DistExp.Library.HalvingTree
