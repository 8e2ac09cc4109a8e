import DistExp.Library.Runs

namespace DistExp.Library.FieldMap

open DistExp.Library.Runs

variable {K V : Type} [DecidableEq K]

def keys (h : List (K × V)) : List K := h.map Prod.fst

def hget (h : List (K × V)) (k : K) : Option V := (h.find? fun e => e.1 = k).map Prod.snd

def hdel (h : List (K × V)) (k : K) : List (K × V) := h.filter fun e => e.1 ≠ k

def hset (h : List (K × V)) (k : K) (v : V) : List (K × V) := hdel h k ++ [(k, v)]

def hlen (h : List (K × V)) : Nat := h.length

theorem mem_keys_hdel {h : List (K × V)} {k x : K} :
    x ∈ keys (hdel h k) ↔ x ∈ keys h ∧ x ≠ k := by
  simp only [keys, hdel, List.mem_map, List.mem_filter, decide_eq_true_eq]
  constructor
  · rintro ⟨e, ⟨he, hne⟩, rfl⟩
    exact ⟨⟨e, he, rfl⟩, hne⟩
  · rintro ⟨⟨e, he, rfl⟩, hne⟩
    exact ⟨e, ⟨he, hne⟩, rfl⟩

theorem mem_keys_hset {h : List (K × V)} {k x : K} {v : V} :
    x ∈ keys (hset h k v) ↔ x ∈ keys h ∨ x = k := by
  have hk : x ∈ keys (hset h k v) ↔ x ∈ keys (hdel h k) ∨ x = k := by
    simp [keys, hset]
  rw [hk, mem_keys_hdel]
  by_cases hx : x = k <;> simp [hx]

theorem mem_of_hget {h : List (K × V)} {k : K} {v : V} (hv : hget h k = some v) : (k, v) ∈ h := by
  obtain ⟨e, he, rfl⟩ := Option.map_eq_some_iff.mp hv
  obtain rfl : e.1 = k := by simpa using List.find?_some he
  exact List.mem_of_find?_eq_some he

theorem mem_hset {h : List (K × V)} {k : K} {v : V} {e : K × V} (he : e ∈ hset h k v) :
    e ∈ h ∨ e = (k, v) := by
  obtain he | he := List.mem_append.mp he
  · exact Or.inl (List.mem_of_mem_filter he)
  · exact Or.inr (List.mem_singleton.mp he)

theorem hget_hdel (h : List (K × V)) (k x : K) :
    hget (hdel h k) x = if k = x then none else hget h x := by
  rw [hget, hdel, List.find?_filter]
  by_cases hk : k = x
  · rw [if_pos hk, Option.map_eq_none_iff, List.find?_eq_none]
    intro e _
    simp [hk]
  · rw [if_neg hk, hget]
    congr 2
    funext e
    by_cases he : e.1 = x <;> simp [he, Ne.symm hk]

theorem hget_hset (h : List (K × V)) (k x : K) (v : V) :
    hget (hset h k v) x = if k = x then some v else hget h x := by
  rw [hget, hset, List.find?_append, Option.map_or, ← hget, hget_hdel, List.find?_singleton]
  by_cases hk : k = x <;> simp [hk]

theorem hget_cons (e : K × V) (h : List (K × V)) (k : K) :
    hget (e :: h) k = if e.1 = k then some e.2 else hget h k := by
  rw [hget, List.find?_cons, hget]
  by_cases he : e.1 = k <;> simp [he]

theorem mapM_values {ε : Type} {f : V → Except ε V} {R : V → V → Prop} {h : List (K × V)}
    (hf : ∀ e ∈ h, ∃ v, f e.2 = .ok v ∧ R e.2 v) :
    ∃ h', (h.mapM fun e => do return (e.1, ← f e.2)) = .ok h' ∧ (∀ e' ∈ h', ∃ e ∈ h, R e.2 e'.2) ∧
      ∀ k, Option.Rel R (hget h k) (hget h' k) := by
  induction h with
  | nil => exact ⟨[], rfl, by simp, fun k => Option.Rel.none⟩
  | cons e h ih =>
    obtain ⟨v, hv, hR⟩ := hf e List.mem_cons_self
    obtain ⟨h', hrun, hmem, hget⟩ := ih fun d hd => hf d (List.mem_cons_of_mem e hd)
    refine ⟨(e.1, v) :: h', ?_, fun e' he' => ?_, fun k => ?_⟩
    · rw [List.mapM_cons, hrun, hv]
      rfl
    · obtain rfl | he' := List.mem_cons.mp he'
      · exact ⟨e, List.mem_cons_self, hR⟩
      · obtain ⟨d, hd, hRd⟩ := hmem e' he'
        exact ⟨d, List.mem_cons_of_mem e hd, hRd⟩
    · rw [hget_cons, hget_cons]
      by_cases he : e.1 = k
      · rw [if_pos he, if_pos he]
        exact Option.Rel.some hR
      · rw [if_neg he, if_neg he]
        exact hget k

omit [DecidableEq K] in
theorem exists_of_mapM_values {ε : Type} {f : V → Except ε V} {h h' : List (K × V)}
    (hrun : (h.mapM fun e => do return (e.1, ← f e.2)) = .ok h') :
    ∀ e ∈ h, ∃ v, f e.2 = .ok v := by
  induction h generalizing h' with
  | nil => exact fun e he => absurd he List.not_mem_nil
  | cons e h ih =>
    rw [List.mapM_cons] at hrun
    obtain ⟨e', he', hrun⟩ := exists_of_bind_ok hrun
    obtain ⟨v, hv, -⟩ := exists_of_bind_ok he'
    obtain ⟨es, hes, -⟩ := exists_of_bind_ok hrun
    intro d hd
    obtain rfl | hd := List.mem_cons.mp hd
    · exact ⟨v, hv⟩
    · exact ih hes d hd

end DistExp.Library.FieldMap
