import Mathlib

namespace DistExp.Library.Outbox

variable {α : Type}

/-- Messages that are written one after the other: the queue with the message that is being written
at its front, the writes that are under way, and the messages whose write has been started. -/
structure Writer (α : Type) where
  queue : List α
  writes : Nat
  started : List α
  deriving DecidableEq

namespace Writer

def empty : Writer α := ⟨[], 0, []⟩

def begin (w : Writer α) : Writer α :=
  match w.queue with
  | [] => w
  | m :: _ => { w with writes := w.writes + 1, started := w.started ++ [m] }

def push (w : Writer α) (m : α) : Writer α :=
  let w' := { w with queue := w.queue ++ [m] }
  if 1 < w'.queue.length then w' else w'.begin

def finish (w : Writer α) : Writer α := { w with writes := w.writes - 1 }

def pop (w : Writer α) : Writer α := { w with queue := w.queue.tail }.begin

def clear (w : Writer α) : Writer α := { w with queue := [] }

variable {w : Writer α}

def handed (w : Writer α) : List α := w.started ++ w.queue.tail

theorem handed_push (w : Writer α) (m : α) : (w.push m).handed = w.handed ++ [m] := by
  rw [handed, handed, push]
  dsimp only
  cases hqueue : w.queue with
  | nil =>
    rw [if_neg (by simp), List.tail_nil, List.append_nil]
    exact List.append_nil _
  | cons m' ms =>
    rw [if_pos (by simp), List.append_assoc]
    rfl

theorem handed_pushes (w : Writer α) (ms : List α) : (ms.foldl push w).handed = w.handed ++ ms := by
  induction ms generalizing w with
  | nil => rw [List.foldl_nil, List.append_nil]
  | cons m ms ih => rw [List.foldl_cons, ih, handed_push, List.append_assoc, List.singleton_append]

theorem handed_pop (w : Writer α) : w.pop.handed = w.handed := by
  rw [handed, handed, pop, begin]
  dsimp only
  cases w.queue.tail with
  | nil => rfl
  | cons m ms =>
    dsimp only
    rw [List.append_assoc]
    rfl

theorem handed_clear_sublist (w : Writer α) : w.clear.handed.Sublist w.handed :=
  (List.Sublist.refl w.started).append (List.nil_sublist _)

def Flowing (w : Writer α) : Prop := w.queue = [] ∨ 0 < w.writes

theorem flowing_begin (w : Writer α) : Flowing w.begin := by
  rw [begin]
  split
  case h_1 hempty => exact .inl hempty
  case h_2 => exact .inr (Nat.succ_pos _)

theorem flowing_push (h : Flowing w) (m : α) : Flowing (w.push m) := by
  rw [push]
  dsimp only
  split
  case isTrue hlen =>
    have hne : w.queue ≠ [] := by
      rintro hempty
      simp [hempty] at hlen
    exact .inr (h.resolve_left hne)
  case isFalse => exact flowing_begin _

theorem flowing_pushes (h : Flowing w) (ms : List α) : Flowing (ms.foldl push w) := by
  induction ms generalizing w with
  | nil => exact h
  | cons m ms ih => exact ih (flowing_push h m)

theorem pushes_of_not_flowing (h : ¬Flowing w) (ms : List α) :
    ms.foldl push w = { w with queue := w.queue ++ ms } := by
  induction ms generalizing w with
  | nil => rw [List.foldl_nil, List.append_nil]
  | cons m ms ih =>
    have hne : w.queue ≠ [] := fun hempty => h (.inl hempty)
    have hpush : w.push m = { w with queue := w.queue ++ [m] } := by
      have hpos := List.length_pos_iff.mpr hne
      rw [push, if_pos (by simp [hpos])]
    have hstuck : ¬Flowing { w with queue := w.queue ++ [m] } := by
      rintro (hempty | hpos)
      · simp at hempty
      · exact h (.inr hpos)
    rw [List.foldl_cons, hpush, ih hstuck, List.append_assoc, List.singleton_append]

structure Single (w : Writer α) : Prop where
  writes : w.writes = if w.queue = [] then 0 else 1
  started : w.queue.head? = if w.queue = [] then none else w.started.getLast?

theorem single_empty : Single (empty : Writer α) := ⟨rfl, rfl⟩

theorem single_begin (h : w.writes = 0) : Single w.begin := by
  rw [begin]
  split
  case h_1 hempty => exact ⟨by rw [hempty, h]; rfl, by rw [hempty]; rfl⟩
  case h_2 m ms hqueue => exact ⟨by simp [hqueue, h], by simp [hqueue]⟩

theorem single_push (h : Single w) (m : α) : Single (w.push m) := by
  rw [push]
  dsimp only
  split
  case isTrue hlen =>
    have hne : w.queue ≠ [] := by
      rintro hempty
      simp [hempty] at hlen
    have hwrites := h.writes
    have hstarted := h.started
    rw [if_neg hne] at hwrites hstarted
    have hne' : w.queue ++ [m] ≠ [] := List.append_ne_nil_of_left_ne_nil hne _
    refine ⟨?_, ?_⟩
    · rw [if_neg hne']
      exact hwrites
    · rw [if_neg hne', ← hstarted, List.head?_append_of_ne_nil _ hne]
  case isFalse hlen =>
    have hempty : w.queue = [] := by
      by_contra hne
      have hpos := List.length_pos_iff.mpr hne
      simp [hpos] at hlen
    have hwrites := h.writes
    rw [if_pos hempty] at hwrites
    exact single_begin hwrites

theorem single_pop (h : Single w) : Single w.finish.pop := by
  have hwrites : w.writes - 1 = 0 := by
    rw [h.writes]
    split <;> rfl
  exact single_begin hwrites

theorem flowing_of_single (h : Single w) : Flowing w := by
  obtain hempty | hne := em (w.queue = [])
  · exact .inl hempty
  · have hwrites := h.writes
    rw [if_neg hne] at hwrites
    exact .inr (hwrites ▸ Nat.one_pos)

end Writer

end DistExp.Library.Outbox
