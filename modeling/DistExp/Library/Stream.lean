import Mathlib.Data.List.Basic
import Mathlib.Data.Nat.Find

namespace DistExp.Library.Stream

universe u v w x

variable {M : Type u} {E : Type v} {B : Type w} {S : Type x}

/-- The reading end of a stream of bytes: how many bytes the outstanding read waits for, none being
outstanding at `0`, and what its handler makes of them. -/
structure Reader (S : Type x) (B : Type w) (E : Type v) where
  need : S → Nat
  handle : S → List B → S × List E

namespace Reader

variable (r : Reader S B E)

def byte (s : S × List B) (b : B) : (S × List B) × List E :=
  if r.need s.1 = 0 then (s, [])
  else if s.2.length + 1 < r.need s.1 then ((s.1, s.2 ++ [b]), [])
  else (((r.handle s.1 (s.2 ++ [b])).1, []), (r.handle s.1 (s.2 ++ [b])).2)

def feed (s : S × List B) : List B → (S × List B) × List E
  | [] => (s, [])
  | b :: bs => ((feed (r.byte s b).1 bs).1, (r.byte s b).2 ++ (feed (r.byte s b).1 bs).2)

variable {r} {s : S × List B} {st : S} {got bs cs : List B}

theorem feed_append (s : S × List B) (bs cs : List B) :
    r.feed s (bs ++ cs) =
      ((r.feed (r.feed s bs).1 cs).1, (r.feed s bs).2 ++ (r.feed (r.feed s bs).1 cs).2) := by
  induction bs generalizing s with
  | nil => rfl
  | cons b bs ih => simp only [List.cons_append, feed, ih, List.append_assoc]

theorem feed_short (h : got.length + bs.length < r.need st) :
    r.feed (st, got) bs = ((st, got ++ bs), []) := by
  induction bs generalizing got with
  | nil => rw [List.append_nil]; rfl
  | cons b bs ih =>
    rw [List.length_cons] at h
    have hbyte : r.byte (st, got) b = ((st, got ++ [b]), []) := by
      rw [byte, if_neg (by dsimp only; omega), if_pos (by dsimp only; omega)]
    have hlen : (got ++ [b]).length = got.length + 1 := List.length_append
    rw [feed, hbyte, ih (by omega), List.append_assoc]
    rfl

theorem feed_full (hpos : bs ≠ []) (h : got.length + bs.length = r.need st) :
    r.feed (st, got) bs =
      (((r.handle st (got ++ bs)).1, []), (r.handle st (got ++ bs)).2) := by
  obtain ⟨bs, b, rfl⟩ := List.eq_nil_or_concat bs |>.resolve_left hpos
  rw [List.concat_eq_append] at h ⊢
  have hlen : (bs ++ [b]).length = bs.length + 1 := List.length_append
  have hgot : (got ++ bs).length = got.length + bs.length := List.length_append
  have hshort : r.feed (st, got) bs = ((st, got ++ bs), []) := feed_short (by omega)
  have hbyte : r.byte (st, got ++ bs) b =
      (((r.handle st (got ++ bs ++ [b])).1, []), (r.handle st (got ++ bs ++ [b])).2) := by
    rw [byte, if_neg (by dsimp only; omega), if_neg (by dsimp only; omega)]
  rw [feed_append, hshort, feed, hbyte, List.append_assoc]
  simp only [feed, List.nil_append, List.append_nil]

theorem feed_stopped (h : r.need s.1 = 0) (bs : List B) : r.feed s bs = (s, []) := by
  induction bs with
  | nil => rfl
  | cons b bs ih => rw [feed, byte, if_pos h, ih, List.append_nil]

end Reader

/-- A reader that has a meaning for the frame of each message: `idle` is where it stands between
two frames. -/
structure Protocol (M : Type u) (E : Type v) (B : Type w) (S : Type x) extends Reader S B E where
  idle : S
  frame : M → List B
  meaning : M → List E
  feed_frame (m : M) : toReader.feed (idle, []) (frame m) = ((idle, []), meaning m)

variable {p : Protocol M E B S}

section Bytes

variable {queue : List M} {left wire : List B}

/-- The bytes on their way, where `left` is what the outstanding write of the front of `queue` has
not sent yet. -/
def onTheWay (p : Protocol M E B S) (queue : List M) (left wire : List B) : List B :=
  wire ++ left ++ queue.tail.flatMap p.frame

theorem onTheWay_push (h : queue = [] → left = []) (m : M) :
    onTheWay p (queue ++ [m]) (if queue = [] then p.frame m else left) wire =
      onTheWay p queue left wire ++ p.frame m := by
  by_cases hq : queue = []
  · rw [if_pos hq, h hq, hq]
    simp [onTheWay]
  · rw [if_neg hq]
    simp [onTheWay, List.tail_append_of_ne_nil hq]

theorem onTheWay_transmit (n : Nat) :
    onTheWay p queue (left.drop n) (wire ++ left.take n) = onTheWay p queue left wire := by
  rw [onTheWay, onTheWay, List.append_assoc wire, List.take_append_drop]

theorem onTheWay_written :
    onTheWay p queue.tail (queue.tail.head?.elim [] p.frame) wire = onTheWay p queue [] wire := by
  rw [onTheWay, onTheWay, List.append_nil]
  cases queue.tail with
  | nil => exact List.append_nil _
  | cons m ms => exact List.append_assoc _ _ _

theorem onTheWay_arrive (n : Nat) :
    wire.take n ++ onTheWay p queue left (wire.drop n) = onTheWay p queue left wire := by
  rw [onTheWay, onTheWay, ← List.append_assoc, ← List.append_assoc, List.take_append_drop]

end Bytes

/-- A queue of messages that are written one after the other to a stream, and the reader at its
other end. -/
structure Pipe (p : Protocol M E B S) where
  queue : List M
  left : List B
  wire : List B
  reader : S × List B
  /-- No write is outstanding without a message. -/
  left_nil : queue = [] → left = []
  /-- What is on the way are whole frames, for the reader where it stands. -/
  aligned : (p.feed reader (onTheWay p queue left wire)).1 = (p.idle, [])

namespace Pipe

def empty (p : Protocol M E B S) : Pipe p where
  queue := []
  left := []
  wire := []
  reader := (p.idle, [])
  left_nil _ := rfl
  aligned := rfl

def push (c : Pipe p) (m : M) : Pipe p where
  queue := c.queue ++ [m]
  left := if c.queue = [] then p.frame m else c.left
  wire := c.wire
  reader := c.reader
  left_nil h := absurd h (List.append_ne_nil_of_right_ne_nil _ (List.cons_ne_nil _ _))
  aligned := by
    rw [onTheWay_push c.left_nil, Reader.feed_append, c.aligned, p.feed_frame]

/-- The outstanding write sends `n` more bytes, or what is left. -/
def transmit (c : Pipe p) (n : Nat) : Pipe p where
  queue := c.queue
  left := c.left.drop n
  wire := c.wire ++ c.left.take n
  reader := c.reader
  left_nil h := by rw [c.left_nil h, List.drop_nil]
  aligned := by
    rw [onTheWay_transmit]
    exact c.aligned

def written (c : Pipe p) (h : c.left = []) : Pipe p where
  queue := c.queue.tail
  left := c.queue.tail.head?.elim [] p.frame
  wire := c.wire
  reader := c.reader
  left_nil hq := by rw [hq]; rfl
  aligned := by
    have haligned := c.aligned
    rwa [h, ← onTheWay_written] at haligned

def arrive (c : Pipe p) (n : Nat) : Pipe p where
  queue := c.queue
  left := c.left
  wire := c.wire.drop n
  reader := (p.feed c.reader (c.wire.take n)).1
  left_nil := c.left_nil
  aligned := by
    have haligned := c.aligned
    rw [← onTheWay_arrive n, Reader.feed_append] at haligned
    exact haligned

def arrived (c : Pipe p) (n : Nat) : List E := (p.feed c.reader (c.wire.take n)).2

def pending (c : Pipe p) : List E := (p.feed c.reader (onTheWay p c.queue c.left c.wire)).2

variable (c : Pipe p)

theorem pending_push (m : M) : (c.push m).pending = c.pending ++ p.meaning m := by
  have haligned := c.aligned
  unfold pending push
  dsimp only
  rw [onTheWay_push c.left_nil, Reader.feed_append, haligned, p.feed_frame]

theorem pending_transmit (n : Nat) : (c.transmit n).pending = c.pending := by
  unfold pending transmit
  dsimp only
  rw [onTheWay_transmit]

theorem pending_written (h : c.left = []) : (c.written h).pending = c.pending := by
  unfold pending written
  dsimp only
  rw [onTheWay_written, h]

theorem arrived_append_pending (n : Nat) : c.arrived n ++ (c.arrive n).pending = c.pending := by
  have happend := Reader.feed_append (r := p.toReader) c.reader (c.wire.take n)
    (onTheWay p c.queue c.left (c.wire.drop n))
  rw [onTheWay_arrive] at happend
  exact (congrArg Prod.snd happend).symm

theorem pending_drained (hq : c.queue = []) (hw : c.wire = []) : c.pending = [] := by
  rw [pending, onTheWay, hq, hw, c.left_nil hq]
  rfl

def load : Nat :=
  3 * c.queue.length + (if c.left = [] then 0 else 2) + if c.wire = [] then 0 else 1

theorem load_push (m : M) : (c.push m).load ≤ c.load + 5 := by
  have hlen : (c.queue ++ [m]).length = c.queue.length + 1 := List.length_append
  rw [load, load, push, hlen]
  dsimp only
  split_ifs <;> omega

theorem load_transmit (h : c.left ≠ []) : (c.transmit c.left.length).load < c.load := by
  rw [load, load, transmit]
  dsimp only
  rw [if_neg h, if_pos List.drop_length]
  split_ifs <;> omega

theorem load_written (h : c.left = []) (hq : c.queue ≠ []) : (c.written h).load < c.load := by
  have hlen : c.queue.tail.length + 1 = c.queue.length := by
    rw [List.length_tail]
    have := List.length_pos_iff.mpr hq
    omega
  rw [load, load, written]
  dsimp only
  rw [if_pos h]
  split_ifs <;> omega

theorem load_arrive (h : c.wire ≠ []) : (c.arrive c.wire.length).load < c.load := by
  rw [load, load, arrive]
  dsimp only
  rw [if_neg h, if_pos List.drop_length]
  omega

inductive Unseen : Pipe p → Pipe p → Prop where
  | refl (c : Pipe p) : Unseen c c
  | transmit {c c' : Pipe p} (n : Nat) (h : Unseen (c.transmit n) c') : Unseen c c'
  | written {c c' : Pipe p} (hleft : c.left = []) (h : Unseen (c.written hleft) c') : Unseen c c'
  | arrive {c c' : Pipe p} (n : Nat) (hn : c.arrived n = []) (h : Unseen (c.arrive n) c') :
      Unseen c c'

theorem length_byte_le (h : ∀ st bs, (p.handle st bs).2.length ≤ 1) (s : S × List B) (b : B) :
    (p.byte s b).2.length ≤ 1 := by
  rw [Reader.byte]
  split_ifs
  · exact Nat.zero_le 1
  · exact Nat.zero_le 1
  · exact h _ _

theorem arrived_succ (h : ∀ st bs, (p.handle st bs).2.length ≤ 1) (n : Nat) :
    ∃ es : List E, es.length ≤ 1 ∧ c.arrived (n + 1) = c.arrived n ++ es := by
  refine ⟨(p.feed (p.feed c.reader (c.wire.take n)).1 c.wire[n]?.toList).2, ?_, ?_⟩
  · cases c.wire[n]? with
    | none => exact Nat.zero_le 1
    | some b =>
      rw [Option.toList_some, Reader.feed, Reader.feed, List.append_nil]
      exact length_byte_le h _ b
  · rw [arrived, List.take_add_one, Reader.feed_append]
    rfl

theorem exists_unseen (hone : ∀ st bs, (p.handle st bs).2.length ≤ 1) {x : E} {rest : List E}
    (h : c.pending = x :: rest) :
    ∃ (c' : Pipe p) (n : Nat), Unseen c c' ∧ c'.arrived n = [x] ∧ (c'.arrive n).pending = rest := by
  induction hload : c.load using Nat.strongRecOn generalizing c with
  | ind k ih =>
    by_cases harrived : ∃ n, c.arrived n ≠ []
    · -- The first byte with which something is read brings one thing only.
      obtain ⟨n, hn, hfirst⟩ : ∃ n, c.arrived (n + 1) ≠ [] ∧ c.arrived n = [] := by
        classical
        have hzero : c.arrived 0 = [] := rfl
        cases hm : Nat.find harrived with
        | zero => exact absurd (hm ▸ Nat.find_spec harrived) (not_not.mpr hzero)
        | succ n =>
          refine ⟨n, hm ▸ Nat.find_spec harrived, ?_⟩
          exact not_not.mp (Nat.find_min harrived (hm ▸ Nat.lt_succ_self n))
      obtain ⟨es, hlen, hes⟩ := c.arrived_succ hone n
      have hsplit := c.arrived_append_pending (n + 1)
      rw [hfirst, List.nil_append] at hes
      rw [hes] at hn hsplit
      obtain ⟨e, rfl⟩ : ∃ e, es = [e] :=
        List.length_eq_one_iff.mp (Nat.le_antisymm hlen (List.length_pos_iff.mpr hn))
      rw [h] at hsplit
      obtain ⟨rfl, hrest⟩ := List.cons.inj hsplit
      exact ⟨c, n + 1, .refl c, hes, hrest⟩
    have hnone : ∀ n, c.arrived n = [] := fun n => not_not.mp fun hn => harrived ⟨n, hn⟩
    by_cases hwire : c.wire = []
    swap
    · have hpending := c.arrived_append_pending c.wire.length
      rw [hnone, List.nil_append] at hpending
      obtain ⟨c', n, hc', hn, hrest⟩ :=
        ih _ (hload ▸ c.load_arrive hwire) _ (hpending.trans h) rfl
      exact ⟨c', n, .arrive _ (hnone _) hc', hn, hrest⟩
    by_cases hleft : c.left = []
    swap
    · obtain ⟨c', n, hc', hn, hrest⟩ :=
        ih _ (hload ▸ c.load_transmit hleft) _ ((c.pending_transmit _).trans h) rfl
      exact ⟨c', n, .transmit _ hc', hn, hrest⟩
    by_cases hqueue : c.queue = []
    · rw [c.pending_drained hqueue hwire] at h
      cases h
    · obtain ⟨c', n, hc', hn, hrest⟩ :=
        ih _ (hload ▸ c.load_written hleft hqueue) _ ((c.pending_written hleft).trans h) rfl
      exact ⟨c', n, .written hleft hc', hn, hrest⟩

end Pipe

end DistExp.Library.Stream
