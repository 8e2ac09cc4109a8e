import Mathlib

namespace DistExp.Library.BlockHash

variable {S B : Type} {size : Nat}

/-- How many zeros fill the last block up, between the mark after `n` bytes and a field of `w`. -/
def zeros (size n w : Nat) : Nat := (size - (n + 1 + w) % size) % size

def pad (size : Nat) (mark zero : B) (field message : List B) : List B :=
  message ++ mark :: (List.replicate (zeros size message.length field.length) zero ++ field)

def block (size : Nat) (bs : List B) (k : Nat) : List B := (bs.drop (size * k)).take size

def hashBlocks (size : Nat) (compress : S → List B → S) (init : S) (bs : List B) : S :=
  (List.range (bs.length / size)).foldl (fun s k => compress s (block size bs k)) init

theorem add_zeros (hsize : 0 < size) (n w : Nat) :
    n + 1 + w + zeros size n w = (n + 1 + w + (size - 1)) / size * size := by
  obtain ⟨q, m, hm, ht⟩ : ∃ q m, m < size ∧ n + 1 + w = size * q + m :=
    ⟨_, _, Nat.mod_lt (n + 1 + w) hsize, (Nat.div_add_mod (n + 1 + w) size).symm⟩
  rw [zeros, ht, Nat.mul_comm size q, Nat.mul_add_mod_of_lt hm]
  by_cases hzero : m = 0
  · have hq : (q * size + m + (size - 1)) / size = q := by
      rw [hzero, Nat.add_zero, Nat.mul_comm, Nat.mul_add_div hsize, Nat.div_eq_of_lt (by omega)]
      exact Nat.add_zero q
    rw [hq, hzero, Nat.sub_zero, Nat.mod_self]
    omega
  · have hq : (q * size + m + (size - 1)) / size = q + 1 := by
      have hsplit : q * size + m + (size - 1) = size * (q + 1) + (m - 1) := by
        rw [Nat.mul_add, Nat.mul_one, Nat.mul_comm]
        omega
      rw [hsplit, Nat.mul_add_div hsize, Nat.div_eq_of_lt (by omega)]
    rw [hq, Nat.mod_eq_of_lt (by omega), Nat.add_mul, Nat.one_mul]
    omega

variable {mark zero d : B} {field message bs : List B}

theorem length_pad (hsize : 0 < size) : (pad size mark zero field message).length =
    (message.length + 1 + field.length + (size - 1)) / size * size := by
  rw [← add_zeros hsize, pad, List.length_append, List.length_cons, List.length_append,
    List.length_replicate]
  omega

theorem getD_pad {i : Nat} :
    (pad size mark zero field message).getD i d =
      if i < message.length then message.getD i d
      else if i = message.length then mark
      else if (pad size mark zero field message).length - field.length ≤ i then
        field.getD (i - ((pad size mark zero field message).length - field.length)) d
      else zero := by
  have hlen : (pad size mark zero field message).length =
      message.length + 1 + zeros size message.length field.length + field.length := by
    rw [pad, List.length_append, List.length_cons, List.length_append, List.length_replicate]
    omega
  rw [hlen, pad]
  split_ifs with hmessage hmark hfield
  · rw [List.getD_append _ _ _ _ hmessage]
  · rw [List.getD_append_right _ _ _ _ (by omega), hmark, Nat.sub_self, List.getD_cons_zero]
  · rw [List.getD_append_right _ _ _ _ (by omega)]
    obtain ⟨j, hj⟩ : ∃ j, i - message.length = j + 1 := ⟨i - message.length - 1, by omega⟩
    rw [hj, List.getD_cons_succ, List.getD_append_right _ _ _ _ (by rw [List.length_replicate]; omega),
      List.length_replicate]
    congr 1
    omega
  · rw [List.getD_append_right _ _ _ _ (by omega)]
    obtain ⟨j, hj⟩ : ∃ j, i - message.length = j + 1 := ⟨i - message.length - 1, by omega⟩
    rw [hj, List.getD_cons_succ, List.getD_append _ _ _ _ (by rw [List.length_replicate]; omega)]
    exact List.getD_replicate _ (by omega)

theorem take_drop_block {k j w : Nat} (h : j + w ≤ size) :
    ((block size bs k).drop j).take w = (bs.drop (size * k + j)).take w := by
  rw [block, List.drop_take, List.take_take, List.drop_drop, Nat.min_eq_left (by omega)]

theorem foldl_range_simulates {T : Type} {R : Nat → S → T → Prop} {f : S → Nat → S}
    {g : T → Nat → T} {n : Nat} {s : S} {t : T}
    (hstep : ∀ k < n, ∀ s t, R k s t → R (k + 1) (f s k) (g t k)) (h : R 0 s t) :
    R n ((List.range n).foldl f s) ((List.range n).foldl g t) := by
  induction n with
  | zero => exact h
  | succ n ih =>
    rw [List.range_succ, List.foldl_append, List.foldl_append]
    exact hstep n n.lt_succ_self _ _ (ih fun k hk => hstep k (hk.trans n.lt_succ_self))

end DistExp.Library.BlockHash
