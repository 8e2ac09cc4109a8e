import DistExp.RangeGeometry

namespace DistExp.GranuleLoop

open DistExp.Library.MachineInt
open DistExp.PackedTable DistExp.RangeGeometry

/-- The values of `off` in `for(int off=left; off<=right; off+=1)`. Up to the largest `int` this
loop has no end. -/
def offsets (left right : Int32) : Except Fault (List Int32) :=
  if right = Int32.maxValue then .error .depth
  else .ok ((List.range (right.toInt + 1 - left.toInt).toNat).map fun i => left + Int32.ofNat i)

/-- The loop that `count_min_sketch` and `exact_count` share: what it adds to the offset of an
access, granule by granule. -/
def keys (granularity unitSize t size : UInt64) : Except Fault (List UInt64) :=
  if unitSize = 0 ∨ granularity = 0 then .error .divisionByZero
  else do
    let left := toInt (t % unitSize / granularity)
    let right := toInt ((t + size) % unitSize / granularity)
    let offs ← offsets left right
    return offs.map fun off => t + toSize off * granularity

def cntOf (granularity unitSize t size : UInt64) : Int32 :=
  toInt ((t + size) % unitSize / granularity) - toInt (t % unitSize / granularity)

def historyKeys (g u : UInt64) (ops : List Access) : Except Fault (List UInt64) :=
  ops.foldlM (fun ks a => do return ks ++ (← keys g u a.t a.size)) []

def Covers (x : UInt64) (a : Access) : Prop :=
  a.t.toNat ≤ x.toNat ∧ x.toNat < a.t.toNat + a.size.toNat

instance (x : UInt64) (a : Access) : Decidable (Covers x a) := inferInstanceAs (Decidable (_ ∧ _))

def covering (x : UInt64) (ops : List Access) : Nat := ops.countP fun a => decide (Covers x a)

/-- What the loop counts for an access of a regular size: from twice as far inside the unit as the
access starts, the granule behind its end included. -/
def Reaches (u x : UInt64) (a : Access) : Prop :=
  a.t.toNat + a.t.toNat % u.toNat ≤ x.toNat ∧
    x.toNat ≤ a.t.toNat + a.t.toNat % u.toNat + a.size.toNat

instance (u x : UInt64) (a : Access) : Decidable (Reaches u x a) :=
  inferInstanceAs (Decidable (_ ∧ _))

/-- An access to whole granules in front of the end of its unit, none of whose numbers leaves its
type. -/
structure Regular (g u : UInt64) (a : Access) : Prop where
  aligned : a.Aligned g
  inside : a.t.toNat % u.toNat + a.size.toNat < u.toNat
  offset_lt : a.t.toNat + a.t.toNat % u.toNat + a.size.toNat < 2 ^ 64
  granule_lt : (a.t.toNat % u.toNat + a.size.toNat) / g.toNat < 2 ^ 31 - 1

variable {g u : UInt64} {a : Access}

theorem offsets_eq {l r : Nat} (hlr : l ≤ r) (hr : r < 2 ^ 31 - 1) :
    offsets (Int32.ofNat l) (Int32.ofNat r) =
      .ok ((List.range (r - l + 1)).map fun i => Int32.ofNat (l + i)) := by
  have hmax : Int32.ofNat r ≠ Int32.maxValue := by
    intro he
    have hi := congrArg Int32.toInt he
    rw [Int32.toInt_ofNat_of_lt (by omega), Int32.toInt_maxValue] at hi
    omega
  have hn : ((Int32.ofNat r).toInt + 1 - (Int32.ofNat l).toInt).toNat = r - l + 1 := by
    rw [Int32.toInt_ofNat_of_lt (by omega), Int32.toInt_ofNat_of_lt (by omega)]
    omega
  rw [offsets, if_neg hmax, hn]
  simp only [← Int32.ofNat_add]

theorem keys_eq_add (hg : 0 < g.toNat) (hdvd : g.toNat ∣ u.toNat) (ha : a.Aligned g)
    (hend : a.t.toNat + a.size.toNat < 2 ^ 64)
    (hin : a.t.toNat % u.toNat + a.size.toNat < u.toNat)
    (h31 : (a.t.toNat % u.toNat + a.size.toNat) / g.toNat < 2 ^ 31 - 1) :
    keys g u a.t a.size = .ok ((List.range (a.size.toNat / g.toNat + 1)).map fun i =>
      a.t + UInt64.ofNat (a.t.toNat % u.toNat + i * g.toNat)) := by
  have hright := ha.right_eq (u := u) hend hin
  rw [← Access.right_of_lt hend hin] at h31
  -- an aligned access starts inside its unit on a granule
  have hstart : a.left g u * g.toNat = a.t.toNat % u.toNat := by
    rw [Access.left_eq]
    exact Nat.div_mul_cancel ((Nat.dvd_mod_iff hdvd).mpr ha.offset)
  have hle : a.left g u ≤ a.right g u := hright ▸ Nat.le_add_right _ _
  have hoffs := offsets_eq hle h31
  have hne : ¬ (u = 0 ∨ g = 0) := by
    rintro (rfl | rfl)
    · exact absurd hin (Nat.not_lt_zero _)
    · exact absurd hg (Nat.lt_irrefl 0)
  rw [keys, if_neg hne]
  change (offsets (Int32.ofNat (a.left g u)) (Int32.ofNat (a.right g u)) >>= _) = _
  rw [hoffs]
  change Except.ok _ = _
  rw [List.map_map, hright, Nat.add_sub_cancel_left]
  refine congrArg Except.ok (List.map_congr_left fun i hi => ?_)
  have hilt := List.mem_range.mp hi
  rw [Function.comp_apply, toSize_ofNat (by omega), ← hstart, ← Nat.add_mul, UInt64.ofNat_mul,
    UInt64.ofNat_toNat]

theorem keys_eq (hg : 0 < g.toNat) (hdvd : g.toNat ∣ u.toNat) (ha : Regular g u a) :
    ∃ ks, keys g u a.t a.size = .ok ks ∧ ks.map UInt64.toNat =
      (List.range (a.size.toNat / g.toNat + 1)).map fun i =>
        a.t.toNat + a.t.toNat % u.toNat + i * g.toNat := by
  have hoff := ha.offset_lt
  refine ⟨_, keys_eq_add hg hdvd ha.aligned (by omega) ha.inside ha.granule_lt, ?_⟩
  have hsize := Nat.div_mul_cancel ha.aligned.length
  rw [List.map_map]
  refine List.map_congr_left fun i hi => ?_
  have hi' : i * g.toNat ≤ a.size.toNat := by
    rw [← hsize]
    exact Nat.mul_le_mul_right _ (Nat.lt_succ_iff.mp (List.mem_range.mp hi))
  rw [Function.comp_apply, UInt64.toNat_add, UInt64.toNat_ofNat_of_lt' (show _ < 2 ^ 64 by omega),
    Nat.mod_eq_of_lt (by omega), Nat.add_assoc]

theorem count_keys (hg : 0 < g.toNat) (hdvd : g.toNat ∣ u.toNat) (ha : Regular g u a)
    {ks : List UInt64} (hks : keys g u a.t a.size = .ok ks) {x : UInt64} (hx : g.toNat ∣ x.toNat) :
    ks.count x = if Reaches u x a then 1 else 0 := by
  obtain ⟨ks', hks', hmap⟩ := keys_eq hg hdvd ha
  obtain rfl : ks' = ks := Except.ok.inj (hks'.symm.trans hks)
  have hinj : Function.Injective UInt64.toNat := fun x y h => UInt64.toNat_inj.mp h
  have hnodup : (ks'.map UInt64.toNat).Nodup := by
    rw [hmap]
    refine List.Nodup.map (fun i j he => ?_) List.nodup_range
    exact Nat.eq_of_mul_eq_mul_right hg (Nat.add_left_cancel he)
  have hmem : x ∈ ks' ↔ Reaches u x a := by
    rw [← List.mem_map_of_injective hinj, hmap, List.mem_map]
    have hstart : g.toNat ∣ a.t.toNat + a.t.toNat % u.toNat :=
      Nat.dvd_add ha.aligned.offset ((Nat.dvd_mod_iff hdvd).mpr ha.aligned.offset)
    constructor
    · rintro ⟨i, hi, he⟩
      have hile : i * g.toNat ≤ a.size.toNat / g.toNat * g.toNat :=
        Nat.mul_le_mul_right _ (Nat.lt_succ_iff.mp (List.mem_range.mp hi))
      have hle := Nat.div_mul_le_self a.size.toNat g.toNat
      exact ⟨by omega, by omega⟩
    · rintro ⟨hlo, hhi⟩
      obtain ⟨i, hi⟩ := (Nat.dvd_sub hx hstart)
      rw [Nat.mul_comm] at hi
      refine ⟨i, List.mem_range.mpr (Nat.lt_succ_of_le ?_), by omega⟩
      rw [Nat.le_div_iff_mul_le hg]
      omega
  rw [List.Nodup.count (List.Nodup.of_map _ hnodup)]
  exact if_congr hmem rfl rfl

theorem count_foldlM_keys (hg : 0 < g.toNat) (hdvd : g.toNat ∣ u.toNat) {x : UInt64}
    (hx : g.toNat ∣ x.toNat) {ops : List Access} (hops : ∀ a ∈ ops, Regular g u a)
    (ks₀ : List UInt64) :
    ∃ ks, ops.foldlM (fun ks a => do return ks ++ (← keys g u a.t a.size)) ks₀ = .ok ks ∧
      ks.count x = ks₀.count x + ops.countP fun a => decide (Reaches u x a) := by
  induction ops generalizing ks₀ with
  | nil => exact ⟨ks₀, rfl, rfl⟩
  | cons a ops ih =>
    have ha := hops a List.mem_cons_self
    obtain ⟨ks₁, hks₁, -⟩ := keys_eq hg hdvd ha
    obtain ⟨ks, hks, hcount⟩ := ih (fun b hb => hops b (List.mem_cons_of_mem a hb)) (ks₀ ++ ks₁)
    refine ⟨ks, ?_, ?_⟩
    · rw [List.foldlM_cons, hks₁]
      exact hks
    · rw [hcount, List.count_append, count_keys hg hdvd ha hks₁ hx, List.countP_cons, Nat.add_assoc,
        Nat.add_comm (if Reaches u x a then 1 else 0)]
      simp only [decide_eq_true_eq]

end DistExp.GranuleLoop
