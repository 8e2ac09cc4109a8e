import DistExp.RangeLevels
import DistExp.Library.FieldMap

namespace DistExp.RangeFrequencySketch

open DistExp.Library.MachineInt DistExp.Library.FieldMap DistExp.Library.Runs
open DistExp.PackedTable DistExp.RangeGeometry DistExp.RangeCalls DistExp.RangeLevels

/-- `range_frequency_sketch<uint64_t>`. The order of the units does not matter. -/
structure Sketch where
  table : Table
  unitAccFreq : List (UInt64 × Array UInt16)
  size : Int32
  granularity : UInt64
  unitSize : UInt64
  deriving DecidableEq

def changeCapacity (s : Sketch) (n : Int32) : Except Fault Sketch :=
  if n ≤ 0 then .error .invalidArgument
  else .ok { s with
    table := resize s.table (Detail.nearestPowerOfTwo n.toUInt32).toNat
    size := 0 }

def construct (capacity : Int32) (granularity unitSize : UInt64) : Except Fault Sketch :=
  changeCapacity
    { table := #[], unitAccFreq := [], size := 0, granularity := granularity, unitSize := unitSize }
    capacity

/-- The values of `i` in `for(int i=start; i<stop; i++)`, compared as `size_t`. -/
def indices : Nat → Int32 → UInt64 → Except Fault (List Int32)
  | 0, _, _ => .error .depth
  | rounds + 1, i, stop =>
    if toSize i < stop then do return i :: (← indices rounds (i + 1) stop) else .ok []

/-- After as many rounds every `int` has been seen, and the loop goes on for ever. -/
def rounds : Nat := 2 ^ 32 + 1

def bounds (s : Sketch) (t size : UInt64) : Except Fault (Int32 × UInt64) :=
  if s.granularity = 0 ∨ s.unitSize = 0 then .error .divisionByZero
  else
    let cnt := toInt ((size + s.granularity - 1) / s.granularity)
    let start := t % s.unitSize / s.granularity
    .ok (toInt start, toSize cnt + start)

def frequency (s : Sketch) (unitId t size : UInt64) : Except Fault Int32 := do
  let (start, stop) ← bounds s t size
  match hget s.unitAccFreq unitId with
  | none => return 0
  | some vector =>
    let is ← indices rounds start stop
    is.foldlM (fun sum i => do return sum + Int32.ofNat (← elemAt vector i).toNat) 0

def avgFrequency (s : Sketch) (unitId t size : UInt64) : Except Fault Int32 := do
  let cnt := toInt ((size + s.granularity - 1) / s.granularity)
  let sumFrequency ← frequency s unitId t size
  if cnt = 0 then .error .divisionByZero else return sumFrequency / cnt

def emplace (s : Sketch) (unitId : UInt64) : Sketch :=
  match hget s.unitAccFreq unitId with
  | some _ => s
  | none =>
    let cnt := (s.unitSize + s.granularity - 1) / s.granularity
    { s with unitAccFreq := hset s.unitAccFreq unitId (Array.replicate cnt.toNat 0) }

def increment (unitId : UInt64) (s : Sketch) (i : Int32) : Except Fault Sketch := do
  let vector := (hget s.unitAccFreq unitId).getD #[]
  let count ← elemAt vector i
  return { s with
    unitAccFreq := hset s.unitAccFreq unitId (setAt vector i (count + 1))
    size := s.size + 1 }

def recordAccess (s : Sketch) (unitId t size : UInt64) : Except Fault Sketch := do
  let (start, stop) ← bounds s t size
  let is ← indices rounds start stop
  is.foldlM (increment unitId) (emplace s unitId)

def samplingSize (s : Sketch) : Int32 := toInt (UInt64.ofNat s.table.size * 10)

def halve (vector : Array UInt16) (i : Int32) : Except Fault (Array UInt16) := do
  return setAt vector i ((← elemAt vector i) / 2)

def halveAll (s : Sketch) (vector : Array UInt16) : Except Fault (Array UInt16) :=
  if s.granularity = 0 then .error .divisionByZero
  else do
    let is ← indices rounds 0 (s.unitSize / s.granularity)
    is.foldlM halve vector

def tryReset (s : Sketch) : Except Fault (Sketch × Bool) :=
  if s.size ≥ samplingSize s then do
    let units ← s.unitAccFreq.mapM fun e => do return (e.1, ← halveAll s e.2)
    return ({ s with unitAccFreq := units, size := 0 }, true)
  else .ok (s, false)

section Vectors

theorem indices_eq (fuel : Nat) {l r : Nat} (hlr : l ≤ r) (hr : r < 2 ^ 31) (hf : r - l < fuel) :
    indices fuel (Int32.ofNat l) (UInt64.ofNat r) =
      .ok ((List.range' l (r - l)).map Int32.ofNat) := by
  induction fuel generalizing l with
  | zero => exact absurd hf (Nat.not_lt_zero _)
  | succ fuel ih =>
    have hiff : toSize (Int32.ofNat l) < UInt64.ofNat r ↔ l < r := by
      rw [toSize_ofNat (by omega), UInt64.lt_iff_toNat_lt, UInt64.toNat_ofNat_of_lt',
        UInt64.toNat_ofNat_of_lt']
      all_goals
        change _ < 2 ^ 64
        omega
    rw [indices]
    by_cases hlt : l < r
    · obtain ⟨m, hm⟩ : ∃ m, r - l = m + 1 := ⟨r - l - 1, by omega⟩
      have hnext : Int32.ofNat l + 1 = Int32.ofNat (l + 1) := (Int32.ofNat_add l 1).symm
      rw [if_pos (hiff.mpr hlt), hnext, ih hlt (by omega), hm, List.range'_succ,
        show r - (l + 1) = m by omega]
      rfl
    · rw [if_neg fun h => hlt (hiff.mp h), show r - l = 0 by omega]
      rfl

def entryAt (vector : Array UInt16) (i : Nat) : UInt16 := vector[i]?.getD 0

/-- The element that an index selects, as a `size_t`. -/
def place (i : Int32) : Nat := (toSize i).toNat

theorem place_ofNat {i : Nat} (hi : i < 2 ^ 31) : place (Int32.ofNat i) = i :=
  toNat_toSize_ofNat hi

theorem elemAt_eq {vector : Array UInt16} {i : Int32} (hi : place i < vector.size) :
    elemAt vector i = .ok (entryAt vector (place i)) := by
  rw [elemAt, ← place, entryAt, Array.getElem?_eq_getElem hi]
  rfl

theorem entryAt_setAt {vector : Array UInt16} {i : Int32} (hi : place i < vector.size)
    (x : UInt16) (k : Nat) :
    entryAt (setAt vector i x) k = if place i = k then x else entryAt vector k := by
  rw [entryAt, setAt, ← place, Array.getElem?_setIfInBounds]
  by_cases hk : place i = k
  · rw [if_pos hk, if_pos hi, if_pos hk, Option.getD_some]
  · rw [if_neg hk, if_neg hk, entryAt]

theorem size_setAt (vector : Array UInt16) (i : Int32) (x : UInt16) :
    (setAt vector i x).size = vector.size := Array.size_setIfInBounds

theorem halve_foldlM (is : List Int32) (vector : Array UInt16) (hnd : (is.map place).Nodup)
    (his : ∀ i ∈ is, place i < vector.size) :
    ∃ v, is.foldlM halve vector = .ok v ∧ v.size = vector.size ∧
      ∀ k, entryAt v k = if k ∈ is.map place then entryAt vector k / 2 else entryAt vector k := by
  induction is generalizing vector with
  | nil => exact ⟨vector, rfl, rfl, fun k => by simp⟩
  | cons i is ih =>
    have hi := his i List.mem_cons_self
    obtain ⟨hni, hnd⟩ := List.nodup_cons.mp hnd
    have hstep : halve vector i = .ok (setAt vector i (entryAt vector (place i) / 2)) := by
      rw [halve, elemAt_eq hi]
      rfl
    obtain ⟨v, hrun, hsize, hv⟩ := ih (setAt vector i (entryAt vector (place i) / 2)) hnd
      fun k hk => by
        rw [size_setAt]
        exact his k (List.mem_cons_of_mem i hk)
    refine ⟨v, ?_, hsize.trans (size_setAt _ _ _), fun k => ?_⟩
    · rw [List.foldlM_cons, hstep]
      exact hrun
    · rw [hv, entryAt_setAt hi, List.map_cons]
      by_cases hk : place i = k
      · subst hk
        rw [if_neg hni, if_pos rfl, if_pos List.mem_cons_self]
      · simp only [if_neg hk, List.mem_cons, Ne.symm hk, false_or]

theorem sum_foldlM (is : List Nat) (vector : Array UInt16)
    (his : ∀ i ∈ is, i < vector.size ∧ i < 2 ^ 31) (sum : Nat) :
    (is.map Int32.ofNat).foldlM
        (fun sum i => do return sum + Int32.ofNat (← elemAt vector i).toNat) (Int32.ofNat sum) =
      .ok (Int32.ofNat (sum + (is.map fun i => (entryAt vector i).toNat).sum)) := by
  induction is generalizing sum with
  | nil => rfl
  | cons i is ih =>
    obtain ⟨hi, hi31⟩ := his i List.mem_cons_self
    have helem : elemAt vector (Int32.ofNat i) = .ok (entryAt vector i) := by
      rw [elemAt_eq (by rwa [place_ofNat hi31]), place_ofNat hi31]
    rw [List.map_cons, List.foldlM_cons, helem]
    change List.foldlM _ (Int32.ofNat sum + Int32.ofNat (entryAt vector i).toNat) _ = _
    rw [← Int32.ofNat_add, ih fun k hk => his k (List.mem_cons_of_mem i hk), List.map_cons,
      List.sum_cons, Nat.add_assoc]

end Vectors

variable {g u : UInt64} {s : Sketch}

/-- The granules of a unit can be counted by an `int`, and rounding up to them stays in 64 bits. -/
structure Units (g u : UInt64) : Prop where
  granularity_pos : 0 < g.toNat
  unitSize_pos : 0 < u.toNat
  room : u.toNat + g.toNat ≤ 2 ^ 64
  count_lt : granuleCount g u < 2 ^ 31

structure Sized (g u : UInt64) (s : Sketch) : Prop where
  granularity_eq : s.granularity = g
  unitSize_eq : s.unitSize = u
  size_eq : ∀ e ∈ s.unitAccFreq, e.2.size = granuleCount g u

def Inside (u : UInt64) (a : Access) : Prop :=
  0 < a.size.toNat ∧ a.t.toNat % u.toNat + a.size.toNat ≤ u.toNat

instance (u : UInt64) (a : Access) : Decidable (Inside u a) := inferInstanceAs (Decidable (_ ∧ _))

def entry (s : Sketch) (unitId : UInt64) (i : Nat) : UInt16 :=
  entryAt ((hget s.unitAccFreq unitId).getD #[]) i

theorem Sized.entry_zero (h : Sized g u s) (unitId : UInt64) {i : Nat} (hi : granuleCount g u ≤ i) :
    entry s unitId i = 0 := by
  have hsize : ((hget s.unitAccFreq unitId).getD #[]).size ≤ i := by
    cases hv : hget s.unitAccFreq unitId with
    | none => exact Nat.zero_le i
    | some vector => exact (h.size_eq _ (mem_of_hget hv)).trans_le hi
  rw [entry, entryAt, Array.getElem?_eq_none hsize, Option.getD_none]

theorem left_add_granules_le (hg : 0 < g.toNat) {a : Access} (ha : Inside u a) :
    a.left g u + granuleCount g a.size ≤ granuleCount g u := by
  obtain ⟨hpos, hin⟩ := ha
  have hdiv := Nat.mul_div_le (a.t.toNat % u.toNat) g.toNat
  rw [Access.left_eq, granuleCount, granuleCount, Nat.add_comm, ← Nat.add_mul_div_left _ _ hg]
  exact Nat.div_le_div_right (by omega)

theorem bounds_eq (hu : Units g u) (hg : s.granularity = g) (hus : s.unitSize = u) {a : Access}
    (ha : Inside u a) : bounds s a.t a.size = .ok (Int32.ofNat (a.left g u),
      UInt64.ofNat (a.left g u + granuleCount g a.size)) := by
  have hgp := hu.granularity_pos
  have hup := hu.unitSize_pos
  have hle := left_add_granules_le hgp ha
  have hlt := hu.count_lt
  have hroom := hu.room
  have hg0 : ¬ (g = 0 ∨ u = 0) := by
    rintro (h | h)
    · rw [h] at hgp
      exact absurd hgp (by decide)
    · rw [h] at hup
      exact absurd hup (by decide)
  have hcnt : ((a.size + g - 1) / g).toNat = granuleCount g a.size := by
    have hin := ha.2
    rw [UInt64.toNat_div, toNat_add_sub_one hgp (by omega), granuleCount]
  rw [bounds, hg, hus, if_neg hg0, toInt, hcnt]
  dsimp only
  rw [toSize_ofNat (by omega)]
  refine congrArg Except.ok (Prod.ext rfl ?_)
  rw [Nat.add_comm, UInt64.ofNat_add, Access.left, UInt64.ofNat_toNat]

def granulesOf (g u : UInt64) (a : Access) : List Nat :=
  List.range' (a.left g u) (granuleCount g a.size)

theorem mem_granulesOf {a : Access} {i : Nat} : i ∈ granulesOf g u a ↔
    a.left g u ≤ i ∧ i < a.left g u + granuleCount g a.size := by
  rw [granulesOf, List.mem_range'_1]

theorem indices_access (hu : Units g u) {a : Access} (ha : Inside u a) :
    indices rounds (Int32.ofNat (a.left g u)) (UInt64.ofNat (a.left g u + granuleCount g a.size)) =
      .ok ((granulesOf g u a).map Int32.ofNat) := by
  have hle := left_add_granules_le hu.granularity_pos ha
  have hlt := hu.count_lt
  have hrounds : rounds = 2 ^ 32 + 1 := rfl
  rw [indices_eq rounds (Nat.le_add_right _ _) (by omega) (by omega), Nat.add_sub_cancel_left,
    granulesOf]

theorem lt_of_mem_granulesOf (hu : Units g u) {a : Access} (ha : Inside u a) {i : Nat}
    (hi : i ∈ granulesOf g u a) : i < granuleCount g u ∧ i < 2 ^ 31 := by
  have hle := left_add_granules_le hu.granularity_pos ha
  have hlt := hu.count_lt
  have hi := (mem_granulesOf.mp hi).2
  omega

theorem frequency_eq (hu : Units g u) (h : Sized g u s) {q : Access} (hq : Inside u q) :
    frequency s q.unitId q.t q.size =
      .ok (Int32.ofNat ((granulesOf g u q).map fun i => (entry s q.unitId i).toNat).sum) := by
  rw [frequency, bounds_eq hu h.granularity_eq h.unitSize_eq hq]
  change (match hget s.unitAccFreq q.unitId with | none => _ | some vector => _) = _
  cases hv : hget s.unitAccFreq q.unitId with
  | none =>
    have hzero : ((granulesOf g u q).map fun i => (entry s q.unitId i).toNat).sum = 0 := by
      apply List.sum_eq_zero
      intro x hx
      obtain ⟨i, -, rfl⟩ := List.mem_map.mp hx
      rw [entry, hv]
      rfl
    rw [hzero]
    rfl
  | some vector =>
    have hsize := h.size_eq _ (mem_of_hget hv)
    have hentry (i : Nat) : entry s q.unitId i = entryAt vector i := by
      rw [entry, hv, Option.getD_some]
    simp only [hentry]
    rw [indices_access hu hq]
    have hsum := sum_foldlM (granulesOf g u q) vector (fun i hi => by
      rw [hsize]
      exact lt_of_mem_granulesOf hu hq hi) 0
    rw [Nat.zero_add] at hsum
    exact hsum

/-- What an access leaves of a sketch: the counters of one unit are raised at the listed granules. -/
structure Raised (g u unitId : UInt64) (is : List Nat) (s s' : Sketch) : Prop where
  sized : Sized g u s'
  table_eq : s'.table = s.table
  size_eq : s'.size = s.size + Int32.ofNat is.length
  entry_eq : ∀ k i, entry s' k i = entry s k i + if k = unitId then UInt16.ofNat (is.count i) else 0

theorem increment_foldlM (hcount : granuleCount g u < 2 ^ 31) (is : List Nat)
    (his : ∀ i ∈ is, i < granuleCount g u) (h : Sized g u s) {unitId : UInt64}
    {vector : Array UInt16} (hv : hget s.unitAccFreq unitId = some vector) :
    ∃ s', (is.map Int32.ofNat).foldlM (increment unitId) s = .ok s' ∧ Raised g u unitId is s s' := by
  induction is generalizing s vector with
  | nil =>
    refine ⟨s, rfl, h, rfl, (Int32.add_zero _).symm, fun k i => ?_⟩
    rw [List.count_nil]
    split <;> exact (UInt16.add_zero _).symm
  | cons i is ih =>
    have hi := his i List.mem_cons_self
    have hsize := h.size_eq _ (mem_of_hget hv)
    have hplace := place_ofNat (hi.trans hcount)
    have hi' : place (Int32.ofNat i) < vector.size := by rwa [hplace, hsize]
    let next := setAt vector (Int32.ofNat i) (entryAt vector i + 1)
    let s₁ : Sketch := { s with
      unitAccFreq := hset s.unitAccFreq unitId next
      size := s.size + 1 }
    have hstep : increment unitId s (Int32.ofNat i) = .ok s₁ := by
      rw [increment, hv, Option.getD_some, elemAt_eq hi', hplace]
      rfl
    have hs₁ : Sized g u s₁ := by
      refine ⟨h.granularity_eq, h.unitSize_eq, fun e he => ?_⟩
      obtain he | rfl := mem_hset he
      · exact h.size_eq e he
      · exact (size_setAt _ _ _).trans hsize
    have hv₁ : hget s₁.unitAccFreq unitId = some next := by rw [hget_hset, if_pos rfl]
    obtain ⟨s', hrun, hr⟩ := ih (fun k hk => his k (List.mem_cons_of_mem i hk)) hs₁ hv₁
    refine ⟨s', ?_, hr.sized, hr.table_eq, ?_, fun k j => ?_⟩
    · rw [List.map_cons, List.foldlM_cons, hstep]
      exact hrun
    · have hs : s₁.size = s.size + 1 := rfl
      rw [hr.size_eq, hs, Int32.add_assoc, List.length_cons, Nat.add_comm, Int32.ofNat_add]
      rfl
    · have hentry : entry s₁ k j = entry s k j + if k = unitId ∧ i = j then 1 else 0 := by
        rw [entry, hget_hset]
        by_cases hk : unitId = k
        · subst hk
          rw [if_pos rfl, Option.getD_some, entryAt_setAt hi', hplace, entry, hv,
            Option.getD_some]
          by_cases hj : i = j
          · rw [if_pos hj, if_pos ⟨rfl, hj⟩, hj]
          · rw [if_neg hj, if_neg fun h => hj h.2, UInt16.add_zero]
        · rw [if_neg hk, if_neg fun h => hk h.1.symm, UInt16.add_zero, entry]
      rw [hr.entry_eq, hentry, UInt16.add_assoc, List.count_cons]
      by_cases hk : k = unitId
      · by_cases hj : i = j
        · simp [hk, hj, UInt16.ofNat_add, UInt16.add_comm]
        · simp [hk, hj]
      · simp [hk]

theorem emplace_eq (hu : Units g u) (h : Sized g u s) (unitId : UInt64) :
    Sized g u (emplace s unitId) ∧ (∃ v, hget (emplace s unitId).unitAccFreq unitId = some v) ∧
      (emplace s unitId).table = s.table ∧ (emplace s unitId).size = s.size ∧
      ∀ k i, entry (emplace s unitId) k i = entry s k i := by
  cases hv : hget s.unitAccFreq unitId with
  | some v =>
    have hs : emplace s unitId = s := by rw [emplace, hv]
    rw [hs]
    exact ⟨h, ⟨v, hv⟩, rfl, rfl, fun _ _ => rfl⟩
  | none =>
    have hcnt : ((u + g - 1) / g).toNat = granuleCount g u := by
      rw [UInt64.toNat_div, toNat_add_sub_one hu.granularity_pos hu.room, granuleCount]
    have hs : emplace s unitId = { s with
        unitAccFreq := hset s.unitAccFreq unitId (Array.replicate (granuleCount g u) 0) } := by
      rw [emplace, hv, h.granularity_eq, h.unitSize_eq, ← hcnt]
    rw [hs]
    refine ⟨⟨h.granularity_eq, h.unitSize_eq, fun e he => ?_⟩,
      ⟨_, (hget_hset _ _ _ _).trans (if_pos rfl)⟩, rfl, rfl, fun k i => ?_⟩
    · obtain he | rfl := mem_hset he
      · exact h.size_eq e he
      · exact Array.size_replicate
    · rw [entry, hget_hset, entry]
      by_cases hk : unitId = k
      · subst hk
        rw [if_pos rfl, hv, Option.getD_some, entryAt, entryAt, Array.getElem?_replicate]
        split <;> rfl
      · rw [if_neg hk]

theorem recordAccess_eq (hu : Units g u) (h : Sized g u s) {a : Access} (ha : Inside u a) :
    ∃ s', recordAccess s a.unitId a.t a.size = .ok s' ∧
      Raised g u a.unitId (granulesOf g u a) s s' := by
  obtain ⟨h₀, ⟨v, hv⟩, htable, hsize, hentry⟩ := emplace_eq hu h a.unitId
  obtain ⟨s', hrun, hr⟩ := increment_foldlM hu.count_lt (granulesOf g u a)
    (fun i hi => (lt_of_mem_granulesOf hu ha hi).1) h₀ hv
  refine ⟨s', ?_, hr.sized, hr.table_eq.trans htable, by rw [hr.size_eq, hsize], fun k i => ?_⟩
  · rw [recordAccess, bounds_eq hu h.granularity_eq h.unitSize_eq ha]
    change (indices rounds (Int32.ofNat (a.left g u)) (UInt64.ofNat (a.left g u +
      granuleCount g a.size)) >>= fun is => is.foldlM (increment a.unitId) (emplace s a.unitId)) = _
    rw [indices_access hu ha]
    exact hrun
  · rw [hr.entry_eq, hentry]

theorem halveAll_eq (hu : Units g u) (hg : s.granularity = g) (hus : s.unitSize = u)
    {vector : Array UInt16} (hsize : vector.size = granuleCount g u) :
    ∃ v, halveAll s vector = .ok v ∧ v.size = vector.size ∧
      ∀ k, entryAt v k = if k < u.toNat / g.toNat then entryAt vector k / 2 else entryAt vector k := by
  have hgp := hu.granularity_pos
  have hup := hu.unitSize_pos
  have hlt := hu.count_lt
  have hg0 : ¬ g = 0 := by
    rintro rfl
    exact absurd hgp (by decide)
  have hle : u.toNat / g.toNat ≤ granuleCount g u := Nat.div_le_div_right (by omega)
  have hrounds : rounds = 2 ^ 32 + 1 := rfl
  have hrange : indices rounds 0 (u / g) = .ok ((List.range (u.toNat / g.toNat)).map Int32.ofNat) := by
    have hidx := indices_eq rounds (Nat.zero_le (u.toNat / g.toNat)) (by omega) (by omega)
    have hstop : UInt64.ofNat (u.toNat / g.toNat) = u / g := by
      rw [← UInt64.toNat_div, UInt64.ofNat_toNat]
    rwa [hstop, Nat.sub_zero, ← List.range_eq_range'] at hidx
  have hplaces : ((List.range (u.toNat / g.toNat)).map Int32.ofNat).map place =
      List.range (u.toNat / g.toNat) := by
    rw [List.map_map]
    refine (List.map_congr_left fun i hi => ?_).trans (List.map_id _)
    exact place_ofNat (by have := List.mem_range.mp hi; omega)
  obtain ⟨v, hrun, hvs, hv⟩ := halve_foldlM ((List.range (u.toNat / g.toNat)).map Int32.ofNat)
    vector (by rw [hplaces]; exact List.nodup_range) fun i hi => by
      have hi := List.mem_range.mp (hplaces ▸ List.mem_map_of_mem hi)
      omega
  refine ⟨v, ?_, hvs, fun k => ?_⟩
  · rw [halveAll, hg, hus, if_neg hg0, hrange]
    exact hrun
  · simp only [hv, hplaces, List.mem_range]

theorem tryReset_due (hu : Units g u) (h : Sized g u s) (hdue : s.size ≥ samplingSize s) :
    ∃ s', tryReset s = .ok (s', true) ∧ Sized g u s' ∧ s'.table = s.table ∧ s'.size = 0 ∧
      ∀ k i, entry s' k i = if i < u.toNat / g.toNat then entry s k i / 2 else entry s k i := by
  obtain ⟨units, hrun, hmem, hfound⟩ := mapM_values
    (f := halveAll s) (R := fun vector v => v.size = vector.size ∧
      ∀ i, entryAt v i = if i < u.toNat / g.toNat then entryAt vector i / 2 else entryAt vector i)
    (h := s.unitAccFreq) fun e he =>
      halveAll_eq hu h.granularity_eq h.unitSize_eq (h.size_eq e he)
  refine ⟨{ s with unitAccFreq := units, size := 0 }, ?_,
    ⟨h.granularity_eq, h.unitSize_eq, fun e' he' => ?_⟩, rfl, rfl, fun k i => ?_⟩
  · rw [tryReset, if_pos hdue, hrun]
    rfl
  · obtain ⟨e, he, hsize, -⟩ := hmem e' he'
    exact hsize.trans (h.size_eq e he)
  · have hrel := hfound k
    rw [entry, entry]
    change entryAt ((hget units k).getD #[]) i = _
    generalize hget s.unitAccFreq k = before, hget units k = after at hrel ⊢
    cases hrel with
    | none =>
      have hzero : entryAt #[] i = 0 := by rw [entryAt, Array.getElem?_empty, Option.getD_none]
      rw [Option.getD_none, hzero, UInt16.zero_div, ite_self]
    | some hR => exact hR.2 i

theorem tryReset_not_due (hdue : ¬ s.size ≥ samplingSize s) : tryReset s = .ok (s, false) :=
  if_neg hdue

end DistExp.RangeFrequencySketch
