import DistExp.RangeCounters

namespace DistExp.IntervalSketch

open DistExp.Library.MachineInt DistExp.Library.AgedCounter DistExp.Library.HalvingTree
open DistExp.PackedTable DistExp.RangeSketch DistExp.RangeCounters

section Source

variable (hash : UInt64 → UInt64 → UInt32)

def innerFrequency : Nat → Sketch → UInt64 → Int32 → Int32 → Int32 → Int32 → Int32 → Int32 →
    Except Fault Int32
  | 0, _, _, _, _, _, _, _, _ => .error .depth
  | fuel + 1, s, unitId, base, left, right, start, stop, upperLevel =>
    if ¬ (start ≤ left ∧ right ≤ stop) then .error .assertion
    else if left = start ∧ right = stop then
      getDyadicCnt hash s unitId base start stop (upperLevel - 1)
    else do
      let mid := start + (stop - start) / 2
      let lower ← (if mid > left then
          innerFrequency fuel s unitId base left (min mid right) start mid (upperLevel - 1)
        else .ok 0)
      let upper ← (if mid < right then
          innerFrequency fuel s unitId base (max left mid) right mid stop (upperLevel - 1)
        else .ok 0)
      return lower + upper

def frequency (s : Sketch) (unitId t size : UInt64) : Except Fault Int32 :=
  innerFrequency hash fuel s unitId (baseOf s t) (leftOf s t) (rightOf s t size) 0
    (toInt (granules s)) s.counterLevel

def avgFrequency (s : Sketch) (unitId t size : UInt64) : Except Fault Int32 := do
  let cnt := rightOf s t size - leftOf s t
  let sumFrequency ← frequency hash s unitId t size
  if cnt = 0 then .error .divisionByZero else return sumFrequency / cnt

def innerRecordAccess : Nat → Sketch → UInt64 → Int32 → Int32 → Int32 → Int32 → Int32 → Int32 →
    Except Fault Sketch
  | 0, _, _, _, _, _, _, _, _ => .error .depth
  | fuel + 1, s, unitId, base, left, right, start, stop, upperLevel =>
    if ¬ (start ≤ left ∧ right ≤ stop) then .error .assertion
    else do
      let s ← incDyadicCnt hash s unitId base start stop 1 (upperLevel - 1)
      if start = stop - 1 then return s
      else
        let mid := start + (stop - start) / 2
        let s ← (if mid > left then
            innerRecordAccess fuel s unitId base left (min mid right) start mid (upperLevel - 1)
          else .ok s)
        if mid < right then
          innerRecordAccess fuel s unitId base (max left mid) right mid stop (upperLevel - 1)
        else .ok s

def recordAccess (s : Sketch) (unitId t size : UInt64) : Except Fault Sketch :=
  if s.doingReset then .ok s
  else
    innerRecordAccess hash fuel { s with refCnt := s.refCnt + 1 } unitId (baseOf s t) (leftOf s t)
      (rightOf s t size) 0 (toInt (granules s)) s.counterLevel

end Source

def segRows (hash : UInt64 → UInt64 → UInt32) (p : Nat) (unitId : UInt64) (base : Int32)
    (isLazy : Bool) (seg : Seg) : List Cell :=
  rowsAt p seg.level (hash unitId (toSize (base + Int32.ofNat seg.lo))) isLazy

variable {hash : UInt64 → UInt64 → UInt32} {p levels : Nat} {s : Sketch}

theorem start_eq_pred_iff {a b : Nat} (hab : a < b) (hb : b < 2 ^ 31) :
    Int32.ofNat a = Int32.ofNat b - 1 ↔ b = a + 1 := by
  obtain ⟨c, rfl⟩ : ∃ c, b = c + 1 := ⟨b - 1, by omega⟩
  rw [ofNat_succ_sub_one, ofNat_inj (by omega) (by omega)]
  omega

theorem innerRecordAccess_eq (hash : UInt64 → UInt64 → UInt32)
    {fuel d l r a b : Nat} (hd : d ≤ fuel) (hf : Fits d a b)
    (hlv : d ≤ levels) (hs : Shape p levels s) (hal : a ≤ l) (hrb : r ≤ b) (hl : l < 2 ^ 31)
    (hb : b < 2 ^ 31) (unitId : UInt64) (base : Int32) :
    ∃ s', innerRecordAccess hash fuel s unitId base (Int32.ofNat l) (Int32.ofNat r) (Int32.ofNat a)
        (Int32.ofNat b) (Int32.ofNat d) = .ok s' ∧ Shape p levels s' ∧ frame s' = frame s ∧
      sketchCells s' = raiseAll 15 (sketchCells s)
        ((touched d l r a b).flatMap (segRows hash p unitId base false)) := by
  induction d generalizing fuel l r a b s with
  | zero => exact absurd hf.2.2 (Nat.lt_irrefl 0)
  | succ d ih =>
    obtain ⟨fuel, rfl⟩ : ∃ f, fuel = f + 1 := ⟨fuel - 1, by omega⟩
    have hi := halvingStep hf.1 hal hrb hl hb
    obtain ⟨s₁, h₁, hs₁, hf₁, hc₁⟩ := incDyadicCnt_eq hash hs hlv
      unitId base (Int32.ofNat a) (Int32.ofNat b)
    rw [innerRecordAccess, if_neg hi.guard, ofNat_succ_sub_one, h₁]
    simp only [bind, Except.bind, start_eq_pred_iff hf.1 hb]
    by_cases hone : b = a + 1
    · refine ⟨s₁, if_pos hone, hs₁, hf₁, ?_⟩
      rw [hc₁]
      simp [touched, hone, segRows]
    · obtain ⟨hma, hmb⟩ := hf.mid_bounds hone
      rw [if_neg hone, hi.middle, hi.lowStop, hi.highStart]
      simp only [hi.low, hi.high]
      -- the lower half first, then the upper half on top of what it left
      obtain ⟨s₂, h₂, hs₂, hf₂, hc₂⟩ : ∃ s₂, (if l < mid a b then
          innerRecordAccess hash fuel s₁ unitId base (Int32.ofNat l)
            (Int32.ofNat (min (mid a b) r)) (Int32.ofNat a) (Int32.ofNat (mid a b)) (Int32.ofNat d)
          else .ok s₁) = .ok s₂ ∧ Shape p levels s₂ ∧ frame s₂ = frame s₁ ∧
          sketchCells s₂ = raiseAll 15 (sketchCells s₁)
            ((if l < mid a b then touched d l (min (mid a b) r) a (mid a b) else []).flatMap
              (segRows hash p unitId base false)) := by
        by_cases hlm : l < mid a b
        · simp only [if_pos hlm]
          exact ih (by omega) (hf.left hone) (by omega) hs₁ hal (Nat.min_le_left _ _) hl (by omega)
        · simp only [if_neg hlm]
          exact ⟨s₁, rfl, hs₁, rfl, rfl⟩
      obtain ⟨s₃, h₃, hs₃, hf₃, hc₃⟩ : ∃ s₃, (if mid a b < r then
          innerRecordAccess hash fuel s₂ unitId base (Int32.ofNat (max l (mid a b)))
            (Int32.ofNat r) (Int32.ofNat (mid a b)) (Int32.ofNat b) (Int32.ofNat d)
          else .ok s₂) = .ok s₃ ∧ Shape p levels s₃ ∧ frame s₃ = frame s₂ ∧
          sketchCells s₃ = raiseAll 15 (sketchCells s₂)
            ((if mid a b < r then touched d (max l (mid a b)) r (mid a b) b else []).flatMap
              (segRows hash p unitId base false)) := by
        by_cases hmr : mid a b < r
        · simp only [if_pos hmr]
          exact ih (by omega) (hf.right hone) (by omega) hs₂ (Nat.le_max_right _ _) hrb (by omega) hb
        · simp only [if_neg hmr]
          exact ⟨s₂, rfl, hs₂, rfl, rfl⟩
      refine ⟨s₃, ?_, hs₃, hf₃.trans (hf₂.trans hf₁), ?_⟩
      · rw [h₂]
        exact h₃
      · rw [hc₃, hc₂, hc₁, ← raiseAll_append, ← raiseAll_append]
        simp only [touched, if_neg hone, List.flatMap_cons, List.flatMap_append]
        rfl

def estimate (s : Sketch) (rows : Seg → List Cell) (segs : List Seg) : Nat :=
  (segs.map fun seg => rowMin intMax (sketchCells s) (rows seg) * seg.size).sum

theorem innerFrequency_eq {fuel d l r a b : Nat} (hd : d ≤ fuel) (hf : Fits d a b)
    (hlv : d ≤ levels) (hs : Shape p levels s) (hal : a ≤ l) (hlr : l < r) (hrb : r ≤ b)
    (hb : b < 2 ^ 31) (unitId : UInt64) (base : Int32) :
    innerFrequency hash fuel s unitId base (Int32.ofNat l) (Int32.ofNat r) (Int32.ofNat a)
      (Int32.ofNat b) (Int32.ofNat d) =
      .ok (Int32.ofNat (estimate s (segRows hash p unitId base false) (cover d l r a b))) := by
  induction d generalizing fuel l r a b with
  | zero => exact absurd hf.2.2 (Nat.lt_irrefl 0)
  | succ d ih =>
    obtain ⟨fuel, rfl⟩ : ∃ f, fuel = f + 1 := ⟨fuel - 1, by omega⟩
    have hi := halvingStep hf.1 hal hrb (by omega) hb
    rw [innerFrequency, if_neg hi.guard, ofNat_succ_sub_one]
    simp only [hi.whole]
    by_cases hc : l = a ∧ r = b
    · rw [if_pos hc, getDyadicCnt_eq hs hlv,
        ← Int32.ofNat_sub _ _ hf.1.le, ← Int32.ofNat_mul]
      simp [estimate, cover, if_pos hc, segRows, Seg.size]
    · have hone : b ≠ a + 1 := by omega
      obtain ⟨hma, hmb⟩ := hf.mid_bounds hone
      rw [if_neg hc, hi.middle, hi.lowStop, hi.highStart]
      simp only [hi.low, hi.high]
      let rows := segRows hash p unitId base false
      have hlow : (if l < mid a b then
          innerFrequency hash fuel s unitId base (Int32.ofNat l) (Int32.ofNat (min (mid a b) r))
            (Int32.ofNat a) (Int32.ofNat (mid a b)) (Int32.ofNat d) else .ok 0) =
          .ok (Int32.ofNat (estimate s rows
            (if l < mid a b then cover d l (min (mid a b) r) a (mid a b) else []))) := by
        by_cases hlm : l < mid a b
        · simp only [if_pos hlm]
          exact ih (by omega) (hf.left hone) (by omega) hal (by omega) (Nat.min_le_left _ _) (by omega)
        · simp only [if_neg hlm]
          rfl
      have hupp : (if mid a b < r then
          innerFrequency hash fuel s unitId base (Int32.ofNat (max l (mid a b))) (Int32.ofNat r)
            (Int32.ofNat (mid a b)) (Int32.ofNat b) (Int32.ofNat d) else .ok 0) =
          .ok (Int32.ofNat (estimate s rows
            (if mid a b < r then cover d (max l (mid a b)) r (mid a b) b else []))) := by
        by_cases hmr : mid a b < r
        · simp only [if_pos hmr]
          exact ih (by omega) (hf.right hone) (by omega) (Nat.le_max_right _ _) (by omega) hrb hb
        · simp only [if_neg hmr]
          rfl
      rw [hlow, hupp]
      simp only [bind, Except.bind, pure, Except.pure, ← Int32.ofNat_add, cover, if_neg hc,
        estimate, List.map_append, List.sum_append, rows]

end DistExp.IntervalSketch
