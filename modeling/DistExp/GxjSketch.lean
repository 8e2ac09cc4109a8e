import DistExp.IntervalSketch
import DistExp.Library.TreeDescent

namespace DistExp.GxjSketch

open DistExp.Library.MachineInt DistExp.Library.AgedCounter DistExp.Library.HalvingTree
open DistExp.PackedTable DistExp.RangeSketch DistExp.RangeCounters
open DistExp.IntervalSketch (segRows estimate)

section Source

variable (hash : UInt64 → UInt64 → UInt32)

def innerFrequency : Nat → Sketch → UInt64 → Int32 → Int32 → Int32 → Int32 → Int32 → Int32 →
    Except Fault Int32
  | 0, _, _, _, _, _, _, _, _ => .error .depth
  | fuel + 1, s, unitId, base, left, right, start, stop, upperLevel =>
    if ¬ (start ≤ left ∧ right ≤ stop) then .error .assertion
    else do
      let lazyAddCnt ← getLazyAddCnt hash s unitId base start stop (upperLevel - 1)
      let sumFrequency := lazyAddCnt * (right - left)
      if left = start ∧ right = stop then
        let dyadicCnt ← getDyadicCnt hash s unitId base start stop (upperLevel - 1)
        return sumFrequency + dyadicCnt
      else
        let mid := start + (stop - start) / 2
        let lower ← (if mid > left then
            innerFrequency fuel s unitId base left (min mid right) start mid (upperLevel - 1)
          else .ok 0)
        let upper ← (if mid < right then
            innerFrequency fuel s unitId base (max left mid) right mid stop (upperLevel - 1)
          else .ok 0)
        return sumFrequency + lower + upper

def frequency (s : Sketch) (unitId t size : UInt64) : Except Fault Int32 :=
  innerFrequency hash fuel s unitId (baseOf s t) (leftOf s t) (rightOf s t size) 0
    (toInt (granules s)) s.counterLevel

def avgFrequency (s : Sketch) (unitId t size : UInt64) : Except Fault Int32 := do
  let cnt := rightOf s t size - leftOf s t
  let sumFrequency ← frequency hash s unitId t size
  if cnt = 0 then .error .divisionByZero else return sumFrequency / cnt

/-- True about `right - left` times out of `stop - start`, by the number of the access. -/
def tryEstAdd (s : Sketch) (left right start stop : Int32) : Bool :=
  let hash := s.refCnt.toUInt32
  let mask := (stop - start) - 1
  let randV := (hash &&& mask.toUInt32).toInt32
  randV < right - left

def innerRecordAccess : Nat → Sketch → UInt64 → Int32 → Int32 → Int32 → Int32 → Int32 → Int32 →
    Except Fault Sketch
  | 0, _, _, _, _, _, _, _, _ => .error .depth
  | fuel + 1, s, unitId, base, left, right, start, stop, upperLevel =>
    if ¬ (start ≤ left ∧ right ≤ stop) then .error .assertion
    else if left = start ∧ right = stop then
      incLazyAddCnt hash s unitId base start stop (upperLevel - 1)
    else do
      let s ← (if tryEstAdd s left right start stop then
          incDyadicCnt hash s unitId base start stop 1 (upperLevel - 1)
        else .ok s)
      let mid := start + (stop - start) / 2
      let s ← (if mid > left then
          innerRecordAccess fuel s unitId base left (min mid right) start mid (upperLevel - 1)
        else .ok s)
      if mid < right then
        innerRecordAccess fuel s unitId base (max left mid) right mid stop (upperLevel - 1)
      else .ok s

def recordAccess (s : Sketch) (unitId t size : UInt64) : Except Fault Sketch :=
  if s.doingReset then .ok s
  else
    innerRecordAccess hash fuel { s with refCnt := s.refCnt + 1 } unitId (baseOf s t) (leftOf s t)
      (rightOf s t size) 0 (toInt (granules s)) s.counterLevel

end Source

variable {hash : UInt64 → UInt64 → UInt32} {p levels : Nat} {s : Sketch}

def addsAt (refCnt : Int32) (l r a b : Nat) : Bool :=
  ((refCnt.toUInt32 &&& (Int32.ofNat b - Int32.ofNat a - 1).toUInt32).toInt32 : Int32) <
    Int32.ofNat r - Int32.ofNat l

theorem tryEstAdd_eq (s : Sketch) (l r a b : Nat) :
    tryEstAdd s (Int32.ofNat l) (Int32.ofNat r) (Int32.ofNat a) (Int32.ofNat b) =
      addsAt s.refCnt l r a b := rfl

def markRows (hash : UInt64 → UInt64 → UInt32) (p : Nat) (unitId : UInt64) (base : Int32)
    (m : Seg × Bool) : List Cell := segRows hash p unitId base m.2 m.1

theorem innerRecordAccess_eq (hash : UInt64 → UInt64 → UInt32)
    {fuel d l r a b : Nat} (hd : d ≤ fuel) (hf : Fits d a b)
    (hlv : d ≤ levels) (hs : Shape p levels s) (hal : a ≤ l) (hlr : l < r) (hrb : r ≤ b)
    (hb : b < 2 ^ 31) (unitId : UInt64) (base : Int32) :
    ∃ s', innerRecordAccess hash fuel s unitId base (Int32.ofNat l) (Int32.ofNat r) (Int32.ofNat a)
        (Int32.ofNat b) (Int32.ofNat d) = .ok s' ∧ Shape p levels s' ∧ frame s' = frame s ∧
      sketchCells s' = raiseAll 15 (sketchCells s)
        ((marks (addsAt s.refCnt) d l r a b).flatMap (markRows hash p unitId base)) := by
  induction d generalizing fuel l r a b s with
  | zero => exact absurd hf.2.2 (Nat.lt_irrefl 0)
  | succ d ih =>
    obtain ⟨fuel, rfl⟩ : ∃ f, fuel = f + 1 := ⟨fuel - 1, by omega⟩
    have hi := halvingStep hf.1 hal hrb (by omega) hb
    rw [innerRecordAccess, if_neg hi.guard, ofNat_succ_sub_one, tryEstAdd_eq]
    simp only [hi.whole, marks]
    by_cases hc : l = a ∧ r = b
    · obtain ⟨s₁, h₁, hs₁, hf₁, hc₁⟩ := incLazyAddCnt_eq hash hs hlv
        unitId base (Int32.ofNat a) (Int32.ofNat b)
      rw [if_pos hc, if_pos hc, h₁]
      exact ⟨s₁, rfl, hs₁, hf₁, by rw [hc₁]; simp [markRows, segRows]⟩
    · have hone : b ≠ a + 1 := by omega
      obtain ⟨s₁, h₁, hs₁, hf₁, hc₁⟩ : ∃ s₁, (if addsAt s.refCnt l r a b = true then
          incDyadicCnt hash s unitId base (Int32.ofNat a) (Int32.ofNat b) 1 (Int32.ofNat d)
          else .ok s) = .ok s₁ ∧ Shape p levels s₁ ∧ frame s₁ = frame s ∧
          sketchCells s₁ = raiseAll 15 (sketchCells s)
            ((if addsAt s.refCnt l r a b = true then [((⟨d, a, b⟩ : Seg), false)] else []).flatMap
              (markRows hash p unitId base)) := by
        by_cases hadd : addsAt s.refCnt l r a b = true
        · obtain ⟨s₁, h₁, hs₁, hf₁, hc₁⟩ := incDyadicCnt_eq hash hs hlv
            unitId base (Int32.ofNat a) (Int32.ofNat b)
          simp only [if_pos hadd]
          exact ⟨s₁, h₁, hs₁, hf₁, by rw [hc₁]; simp [markRows, segRows]⟩
        · simp only [if_neg hadd]
          exact ⟨s, rfl, hs, rfl, rfl⟩
      have href₁ : s₁.refCnt = s.refCnt := refCnt_of_frame hf₁
      obtain ⟨hma, hmb⟩ := hf.mid_bounds hone
      rw [if_neg hc, if_neg hc, h₁, hi.middle, hi.lowStop, hi.highStart]
      simp only [hi.low, hi.high, bind, Except.bind]
      obtain ⟨s₂, h₂, hs₂, hf₂, hc₂⟩ : ∃ s₂, (if l < mid a b then
          innerRecordAccess hash fuel s₁ unitId base (Int32.ofNat l)
            (Int32.ofNat (min (mid a b) r)) (Int32.ofNat a) (Int32.ofNat (mid a b)) (Int32.ofNat d)
          else .ok s₁) = .ok s₂ ∧ Shape p levels s₂ ∧ frame s₂ = frame s₁ ∧
          sketchCells s₂ = raiseAll 15 (sketchCells s₁)
            ((if l < mid a b then marks (addsAt s.refCnt) d l (min (mid a b) r) a (mid a b)
              else []).flatMap (markRows hash p unitId base)) := by
        by_cases hlm : l < mid a b
        · simp only [if_pos hlm, ← href₁]
          exact ih (by omega) (hf.left hone) (by omega) hs₁ hal (by omega) (Nat.min_le_left _ _)
            (by omega)
        · simp only [if_neg hlm]
          exact ⟨s₁, rfl, hs₁, rfl, rfl⟩
      have href₂ : s₂.refCnt = s.refCnt := (refCnt_of_frame hf₂).trans href₁
      obtain ⟨s₃, h₃, hs₃, hf₃, hc₃⟩ : ∃ s₃, (if mid a b < r then
          innerRecordAccess hash fuel s₂ unitId base (Int32.ofNat (max l (mid a b)))
            (Int32.ofNat r) (Int32.ofNat (mid a b)) (Int32.ofNat b) (Int32.ofNat d)
          else .ok s₂) = .ok s₃ ∧ Shape p levels s₃ ∧ frame s₃ = frame s₂ ∧
          sketchCells s₃ = raiseAll 15 (sketchCells s₂)
            ((if mid a b < r then marks (addsAt s.refCnt) d (max l (mid a b)) r (mid a b) b
              else []).flatMap (markRows hash p unitId base)) := by
        by_cases hmr : mid a b < r
        · simp only [if_pos hmr, ← href₂]
          exact ih (by omega) (hf.right hone) (by omega) hs₂ (Nat.le_max_right _ _) (by omega) hrb hb
        · simp only [if_neg hmr]
          exact ⟨s₂, rfl, hs₂, rfl, rfl⟩
      refine ⟨s₃, ?_, hs₃, hf₃.trans (hf₂.trans hf₁), ?_⟩
      · rw [h₂]
        exact h₃
      · rw [hc₃, hc₂, hc₁, ← raiseAll_append, ← raiseAll_append, List.flatMap_append,
          List.flatMap_append]

/-- What the lazy marks on a descent contribute: the smallest of the four counters of each node,
times the length of the part of the range in it. -/
def lazyEstimate (s : Sketch) (rows : Seg → List Cell) (parts : List (Seg × Nat)) : Nat :=
  (parts.map fun part => rowMin intMax (sketchCells s) (rows part.1) * part.2).sum

theorem innerFrequency_eq {fuel d l r a b : Nat} (hd : d ≤ fuel) (hf : Fits d a b)
    (hlv : d ≤ levels) (hs : Shape p levels s) (hal : a ≤ l) (hlr : l < r) (hrb : r ≤ b)
    (hb : b < 2 ^ 31) (unitId : UInt64) (base : Int32) :
    innerFrequency hash fuel s unitId base (Int32.ofNat l) (Int32.ofNat r) (Int32.ofNat a)
      (Int32.ofNat b) (Int32.ofNat d) =
      .ok (Int32.ofNat (lazyEstimate s (segRows hash p unitId base true) (descent d l r a b) +
        estimate s (segRows hash p unitId base false) (cover d l r a b))) := by
  induction d generalizing fuel l r a b with
  | zero => exact absurd hf.2.2 (Nat.lt_irrefl 0)
  | succ d ih =>
    obtain ⟨fuel, rfl⟩ : ∃ f, fuel = f + 1 := ⟨fuel - 1, by omega⟩
    have hi := halvingStep hf.1 hal hrb (by omega) hb
    rw [innerFrequency, if_neg hi.guard, ofNat_succ_sub_one,
      getLazyAddCnt_eq hs hlv]
    simp only [hi.whole, bind, Except.bind, ← Int32.ofNat_sub _ _ hlr.le, ← Int32.ofNat_mul]
    by_cases hc : l = a ∧ r = b
    · rw [if_pos hc, getDyadicCnt_eq hs hlv,
        ← Int32.ofNat_sub _ _ hf.1.le, ← Int32.ofNat_mul]
      simp [estimate, lazyEstimate, cover, descent, if_pos hc, segRows, Seg.size, pure, Except.pure]
    · have hone : b ≠ a + 1 := by omega
      obtain ⟨hma, hmb⟩ := hf.mid_bounds hone
      rw [if_neg hc, hi.middle, hi.lowStop, hi.highStart]
      simp only [hi.low, hi.high]
      let lz := segRows hash p unitId base true
      let dy := segRows hash p unitId base false
      have hlow : (if l < mid a b then
          innerFrequency hash fuel s unitId base (Int32.ofNat l) (Int32.ofNat (min (mid a b) r))
            (Int32.ofNat a) (Int32.ofNat (mid a b)) (Int32.ofNat d) else .ok 0) =
          .ok (Int32.ofNat (
            lazyEstimate s lz (if l < mid a b then descent d l (min (mid a b) r) a (mid a b) else []) +
            estimate s dy (if l < mid a b then cover d l (min (mid a b) r) a (mid a b) else []))) := by
        by_cases hlm : l < mid a b
        · simp only [if_pos hlm]
          exact ih (by omega) (hf.left hone) (by omega) hal (by omega) (Nat.min_le_left _ _) (by omega)
        · simp only [if_neg hlm]
          rfl
      have hupp : (if mid a b < r then
          innerFrequency hash fuel s unitId base (Int32.ofNat (max l (mid a b))) (Int32.ofNat r)
            (Int32.ofNat (mid a b)) (Int32.ofNat b) (Int32.ofNat d) else .ok 0) =
          .ok (Int32.ofNat (
            lazyEstimate s lz (if mid a b < r then descent d (max l (mid a b)) r (mid a b) b else []) +
            estimate s dy (if mid a b < r then cover d (max l (mid a b)) r (mid a b) b else []))) := by
        by_cases hmr : mid a b < r
        · simp only [if_pos hmr]
          exact ih (by omega) (hf.right hone) (by omega) (Nat.le_max_right _ _) (by omega) hrb hb
        · simp only [if_neg hmr]
          rfl
      rw [hlow, hupp]
      simp only [pure, Except.pure, ← Int32.ofNat_add, cover, descent, if_neg hc, estimate,
        lazyEstimate, List.map_append, List.map_cons, List.sum_append, List.sum_cons, lz, dy]
      refine congrArg (fun n => Except.ok (Int32.ofNat n)) ?_
      simp only [segRows]
      omega

end DistExp.GxjSketch
