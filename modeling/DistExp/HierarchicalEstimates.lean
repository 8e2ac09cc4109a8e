import DistExp.HierarchicalSketch
import DistExp.Library.Runs

namespace DistExp.HierarchicalEstimates

open DistExp.Library.MachineInt DistExp.Library.AgedCounter
open DistExp.PackedTable DistExp.HierarchicalSketch

/-- The arguments of a `record_access` or a `frequency` call. -/
structure Access where
  flowId : UInt64
  t : UInt64
  size : UInt64
  deriving DecidableEq

def Access.cnt (g : UInt64) (a : Access) : Nat := (a.size.toNat + g.toNat - 1) / g.toNat

def Access.granule (g : UInt64) (a : Access) (i : Nat) : UInt64 := a.t / g * g + UInt64.ofNat i * g

def Access.granules (g : UInt64) (a : Access) : List (UInt64 × UInt64) :=
  (List.range (a.cnt g)).map fun i => (a.flowId, a.granule g i)

def Access.InBounds (g : UInt64) (a : Access) : Prop :=
  0 < a.size.toNat ∧ a.t.toNat + a.size.toNat + g.toNat < 2 ^ 64 ∧ a.cnt g < 2 ^ 27

inductive Op where
  | record (a : Access)
  | doReset

def Op.run (hash : UInt64 → UInt64 → UInt32) (st : Sketch × List (Event Access)) :
    Op → Except Fault (Sketch × List (Event Access))
  | .record a => do
    let s ← recordAccess hash st.1 a.flowId a.t a.size
    return (s, st.2 ++ [.hit a])
  | .doReset =>
    let (s, done) := HierarchicalSketch.doReset st.1
    .ok (s, if done then st.2 ++ [.halve] else st.2)

/-- The exact counter of one granule of one flow. -/
def granuleRef (g : UInt64) (log : List (Event Access)) (key : UInt64 × UInt64) : Nat :=
  aged 15 (fun a => if key ∈ a.granules g then 1 else 0) log

def keyRows (hash : UInt64 → UInt64 → UInt32) (p : Nat) (key : UInt64 × UInt64) :
    List (Nat × Fin 16) := FlatTable.rowCells p (hash key.1 key.2)

structure Counts (hash : UInt64 → UInt64 → UInt32) (g : UInt64) (p : Nat) (s : Sketch)
    (log : List (Event Access)) : Prop where
  sized : PowSized p s.table
  granularity_eq : s.granularity = g
  counters : ∀ c, cells s.table c = aged 15 (load (Access.granules g) (keyRows hash p) c) log

section Arithmetic

variable {g : UInt64} {a : Access}

theorem Access.InBounds.room (ha : a.InBounds g) : a.size.toNat + g.toNat ≤ 2 ^ 64 := by
  have hsum := ha.2.1
  omega

theorem cntOf_eq {s : Sketch} (hs : s.granularity = g) (hg : 0 < g.toNat)
    (hroom : a.size.toNat + g.toNat ≤ 2 ^ 64) : cntOf s a.size = Int32.ofNat (a.cnt g) := by
  rw [cntOf, hs, toInt, UInt64.toNat_div, toNat_add_sub_one hg hroom]
  rfl

theorem cnt_pos (hg : 0 < g.toNat) (ha : a.InBounds g) : 0 < a.cnt g := by
  have hpos := ha.1
  exact Nat.div_pos (by omega) hg

theorem granule_toNat (ha : a.InBounds g) {i : Nat} (hi : i < a.cnt g) :
    (a.granule g i).toNat = a.t.toNat / g.toNat * g.toNat + i * g.toNat := by
  obtain ⟨hpos, hsum, h27⟩ := ha
  have hstart := Nat.div_mul_le_self a.t.toNat g.toNat
  have hcnt := Nat.div_mul_le_self (a.size.toNat + g.toNat - 1) g.toNat
  have hlast : (i + 1) * g.toNat ≤ a.cnt g * g.toNat := Nat.mul_le_mul_right _ hi
  rw [Nat.succ_mul] at hlast
  rw [Access.cnt] at hlast
  have hi64 : i < 2 ^ 64 := by omega
  rw [Access.granule, UInt64.toNat_add, UInt64.toNat_mul, UInt64.toNat_mul, UInt64.toNat_div,
    UInt64.toNat_ofNat_of_lt' hi64, Nat.mod_eq_of_lt (show _ * g.toNat < 2 ^ 64 by omega),
    Nat.mod_eq_of_lt (show i * g.toNat < 2 ^ 64 by omega)]
  exact Nat.mod_eq_of_lt (by omega)

theorem granules_nodup (hg : 0 < g.toNat) (ha : a.InBounds g) : (a.granules g).Nodup := by
  refine List.Nodup.map_on (fun i hi j hj he => ?_) List.nodup_range
  have ht := congrArg UInt64.toNat (congrArg Prod.snd he)
  simp only [granule_toNat ha (List.mem_range.mp hi), granule_toNat ha (List.mem_range.mp hj)] at ht
  exact Nat.eq_of_mul_eq_mul_right hg (Nat.add_left_cancel ht)

theorem granuleStarts_eq_granules (n : Nat) :
    granuleStarts g n (a.t / g * g) = (List.range n).map (a.granule g) := granuleStarts_eq g n _

end Arithmetic

variable {hash : UInt64 → UInt64 → UInt32} {g : UInt64} {p : Nat} {s : Sketch}
  {log : List (Event Access)}

theorem cnt_toNat {a : Access} (ha : a.InBounds g) :
    (Int32.ofNat (a.cnt g)).toInt.toNat = a.cnt g := by
  have h27 := ha.2.2
  rw [Int32.toInt_ofNat_of_lt (by omega), Int.toNat_natCast]

theorem Counts.granularity_ne_zero (h : Counts hash g p s log) (hg : 0 < g.toNat) :
    s.granularity ≠ 0 := by
  rw [h.granularity_eq]
  rintro rfl
  exact Nat.lt_irrefl 0 hg

theorem Counts.record (h : Counts hash g p s log) (hg : 0 < g.toNat) {a : Access}
    (ha : a.InBounds g) :
    ∃ s', recordAccess hash s a.flowId a.t a.size = .ok s' ∧
      Counts hash g p s' (log ++ [.hit a]) := by
  obtain ⟨t, added, ht, hp, hc⟩ := addGranules_eq hash g a.flowId (a.cnt g)
    (a.t / g * g) h.sized false
  refine ⟨{ s with table := t, size := s.size + Int32.ofNat (a.cnt g) }, ?_, hp, h.granularity_eq,
    fun c => ?_⟩
  · rw [recordAccess, if_neg (h.granularity_ne_zero hg), cntOf_eq h.granularity_eq hg ha.room]
    simp only [cnt_toNat ha, startOf, h.granularity_eq, ht]
    rfl
  · have hrows : ((granuleStarts g (a.cnt g) (a.t / g * g)).flatMap fun x =>
        FlatTable.rowCells p (hash a.flowId x)) = (a.granules g).flatMap (keyRows hash p) := by
      rw [granuleStarts_eq_granules, Access.granules, List.flatMap_map, List.flatMap_map]
      rfl
    rw [hc, hrows]
    exact raiseAll_tracks 15 _ _ h.counters a c

theorem Counts.halve (h : Counts hash g p s log) : Counts hash g p (reset s) (log ++ [.halve]) where
  sized := h.sized.reset
  granularity_eq := h.granularity_eq
  counters := by
    intro c
    have hr : cells (reset s).table = halveAll (cells s.table) := cells_reset s.table
    rw [hr]
    exact halveAll_tracks 15 _ _ h.counters c

theorem construct_counts (hash : UInt64 → UInt64 → UInt32)
    {n : Int32} (hs : construct n g = .ok s) :
    ∃ p, Counts hash g p s [] := by
  rw [construct, changeCapacity] at hs
  split at hs
  · cases hs
  · next hn =>
    cases hs
    obtain ⟨p, hp, htable⟩ := resize_of_capacity hn
    refine ⟨p, ?_, rfl, fun c => ?_⟩
    · rw [htable]
      exact PowSized.replicate hp
    · rw [htable]
      exact cells_replicate _ c

theorem run_counts (h : Counts hash g p s []) (hg : 0 < g.toNat) (ops : List Op)
    (hops : ∀ a, Op.record a ∈ ops → a.InBounds g) :
    ∃ s' log, ops.foldlM (Op.run hash) (s, []) = .ok (s', log) ∧ Counts hash g p s' log ∧
      ∀ a, Event.hit a ∈ log → Op.record a ∈ ops := by
  obtain ⟨⟨s', log⟩, hrun, hc, hlog⟩ := Library.Runs.foldlM_invariant (Op.run hash)
    (fun st => Counts hash g p st.1 st.2 ∧ ∀ a, Event.hit a ∈ st.2 → Op.record a ∈ ops) ops (by
      rintro ⟨s, log⟩ op hop ⟨hs, hlog⟩
      cases op with
      | record a =>
        obtain ⟨s', hrun, hs'⟩ := hs.record hg (hops a hop)
        refine ⟨(s', log ++ [.hit a]), by rw [Op.run, hrun]; rfl, hs', fun b hb => ?_⟩
        obtain hb | hb := List.mem_append.mp hb
        · exact hlog b hb
        · cases List.mem_singleton.mp hb
          exact hop
      | doReset =>
        by_cases hsize : s.size ≥ samplingSize s
        · refine ⟨(reset s, log ++ [.halve]), ?_, hs.halve, fun b hb => hlog b ?_⟩
          · rw [Op.run, HierarchicalSketch.doReset, if_pos hsize]
            rfl
          · obtain hb | hb := List.mem_append.mp hb
            · exact hb
            · cases List.mem_singleton.mp hb
        · refine ⟨(s, log), ?_, hs, hlog⟩
          rw [Op.run, HierarchicalSketch.doReset, if_neg hsize]
          rfl) (s := (s, [])) ⟨h, by simp⟩
  exact ⟨s', log, hrun, hc, hlog⟩

def granuleSum (hash : UInt64 → UInt64 → UInt32) (g : UInt64) (p : Nat) (s : Sketch) (q : Access) :
    Nat :=
  ∑ i ∈ Finset.range (q.cnt g), granuleMin hash p s q.flowId (q.granule g i)

theorem granuleSum_le (hash : UInt64 → UInt64 → UInt32) (q : Access) :
    granuleSum hash g p s q ≤ q.cnt g * 15 := by
  have hle := Finset.sum_le_card_nsmul (Finset.range (q.cnt g))
    (fun i => granuleMin hash p s q.flowId (q.granule g i)) 15 fun _ _ => granuleMin_le _ _
  rw [Finset.card_range, smul_eq_mul] at hle
  exact hle

theorem frequency_eq (h : Counts hash g p s log) (hg : 0 < g.toNat) {q : Access}
    (hq : q.InBounds g) :
    frequency hash s q.flowId q.t q.size =
      .ok (Int32.ofNat (granuleSum hash g p s q / q.cnt g)) := by
  have hpos := cnt_pos hg hq
  have h27 := hq.2.2
  have hle := granuleSum_le hash (g := g) (p := p) (s := s) q
  have hsum : ((granuleStarts g (q.cnt g) (q.t / g * g)).map (granuleMin hash p s q.flowId)).sum =
      granuleSum hash g p s q := by
    rw [granuleStarts_eq_granules, List.map_map]
    rfl
  have hcnt : ¬ Int32.ofNat (q.cnt g) = 0 := by
    intro hz
    have hc := (ofNat_inj (b := 0) (by omega) (by decide)).mp hz
    omega
  have hrun := sumFrequency_eq hash h.sized q.flowId (q.cnt g) (q.t / g * g) 0
  rw [h.granularity_eq, hsum, Nat.zero_add] at hrun
  rw [frequency, if_neg (h.granularity_ne_zero hg), cntOf_eq h.granularity_eq hg hq.room]
  simp only [cnt_toNat hq, startOf, h.granularity_eq]
  have hzero : Int32.ofNat 0 = 0 := rfl
  rw [← hzero, hrun, hzero]
  simp only [bind, Except.bind, if_neg hcnt, pure, Except.pure]
  rw [← Int32.ofNat_div (by omega) (by omega)]

/-- Where the source keeps row `counterIndex` of a granule: the index of the word and the offset in
it. -/
def counterOf (hash : UInt64 → UInt64 → UInt32) (s : Sketch) (key : UInt64 × UInt64)
    (counterIndex : Fin 4) : Int32 × UInt32 :=
  (tableIndex s.table (hash key.1 key.2) counterIndex,
    FlatTable.counterOffset (hash key.1 key.2) counterIndex)

/-- At least one row of the granule has a counter that no other recorded granule uses. -/
def HasPrivateRow (hash : UInt64 → UInt64 → UInt32) (s : Sketch) (recorded : List (UInt64 × UInt64))
    (key : UInt64 × UInt64) : Prop :=
  ∃ j, ∀ other ∈ recorded, other ≠ key → ∀ i, counterOf hash s other i ≠ counterOf hash s key j

instance (hash : UInt64 → UInt64 → UInt32) (s : Sketch) (recorded : List (UInt64 × UInt64))
    (key : UInt64 × UInt64) : Decidable (HasPrivateRow hash s recorded key) :=
  -- over the list: the keys themselves are finitely many too, but far too many to try
  have : ∀ j, Decidable (∀ other ∈ recorded, other ≠ key →
      ∀ i, counterOf hash s other i ≠ counterOf hash s key j) := fun _ => List.decidableBAll _ _
  inferInstanceAs (Decidable (∃ _, _))

def recorded (g : UInt64) (ops : List Op) : List (UInt64 × UInt64) :=
  ops.flatMap fun
    | .record a => a.granules g
    | .doReset => []

theorem HasPrivateRow.exists_cell (h : PowSized p s.table) {keys : List (UInt64 × UInt64)}
    (key : UInt64 × UInt64) (hp : HasPrivateRow hash s keys key) :
    ∃ c ∈ keyRows hash p key, ∀ other ∈ keys, other ≠ key → c ∉ keyRows hash p other := by
  obtain ⟨j, hj⟩ := hp
  refine ⟨_, FlatTable.mem_rowCells.mpr ⟨j, rfl⟩, fun other ho hne hm => ?_⟩
  obtain ⟨i, hi⟩ := FlatTable.mem_rowCells.mp hm
  obtain ⟨hindex, hfield⟩ := Prod.mk.inj hi
  apply hj other ho hne i
  have hoff : FlatTable.counterOffset (hash other.1 other.2) i =
      FlatTable.counterOffset (hash key.1 key.2) j := by
    apply UInt32.toUInt64_inj.mp
    rw [FlatTable.counterOffset_eq, FlatTable.counterOffset_eq, hfield]
  rw [counterOf, counterOf, tableIndex_eq h, tableIndex_eq h, hoff, hindex]

theorem granuleRef_eq (log : List (Event Access)) (key : UInt64 × UInt64) :
    granuleRef g log key = aged 15 (present (Access.granules g) key) log :=
  aged_congr 15 log fun _ _ => (present_eq_ite _ Iff.rfl).symm

theorem granuleRef_le_granuleMin (h : Counts hash g p s log) (key : UInt64 × UInt64) :
    granuleRef g log key ≤ granuleMin hash p s key.1 key.2 := by
  rw [granuleRef_eq, granuleMin, funext h.counters]
  exact present_le_rowMin 15 (Access.granules g) (keyRows hash p) (by decide) log key

theorem granuleMin_eq_granuleRef (h : Counts hash g p s log) (hg : 0 < g.toNat) {ops : List Op}
    (hops : ∀ a, Op.record a ∈ ops → a.InBounds g)
    (hlog : ∀ a, Event.hit a ∈ log → Op.record a ∈ ops) {s₀ : Sketch} (hs₀ : PowSized p s₀.table)
    (key : UInt64 × UInt64) (hp : HasPrivateRow hash s₀ (recorded g ops) key) :
    granuleMin hash p s key.1 key.2 = granuleRef g log key := by
  obtain ⟨c, hc, hother⟩ := hp.exists_cell hs₀
  rw [granuleRef_eq, granuleMin, funext h.counters]
  refine rowMin_eq_present 15 (Access.granules g) (keyRows hash p) (by decide) log key
    (FlatTable.rowCells_nodup _ _) hc ?_ ?_
  · exact fun a ha => granules_nodup hg (hops a (hlog a ha))
  · exact fun a ha other ho hne =>
      hother other (List.mem_flatMap.mpr ⟨.record a, hlog a ha, ho⟩) hne

/-- `hierarchical_frequency_sketch` never underestimates: whatever granules collide, a query
returns at least the average of the exact counters of its granules and at most 15, and exactly
that average where every granule has a private row. -/
theorem frequency_ge_average (hash : UInt64 → UInt64 → UInt32)
    (hg : 0 < g.toNat) {n : Int32} {s₀ : Sketch}
    (hs₀ : construct n g = .ok s₀) (ops : List Op)
    (hops : ∀ a, Op.record a ∈ ops → a.InBounds g) {q : Access} (hq : q.InBounds g) :
    ∃ s log f, ops.foldlM (Op.run hash) (s₀, []) = .ok (s, log) ∧
      frequency hash s q.flowId q.t q.size = .ok f ∧
      (((∑ i ∈ Finset.range (q.cnt g), granuleRef g log (q.flowId, q.granule g i)) / q.cnt g : Nat) :
        Int) ≤ f.toInt ∧
      f.toInt ≤ 15 ∧
      ((∀ i < q.cnt g, HasPrivateRow hash s₀ (recorded g ops) (q.flowId, q.granule g i)) →
        f.toInt = ((∑ i ∈ Finset.range (q.cnt g),
          granuleRef g log (q.flowId, q.granule g i)) / q.cnt g : Nat)) := by
  obtain ⟨p, hc₀⟩ := construct_counts hash hs₀
  obtain ⟨s, log, hrun, hc, hlog⟩ := run_counts hc₀ hg ops hops
  have hpos := cnt_pos hg hq
  have hle : granuleSum hash g p s q / q.cnt g ≤ 15 :=
    Nat.div_le_of_le_mul (granuleSum_le hash q)
  refine ⟨s, log, _, hrun, frequency_eq hc hg hq, ?_⟩
  rw [Int32.toInt_ofNat_of_lt (by omega)]
  refine ⟨?_, by exact_mod_cast hle, fun hpriv => ?_⟩
  · exact Int.ofNat_le.mpr (Nat.div_le_div_right
      (Finset.sum_le_sum fun i _ => granuleRef_le_granuleMin hc (q.flowId, q.granule g i)))
  · have hsum : granuleSum hash g p s q =
        ∑ i ∈ Finset.range (q.cnt g), granuleRef g log (q.flowId, q.granule g i) :=
      Finset.sum_congr rfl fun i hi => granuleMin_eq_granuleRef hc hg hops hlog hc₀.sized
        (q.flowId, q.granule g i) (hpriv i (Finset.mem_range.mp hi))
    rw [hsum]

/-- Ten accesses to two granules of flow 7, with which a reset is due, and a later one to the first of
them, after which none is. -/
def sampleOps : List Op :=
  List.replicate 10 (.record ⟨7, 8, 16⟩) ++ [.doReset, .record ⟨7, 8, 1⟩, .doReset]

def sampleSketch : Sketch := ⟨Array.replicate 1 0, 0, 8⟩

theorem construct_sample : construct 1 8 = .ok sampleSketch := rfl

theorem sampleOps_inBounds : ∀ a, Op.record a ∈ sampleOps → a.InBounds 8 := by
  intro a ha
  simp only [sampleOps, List.mem_append, List.mem_replicate, List.mem_cons, Op.record.injEq,
    reduceCtorEq, List.not_mem_nil, or_false, false_or] at ha
  rcases ha with ⟨-, rfl⟩ | rfl <;> exact ⟨by decide, by decide, by decide⟩

/-- Both granules of the query have private rows, so the average is exact: halved once, the counters
are six and five. -/
theorem frequency_ge_average_sample :
    ∃ s log f, sampleOps.foldlM (Op.run Detail.hash) (sampleSketch, []) = .ok (s, log) ∧
      log.count .halve = 1 ∧ frequency Detail.hash s 7 8 16 = .ok f ∧ f.toInt ≤ 15 ∧ f.toInt = 5 := by
  have hpriv : ∀ i < 2, HasPrivateRow Detail.hash sampleSketch (recorded 8 sampleOps)
      (7, 8 + UInt64.ofNat i * 8) := by decide +kernel
  obtain ⟨s, log, f, hrun, hf, -, hle, hexact⟩ := frequency_ge_average Detail.hash
    (by decide) construct_sample sampleOps sampleOps_inBounds (q := ⟨7, 8, 16⟩)
    ⟨by decide, by decide, by decide⟩
  have hlog : (do return (← sampleOps.foldlM (Op.run Detail.hash) (sampleSketch, [])).2) =
      .ok (List.replicate 10 (.hit ⟨7, 8, 16⟩) ++ [.halve, .hit ⟨7, 8, 1⟩]) := by decide +kernel
  rw [hrun] at hlog
  obtain rfl := Except.ok.inj hlog
  refine ⟨s, _, f, hrun, by decide, hf, hle, (hexact hpriv).trans ?_⟩
  decide +kernel

end DistExp.HierarchicalEstimates
