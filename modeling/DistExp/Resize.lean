import DistExp.FlatRuns
import DistExp.HierarchicalEstimates

namespace DistExp.Resize

open DistExp.Library.MachineInt DistExp.Library.Runs DistExp.Library.AgedCounter
open DistExp.PackedTable DistExp.RangeGeometry DistExp.GranuleLoop DistExp.FlatRuns

def words (n : Int32) : Nat := (Detail.nearestPowerOfTwo n.toUInt32).toNat

def logWords (n : Int32) : Nat := Nat.log 2 (words n)

def kept (table : Table) (n : Int32) : Nat × Fin 16 → Nat := cells (resize table (words n))

def Cleared (table : Table) (n : Int32) : Prop :=
  resize table (words n) = Array.replicate (words n) 0

instance (table : Table) (n : Int32) : Decidable (Cleared table n) :=
  inferInstanceAs (Decidable (_ = _))

def AsNew {σ α β : Type} (recordAccess : σ → α → Except Fault σ)
    (frequency : σ → β → Except Fault Int32) (changed made : Except Fault σ) : Prop :=
  ∃ s s', changed = .ok s ∧ made = .ok s' ∧ ∀ ops,
    outcomes (Call.run recordAccess frequency) s ops =
      outcomes (Call.run recordAccess frequency) s' ops

theorem asNew_iff {σ α β : Type} {recordAccess : σ → α → Except Fault σ}
    {frequency : σ → β → Except Fault Int32} {changed made : Except Fault σ} {s s' : σ}
    (hs : changed = .ok s) (hs' : made = .ok s') :
    AsNew recordAccess frequency changed made ↔
      ∀ past, Alike recordAccess frequency s s' past := by
  rw [← outcomes_eq_iff]
  constructor
  · rintro ⟨r, r', hr, hr', hall⟩
    cases hs.symm.trans hr
    cases hs'.symm.trans hr'
    exact hall
  · exact fun hall => ⟨s, s', hs, hs', hall⟩

variable {n : Int32}

theorem words_eq (hn : ¬ n ≤ 0) : words n = 2 ^ logWords n ∧ logWords n ≤ 31 := by
  obtain ⟨hwords, hlog⟩ : words n = _ ∧ _ := Detail.nearestPowerOfTwo_of_pos hn
  rw [logWords, hwords, Nat.log_pow (by decide)]
  exact ⟨rfl, hlog⟩

theorem resize_sized (hn : ¬ n ≤ 0) (table : Table) :
    PowSized (logWords n) (resize table (words n)) := by
  obtain ⟨hwords, hlog⟩ := words_eq hn
  exact ⟨(size_resize table _).trans hwords, hlog⟩

theorem resize_empty (n : Nat) : resize #[] n = Array.replicate n 0 := by
  simp [resize]

theorem cells_new (n : Int32) : cells (resize #[] (words n)) = fun _ => 0 := by
  funext c
  rw [resize_empty]
  exact cells_replicate _ c

theorem rowMin_lt (t : Table) (row : List (Nat × Fin 16)) :
    rowMin intMax (cells t) row < 2 ^ 31 :=
  Nat.lt_of_le_of_lt (rowMin_le_top (cells t) row intMax) (by decide)

theorem blockFrequency_eq_iff {p : Nat} {t t' : Table} {kept : Nat × Fin 16 → Nat}
    {raised : List (Nat × Fin 16)} (ht : PowSized p t) (ht' : PowSized p t')
    (hkept : ∀ c, kept c ≤ 15) (hc : cells t = raiseAll 15 kept raised)
    (hc' : cells t' = raiseAll 15 (fun _ => 0) raised) (hash : UInt32) :
    FlatTable.blockFrequency t hash = FlatTable.blockFrequency t' hash ↔
      Silent 15 kept raised (FlatTable.rowCells p hash) := by
  rw [FlatTable.blockFrequency_eq ht, FlatTable.blockFrequency_eq ht', Except.ok.injEq,
    ofNat_inj (rowMin_lt t _) (rowMin_lt t' _), hc, hc']
  exact rowMin_raiseAll_eq_iff (by decide) hkept raised _

section CountMin

open DistExp.CountMinSketch

def countMinRecord (hash : UInt64 → UInt32) (s : Sketch) (a : Access) : Except Fault Sketch :=
  recordAccess hash s a.unitId a.t a.size

def CountMinAsNew (hash : UInt64 → UInt32) (s : Sketch) (n : Int32) : Prop :=
  AsNew (countMinRecord hash) (frequency hash) (changeCapacity s n)
    (construct n s.granularity s.unitSize)

def CountMinSilent (hash : UInt64 → UInt32) (s : Sketch) (n : Int32) : Prop :=
  ∀ ops ks, historyKeys s.granularity s.unitSize ops = .ok ks → ∀ x,
    Silent 15 (kept s.table n) (ks.flatMap (keyRows hash (logWords n)))
      (keyRows hash (logWords n) x)

variable {hash : UInt64 → UInt32} {s s' : Sketch} {p : Nat}

theorem countMin_alike_iff (hs : PowSized p s.table) (hs' : PowSized p s'.table)
    (hg : s'.granularity = s.granularity) (hu : s'.unitSize = s.unitSize)
    (hzero : cells s'.table = fun _ => 0) (past : List Access) :
    Alike (countMinRecord hash) (frequency hash) s s' past ↔
      ∀ ks, historyKeys s.granularity s.unitSize past = .ok ks → ∀ x,
        Silent 15 (cells s.table) (ks.flatMap (keyRows hash p)) (keyRows hash p x) := by
  have hrun := run_eq hash hs past []
  have hrun' := run_eq hash hs' past []
  rw [hg, hu] at hrun'
  obtain ⟨ks, t, hks, hfold, hp, hc⟩ | ⟨e, hks, hfold⟩ := hrun
  · obtain ⟨ks', t', hks', hfold', hp', hc'⟩ | ⟨e, he, -⟩ := hrun'
    · cases hks.symm.trans hks'
      rw [hzero] at hc'
      have hask (x : UInt64) := blockFrequency_eq_iff hp hp' (cells_le s.table) hc hc' (hash x)
      constructor
      · rintro (⟨r, r', hr, hr', hsame⟩ | ⟨e, he, -⟩) ks' hks' x
        · cases hks.symm.trans hks'
          cases hfold.symm.trans hr
          cases hfold'.symm.trans hr'
          exact (hask x).mp (hsame x)
        · cases he.symm.trans hfold
      · exact fun hall => Or.inl ⟨_, _, hfold, hfold', fun x => (hask x).mpr (hall ks hks x)⟩
    · cases he.symm.trans hks
  · obtain ⟨ks', t', hks', -⟩ | ⟨e', he, hfold'⟩ := hrun'
    · cases hks.symm.trans hks'
    · cases hks.symm.trans he
      refine iff_of_true (Or.inr ⟨e, hfold, hfold'⟩) fun ks hks' => ?_
      cases hks.symm.trans hks'

theorem countMin_asNew_iff (hn : ¬ n ≤ 0) (hash : UInt64 → UInt32) (s : Sketch) :
    CountMinAsNew hash s n ↔ CountMinSilent hash s n := by
  have hchanged : changeCapacity s n =
      .ok { s with table := resize s.table (words n), size := 0 } := if_neg hn
  have hmade : construct n s.granularity s.unitSize =
      .ok ⟨resize #[] (words n), 0, s.granularity, s.unitSize⟩ := by
    rw [construct, changeCapacity, if_neg hn]
    rfl
  refine (asNew_iff hchanged hmade).trans (forall_congr' fun past => ?_)
  exact @countMin_alike_iff hash { s with table := resize s.table (words n), size := 0 }
    ⟨resize #[] (words n), 0, s.granularity, s.unitSize⟩ (logWords n) (resize_sized hn _)
    (resize_sized hn _) rfl rfl (cells_new n) past

end CountMin

section Hierarchical

open DistExp.HierarchicalSketch DistExp.HierarchicalEstimates

def hierarchicalRecord (hash : UInt64 → UInt64 → UInt32) (s : Sketch)
    (a : HierarchicalEstimates.Access) : Except Fault Sketch :=
  recordAccess hash s a.flowId a.t a.size

def hierarchicalFrequency (hash : UInt64 → UInt64 → UInt32) (s : Sketch)
    (a : HierarchicalEstimates.Access) : Except Fault Int32 :=
  frequency hash s a.flowId a.t a.size

def HierarchicalAsNew (hash : UInt64 → UInt64 → UInt32) (s : Sketch) (n : Int32) : Prop :=
  AsNew (hierarchicalRecord hash) (hierarchicalFrequency hash) (changeCapacity s n)
    (construct n s.granularity)

def rounds (g : UInt64) (a : HierarchicalEstimates.Access) : Nat :=
  (toInt ((a.size + g - 1) / g)).toInt.toNat

def visited (g : UInt64) (a : HierarchicalEstimates.Access) : List (UInt64 × UInt64) :=
  (granuleStarts g (rounds g a) (a.t / g * g)).map fun start => (a.flowId, start)

/-- Whatever is recorded later, none of the granules shows what the table keeps. -/
def HierarchicalSilent (hash : UInt64 → UInt64 → UInt32) (s : Sketch) (n : Int32)
    (granules : Set (UInt64 × UInt64)) : Prop :=
  ∀ (ops : List HierarchicalEstimates.Access), ∀ key ∈ granules,
    Silent 15 (kept s.table n)
      ((ops.flatMap (visited s.granularity)).flatMap (keyRows hash (logWords n)))
      (keyRows hash (logWords n) key)

variable {hash : UInt64 → UInt64 → UInt32} {s s' : Sketch} {p : Nat}

theorem hierarchicalRun_eq (hash : UInt64 → UInt64 → UInt32) (hs : PowSized p s.table)
    (hg : s.granularity ≠ 0) (ops : List HierarchicalEstimates.Access) :
    ∃ s', ops.foldlM (hierarchicalRecord hash) s = .ok s' ∧ PowSized p s'.table ∧
      s'.granularity = s.granularity ∧ cells s'.table = raiseAll 15 (cells s.table)
        ((ops.flatMap (visited s.granularity)).flatMap (keyRows hash p)) := by
  induction ops generalizing s with
  | nil => exact ⟨s, rfl, hs, rfl, rfl⟩
  | cons a ops ih =>
    obtain ⟨table, added, hadd, hp, hc⟩ := addGranules_eq hash s.granularity a.flowId
      (rounds s.granularity a) (a.t / s.granularity * s.granularity) hs false
    have hrec : hierarchicalRecord hash s a =
        .ok { s with table := table, size := s.size + cntOf s a.size } := by
      rw [hierarchicalRecord, recordAccess, if_neg hg]
      change (addGranules hash s.granularity a.flowId (rounds s.granularity a)
        (a.t / s.granularity * s.granularity) (s.table, false) >>= _) = _
      rw [hadd]
      rfl
    obtain ⟨s', hrun, hp', hg', hc'⟩ :=
      ih (s := { s with table := table, size := s.size + cntOf s a.size }) hp hg
    refine ⟨s', ?_, hp', hg', ?_⟩
    · rw [List.foldlM_cons, hrec]
      exact hrun
    · rw [hc', hc, List.flatMap_cons, List.flatMap_append, raiseAll_append, visited,
        List.flatMap_map]
      rfl

theorem granuleMins_eq (hash : UInt64 → UInt64 → UInt32) (hs : PowSized p s.table)
    (a : HierarchicalEstimates.Access) (hg : s.granularity ≠ 0) :
    hierarchicalFrequency hash s a =
      if toInt ((a.size + s.granularity - 1) / s.granularity) = 0 then .error .divisionByZero
      else .ok (Int32.ofNat ((visited s.granularity a).map fun key =>
        rowMin intMax (cells s.table) (keyRows hash p key)).sum /
          toInt ((a.size + s.granularity - 1) / s.granularity)) := by
  have hsum := sumFrequency_eq hash hs a.flowId (rounds s.granularity a)
    (a.t / s.granularity * s.granularity) 0
  rw [Nat.zero_add] at hsum
  rw [hierarchicalFrequency, frequency, if_neg hg]
  change (sumFrequency hash s a.flowId (rounds s.granularity a)
    (a.t / s.granularity * s.granularity) (Int32.ofNat 0) >>= _) = _
  rw [hsum, visited, List.map_map]
  rfl

/-- Any granule of a flow, with any offset in front of it that the loops can start from. -/
def Called (g : UInt64) : Set (UInt64 × UInt64) := {key | ∃ a, key ∈ visited g a}

def Aligned (g : UInt64) : Set (UInt64 × UInt64) := {key | ∃ t, key.2 = t / g * g}

theorem visited_one {g : UInt64} (hg : g ≠ 0) (flowId t : UInt64) :
    toInt ((1 + g - 1) / g) = 1 ∧ visited g ⟨flowId, t, 1⟩ = [(flowId, t / g * g)] := by
  have hcnt : (1 + g - 1) / g = 1 := by
    rw [UInt64.add_comm, UInt64.add_sub_cancel, UInt64.div_self, if_neg hg]
  have hrounds : rounds g ⟨flowId, t, 1⟩ = 1 := by
    rw [rounds]
    change (toInt ((1 + g - 1) / g)).toInt.toNat = 1
    rw [hcnt]
    rfl
  refine ⟨by rw [hcnt]; rfl, ?_⟩
  rw [visited, hrounds]
  rfl

theorem called_subset {g : UInt64} (hdvd : g.toNat ∣ 2 ^ 64) : Called g ⊆ Aligned g := by
  rintro key ⟨a, hkey⟩
  obtain ⟨start, hstart, rfl⟩ := List.mem_map.mp hkey
  rw [granuleStarts_eq] at hstart
  obtain ⟨i, -, rfl⟩ := List.mem_map.mp hstart
  refine ⟨a.t / g * g + UInt64.ofNat i * g, ?_⟩
  have hmul (x : UInt64) : g.toNat ∣ (x * g).toNat := by
    rw [UInt64.toNat_mul]
    exact (Nat.dvd_mod_iff hdvd).mpr (Nat.dvd_mul_left _ _)
  have hsum : g.toNat ∣ (a.t / g * g + UInt64.ofNat i * g).toNat := by
    rw [UInt64.toNat_add]
    exact (Nat.dvd_mod_iff hdvd).mpr (Nat.dvd_add (hmul _) (hmul _))
  apply UInt64.toNat_inj.mp
  rw [UInt64.toNat_mul, UInt64.toNat_div, Nat.div_mul_cancel hsum]
  exact (Nat.mod_eq_of_lt (UInt64.toNat_lt _)).symm

theorem frequency_one (hash : UInt64 → UInt64 → UInt32) (hs : PowSized p s.table)
    (hg : s.granularity ≠ 0) (flowId t : UInt64) :
    hierarchicalFrequency hash s ⟨flowId, t, 1⟩ = .ok (Int32.ofNat (rowMin intMax (cells s.table)
      (keyRows hash p (flowId, t / s.granularity * s.granularity)))) := by
  obtain ⟨hcnt, hone⟩ := visited_one hg flowId t
  rw [granuleMins_eq hash hs _ hg, hone]
  change (if toInt ((1 + s.granularity - 1) / s.granularity) = 0 then _ else Except.ok
    (_ / toInt ((1 + s.granularity - 1) / s.granularity))) = _
  rw [hcnt, if_neg (by decide), List.map_singleton, List.sum_singleton, Int32.div_one]

variable (hs : PowSized p s.table) (hs' : PowSized p s'.table)
  (hgran : s'.granularity = s.granularity) (hzero : cells s'.table = fun _ => 0)

include hs hs' hgran hzero

theorem hierarchical_alike (hg : s.granularity ≠ 0) {past : List HierarchicalEstimates.Access}
    (hsilent : ∀ key ∈ Called s.granularity, Silent 15 (cells s.table)
      ((past.flatMap (visited s.granularity)).flatMap (keyRows hash p)) (keyRows hash p key)) :
    Alike (hierarchicalRecord hash) (hierarchicalFrequency hash) s s' past := by
  obtain ⟨t, hrun, hp, ht, hc⟩ := hierarchicalRun_eq hash hs hg past
  obtain ⟨t', hrun', hp', ht', hc'⟩ := hierarchicalRun_eq hash hs' (hgran ▸ hg) past
  rw [hgran] at ht' hc'
  refine Or.inl ⟨t, t', hrun, hrun', fun a => ?_⟩
  rw [granuleMins_eq hash hp a (ht ▸ hg), granuleMins_eq hash hp' a (ht' ▸ hg), ht, ht']
  have hmins : ((visited s.granularity a).map fun key =>
      rowMin intMax (cells t.table) (keyRows hash p key)) =
      (visited s.granularity a).map fun key =>
        rowMin intMax (cells t'.table) (keyRows hash p key) := by
    refine List.map_congr_left fun key hkey => ?_
    rw [hc, hc', hzero]
    exact (rowMin_raiseAll_eq_iff (by decide) (cells_le s.table) _ _).mpr (hsilent key ⟨a, hkey⟩)
  rw [hmins]

theorem silent_of_alike (hg : s.granularity ≠ 0) {past : List HierarchicalEstimates.Access}
    (h : Alike (hierarchicalRecord hash) (hierarchicalFrequency hash) s s' past) :
    ∀ key ∈ Aligned s.granularity, Silent 15 (cells s.table)
      ((past.flatMap (visited s.granularity)).flatMap (keyRows hash p)) (keyRows hash p key) := by
  obtain ⟨t, hrun, hp, ht, hc⟩ := hierarchicalRun_eq hash hs hg past
  obtain ⟨t', hrun', hp', ht', hc'⟩ := hierarchicalRun_eq hash hs' (hgran ▸ hg) past
  rw [hgran] at ht' hc'
  rintro ⟨flowId, start⟩ ⟨offset, rfl⟩
  obtain ⟨r, r', hr, hr', hask⟩ | ⟨e, he, -⟩ := h
  · cases hrun.symm.trans hr
    cases hrun'.symm.trans hr'
    have hone := hask ⟨flowId, offset, 1⟩
    rw [frequency_one hash hp (ht ▸ hg), frequency_one hash hp' (ht' ▸ hg), ht, ht',
      Except.ok.injEq, ofNat_inj (rowMin_lt _ _) (rowMin_lt _ _), hc, hc', hzero] at hone
    exact (rowMin_raiseAll_eq_iff (by decide) (cells_le s.table) _ _).mp hone
  · cases he.symm.trans hrun

omit hs hs' hgran hzero

theorem hierarchical_alike_of_zero (hg : s.granularity = 0) (hg' : s'.granularity = 0)
    (past : List HierarchicalEstimates.Access) :
    Alike (hierarchicalRecord hash) (hierarchicalFrequency hash) s s' past := by
  cases past with
  | nil =>
    refine Or.inl ⟨s, s', rfl, rfl, fun a => ?_⟩
    rw [hierarchicalFrequency, hierarchicalFrequency, frequency, frequency, if_pos hg, if_pos hg']
  | cons a past =>
    refine Or.inr ⟨.divisionByZero, ?_, ?_⟩
    · rw [List.foldlM_cons, hierarchicalRecord, recordAccess, if_pos hg]
      rfl
    · rw [List.foldlM_cons, hierarchicalRecord, recordAccess, if_pos hg']
      rfl

theorem hierarchical_asNew (hn : ¬ n ≤ 0) (hash : UInt64 → UInt64 → UInt32) (s : Sketch) :
    (HierarchicalSilent hash s n (Called s.granularity) → HierarchicalAsNew hash s n) ∧
    (HierarchicalAsNew hash s n → s.granularity ≠ 0 →
      HierarchicalSilent hash s n (Aligned s.granularity)) := by
  have hchanged : changeCapacity s n =
      .ok { s with table := resize s.table (words n), size := 0 } := if_neg hn
  have hmade : construct n s.granularity = .ok ⟨resize #[] (words n), 0, s.granularity⟩ := by
    rw [construct, changeCapacity, if_neg hn]
    rfl
  constructor
  · intro hsilent
    refine (asNew_iff hchanged hmade).mpr fun past => ?_
    by_cases hg : s.granularity = 0
    · refine hierarchical_alike_of_zero ?_ ?_ past <;> exact hg
    · exact @hierarchical_alike hash { s with table := resize s.table (words n), size := 0 }
        ⟨resize #[] (words n), 0, s.granularity⟩ (logWords n) (resize_sized hn _)
        (resize_sized hn _) rfl (cells_new n) hg past (hsilent past)
  · intro has hg past
    exact @silent_of_alike hash { s with table := resize s.table (words n), size := 0 }
      ⟨resize #[] (words n), 0, s.granularity⟩ (logWords n) (resize_sized hn _)
      (resize_sized hn _) rfl (cells_new n) hg past ((asNew_iff hchanged hmade).mp has past)

end Hierarchical

section Exact

open DistExp.ExactCount

def exactRecord (s : Sketch) (a : Access) : Except Fault Sketch :=
  recordAccess s a.unitId a.t a.size

def ExactAsNew (s : Sketch) (n : Int32) : Prop :=
  AsNew exactRecord frequency (changeCapacity s n) (construct n s.granularity s.unitSize)

variable {g u : UInt64} {s s' : Sketch}

def Traced (s : Sketch) : Prop :=
  ∀ i, s.table[i]?.getD 0 ≠ 0 → ∃ k, Marked s k ∧
    (toSize (toInt (k / (16 * s.granularity)))).toNat = i

theorem Marked.of_word {k : UInt64} (h : Marked s k) (hg : s'.granularity = s.granularity)
    (hword : ∀ w, s.table[(toSize (toInt (k / (16 * s.granularity)))).toNat]? = some w →
      s'.table[(toSize (toInt (k / (16 * s.granularity)))).toNat]? = some w) : Marked s' k := by
  obtain ⟨tableIndex, offset, word, haddr, hw, hbit⟩ := h
  refine ⟨tableIndex, offset, word, ?_, ?_, hbit⟩
  · rw [hg]
    exact haddr
  · rw [address] at haddr
    split at haddr
    · cases haddr
    · cases haddr
      exact elemAt_eq_ok_iff.mpr (hword _ (elemAt_eq_ok_iff.mp hw))

theorem Traced.resize (h : Traced s) (m : Nat) (tableSize : UInt64) :
    Traced { s with tableSize := tableSize, table := PackedTable.resize s.table m, size := 0 } := by
  intro i hi
  dsimp only at hi
  rw [getElem?_resize] at hi
  split at hi
  · next him =>
    obtain ⟨k, hk, hki⟩ := h i hi
    refine ⟨k, Marked.of_word hk rfl fun w hw => ?_, hki⟩
    rw [hki] at hw ⊢
    rw [getElem?_resize, if_pos him, hw]
    rfl
  · exact absurd rfl hi

theorem Traced.innerRecordAccess {k : UInt64} (h : Traced s)
    (hrec : innerRecordAccess s k = .ok s') : Traced s' := by
  intro i hi
  have hgran : s'.granularity = s.granularity :=
    (SameUnits.innerRecordAccess ⟨rfl, rfl⟩ hrec).1
  by_cases hik : (toSize (toInt (k / (16 * s.granularity)))).toNat = i
  · rw [hgran]
    exact ⟨k, marked_of_innerRecordAccess hrec, hik⟩
  · -- the word is as it was
    have hword : s'.table[i]? = s.table[i]? := by
      obtain ⟨⟨tableIndex, offset⟩, haddr, hrec'⟩ := exists_of_bind_ok hrec
      obtain ⟨word, hw, hrec'⟩ := exists_of_bind_ok hrec'
      cases hrec'
      rw [address] at haddr
      split at haddr
      · cases haddr
      · cases haddr
        rw [setAt, Array.getElem?_setIfInBounds_ne hik]
    rw [hword] at hi
    obtain ⟨k', hk', hki⟩ := h i hi
    rw [hgran]
    exact ⟨k', hk'.innerRecordAccess hrec, hki⟩

theorem traced_empty (granularity unitSize : UInt64) :
    Traced { table := #[], size := 0, granularity, unitSize, tableSize := 0 } := by
  intro i hi
  rw [Array.getElem?_empty] at hi
  exact absurd rfl hi

theorem Traced.changeCapacity (h : Traced s) (hs' : changeCapacity s n = .ok s') : Traced s' := by
  rw [ExactCount.changeCapacity] at hs'
  split at hs'
  · cases hs'
  · cases hs'
    exact h.resize _ _

theorem ExactReached.traced (h : ExactReached g u s) : Traced s := by
  induction h with
  | construct h => exact (traced_empty g u).changeCapacity h
  | changeCapacity _ h ih => exact ih.changeCapacity h
  | recordAccess _ _ _ _ h ih =>
    obtain ⟨ks, -, h⟩ := exists_of_bind_ok h
    exact foldlM_preserves (fun _ _ _ _ hs hrec => hs.innerRecordAccess hrec) ih h

theorem exact_asNew_iff (hn : ¬ n ≤ 0) (h : ExactReached g u s) :
    ExactAsNew s n ↔ Cleared s.table n := by
  have hchanged : changeCapacity s n = .ok { s with
      tableSize := (Detail.nearestPowerOfTwo n.toUInt32).toUInt64
      table := resize s.table (words n)
      size := 0 } := if_neg hn
  have hmade : construct n s.granularity s.unitSize = .ok { s with
      tableSize := (Detail.nearestPowerOfTwo n.toUInt32).toUInt64
      table := Array.replicate (words n) 0
      size := 0 } := by
    rw [construct, changeCapacity, if_neg hn, ← resize_empty]
    rfl
  refine (asNew_iff hchanged hmade).trans ?_
  constructor
  · intro has
    rw [Cleared]
    apply Array.ext_getElem?
    intro i
    by_contra hne
    have hword : (resize s.table (words n))[i]?.getD 0 ≠ 0 := by
      rw [getElem?_resize, Array.getElem?_replicate] at hne
      rw [getElem?_resize]
      split at hne
      · next hi =>
        rw [if_pos hi]
        exact fun h0 => hne (congrArg some h0)
      · exact absurd rfl hne
    -- the offset that left the word is still found there
    obtain ⟨k, hk, -⟩ := (ExactReached.traced h).resize (words n)
      (Detail.nearestPowerOfTwo n.toUInt32).toUInt64 i hword
    obtain ⟨f, hf, hpos⟩ := hk.frequency_pos
    have hin := hk.inBounds
    obtain ⟨tableIndex, offset, word, haddr, -⟩ := hk
    obtain ⟨t, t', ht, ht', hask⟩ | ⟨e, he, -⟩ := has []
    · cases ht
      cases ht'
      have hzero : frequency { s with
          tableSize := (Detail.nearestPowerOfTwo n.toUInt32).toUInt64
          table := Array.replicate (words n) 0
          size := 0 } k = .ok 0 := by
        refine frequency_zero (p := logWords n) ?_ (fun h0 => ?_) ?_
        · rw [← (words_eq hn).1]
        · rw [address, if_pos h0] at haddr
          cases haddr
        · rw [InBounds, size_resize] at hin
          rw [InBounds, Array.size_replicate]
          exact hin
      have hask := hask k
      rw [hf, hzero] at hask
      rw [Except.ok.inj hask] at hpos
      exact absurd hpos (by decide)
    · cases he
  · intro hzero past
    rw [hzero]
    exact alike_refl _ past

end Exact

theorem kept_of_cleared {table : Table} (h : Cleared table n) : kept table n = fun _ => 0 := by
  rw [kept, h]
  funext c
  exact cells_replicate _ c

/-- A resized sketch is a new one exactly when what its table keeps never shows. A bit that
`exact_count` set always shows; a counter of the other two sketches shows where the later accesses
hit no counter beside it less often. -/
theorem resized_as_new_iff {n : Int32} (hn : 0 < n) :
    (∀ hash s, CountMinAsNew hash s n ↔ CountMinSilent hash s n) ∧
    (∀ hash s, (HierarchicalSilent hash s n (Called s.granularity) → HierarchicalAsNew hash s n) ∧
      (HierarchicalAsNew hash s n → s.granularity ≠ 0 →
        HierarchicalSilent hash s n (Aligned s.granularity)) ∧
      (s.granularity.toNat ∣ 2 ^ 64 →
        (HierarchicalAsNew hash s n ↔
          HierarchicalSilent hash s n (Called s.granularity)))) ∧
    (∀ g u s, ExactReached g u s → (ExactAsNew s n ↔ Cleared s.table n)) ∧
    (∀ hash s, Cleared s.table n → CountMinSilent hash s n) ∧
    ∀ hash s, Cleared s.table n → HierarchicalSilent hash s n (Called s.granularity) := by
  have hn : ¬ n ≤ 0 := Int32.not_le.mpr hn
  refine ⟨countMin_asNew_iff hn, fun hash s => ?_, fun g u s h => exact_asNew_iff hn h,
    fun hash s h ops ks _ x => ?_, fun hash s h ops key _ => ?_⟩
  · obtain ⟨hnew, hsilent⟩ := hierarchical_asNew hn hash s
    refine ⟨hnew, hsilent, fun hdvd => ⟨fun has ops key hkey => ?_, hnew⟩⟩
    have hg : s.granularity ≠ 0 := by
      intro h0
      rw [h0] at hdvd
      exact absurd hdvd (by decide)
    exact hsilent has hg ops key (called_subset hdvd hkey)
  · rw [kept_of_cleared h]
    exact silent_zero 15 _ _
  · rw [kept_of_cleared h]
    exact silent_zero 15 _ _

theorem resized_as_new_iff_used :
    (∃ s, CountMinReached (Detail.hashInt 0) 1 8 s ∧ s.table.any (· != 0) ∧
      CountMinAsNew (Detail.hashInt 0) s 1) ∧
    (∃ s₀ s, HierarchicalSketch.construct 4 8 = .ok s₀ ∧
      HierarchicalSketch.recordAccess Detail.hash s₀ 0 136 1 = .ok s ∧ s.table.any (· != 0) ∧
      HierarchicalAsNew Detail.hash s 1) ∧
    ∃ s, ExactReached 1 8 s ∧ s.table.any (· != 0) ∧ ExactAsNew s 1 := by
  obtain ⟨hcount, hhier, hexact, hzero, hzero'⟩ := @resized_as_new_iff 1 (by decide)
  refine ⟨?_, ?_, ⟨⟨#[0, 17], 0, 1, 8, 2⟩, ?_, by decide +kernel, ?_⟩⟩
  · have hrun : (do
        let s₀ ← CountMinSketch.construct 8 1 8
        let s ← CountMinSketch.recordAccess (Detail.hashInt 0) s₀ 0 2 1
        return (s.table.any (· != 0), decide (Cleared s.table 1))) = .ok (true, true) := by
      decide +kernel
    obtain ⟨s₀, hs₀, hrun⟩ := exists_of_bind_ok hrun
    obtain ⟨s, hs, hrun⟩ := exists_of_bind_ok hrun
    obtain ⟨hused, hcleared⟩ := Prod.mk.inj (Except.ok.inj hrun)
    exact ⟨s, .recordAccess 0 2 1 (.construct hs₀) hs, hused,
      (hcount _ _).mpr (hzero _ _ (of_decide_eq_true hcleared))⟩
  · have hrun : (do
        let s₀ ← HierarchicalSketch.construct 4 8
        let s ← HierarchicalSketch.recordAccess Detail.hash s₀ 0 136 1
        return (s.table.any (· != 0), decide (Cleared s.table 1))) = .ok (true, true) := by
      decide +kernel
    obtain ⟨s₀, hs₀, hrun⟩ := exists_of_bind_ok hrun
    obtain ⟨s, hs, hrun⟩ := exists_of_bind_ok hrun
    obtain ⟨hused, hcleared⟩ := Prod.mk.inj (Except.ok.inj hrun)
    exact ⟨s₀, s, hs₀, hs, hused,
      (hhier _ _).1 (hzero' _ _ (of_decide_eq_true hcleared))⟩
  · exact .recordAccess 0 16 1 (.construct (n := 2) rfl) (by decide +kernel)
  · exact (hexact 1 8 _ (.recordAccess 0 16 1 (.construct (n := 2) rfl) (by decide +kernel))).mpr
      (by decide)

theorem not_asNew {σ α β : Type} {recordAccess : σ → α → Except Fault σ}
    {frequency : σ → β → Except Fault Int32} {changed made : Except Fault σ} (b : β)
    {f f' : Int32} (hf : (changed >>= fun s => frequency s b) = .ok f)
    (hf' : (made >>= fun s => frequency s b) = .ok f') (hne : f ≠ f') :
    ¬ AsNew recordAccess frequency changed made := by
  rintro ⟨s, s', rfl, rfl, hall⟩
  obtain ⟨t, t', ht, ht', hask⟩ | ⟨e, he, -⟩ := outcomes_eq_iff.mp hall []
  · cases ht
    cases ht'
    exact hne (Except.ok.inj (hf.symm.trans ((hask b).trans hf')))
  · cases he

/-- One access, and a resizing that changes nothing: the counters are still there. -/
theorem access_outlives_resizing :
    (∃ s, CountMinReached (Detail.hashInt 0) 1 8 s ∧ ¬ CountMinAsNew (Detail.hashInt 0) s 1) ∧
    (∃ s₀ s, HierarchicalSketch.construct 1 8 = .ok s₀ ∧
      HierarchicalSketch.recordAccess Detail.hash s₀ 0 0 1 = .ok s ∧
      ¬ HierarchicalAsNew Detail.hash s 1) ∧
    ∃ s, ExactReached 1 8 s ∧ ¬ ExactAsNew s 1 := by
  refine ⟨?_, ?_, ⟨⟨#[17], 0, 1, 8, 1⟩, ?_, ?_⟩⟩
  · have hrun : (do
        let s₀ ← CountMinSketch.construct 1 1 8
        let s ← CountMinSketch.recordAccess (Detail.hashInt 0) s₀ 0 0 1
        let f ← CountMinSketch.changeCapacity s 1 >>=
          fun s => CountMinSketch.frequency (Detail.hashInt 0) s 0
        let f' ← CountMinSketch.construct 1 s.granularity s.unitSize >>=
          fun s => CountMinSketch.frequency (Detail.hashInt 0) s 0
        return (f, f')) = .ok (2, 0) := by decide +kernel
    obtain ⟨s₀, hs₀, hrun⟩ := exists_of_bind_ok hrun
    obtain ⟨s, hs, hrun⟩ := exists_of_bind_ok hrun
    obtain ⟨f, hf, hrun⟩ := exists_of_bind_ok hrun
    obtain ⟨f', hf', hrun⟩ := exists_of_bind_ok hrun
    cases hrun
    exact ⟨s, .recordAccess 0 0 1 (.construct hs₀) hs, not_asNew 0 hf hf' (by decide)⟩
  · have hrun : (do
        let s₀ ← HierarchicalSketch.construct 1 8
        let s ← HierarchicalSketch.recordAccess Detail.hash s₀ 0 0 1
        let f ← HierarchicalSketch.changeCapacity s 1 >>=
          fun s => hierarchicalFrequency Detail.hash s ⟨0, 0, 1⟩
        let f' ← HierarchicalSketch.construct 1 s.granularity >>=
          fun s => hierarchicalFrequency Detail.hash s ⟨0, 0, 1⟩
        return (f, f')) = .ok (1, 0) := by decide +kernel
    obtain ⟨s₀, hs₀, hrun⟩ := exists_of_bind_ok hrun
    obtain ⟨s, hs, hrun⟩ := exists_of_bind_ok hrun
    obtain ⟨f, hf, hrun⟩ := exists_of_bind_ok hrun
    obtain ⟨f', hf', hrun⟩ := exists_of_bind_ok hrun
    cases hrun
    exact ⟨s₀, s, hs₀, hs, not_asNew ⟨0, 0, 1⟩ hf hf' (by decide)⟩
  · exact .recordAccess 0 0 1 (.construct (n := 1) rfl) (by decide +kernel)
  · have hf : (ExactCount.changeCapacity ⟨#[17], 0, 1, 8, 1⟩ 1 >>=
        fun s => ExactCount.frequency s 0) = .ok 1 := by decide +kernel
    have hf' : (ExactCount.construct 1 1 8 >>= fun s => ExactCount.frequency s 0) = .ok 0 := by
      decide +kernel
    exact not_asNew 0 hf hf' (by decide)

end DistExp.Resize
