import DistExp.Msgpack.Parse
import DistExp.Msgpack.Pack

namespace DistExp.Msgpack.Accepts

open DistExp.Library.Bytes DistExp.Msgpack.Format DistExp.Msgpack.Parse DistExp.Msgpack.Pack

variable {stack : List StackElem} {c c' : Context} {o : Obj} {bs rest : List UInt8}

def Ready (c : Context) : Prop :=
  match c.mode with
  | .header => True
  | .trail _ trail => 0 < trail

def Leaves (rest : List UInt8) : Iteration → Prop
  | .go c rest' => rest' = rest ∧ Ready c
  | .finish _ => True

theorem leaves_afterVisit (stack : List StackElem) (o : Obj) (rest : List UInt8) :
    Leaves rest (afterVisit stack o rest) := by
  unfold afterVisit
  split
  · trivial
  · exact ⟨rfl, trivial⟩

theorem leaves_startArray (stack : List StackElem) (size : Nat) (rest : List UInt8) :
    Leaves rest (startArray stack size rest) := by
  unfold startArray
  split
  · exact leaves_afterVisit stack _ rest
  · exact ⟨rfl, trivial⟩

theorem leaves_startMap (stack : List StackElem) (size : Nat) (rest : List UInt8) :
    Leaves rest (startMap stack size rest) := by
  unfold startMap
  split
  · exact leaves_afterVisit stack _ rest
  · exact ⟨rfl, trivial⟩

theorem leaves_sized (stack : List StackElem) (value : Cs) (size : Nat) (empty : Obj)
    (rest : List UInt8) : Leaves rest (sized stack value size empty rest) := by
  unfold sized
  split
  · exact leaves_afterVisit stack _ rest
  · exact ⟨rfl, Nat.pos_of_ne_zero (by assumption)⟩

theorem trails_pos : ∀ row ∈ trails, 0 < row.2 := by decide

theorem leaves_header (stack : List StackElem) (b : UInt8) (rest : List UInt8) :
    Leaves rest (header stack b rest) := by
  unfold header
  dsimp only
  split_ifs
  · exact leaves_afterVisit stack _ rest
  · exact leaves_afterVisit stack _ rest
  · split
    · rename_i cs trail hrow
      exact ⟨rfl, trails_pos (cs, trail) (List.mem_of_getElem? hrow)⟩
    · trivial
  · exact leaves_afterVisit stack _ rest
  · exact ⟨rfl, Nat.pos_of_ne_zero (by assumption)⟩
  · exact leaves_startArray stack _ rest
  · exact leaves_startMap stack _ rest
  · exact leaves_afterVisit stack _ rest
  · exact leaves_afterVisit stack _ rest
  · exact leaves_afterVisit stack _ rest
  · trivial

theorem leaves_trailing (stack : List StackElem) (cs : Cs) (bytes rest : List UInt8) :
    Leaves rest (trailing stack cs bytes rest) := by
  cases cs with
  | bin _ | ext _ | str _ => exact leaves_sized stack _ _ _ rest
  | array _ => exact leaves_startArray stack _ rest
  | map _ => exact leaves_startMap stack _ rest
  | _ => exact leaves_afterVisit stack _ rest

theorem iterate_go (hc : Ready c) (h : iterate c bs = .go c' rest) :
    rest.length < bs.length ∧ Ready c' := by
  cases bs with
  | nil => cases h
  | cons b bs =>
    obtain ⟨mode, stack⟩ := c
    cases mode with
    | header =>
      have hleaves := leaves_header stack b bs
      rw [show header stack b bs = .go c' rest from h] at hleaves
      obtain ⟨rfl, hc'⟩ := hleaves
      exact ⟨Nat.lt_succ_self _, hc'⟩
    | trail cs trail =>
      simp only [iterate] at h
      split at h
      · cases h
      · have hleaves := leaves_trailing stack cs ((b :: bs).take trail) ((b :: bs).drop trail)
        rw [h] at hleaves
        obtain ⟨rfl, hc'⟩ := hleaves
        have hpos : 0 < trail := hc
        refine ⟨?_, hc'⟩
        rw [List.length_drop, List.length_cons]
        omega

theorem execute_fuel {m n : Nat} (hc : Ready c) (hm : bs.length < m) (hn : bs.length < n) :
    execute m c bs = execute n c bs := by
  induction m generalizing n c bs with
  | zero => omega
  | succ m ih =>
    obtain ⟨n, rfl⟩ : ∃ k, n = k + 1 := ⟨n - 1, by omega⟩
    rw [execute, execute]
    cases hit : iterate c bs with
    | finish ret => rfl
    | go c' rest =>
      obtain ⟨hlen, hc'⟩ := iterate_go hc hit
      exact ih hc' (by omega) (by omega)

/-- The loop of `execute` with as many rounds as it needs. -/
def run (c : Context) (bs : List UInt8) : ParseReturn := execute (bs.length + 1) c bs

def finishRun : Iteration → ParseReturn
  | .go c rest => run c rest
  | .finish ret => ret

theorem run_eq (hc : Ready c) : run c bs = finishRun (iterate c bs) := by
  rw [run, execute]
  cases hit : iterate c bs with
  | finish ret => rfl
  | go c' rest =>
    obtain ⟨hlen, hc'⟩ := iterate_go hc hit
    exact execute_fuel hc' hlen (Nat.lt_succ_self _)

theorem run_header (b : UInt8) (rest : List UInt8) :
    run ⟨.header, stack⟩ (b :: rest) = finishRun (header stack b rest) :=
  run_eq trivial

theorem run_trail {cs : Cs} {bytes : List UInt8} (h : bytes ≠ []) :
    run ⟨.trail cs bytes.length, stack⟩ (bytes ++ rest) =
      finishRun (trailing stack cs bytes rest) := by
  obtain ⟨b, bytes, rfl⟩ := List.exists_cons_of_ne_nil h
  rw [run_eq (c := ⟨.trail cs (b :: bytes).length, stack⟩) (Nat.zero_lt_succ _)]
  simp only [List.cons_append, iterate]
  rw [if_neg (by simp), ← List.cons_append, List.take_left, List.drop_left]

section Header

theorem toNat_ofNat_lt {n : Nat} (h : n < 256) : (UInt8.ofNat n).toNat = n :=
  UInt8.toNat_ofNat_of_lt' h

theorem header_fixint {n : Nat} (h : n < 128) :
    header stack (UInt8.ofNat n) rest = afterVisit stack (.integer n) rest := by
  unfold header
  rw [toNat_ofNat_lt (by omega)]
  exact if_pos (by omega)

theorem header_negative {k : Nat} (h : k < 32) :
    header stack (UInt8.ofNat (224 + k)) rest =
      afterVisit stack (.integer ((224 + k : Nat) - 256)) rest := by
  have hall : ∀ k < 32, (UInt8.ofNat (224 + k)).toInt8.toInt = ((224 + k : Nat) : Int) - 256 := by
    decide
  unfold header
  dsimp only
  rw [toNat_ofNat_lt (by omega), if_neg (by omega), if_pos (by omega), hall k h]

theorem header_fixstr {n : Nat} (h : n < 32) :
    header stack (UInt8.ofNat (0xa0 + n)) rest =
      if n = 0 then afterVisit stack (.str []) rest else .go ⟨.trail .strValue n, stack⟩ rest := by
  have hmod : (0xa0 + n) % 32 = n := by omega
  unfold header
  dsimp only
  rw [toNat_ofNat_lt (by omega), if_neg (by omega), if_neg (by omega), if_neg (by omega),
    if_pos (by omega), hmod]

theorem header_fixarray {n : Nat} (h : n < 16) :
    header stack (UInt8.ofNat (0x90 + n)) rest = startArray stack n rest := by
  have hmod : (0x90 + n) % 16 = n := by omega
  unfold header
  dsimp only
  rw [toNat_ofNat_lt (by omega), if_neg (by omega), if_neg (by omega), if_neg (by omega),
    if_neg (by omega), if_pos (by omega), hmod]

theorem header_fixmap {n : Nat} (h : n < 16) :
    header stack (UInt8.ofNat (0x80 + n)) rest = startMap stack n rest := by
  have hmod : (0x80 + n) % 16 = n := by omega
  unfold header
  dsimp only
  rw [toNat_ofNat_lt (by omega), if_neg (by omega), if_neg (by omega), if_neg (by omega),
    if_neg (by omega), if_neg (by omega), if_pos (by omega), hmod]

/-- The header byte `b` is followed by `trail` bytes of the kind `cs`. -/
def Row (b : UInt8) (trail : Nat) : Cs → Prop
  | .bin w => (b, w) ∈ binCodes ∧ trail = w
  | .ext w => (b, w) ∈ extCodes ∧ trail = w
  | .float => b = 0xca ∧ trail = 4
  | .double => b = 0xcb ∧ trail = 8
  | .uint w => (b, w) ∈ uintCodes ∧ trail = w
  | .int w => (b, w) ∈ intCodes ∧ trail = w
  | .fixext n => (b, n) ∈ fixextCodes ∧ trail = n + 1
  | .str w => (b, w) ∈ strCodes ∧ trail = w
  | .array w => (b, w) ∈ arrayCodes ∧ trail = w
  | .map w => (b, w) ∈ mapCodes ∧ trail = w
  | .strValue | .binValue | .extValue => False

instance (b : UInt8) (trail : Nat) : (cs : Cs) → Decidable (Row b trail cs)
  | .bin _ | .ext _ | .float | .double | .uint _ | .int _ | .fixext _ | .str _ | .array _ | .map _ =>
    inferInstanceAs (Decidable (_ ∧ _))
  | .strValue | .binValue | .extValue => inferInstanceAs (Decidable False)

theorem row_trails : ∀ i : Fin trails.length,
    Row (UInt8.ofNat (0xc4 + i)) (trails.get i).2 (trails.get i).1 := by decide

abbrev Found (b : UInt8) (trail : Nat) (cs : Cs) : Prop :=
  0xc4 ≤ b.toNat ∧ b.toNat < 0xe0 ∧ trails[b.toNat - 0xc4]? = some (cs, trail)

theorem found_of_row {b : UInt8} {cs : Cs} {trail : Nat} (h : Row b trail cs) :
    Found b trail cs := by
  have hbin : ∀ cw ∈ binCodes, Found cw.1 cw.2 (.bin cw.2) := by decide
  have hext : ∀ cw ∈ extCodes, Found cw.1 cw.2 (.ext cw.2) := by decide
  have huint : ∀ cw ∈ uintCodes, Found cw.1 cw.2 (.uint cw.2) := by decide
  have hint : ∀ cw ∈ intCodes, Found cw.1 cw.2 (.int cw.2) := by decide
  have hfixext : ∀ cw ∈ fixextCodes, Found cw.1 (cw.2 + 1) (.fixext cw.2) := by decide
  have hstr : ∀ cw ∈ strCodes, Found cw.1 cw.2 (.str cw.2) := by decide
  have harray : ∀ cw ∈ arrayCodes, Found cw.1 cw.2 (.array cw.2) := by decide
  have hmap : ∀ cw ∈ mapCodes, Found cw.1 cw.2 (.map cw.2) := by decide
  cases cs with
  | bin w => exact h.2 ▸ hbin _ h.1
  | ext w => exact h.2 ▸ hext _ h.1
  | float =>
    obtain ⟨rfl, rfl⟩ := h
    decide
  | double =>
    obtain ⟨rfl, rfl⟩ := h
    decide
  | uint w => exact h.2 ▸ huint _ h.1
  | int w => exact h.2 ▸ hint _ h.1
  | fixext n => exact h.2 ▸ hfixext _ h.1
  | str w => exact h.2 ▸ hstr _ h.1
  | array w => exact h.2 ▸ harray _ h.1
  | map w => exact h.2 ▸ hmap _ h.1
  | strValue | binValue | extValue => exact absurd h not_false

theorem header_row {b : UInt8} {cs : Cs} {trail : Nat} (h : Row b trail cs) :
    header stack b rest = .go ⟨.trail cs trail, stack⟩ rest := by
  obtain ⟨hlow, hhigh, hrow⟩ := found_of_row h
  unfold header
  dsimp only
  rw [if_neg (by omega), if_neg (by omega), if_pos hlow, hrow]

end Header

theorem run_row {b : UInt8} {cs : Cs} {bytes : List UInt8} (h : Row b bytes.length cs)
    (hne : bytes ≠ []) :
    run ⟨.header, stack⟩ (b :: bytes ++ rest) = finishRun (trailing stack cs bytes rest) := by
  rw [List.cons_append, run_header, header_row h]
  exact run_trail hne

section Complete

theorem run_tag {fix limit n : Nat} {sized : List (UInt8 × Nat)} {tag : List UInt8}
    {f : Nat → List UInt8 → Iteration} {k : Nat → Cs}
    (h : Tag fix limit sized n tag)
    (hfix : ∀ n < limit, header stack (UInt8.ofNat (fix + n)) rest = f n rest)
    (hrow : ∀ cw ∈ sized, Row cw.1 cw.2 (k cw.2) ∧ 0 < cw.2)
    (htrailing : ∀ w bytes, trailing stack (k w) bytes rest = f (ofBigEndian bytes) rest) :
    run ⟨.header, stack⟩ (tag ++ rest) = finishRun (f n rest) := by
  obtain ⟨hlt, rfl⟩ | ⟨cw, hcw, hlt, rfl⟩ := h
  · rw [List.singleton_append, run_header, hfix n hlt]
  · obtain ⟨hb, hpos⟩ := hrow cw hcw
    have hlen := length_bigEndian cw.2 n
    rw [run_row (by rwa [hlen]) (List.ne_nil_of_length_pos (by rwa [hlen])), htrailing cw.2,
      ofBigEndian_bigEndian, Nat.mod_eq_of_lt hlt]

theorem run_arrayTag {n : Nat} {tag : List UInt8} (h : ArrayTag n tag) :
    run ⟨.header, stack⟩ (tag ++ rest) = finishRun (startArray stack n rest) :=
  run_tag (f := startArray stack) (k := .array) h (fun _ hn => header_fixarray hn) (by decide)
    fun _ _ => rfl

theorem run_mapTag {n : Nat} {tag : List UInt8} (h : MapTag n tag) :
    run ⟨.header, stack⟩ (tag ++ rest) = finishRun (startMap stack n rest) :=
  run_tag (f := startMap stack) (k := .map) h (fun _ hn => header_fixmap hn) (by decide)
    fun _ _ => rfl

theorem run_uintTag {n : Nat} {tag : List UInt8} (h : UintTag n tag) :
    run ⟨.header, stack⟩ (tag ++ rest) = finishRun (afterVisit stack (.integer n) rest) :=
  run_tag (f := fun n rest => afterVisit stack (.integer n) rest) (k := .uint) h
    (fun n hn => by rw [Nat.zero_add, header_fixint hn]) (by decide) fun _ _ => rfl

theorem run_strTag {n : Nat} {tag : List UInt8} (h : StrTag n tag) :
    run ⟨.header, stack⟩ (tag ++ rest) = finishRun (sized stack .strValue n (.str []) rest) :=
  run_tag (f := fun n rest => sized stack .strValue n (.str []) rest) (k := .str) h
    (fun n hn => header_fixstr hn) (by decide) fun _ _ => rfl

theorem run_binTag {n : Nat} {tag : List UInt8} (h : BinTag n tag) :
    run ⟨.header, stack⟩ (tag ++ rest) = finishRun (sized stack .binValue n (.bin []) rest) :=
  run_tag (f := fun n rest => sized stack .binValue n (.bin []) rest) (k := .bin) h
    (fun n hn => absurd hn (Nat.not_lt_zero n)) (by decide) fun _ _ => rfl

theorem run_sized {value : Cs} {visit : List UInt8 → Obj} (s : List UInt8)
    (h : ∀ bytes, trailing stack value bytes rest = afterVisit stack (visit bytes) rest) :
    finishRun (sized stack value s.length (visit []) (s ++ rest)) =
      finishRun (afterVisit stack (visit s) rest) := by
  by_cases hs : s = []
  · subst hs
    rfl
  · rw [sized, if_neg (by simpa using hs)]
    change run _ _ = _
    rw [run_trail hs, h]

theorem signed_bigEndian {w : Nat} {v : Int} (hw : 0 < w) (hlow : -(2 ^ (8 * w - 1) : Nat) ≤ v)
    (hhigh : v < (2 ^ (8 * w - 1) : Nat)) :
    signed (bigEndian w (v % (256 ^ w : Nat)).toNat) = v := by
  have hpow : 256 ^ w = 2 * 2 ^ (8 * w - 1) := by
    rw [← Nat.pow_succ', show (256 : Nat) = 2 ^ 8 from rfl, ← Nat.pow_mul]
    congr 1
    omega
  have hpos : (0 : Int) < (256 ^ w : Nat) := by positivity
  have hnonneg := Int.emod_nonneg v hpos.ne'
  have hlt := Int.emod_lt_of_pos v hpos
  rw [signed, ofBigEndian_bigEndian, length_bigEndian, Nat.mod_eq_of_lt (by omega),
    Int.toNat_of_nonneg hnonneg, Int.emod_bmod]
  exact Int.bmod_eq_of_le (by omega) (by omega)

theorem run_scalar (h : Scalar o bs) :
    run ⟨.header, stack⟩ (bs ++ rest) = finishRun (afterVisit stack o rest) := by
  cases h with
  | nil | false | true => exact run_header _ rest
  | uint h => exact run_uintTag h
  | @negative v hlow hneg =>
    obtain ⟨k, hk, rfl⟩ : ∃ k < 32, v = (224 + k : Nat) - 256 :=
      ⟨(v + 32).toNat, by omega, by omega⟩
    rw [List.singleton_append, run_header, show (256 + ((224 + k : Nat) - 256 : Int)).toNat = 224 + k
      by omega, header_negative hk]
  | @int v cw hcw hlow hhigh =>
    have hrow : ∀ cw ∈ intCodes, Row cw.1 cw.2 (.int cw.2) ∧ 0 < cw.2 := by decide
    obtain ⟨hb, hpos⟩ := hrow cw hcw
    have hlen := length_bigEndian cw.2 (v % (256 ^ cw.2 : Nat)).toNat
    rw [run_row (by rwa [hlen]) (List.ne_nil_of_length_pos (by rwa [hlen])), trailing,
      signed_bigEndian hpos hlow hhigh]
  | float32 bits =>
    have hlt : bits.toNat < 256 ^ 4 := bits.toNat_lt
    have hlen := length_bigEndian 4 bits.toNat
    rw [run_row (show Row _ _ .float by rw [hlen]; exact ⟨rfl, rfl⟩)
      (List.ne_nil_of_length_pos (by rw [hlen]; decide)), trailing, ofBigEndian_bigEndian,
      Nat.mod_eq_of_lt hlt, UInt32.ofNat_toNat]
  | float64 bits =>
    have hlt : bits.toNat < 256 ^ 8 := bits.toNat_lt
    have hlen := length_bigEndian 8 bits.toNat
    rw [run_row (show Row _ _ .double by rw [hlen]; exact ⟨rfl, rfl⟩)
      (List.ne_nil_of_length_pos (by rw [hlen]; decide)), trailing, ofBigEndian_bigEndian,
      Nat.mod_eq_of_lt hlt, UInt64.ofNat_toNat]
  | @str s tag h =>
    rw [List.append_assoc, run_strTag h]
    exact run_sized s fun _ => rfl
  | @bin s tag h =>
    rw [List.append_assoc, run_binTag h]
    exact run_sized s fun _ => rfl
  | @fixext type s cw hcw h =>
    have hrow : ∀ cw ∈ fixextCodes, Row cw.1 (cw.2 + 1) (.fixext cw.2) := by decide
    have hb := hrow cw hcw
    rw [run_row (show Row cw.1 (type :: s).length _ by rwa [List.length_cons, h])
      (List.cons_ne_nil _ _)]
    rfl
  | @ext type s cw hcw h =>
    have hrow : ∀ cw ∈ extCodes, Row cw.1 cw.2 (.ext cw.2) ∧ 0 < cw.2 := by decide
    obtain ⟨hb, hpos⟩ := hrow cw hcw
    have hlen := length_bigEndian cw.2 s.length
    rw [List.append_assoc, run_row (by rwa [hlen]) (List.ne_nil_of_length_pos (by rwa [hlen])),
      trailing, ofBigEndian_bigEndian, Nat.mod_eq_of_lt h, sized, if_neg (Nat.succ_ne_zero _)]
    change run _ _ = _
    rw [← List.length_cons, run_trail (List.cons_ne_nil _ _)]
    rfl

/-- How many objects the container of `e` still lacks. -/
def left (e : StackElem) : Nat :=
  match e.type with
  | .arrayItem => e.rest
  | .mapKey => 2 * e.rest
  | .mapValue => 2 * e.rest - 1

def add (e : StackElem) (o : Obj) : StackElem :=
  match e.type with
  | .arrayItem => ⟨.arrayItem, e.rest - 1, o :: e.items⟩
  | .mapKey => ⟨.mapValue, e.rest, o :: e.items⟩
  | .mapValue => ⟨.mapKey, e.rest - 1, o :: e.items⟩

/-- The container of `e` once `os` have been read into it. -/
def close (e : StackElem) (os : List Obj) : Obj :=
  match e.type with
  | .arrayItem => .array (e.items.reverse ++ os)
  | .mapKey | .mapValue => .map (e.items.reverse ++ os)

variable {e : StackElem} {os : List Obj}

theorem left_add (h : 1 < left e) : left (add e o) + 1 = left e := by
  obtain ⟨type, n, items⟩ := e
  cases type <;> simp only [left, add] at h ⊢ <;> omega

theorem close_add (e : StackElem) (o : Obj) (os : List Obj) :
    close (add e o) os = close e (o :: os) := by
  obtain ⟨type, n, items⟩ := e
  cases type <;> simp [close, add]

theorem afterVisit_last (h : left e = 1) :
    afterVisit (e :: stack) o rest = afterVisit stack (close e [o]) rest := by
  obtain ⟨type, n, items⟩ := e
  cases type with
  | arrayItem =>
    obtain rfl : n = 1 := h
    simp [afterVisit, consume, close]
  | mapKey =>
    have h : 2 * n = 1 := h
    omega
  | mapValue =>
    have h : 2 * n - 1 = 1 := h
    obtain rfl : n = 1 := by omega
    simp [afterVisit, consume, close]

theorem afterVisit_more (h : 1 < left e) :
    afterVisit (e :: stack) o rest = .go ⟨.header, add e o :: stack⟩ rest := by
  obtain ⟨type, n, items⟩ := e
  cases type with
  | arrayItem =>
    have hn : ¬n - 1 = 0 := by
      have h : 1 < n := h
      omega
    simp [afterVisit, consume, add, hn]
  | mapKey => rfl
  | mapValue =>
    have hn : ¬n - 1 = 0 := by
      have h : 1 < 2 * n - 1 := h
      omega
    simp [afterVisit, consume, add, hn]

/-- The parser reads the objects `os` off `bs`, into any container that lacks as many. -/
structure Reads (os : List Obj) (bs : List UInt8) : Prop where
  nil : os = [] → bs = []
  run : ∀ (e : StackElem) (stack : List StackElem) (rest : List UInt8), os ≠ [] →
    left e = os.length →
    Accepts.run ⟨.header, e :: stack⟩ (bs ++ rest) = finishRun (afterVisit stack (close e os) rest)

theorem Reads.cons {cs : List UInt8} (hos : Reads os cs)
    (h : ∀ stack rest, Accepts.run ⟨.header, stack⟩ (bs ++ rest) =
      finishRun (afterVisit stack o rest)) : Reads (o :: os) (bs ++ cs) := by
  refine ⟨fun hnil => absurd hnil (List.cons_ne_nil _ _), fun e stack rest _ hleft => ?_⟩
  rw [List.length_cons] at hleft
  rw [List.append_assoc, h]
  by_cases hnil : os = []
  · rw [hos.nil hnil, afterVisit_last (by rw [hleft, hnil, List.length_nil]), hnil,
      List.nil_append]
  · have hpos : 0 < os.length := List.length_pos_iff.mpr hnil
    have hadd := left_add (e := e) (o := o) (by omega)
    rw [afterVisit_more (by omega), finishRun, hos.run _ stack rest hnil (by omega), close_add]

theorem run_array {items : List Obj} {tag : List UInt8} (h : ArrayTag items.length tag)
    (hitems : Reads items bs) (stack : List StackElem) (rest : List UInt8) :
    run ⟨.header, stack⟩ (tag ++ bs ++ rest) = finishRun (afterVisit stack (.array items) rest) := by
  rw [List.append_assoc, run_arrayTag h, startArray]
  by_cases hnil : items = []
  · rw [hitems.nil hnil, hnil]
    rfl
  · rw [if_neg (by simpa using hnil), finishRun, hitems.run _ stack rest hnil rfl]
    rfl

theorem run_map {items : List Obj} {n : Nat} {tag : List UInt8} (hn : items.length = 2 * n)
    (h : MapTag n tag) (hitems : Reads items bs) (stack : List StackElem) (rest : List UInt8) :
    run ⟨.header, stack⟩ (tag ++ bs ++ rest) = finishRun (afterVisit stack (.map items) rest) := by
  rw [List.append_assoc, run_mapTag h, startMap]
  by_cases hnil : items = []
  · obtain rfl : n = 0 := by
      rw [hnil, List.length_nil] at hn
      omega
    rw [hitems.nil hnil, hnil]
    rfl
  · have hpos : 0 < items.length := List.length_pos_iff.mpr hnil
    rw [if_neg (by omega), finishRun, hitems.run ⟨.mapKey, n, []⟩ stack rest hnil hn.symm]
    rfl

theorem reads_of_encodes (h : Encodes os bs) : Reads os bs := by
  induction h with
  | nil => exact ⟨fun _ => rfl, fun _ _ _ hne => absurd rfl hne⟩
  | scalar h _ ih => exact ih.cons fun _ _ => run_scalar h
  | array h _ _ ihitems ih => exact ih.cons (run_array h ihitems)
  | map hn h _ _ ihitems ih => exact ih.cons (run_map hn h ihitems)

theorem run_object (h : Encodes [o] bs) :
    run ⟨.header, stack⟩ (bs ++ rest) = finishRun (afterVisit stack o rest) := by
  cases h with
  | scalar h hos =>
    cases hos
    rw [List.append_nil, run_scalar h]
  | array h hitems hos =>
    cases hos
    rw [List.append_nil, run_array h (reads_of_encodes hitems)]
  | map hn h hitems hos =>
    cases hos
    rw [List.append_nil, run_map hn h (reads_of_encodes hitems)]

theorem unpack_of_encodes (h : Encodes [o] bs) (rest : List UInt8) :
    unpack (bs ++ rest) = .success o rest :=
  run_object h

end Complete

end DistExp.Msgpack.Accepts
