import DistExp.Msgpack.Accepts

namespace DistExp.Msgpack.Sound

open DistExp.Library.Bytes DistExp.Msgpack.Format DistExp.Msgpack.Parse DistExp.Msgpack.Pack
  DistExp.Msgpack.Accepts

variable {stack : List StackElem} {o : Obj} {p bs rest : List UInt8} {it : Iteration}

/-- Where a round may leave the parser once it has read `p` from the start of an object. -/
inductive Begun (stack : List StackElem) (p rest : List UInt8) : Iteration → Prop where
  | scalar {x : Obj} (h : Scalar x p) : Begun stack p rest (afterVisit stack x rest)
  | array {n : Nat} (h : ArrayTag n p) : Begun stack p rest (startArray stack n rest)
  | map {n : Nat} (h : MapTag n p) : Begun stack p rest (startMap stack n rest)
  | value {cs : Cs} {n : Nat} (hn : 0 < n) (h : ∀ s : List UInt8, s.length = n →
      ∃ x, Scalar x (p ++ s) ∧ ∀ rest, trailing stack cs s rest = afterVisit stack x rest) :
      Begun stack p rest (.go ⟨.trail cs n, stack⟩ rest)
  | error : Begun stack p rest (.finish .parseError)

theorem begun_str {n : Nat} (h : StrTag n p) :
    Begun stack p rest (sized stack .strValue n (.str []) rest) := by
  unfold sized
  split
  case isTrue hn =>
    subst hn
    have hscalar := Scalar.str (s := []) h
    rw [List.append_nil] at hscalar
    exact .scalar hscalar
  case isFalse hn =>
    refine .value (Nat.pos_of_ne_zero hn) fun s hs => ⟨.str s, .str (hs ▸ h), fun _ => rfl⟩

theorem begun_bin {n : Nat} (h : BinTag n p) :
    Begun stack p rest (sized stack .binValue n (.bin []) rest) := by
  unfold sized
  split
  case isTrue hn =>
    subst hn
    have hscalar := Scalar.bin (s := []) h
    rw [List.append_nil] at hscalar
    exact .scalar hscalar
  case isFalse hn =>
    refine .value (Nat.pos_of_ne_zero hn) fun s hs => ⟨.bin s, .bin (hs ▸ h), fun _ => rfl⟩

theorem begun_header (stack : List StackElem) (b : UInt8) (rest : List UInt8) :
    Begun stack [b] rest (header stack b rest) ∨ ∃ cs trail, Row b trail cs := by
  obtain ⟨n, hn, rfl⟩ : ∃ n < 256, b = UInt8.ofNat n := ⟨b.toNat, b.toNat_lt, by simp⟩
  by_cases hint : n < 128
  · rw [header_fixint hint]
    exact .inl (.scalar (.uint (.inl ⟨hint, by rw [Nat.zero_add]⟩)))
  by_cases hmap : n < 0x90
  · obtain ⟨k, rfl⟩ : ∃ k, n = 0x80 + k := ⟨n - 0x80, by omega⟩
    rw [header_fixmap (by omega)]
    exact .inl (.map (.inl ⟨by omega, rfl⟩))
  by_cases harray : n < 0xa0
  · obtain ⟨k, rfl⟩ : ∃ k, n = 0x90 + k := ⟨n - 0x90, by omega⟩
    rw [header_fixarray (by omega)]
    exact .inl (.array (.inl ⟨by omega, rfl⟩))
  by_cases hstr : n < 0xc0
  · obtain ⟨k, rfl⟩ : ∃ k, n = 0xa0 + k := ⟨n - 0xa0, by omega⟩
    rw [header_fixstr (by omega)]
    exact .inl (begun_str (.inl ⟨by omega, rfl⟩))
  by_cases hconst : n < 0xc4
  · obtain rfl | rfl | rfl | rfl : n = 0xc0 ∨ n = 0xc1 ∨ n = 0xc2 ∨ n = 0xc3 := by omega
    · exact .inl (.scalar .nil)
    · exact .inl .error
    · exact .inl (.scalar .false)
    · exact .inl (.scalar .true)
  by_cases htrail : n < 0xe0
  · obtain ⟨k, rfl⟩ : ∃ k, n = 0xc4 + k := ⟨n - 0xc4, by omega⟩
    exact .inr ⟨_, _, row_trails ⟨k, show k < 28 by omega⟩⟩
  · obtain ⟨k, rfl⟩ : ∃ k, n = 224 + k := ⟨n - 224, by omega⟩
    have hneg := Scalar.negative (v := (224 + k : Nat) - 256) (by omega) (by omega)
    rw [show (256 + ((224 + k : Nat) - 256 : Int)).toNat = 224 + k by omega] at hneg
    rw [header_negative (by omega)]
    exact .inl (.scalar hneg)

theorem tag_of_bytes {fix limit : Nat} {sized : List (UInt8 × Nat)} {b : UInt8}
    {bytes : List UInt8} (h : (b, bytes.length) ∈ sized) :
    Tag fix limit sized (ofBigEndian bytes) (b :: bytes) :=
  .inr ⟨(b, bytes.length), h, ofBigEndian_lt bytes, by rw [bigEndian_ofBigEndian]⟩

theorem scalar_int {b : UInt8} {bytes : List UInt8} (h : (b, bytes.length) ∈ intCodes) :
    Scalar (.integer (signed bytes)) (b :: bytes) := by
  have hpos : ∀ cw ∈ intCodes, 0 < cw.2 := by decide
  have hpow : 256 ^ bytes.length = 2 * 2 ^ (8 * bytes.length - 1) := by
    rw [← Nat.pow_succ', show (256 : Nat) = 2 ^ 8 from rfl, ← Nat.pow_mul]
    congr 1
    have := hpos _ h
    omega
  have hm : 0 < 256 ^ bytes.length := by positivity
  have hlow := Int.le_bmod (x := ofBigEndian bytes) hm
  have hhigh := Int.bmod_lt (x := ofBigEndian bytes) hm
  have hbytes : bigEndian bytes.length (signed bytes % (256 ^ bytes.length : Nat)).toNat =
      bytes := by
    rw [signed, Int.bmod_emod, Int.emod_eq_of_lt (Int.natCast_nonneg _)
      (by exact_mod_cast ofBigEndian_lt bytes), Int.toNat_natCast, bigEndian_ofBigEndian]
  have hleft : -((2 ^ (8 * bytes.length - 1) : Nat) : Int) ≤ signed bytes := by
    rw [signed]
    omega
  have hright : signed bytes < ((2 ^ (8 * bytes.length - 1) : Nat) : Int) := by
    rw [signed]
    omega
  have hint := Scalar.int h hleft hright
  rwa [hbytes] at hint

theorem begun_trailing {b : UInt8} {bytes : List UInt8} {cs : Cs} (h : Row b bytes.length cs) :
    Begun stack (b :: bytes) rest (trailing stack cs bytes rest) := by
  cases cs with
  | bin w =>
    obtain ⟨h, rfl⟩ := h
    exact begun_bin (tag_of_bytes h)
  | ext w =>
    obtain ⟨h, rfl⟩ := h
    rw [trailing, sized, if_neg (Nat.succ_ne_zero _)]
    refine .value (Nat.succ_pos _) fun s hs => ?_
    obtain ⟨type, s, rfl⟩ := List.exists_cons_of_length_eq_add_one hs
    have hlen : s.length = ofBigEndian bytes := Nat.succ_injective hs
    have hscalar : Scalar (.ext type s) _ := .ext h (by rw [hlen]; exact ofBigEndian_lt bytes)
    rw [hlen, bigEndian_ofBigEndian] at hscalar
    exact ⟨.ext type s, hscalar, fun _ => rfl⟩
  | float =>
    obtain ⟨rfl, hlen⟩ := h
    have hlt := ofBigEndian_lt bytes
    rw [hlen] at hlt
    have hscalar := Scalar.float32 (UInt32.ofNat (ofBigEndian bytes))
    rw [UInt32.toNat_ofNat_of_lt' hlt, ← hlen, bigEndian_ofBigEndian] at hscalar
    exact .scalar hscalar
  | double =>
    obtain ⟨rfl, hlen⟩ := h
    have hlt := ofBigEndian_lt bytes
    rw [hlen] at hlt
    have hscalar := Scalar.float64 (UInt64.ofNat (ofBigEndian bytes))
    rw [UInt64.toNat_ofNat_of_lt' hlt, ← hlen, bigEndian_ofBigEndian] at hscalar
    exact .scalar hscalar
  | uint w =>
    obtain ⟨h, rfl⟩ := h
    exact .scalar (.uint (tag_of_bytes h))
  | int w =>
    obtain ⟨h, rfl⟩ := h
    exact .scalar (scalar_int h)
  | fixext n =>
    obtain ⟨h, hlen⟩ := h
    obtain ⟨type, s, rfl⟩ := List.exists_cons_of_length_eq_add_one hlen
    exact .scalar (.fixext h (Nat.succ_injective hlen))
  | str w =>
    obtain ⟨h, rfl⟩ := h
    exact begun_str (tag_of_bytes h)
  | array w =>
    obtain ⟨h, rfl⟩ := h
    exact .array (tag_of_bytes h)
  | map w =>
    obtain ⟨h, rfl⟩ := h
    exact .map (tag_of_bytes h)
  | strValue | binValue | extValue => exact absurd h not_false

theorem items_of_run {m : Nat}
    (ih : ∀ stack bs, bs.length < m → run ⟨.header, stack⟩ bs = .success o rest →
      ∃ x p q, bs = p ++ q ∧ Encodes [x] p ∧
        finishRun (afterVisit stack x q) = .success o rest) {k : Nat} {e : StackElem}
    (hleft : left e = k + 1) (hbs : bs.length < m)
    (h : run ⟨.header, e :: stack⟩ bs = .success o rest) :
    ∃ os p q, bs = p ++ q ∧ os.length = k + 1 ∧ Encodes os p ∧
      finishRun (afterVisit stack (close e os) q) = .success o rest := by
  induction k generalizing e bs with
  | zero =>
    obtain ⟨x, p, q, rfl, hx, hrun⟩ := ih _ bs hbs h
    rw [afterVisit_last hleft] at hrun
    exact ⟨[x], p, q, rfl, rfl, hx, hrun⟩
  | succ k ihk =>
    obtain ⟨x, p, q, rfl, hx, hrun⟩ := ih _ bs hbs h
    rw [afterVisit_more (by omega)] at hrun
    have hadd := left_add (e := e) (o := x) (by omega)
    rw [List.length_append] at hbs
    obtain ⟨os, p', q', rfl, hlen, hos, hrun⟩ := ihk (e := add e x) (by omega) (by omega) hrun
    rw [close_add] at hrun
    exact ⟨x :: os, p ++ p', q', by rw [List.append_assoc], by rw [List.length_cons, hlen],
      hx.append hos, hrun⟩

theorem bytes_of_run {cs : Cs} {n : Nat} (hn : 0 < n)
    (h : run ⟨.trail cs n, stack⟩ bs = .success o rest) :
    ∃ s q, bs = s ++ q ∧ s.length = n ∧ finishRun (trailing stack cs s q) = .success o rest := by
  by_cases hlen : bs.length < n
  · rw [run_eq (c := ⟨.trail cs n, stack⟩) hn] at h
    cases bs with
    | nil => cases h
    | cons b bs =>
      simp only [iterate] at h
      rw [if_pos hlen] at h
      cases h
  · have htake : (bs.take n).length = n := by
      rw [List.length_take]
      omega
    refine ⟨bs.take n, bs.drop n, (List.take_append_drop n bs).symm, htake, ?_⟩
    rw [← run_trail (List.ne_nil_of_length_pos (by omega)), htake, List.take_append_drop]
    exact h

theorem object_of_begun {m : Nat} {q : List UInt8} (hbegun : Begun stack p q it)
    (ih : ∀ stack bs, bs.length < m → run ⟨.header, stack⟩ bs = .success o rest →
      ∃ x p q, bs = p ++ q ∧ Encodes [x] p ∧ finishRun (afterVisit stack x q) = .success o rest)
    (hq : q.length < m) (h : finishRun it = .success o rest) :
    ∃ x p' q', p ++ q = p' ++ q' ∧ Encodes [x] p' ∧
      finishRun (afterVisit stack x q') = .success o rest := by
  cases hbegun with
  | scalar hx => exact ⟨_, p, q, rfl, encodes_singleton hx, h⟩
  | @array n htag =>
    cases n with
    | zero =>
      have hx : Encodes [.array []] _ := .array htag .nil .nil
      rw [List.append_nil, List.append_nil] at hx
      exact ⟨_, p, q, rfl, hx, h⟩
    | succ n =>
      obtain ⟨os, p', q', rfl, hlen, hos, hrun⟩ := items_of_run ih (e := ⟨.arrayItem, n + 1, []⟩)
        rfl hq h
      have hx := Encodes.array (hlen ▸ htag) hos .nil
      rw [List.append_nil] at hx
      exact ⟨_, p ++ p', q', by rw [List.append_assoc], hx, hrun⟩
  | @map n htag =>
    cases n with
    | zero =>
      have hx : Encodes [.map []] _ := .map rfl htag .nil .nil
      rw [List.append_nil, List.append_nil] at hx
      exact ⟨_, p, q, rfl, hx, h⟩
    | succ n =>
      obtain ⟨os, p', q', rfl, hlen, hos, hrun⟩ := items_of_run ih (e := ⟨.mapKey, n + 1, []⟩)
        (show 2 * (n + 1) = 2 * n + 1 + 1 by omega) hq h
      have hx := Encodes.map (show os.length = 2 * (n + 1) by omega) htag hos .nil
      rw [List.append_nil] at hx
      exact ⟨_, p ++ p', q', by rw [List.append_assoc], hx, hrun⟩
  | value hn hvalue =>
    obtain ⟨s, q', rfl, hs, hrun⟩ := bytes_of_run hn h
    obtain ⟨x, hx, hvisit⟩ := hvalue s hs
    rw [hvisit] at hrun
    exact ⟨x, p ++ s, q', by rw [List.append_assoc], encodes_singleton hx, hrun⟩
  | error => cases h

theorem row_pos {b : UInt8} {cs : Cs} {trail : Nat} (h : Row b trail cs) : 0 < trail :=
  trails_pos (cs, trail) (List.mem_of_getElem? (found_of_row h).2.2)

theorem object_of_run (h : run ⟨.header, stack⟩ bs = .success o rest) :
    ∃ x p q, bs = p ++ q ∧ Encodes [x] p ∧ finishRun (afterVisit stack x q) = .success o rest := by
  induction hm : bs.length using Nat.strong_induction_on generalizing stack bs with
  | h m ih =>
    cases bs with
    | nil => cases h
    | cons b bs =>
      have hshort : ∀ stack bs, bs.length < m → run ⟨.header, stack⟩ bs = .success o rest →
          ∃ x p q, bs = p ++ q ∧ Encodes [x] p ∧
            finishRun (afterVisit stack x q) = .success o rest :=
        fun stack bs hlt hrun => ih bs.length hlt hrun rfl
      rw [List.length_cons] at hm
      rw [run_header] at h
      obtain hbegun | ⟨cs, trail, hrow⟩ := begun_header stack b bs
      · exact object_of_begun hbegun hshort (by omega) h
      · rw [header_row hrow] at h
        obtain ⟨bytes, q, rfl, hlen, hrun⟩ := bytes_of_run (row_pos hrow) h
        subst hlen
        rw [List.length_append] at hm
        exact object_of_begun (p := b :: bytes) (begun_trailing hrow) hshort (by omega) hrun

section Format

variable {data : List UInt8}

theorem encodes_of_unpack (h : unpack data = .success o rest) :
    ∃ p, data = p ++ rest ∧ Encodes [o] p := by
  obtain ⟨x, p, q, rfl, hx, hrun⟩ := object_of_run (show run ⟨.header, []⟩ data = _ from h)
  obtain ⟨rfl, rfl⟩ : x = o ∧ q = rest := by simpa [afterVisit, consume, finishRun] using hrun
  exact ⟨p, rfl, hx⟩

theorem Encodes.unique {x y : Obj} {p q s t : List UInt8} (hx : Encodes [x] p)
    (hy : Encodes [y] q) (h : p ++ s = q ++ t) : x = y ∧ p = q := by
  have hrun := unpack_of_encodes hx s
  rw [h, unpack_of_encodes hy t] at hrun
  obtain ⟨rfl, rfl⟩ : y = x ∧ t = s := by simpa using hrun
  exact ⟨rfl, List.append_cancel_right h⟩

theorem unpack_pack (h : Fits [o]) (rest : List UInt8) :
    unpack (pack o ++ rest) = .success o rest := by
  have hencodes := encodes_packAll h
  rw [packAll_singleton] at hencodes
  exact unpack_of_encodes hencodes rest

/-- An object comes back from `pack` and `unpack` just when the format has room for it, whatever
follows it in the data. -/
theorem fits_iff_unpack_pack :
    Fits [o] ↔ ∀ rest, unpack (pack o ++ rest) = .success o rest := by
  constructor
  · exact unpack_pack
  · intro h
    obtain ⟨p, -, hx⟩ := encodes_of_unpack (h [])
    exact fits_of_encodes hx

/-- What has been unpacked can be packed again, in as many bytes or fewer, and comes back. -/
theorem unpack_pack_of_success (h : unpack data = .success o rest) (s : List UInt8) :
    unpack (pack o ++ s) = .success o s ∧ (pack o).length + rest.length ≤ data.length := by
  obtain ⟨p, rfl, hx⟩ := encodes_of_unpack h
  refine ⟨unpack_pack (fits_of_encodes hx) s, ?_⟩
  have hlen := length_packAll_le hx
  rw [packAll_singleton] at hlen
  rw [List.length_append]
  exact Nat.add_le_add_right hlen _

theorem unpack_pack_five : unpack (pack (.integer 5) ++ [9]) = .success (.integer 5) [9] ∧
    (pack (.integer 5)).length + 1 ≤ 4 :=
  unpack_pack_of_success (show unpack [0xcd, 0, 5, 7] = .success (.integer 5) [7] by rfl) [9]

end Format

end DistExp.Msgpack.Sound
