import DistExp.Rpc.Codec
import DistExp.Rpc.Md5
import DistExp.Rpc.Wire

namespace DistExp.Rpc.Routing

open DistExp.Msgpack DistExp.Msgpack.Adaptor DistExp.Rpc.Codec DistExp.Rpc.Wire DistExp.Rpc.Md5

inductive ExecMode where
  | sync
  | async
  deriving DecidableEq

/-- A registered function with the types of its arguments and of its result, none for `void`. It
may throw, and may change what state the server has. -/
structure Handler (σ : Type) where
  model : ExecMode
  params : List Packable
  ret : List Packable
  f : σ → Tuple params → σ × Except Exception (Tuple ret)

variable {σ : Type}

def packFail (what : List UInt8) : Except Exception (List UInt8) :=
  packArgsStr [string] .fail (what, ())

def inMode (model : ExecMode) (result : Except Exception (List UInt8)) :
    Except Exception (List UInt8 × ExecMode) :=
  result.map fun bs => (bs, model)

/-- `invoker::apply`: what fails before the end is answered at once. -/
def Handler.apply (h : Handler σ) (s : σ) (data : List UInt8) :
    σ × Except Exception (List UInt8 × ExecMode) :=
  match unpack (tuple h.params) data with
  | .error e => (s, inMode .sync (packFail e.what))
  | .ok tp =>
    match h.f s tp with
    | (s', .error e) => (s', inMode .sync (packFail e.what))
    | (s', .ok r) =>
      match packArgsStr h.ret .ok r with
      | .error e => (s', inMode .sync (packFail e.what))
      | .ok result => (s', .ok (result, h.model))

structure Router (σ : Type) where
  mapInvokers : UInt32 → Option (Handler σ)
  key2funcName : UInt32 → Option (List UInt8)

namespace Router

def empty : Router σ := ⟨fun _ => none, fun _ => none⟩

/-- `register_handler`: `map_invokers_[key] = f`, but `key2func_name_.emplace(key, name)`. -/
def registerHandler (r : Router σ) (name : List UInt8) (f : Handler σ) : Router σ where
  mapInvokers := Function.update r.mapInvokers (md5Hash32 name) (some f)
  key2funcName := Function.update r.key2funcName (md5Hash32 name)
    (some ((r.key2funcName (md5Hash32 name)).getD name))

def removeHandler (r : Router σ) (name : List UInt8) : Router σ where
  mapInvokers := Function.update r.mapInvokers (md5Hash32 name) none
  key2funcName := Function.update r.key2funcName (md5Hash32 name) none

def getNameByKey (r : Router σ) (key : UInt32) : List UInt8 :=
  (r.key2funcName key).getD (text (Nat.repr key.toNat))

def outOfRange (r : Router σ) (key : UInt32) : List UInt8 :=
  text "the response result is out of range: more than 10M " ++ r.getNameByKey key

/-- The `try` block of `route`: the response to send, if any. -/
def tryRoute (r : Router σ) (s : σ) (key : UInt32) (data : List UInt8) :
    σ × Except Exception (Option (List UInt8)) :=
  match r.mapInvokers key with
  | none => (s, (packFail (text "unknown function: " ++ r.getNameByKey key)).map some)
  | some h =>
    match h.apply s data with
    | (s', .error e) => (s', .error e)
    | (s', .ok (_, .async)) => (s', .ok none)
    | (s', .ok (result, .sync)) =>
      (s', (if maxBufLen ≤ result.length then packFail (r.outOfRange key) else .ok result).map some)

def route (r : Router σ) (s : σ) (key : UInt32) (data : List UInt8) :
    σ × Except Exception (Option (List UInt8)) :=
  match r.tryRoute s key data with
  | (s', .ok response) => (s', .ok response)
  | (s', .error e) => (s', (packFail e.what).map some)

end Router

theorem length_text (s : String) : (text s).length = s.length := by
  rw [text, List.length_map, String.length_toList]

section Registry

/-- A call of the server's owner to the router. -/
inductive Registration (σ : Type) where
  | register (name : List UInt8) (f : Handler σ)
  | remove (name : List UInt8)

def Router.apply (r : Router σ) : Registration σ → Router σ
  | .register name f => r.registerHandler name f
  | .remove name => r.removeHandler name

def live (key : UInt32) (fs : List (List UInt8 × Handler σ)) :
    Registration σ → List (List UInt8 × Handler σ)
  | .register name f => if md5Hash32 name = key then fs ++ [(name, f)] else fs
  | .remove name => if md5Hash32 name = key then [] else fs

theorem apply_live {r : Router σ} {key : UInt32} {fs : List (List UInt8 × Handler σ)}
    (hf : r.mapInvokers key = fs.getLast?.map Prod.snd)
    (hn : r.key2funcName key = fs.head?.map Prod.fst) (op : Registration σ) :
    (r.apply op).mapInvokers key = (live key fs op).getLast?.map Prod.snd ∧
      (r.apply op).key2funcName key = (live key fs op).head?.map Prod.fst := by
  cases op with
  | register name f =>
    simp only [Router.apply, Router.registerHandler, live]
    by_cases hkey : md5Hash32 name = key
    · subst hkey
      rw [if_pos rfl, Function.update_self, Function.update_self, hn]
      refine ⟨by simp, ?_⟩
      cases fs <;> rfl
    · rw [if_neg hkey, Function.update_of_ne (Ne.symm hkey), Function.update_of_ne (Ne.symm hkey)]
      exact ⟨hf, hn⟩
  | remove name =>
    simp only [Router.apply, Router.removeHandler, live]
    by_cases hkey : md5Hash32 name = key
    · subst hkey
      rw [if_pos rfl, Function.update_self, Function.update_self]
      exact ⟨rfl, rfl⟩
    · rw [if_neg hkey, Function.update_of_ne (Ne.symm hkey), Function.update_of_ne (Ne.symm hkey)]
      exact ⟨hf, hn⟩

/-- Whatever has been registered and removed: a key runs the last function registered under it and
is called by the name of the first, since one was last removed. -/
theorem registered (ops : List (Registration σ)) (key : UInt32) :
    (ops.foldl Router.apply .empty).mapInvokers key =
        (ops.foldl (live key) []).getLast?.map Prod.snd ∧
      (ops.foldl Router.apply .empty).key2funcName key =
        (ops.foldl (live key) []).head?.map Prod.fst := by
  induction ops using List.reverseRecOn with
  | nil => exact ⟨rfl, rfl⟩
  | append_singleton ops op ih =>
    rw [List.foldl_append, List.foldl_append]
    exact apply_live ih.1 ih.2 op

end Registry

section Responses

variable {r : Router σ} {s s' : σ} {key : UInt32} {data what bs : List UInt8}

theorem length_packFail (h : packFail what = .ok bs) : bs.length ≤ what.length + 7 := by
  obtain ⟨-, cs, hcs, rfl⟩ := packTuple_some (packArgs_ok h)
  obtain ⟨ds, es, hds, hes, rfl⟩ := packElems_cons hcs
  obtain ⟨fs, gs, hfs, hgs, rfl⟩ := packElems_cons hes
  obtain rfl := Option.some.inj hds
  obtain rfl := Option.some.inj hgs
  have hlen : fs.length ≤ what.length + 5 := by
    change (if _ then _ else _) = _ at hfs
    split at hfs
    case isTrue hwhat =>
      obtain rfl := Option.some.inj hfs
      have hstr : (Pack.packStr what.length).length ≤ _ := Pack.length_packSize_le (by decide)
        (.inr ⟨(0xdb, 4), by decide, hwhat, rfl⟩ : Format.StrTag what.length _)
      rw [List.length_cons, Library.Bytes.length_bigEndian] at hstr
      rw [List.length_append]
      omega
    case isFalse => cases hfs
  have harray : (Pack.packArray [int32, string].length).length = 1 := rfl
  have hcode : (Pack.packImpInt32 ResultCode.fail.toInt).length = 1 := by decide
  rw [List.length_append, List.length_append, List.length_append, harray, hcode, List.length_nil]
  omega

theorem packFail_ok (h : what.length < 2 ^ 32) : ∃ bs, packFail what = .ok bs := by
  have hstring : string.pack what = some (Pack.packStr what.length ++ what) := if_pos h
  exact ⟨_, packArgs_of_elems (by decide) (packElems_of_cons rfl (packElems_of_cons hstring rfl))⟩

def Sendable (response : List UInt8) : Prop := response ≠ [] ∧ response.length < maxBufLen

instance (response : List UInt8) : Decidable (Sendable response) :=
  inferInstanceAs (Decidable (_ ∧ _))

theorem sendable_packFail (hwhat : what.length + 7 < maxBufLen) (h : packFail what = .ok bs) :
    Sendable bs :=
  ⟨packArgs_ne_nil h, (length_packFail h).trans_lt hwhat⟩

theorem inMode_ok {model : ExecMode} {x : Except Exception (List UInt8)}
    {p : List UInt8 × ExecMode} (h : inMode model x = .ok p) : x = .ok p.1 ∧ p.2 = model := by
  cases x with
  | error e => cases h
  | ok bs =>
    obtain rfl := Except.ok.inj h
    exact ⟨rfl, rfl⟩

theorem inMode_error {model : ExecMode} {e : Exception}
    (h : inMode model (packFail what) = .error e) : e = containerSizeOverflow := by
  cases hx : packFail what with
  | error e' =>
    rw [hx] at h
    obtain rfl := Except.error.inj h
    exact packArgs_error hx
  | ok bs =>
    rw [hx] at h
    cases h

theorem apply_cases (h : Handler σ) (s : σ) (data : List UInt8) :
    (∃ bs model, (h.apply s data).2 = .ok (bs, model) ∧ bs ≠ []) ∨
      (h.apply s data).2 = .error containerSizeOverflow := by
  have hfail : ∀ what, (∃ bs model, inMode .sync (packFail what) = .ok (bs, model) ∧ bs ≠ []) ∨
      inMode .sync (packFail what) = .error containerSizeOverflow := by
    intro what
    cases hx : inMode .sync (packFail what) with
    | error e => exact .inr (by rw [inMode_error hx])
    | ok p => exact .inl ⟨p.1, p.2, rfl, packArgs_ne_nil (inMode_ok hx).1⟩
  unfold Handler.apply
  split
  case h_1 => exact hfail _
  case h_2 =>
    split
    case h_1 => exact hfail _
    case h_2 =>
      split
      case h_1 => exact hfail _
      case h_2 result hresult => exact .inl ⟨result, _, rfl, packArgs_ne_nil hresult⟩

theorem route_response (s : σ) (data : List UInt8)
    (hname : (r.getNameByKey key).length + 64 < maxBufLen) :
    ∃ response, (r.route s key data).2 = .ok response ∧ ∀ bs ∈ response, Sendable bs := by
  have hsend : ∀ what : List UInt8, what.length + 7 < maxBufLen →
      ∃ bs, packFail what = .ok bs ∧ Sendable bs := by
    intro what hwhat
    obtain ⟨bs, hbs⟩ := packFail_ok (hwhat.trans (by decide : maxBufLen < 2 ^ 32) |>.trans_le'
      (Nat.le_add_right _ 7))
    exact ⟨bs, hbs, sendable_packFail hwhat hbs⟩
  have hoverflow : (text "container size overflow").length = 23 := by decide
  have hunknown : (text "unknown function: ").length = 18 := by decide
  have hrange : (text "the response result is out of range: more than 10M ").length = 51 := by
    decide
  have hmap : ∀ {x : Except Exception (List UInt8)} {bs : List UInt8}, x = .ok bs →
      Sendable bs → ∃ response, x.map some = .ok response ∧ ∀ bs ∈ response, Sendable bs := by
    rintro _ bs rfl hbs
    exact ⟨some bs, rfl, fun _ h => Option.some.inj h ▸ hbs⟩
  unfold Router.route Router.tryRoute
  cases hr : r.mapInvokers key with
  | none =>
    obtain ⟨bs, hbs, hsendable⟩ := hsend (text "unknown function: " ++ r.getNameByKey key)
      (by rw [List.length_append]; omega)
    simp only [hbs]
    exact hmap rfl hsendable
  | some h =>
    dsimp only
    obtain ⟨bs, model, happly, hne⟩ | happly := apply_cases h s data
    · rw [show h.apply s data = ((h.apply s data).1, .ok (bs, model)) from Prod.ext rfl happly]
      cases model with
      | async => exact ⟨none, rfl, fun _ h => absurd h (by simp)⟩
      | sync =>
        dsimp only
        by_cases hmax : maxBufLen ≤ bs.length
        · obtain ⟨cs, hcs, hsendable⟩ := hsend (r.outOfRange key)
            (by rw [Router.outOfRange, List.length_append]; omega)
          rw [if_pos hmax, hcs]
          exact hmap rfl hsendable
        · rw [if_neg hmax]
          exact hmap rfl ⟨hne, not_le.mp hmax⟩
    · rw [show h.apply s data = ((h.apply s data).1, .error _) from Prod.ext rfl happly]
      obtain ⟨bs, hbs, hsendable⟩ := hsend containerSizeOverflow.what
        (by rw [show containerSizeOverflow.what.length = 23 from hoverflow]; decide)
      exact hmap hbs hsendable

end Responses

end DistExp.Rpc.Routing
