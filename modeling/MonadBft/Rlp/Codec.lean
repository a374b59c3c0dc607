/-
  MonadBft.Rlp.Codec — what a decoder and an encoder owe each other.

  `Codes canon d enc ok`: the decoder reads every encoded value that is `ok` back, in either
  arithmetic and whatever follows it, and returns only values that are `ok`. If moreover
  `canon` holds, it accepts nothing but encodings. A decoder that leaves room for a second
  spelling satisfies the law for `canon := False`, a strict one for `True`, and everything
  built from the two inherits the law of its parts: the rules below are stated once for
  both. `Fields` is the same law for the payload of a list, which is read up to its end;
  it remembers which fields of the value have been seen.

  Rules: a list (`Codes.list`), a field of it (`Fields.field`), a check (`Fields.check`), a
  trailing optional field (`Fields.trailing`), a repeated one (`Fields.many`), a tagged union
  (`Fields.tagged`, `Fields.case`) and the end (`Fields.stop`).
-/
import MonadBft.Rlp.Decoder
import MonadBft.Rlp.Encoder

namespace MonadBft.Rlp

open Decoder Decoder List

variable {α β : Type} {canon c : Prop}

/-! ## Runs of the combinators -/

namespace Decoder

variable {a : Arith} {s r : Bytes} {x : α} {y : β} {d : Decoder α} {f : α → Decoder β} {u : Unit}

theorem run_bind_ok : (d >>= f).run a s = .ok (y, r) ↔ ∃ x t, d.run a s = .ok (x, t) ∧ (f x).run a t = .ok (y, r) := by
  refine Lib.bind_eq_ok.trans ?_
  simp only [Prod.exists]

theorem run_lift_ok {v : Except Err α} : (lift v).run a s = .ok (x, r) ↔ v = .ok x ∧ r = s := by
  cases v <;> simp [lift, ofPure, eq_comm]

theorem run_pure_ok {v : α} : (pure v : Decoder α).run a s = .ok (x, r) ↔ x = v ∧ r = s := by
  refine (run_lift_ok (v := .ok v)).trans ?_
  simp [eq_comm]

theorem run_check_ok [Decidable c] {e : Err} : (check c e).run a s = .ok (u, r) ↔ c ∧ r = s := by
  refine run_lift_ok.trans ?_
  rw [Lib.require_eq_ok]

theorem run_done_ok : done.run a s = .ok (u, r) ↔ s = [] ∧ r = [] := by
  unfold done ofPure
  by_cases h : s = []
  · simp [h, Lib.require, eq_comm]
  · simp [h, Lib.require]

theorem run_list_ok : (list d).run a s = .ok (x, r) ↔
    ∃ p q, readItem a true s = .ok (p, r) ∧ d.run a p = .ok (x, q) := by
  refine Lib.bind_eq_ok.trans ?_
  simp only [Lib.map_eq_ok, Prod.exists, Prod.mk.injEq]
  constructor
  · intro h
    obtain ⟨p, r', hp, x', q, hq, rfl, rfl⟩ := h
    exact ⟨p, q, hp, hq⟩
  · intro h
    obtain ⟨p, q, hp, hq⟩ := h
    exact ⟨p, r, hp, x, q, hq, rfl, rfl⟩

theorem run_map_ok {g : α → β} : (g <$> d).run a s = .ok (y, r) ↔ ∃ x, d.run a s = .ok (x, r) ∧ y = g x := by
  refine (run_bind_ok (d := d) (f := fun x => pure (g x))).trans ?_
  simp only [run_pure_ok]
  constructor
  · intro h
    obtain ⟨x, t, hx, rfl, rfl⟩ := h
    exact ⟨x, hx, rfl⟩
  · intro h
    obtain ⟨x, hx, rfl⟩ := h
    exact ⟨x, r, hx, rfl, rfl⟩

/-- What the machine's run accepts, the exact one accepts too. -/
theorem run_exact_of_go (hs : s.length < 2 ^ 63) (h : d.run .go s = .ok (x, r)) : d.run .exact s = .ok (x, r) := by
  have hag := d.agrees hs
  have hov : ∀ i ∈ d.items s, i.overlong = false := by
    intro i hi
    by_contra hi'
    rw [hag.panics ⟨i, hi, by simpa using hi'⟩] at h
    cases h
  rw [← Lib.toOption_eq_some, ← hag.same hov, Lib.toOption_eq_some]
  exact h

end Decoder

/-! ## The two laws -/

structure Codes (canon : Prop) (d : Decoder α) (enc : α → Bytes) (ok : α → Prop) : Prop where
  writes : ∀ {a x r}, ok x → (enc x ++ r).length < 2 ^ 63 → d.run a (enc x ++ r) = .ok (x, r)
  yields : ∀ {s x r}, d.run .exact s = .ok (x, r) → ok x ∧ (canon → s = enc x ++ r)

/-- The law of the rest of a payload: `seen` says which fields of the value came before. -/
structure Fields (canon : Prop) (ok seen : α → Prop) (d : Decoder α) (enc : α → Bytes) : Prop where
  writes : ∀ {a x}, ok x → seen x → (enc x).length < 2 ^ 63 → d.run a (enc x) = .ok (x, [])
  yields : ∀ {s x r}, d.run .exact s = .ok (x, r) → ok x ∧ seen x ∧ (canon → s = enc x ∧ r = [])

section rules

variable {ok seen : α → Prop} {d : Decoder β} {e : β → Bytes} {okd : β → Prop} {a : Arith} {bound : Nat}

/-- A law with `canon` holds without it. -/
theorem Codes.weaken {canon' : Prop} (h : Codes canon d e okd) (hc : canon' → canon) : Codes canon' d e okd where
  writes := h.writes
  yields hr := ⟨(h.yields hr).1, fun hc' => (h.yields hr).2 (hc hc')⟩

theorem Codes.ne_nil (h : Codes canon d e okd) (hd : d.Strict) {y : β} (hy : okd y) : e y ≠ [] := by
  intro hnil
  have hrun := h.writes (a := .exact) (r := []) hy (by simp [hnil])
  have := hd hrun
  simp [hnil] at this

theorem run_bytes_append {p r : Bytes} (hlen : (appendString p ++ r).length < 2 ^ 63) :
    Decoder.bytes.run a (appendString p ++ r) = .ok (p, r) :=
  readItem_append false hlen

theorem codes_bytes : Codes canon Decoder.bytes appendString fun _ => True where
  writes _ hlen := run_bytes_append hlen
  yields hr := ⟨trivial, fun _ => readItem_canonical hr⟩

/-- A value is parsed from one other. -/
theorem Codes.lift {g : β → Except Err α} (hd : Codes canon d e okd) (inv : α → β)
    (h : ∀ y x, okd y → (g y = .ok x ↔ ok x ∧ y = inv x)) (hok : ∀ x, ok x → okd (inv x)) :
    Codes canon (do let y ← d; lift (g y)) (fun x => e (inv x)) ok where
  writes {a x r} hx hlen := by
    have hinv := hok x hx
    refine run_bind_ok.mpr ⟨inv x, r, hd.writes hinv hlen, ?_⟩
    exact run_lift_ok.mpr ⟨(h _ _ hinv).mpr ⟨hx, rfl⟩, rfl⟩
  yields {s x r} hr := by
    obtain ⟨y, t, hy, hx⟩ := run_bind_ok.mp hr
    obtain ⟨hg, rfl⟩ := run_lift_ok.mp hx
    obtain ⟨hokd, hcanon⟩ := hd.yields hy
    obtain ⟨hok', rfl⟩ := (h _ _ hokd).mp hg
    exact ⟨hok', hcanon⟩

/-- A value is spelt by one byte string. -/
theorem Codes.bytesAs {g : Bytes → Except Err α} {inv : α → Bytes} (h : ∀ b x, g b = .ok x ↔ ok x ∧ b = inv x) :
    Codes canon (bytesAs g) (fun x => appendString (inv x)) ok :=
  codes_bytes.lift inv (fun b x _ => h b x) fun _ _ => trivial

theorem codes_uint64 : Codes canon uint64 appendUint64 fun _ => True := by
  have h : Codes canon uint64 (fun v => appendString (stripped (beBytes 8 v.toNat))) fun _ => True :=
    Codes.bytesAs fun b v => by rw [leftPadUint64_iff, true_and]
  simpa only [← appendUint64_eq] using h

theorem codes_uint128 : Codes canon uint128 appendUint128 fun _ => True := by
  have h : Codes canon uint128 (fun v => appendString (stripped (beBytes 8 v.1.toNat ++ beBytes 8 v.2.toNat)))
      fun _ => True :=
    Codes.bytesAs fun b v => by rw [leftPadUint128_iff, true_and]
  simpa only [← appendUint128_eq] using h

theorem leftPadUpTo_ok {b : Bytes} {v : UInt64} :
    leftPadUpTo bound b = .ok v ↔ b = stripped (beBytes 8 v.toNat) ∧ v.toNat ≤ bound := by
  simp only [leftPadUpTo, Lib.bind_eq_ok, Lib.require_eq_ok, Lib.pure_eq_ok, leftPadUint64_iff, exists_const]
  constructor
  · rintro ⟨w, hb, hw, rfl⟩
    exact ⟨hb, hw⟩
  · rintro ⟨hb, hv⟩
    exact ⟨v, hb, hv, rfl⟩

/-- A narrower integer is encoded as a `uint64`. -/
theorem codes_narrow {narrow : UInt64 → α} {widen : α → UInt64}
    (h : ∀ v x, v.toNat ≤ bound ∧ narrow v = x ↔ v = widen x) :
    Codes canon (bytesAs fun b => narrow <$> leftPadUpTo bound b) (fun x => appendUint64 (widen x)) fun _ => True := by
  simp only [appendUint64_eq]
  refine Codes.bytesAs fun b x => ?_
  refine Lib.map_eq_ok.trans ?_
  simp only [leftPadUpTo_ok, and_assoc, h, true_and, exists_eq_right]

theorem codes_uint32 : Codes canon uint32 (fun v => appendUint64 v.toUInt64) fun _ => True := by
  refine codes_narrow fun v x => ?_
  have hx := x.toNat_lt
  simp only [← UInt32.toNat_inj, ← UInt64.toNat_inj, UInt64.toNat_toUInt32, UInt32.toNat_toUInt64]
  omega

variable {enc : α → Bytes} {k : Decoder α} {n : Nat} {es : α → List Bytes} {ys : List β} {err : Err}

theorem Codes.list {d : Decoder α} (h : Fields canon ok (fun _ => True) d enc) :
    Codes canon (Decoder.list d) (fun x => appendList (enc x)) ok where
  writes {a x r} hx hlen := by
    have hpay : (enc x).length ≤ (appendList (enc x)).length := appendItem_length true (enc x)
    refine run_list_ok.mpr ⟨enc x, [], readItem_append true hlen, h.writes hx trivial ?_⟩
    rw [length_append] at hlen
    omega
  yields {s x r} hr := by
    obtain ⟨p, q, hp, hx⟩ := run_list_ok.mp hr
    obtain ⟨hok, -, hcanon⟩ := h.yields hx
    refine ⟨hok, fun hc => ?_⟩
    obtain ⟨rfl, -⟩ := hcanon hc
    exact readItem_canonical hp

/-! ## The fields of a payload -/

theorem Fields.field (hd : Codes canon d e okd) (f : α → β) (hok : ∀ x, ok x → okd (f x)) {k : β → Decoder α}
    (hk : ∀ y, okd y → Fields canon ok (fun x => seen x ∧ f x = y) (k y) fun x => (es x).flatten) :
    Fields canon ok seen (d >>= k) fun x => (e (f x) :: es x).flatten where
  writes {a x} hx hseen hlen := by
    rw [flatten_cons] at hlen ⊢
    refine run_bind_ok.mpr ⟨f x, (es x).flatten, hd.writes (hok x hx) hlen, ?_⟩
    rw [length_append] at hlen
    exact (hk _ (hok x hx)).writes hx ⟨hseen, rfl⟩ (by omega)
  yields {s x r} hr := by
    obtain ⟨y, t, hy, hx⟩ := run_bind_ok.mp hr
    obtain ⟨hokd, hcd⟩ := hd.yields hy
    obtain ⟨hokx, ⟨hseen, rfl⟩, hcx⟩ := (hk y hokd).yields hx
    refine ⟨hokx, hseen, fun hc => ?_⟩
    obtain ⟨rfl, rfl⟩ := hcx hc
    exact ⟨hcd hc, rfl⟩

/-- A field that any value of its type may fill. -/
theorem Fields.any (hd : Codes canon d e fun _ => True) (f : α → β) {k : β → Decoder α}
    (hk : ∀ y, Fields canon ok (fun x => seen x ∧ f x = y) (k y) fun x => (es x).flatten) :
    Fields canon ok seen (d >>= k) fun x => (e (f x) :: es x).flatten :=
  Fields.field hd f (fun _ _ => trivial) fun y _ => hk y

/-- `l.Done()` after the last field. -/
theorem Fields.stop {y : α} (hy : ok y)
    (hseen : ∀ x, ok x → (seen x ↔ x = y)) :
    Fields canon ok seen (do done; pure y) fun _ => [].flatten where
  writes {a x} hok hx _ := by
    obtain rfl := (hseen x hok).mp hx
    exact run_bind_ok.mpr ⟨(), [], run_done_ok.mpr ⟨rfl, rfl⟩, run_pure_ok.mpr ⟨rfl, rfl⟩⟩
  yields {s x r} hr := by
    obtain ⟨u, t, hdone, hx⟩ := run_bind_ok.mp hr
    obtain ⟨rfl, rfl⟩ := run_done_ok.mp hdone
    obtain ⟨rfl, rfl⟩ := run_pure_ok.mp hx
    exact ⟨hy, (hseen x hy).mpr rfl, fun _ => ⟨rfl, rfl⟩⟩

theorem Fields.check [Decidable c] (hc : ∀ x, ok x → seen x → c) (hk : c → Fields canon ok seen k enc) :
    Fields canon ok seen (do check c err; k) enc where
  writes {a x} hx hseen hlen := by
    have hcx := hc x hx hseen
    exact run_bind_ok.mpr ⟨(), enc x, run_check_ok.mpr ⟨hcx, rfl⟩, (hk hcx).writes hx hseen hlen⟩
  yields {s x r} hr := by
    obtain ⟨u, t, hcheck, hx⟩ := run_bind_ok.mp hr
    obtain ⟨hcx, rfl⟩ := run_check_ok.mp hcheck
    exact (hk hcx).yields hx

theorem run_trailing_nil : (trailing d).run a [] = .ok (none, []) := rfl

theorem run_trailing_cons {c : UInt8} {s : Bytes} {q : Option β × Bytes} :
    (trailing d).run a (c :: s) = .ok q ↔ ∃ y r, d.run a (c :: s) = .ok (y, r) ∧ q = (some y, r) := by
  have hrun : (trailing d).run a (c :: s) = (some <$> d).run a (c :: s) := rfl
  obtain ⟨o, t⟩ := q
  rw [hrun, run_map_ok]
  simp only [Prod.mk.injEq]
  constructor
  · intro h
    obtain ⟨y, hy, rfl⟩ := h
    exact ⟨y, t, hy, rfl, rfl⟩
  · intro h
    obtain ⟨y, r, hy, rfl, rfl⟩ := h
    exact ⟨y, hy, rfl⟩

/-- A trailing optional field: nothing may follow it. -/
theorem Fields.trailing (hd : Codes canon d e okd) (hstrict : d.Strict) (f : α → Option β)
    (hok : ∀ x, ok x → ∀ y, f x = some y → okd y) {k : Option β → Decoder α} (hk : ∀ o, (∀ y, o = some y → okd y) →
      Fields canon ok (fun x => seen x ∧ f x = o) (k o) fun _ => [].flatten) :
    Fields canon ok seen (trailing d >>= k) fun x => [optional e (f x)].flatten where
  writes {a x} hx hseen hlen := by
    have hend : (k (f x)).run a [] = .ok (x, []) := (hk (f x) (hok x hx)).writes hx ⟨hseen, rfl⟩ (by simp)
    refine run_bind_ok.mpr ⟨f x, [], ?_, hend⟩
    cases hf : f x with
    | none => exact run_trailing_nil
    | some y =>
      have hy := hok x hx y hf
      have hrun := hd.writes (a := a) (r := []) hy (by simpa [hf, optional] using hlen)
      obtain ⟨c, s, hcs⟩ := exists_cons_of_ne_nil (hd.ne_nil hstrict hy)
      simp only [optional, flatten_cons, flatten_nil]
      rw [hcs, cons_append] at hrun ⊢
      exact run_trailing_cons.mpr ⟨y, [], hrun, rfl⟩
  yields {s x r} hr := by
    obtain ⟨o, t, ho, hx⟩ := run_bind_ok.mp hr
    have hokd : (∀ y, o = some y → okd y) ∧ (canon → s = optional e o ++ t) := by
      cases s with
      | nil =>
        obtain ⟨rfl, rfl⟩ := Prod.mk.inj (Except.ok.inj ho)
        exact ⟨by simp, fun _ => rfl⟩
      | cons c s =>
        obtain ⟨y, r', hy, hq⟩ := run_trailing_cons.mp ho
        obtain ⟨rfl, rfl⟩ := Prod.mk.inj hq
        obtain ⟨hoky, hcy⟩ := hd.yields hy
        refine ⟨fun y' hy' => ?_, hcy⟩
        obtain rfl := Option.some.inj hy'
        exact hoky
    obtain ⟨hokx, ⟨hseen, rfl⟩, hcx⟩ := (hk o hokd.1).yields hx
    refine ⟨hokx, hseen, fun hc => ?_⟩
    obtain ⟨rfl, rfl⟩ := hcx hc
    exact ⟨hokd.2 hc, rfl⟩

/-! ## Repeated fields -/

theorem manyLoop_writes (hd : Codes canon d e okd) (hstrict : d.Strict) (hys : ∀ y ∈ ys, okd y)
    (hlen : (ys.flatMap e).length < 2 ^ 63) (hn : (ys.flatMap e).length ≤ n) :
    manyLoop d a n (ys.flatMap e) = .ok (ys, []) := by
  induction ys generalizing n with
  | nil => cases n <;> rfl
  | cons y ys ih =>
    have hy := hys y (.head _)
    obtain ⟨c, s, hcs⟩ := exists_cons_of_ne_nil (hd.ne_nil hstrict hy)
    rw [flatMap_cons] at hlen hn ⊢
    have hrun := hd.writes (a := a) hy hlen
    rw [hcs, cons_append, length_cons, length_append] at hlen hn
    rw [hcs, cons_append] at hrun ⊢
    obtain ⟨n, rfl⟩ : ∃ m, n = m + 1 := ⟨n - 1, by omega⟩
    have hrest := ih (n := n) (fun z hz => hys z (.tail _ hz)) (by omega) (by omega)
    simp only [manyLoop, hrun, hrest, bind, Except.bind, Except.map]

theorem manyLoop_yields (hd : Codes canon d e okd) {s r : Bytes}
    (h : manyLoop d .exact n s = .ok (ys, r)) : (∀ y ∈ ys, okd y) ∧ (canon → s = ys.flatMap e) := by
  have hnil : ∀ n ys r, manyLoop d .exact n [] = .ok (ys, r) → (∀ y ∈ ys, okd y) ∧ (canon → [] = ys.flatMap e) := by
    intro n ys r h
    cases n <;> obtain ⟨rfl, -⟩ := Prod.mk.inj (Except.ok.inj h) <;> simp
  induction n generalizing s ys r with
  | zero =>
    cases s with
    | nil => exact hnil _ _ _ h
    | cons c s => cases h
  | succ n ih =>
    cases s with
    | nil => exact hnil _ _ _ h
    | cons c s =>
      obtain ⟨⟨y, t⟩, hy, hrest⟩ := Lib.bind_eq_ok.mp h
      obtain ⟨⟨zs, q⟩, hzs, hq⟩ := Lib.map_eq_ok.mp hrest
      obtain ⟨rfl, -⟩ := Prod.mk.inj hq
      obtain ⟨hoky, hcy⟩ := hd.yields hy
      obtain ⟨hokzs, hczs⟩ := ih hzs
      refine ⟨forall_mem_cons.mpr ⟨hoky, hokzs⟩, fun hc => ?_⟩
      have ht : t = zs.flatMap e := hczs hc
      rw [hcy hc, ht, flatMap_cons]

/-- The loop `for l.Remaining() > 0` against the loop over the values. -/
theorem Fields.many {ok : List β → Prop} (hd : Codes canon d e okd) (hstrict : d.Strict)
    (hok : ∀ ys, ok ys ↔ ∀ y ∈ ys, okd y) :
    Fields canon ok (fun _ => True) (many d hstrict) fun ys => ys.flatMap e where
  writes hys _ hlen := manyLoop_writes hd hstrict ((hok _).mp hys) hlen le_rfl
  yields hr := by
    obtain ⟨hys, hcanon⟩ := manyLoop_yields hd hr
    exact ⟨(hok _).mpr hys, trivial, fun hc => ⟨hcanon hc, manyLoop_rest hr⟩⟩

theorem run_done_pure {s r : Bytes} {x : α} :
    (do let x ← k; done; pure x).run a s = .ok (x, r) ↔ k.run a s = .ok (x, []) ∧ r = [] := by
  simp only [run_bind_ok, run_done_ok, run_pure_ok]
  constructor
  · intro h
    obtain ⟨x', t, hx, u, t', ⟨rfl, rfl⟩, rfl, rfl⟩ := h
    exact ⟨hx, rfl⟩
  · intro h
    obtain ⟨hx, rfl⟩ := h
    exact ⟨x, [], hx, (), [], ⟨rfl, rfl⟩, rfl, rfl⟩

theorem Fields.done (h : Fields canon ok seen k enc) :
    Fields canon ok seen (do let x ← k; done; pure x) enc where
  writes hx hseen hlen := run_done_pure.mpr ⟨h.writes hx hseen hlen, rfl⟩
  yields {s x r} hr := by
    obtain ⟨hx, rfl⟩ := run_done_pure.mp hr
    exact h.yields hx

theorem Fields.one (hd : Codes canon d e okd) :
    Fields canon okd (fun _ => True) (do let y ← d; Decoder.done; pure y) e where
  writes {a y} hy _ hlen := by
    have hrun := hd.writes (a := a) (r := []) hy (by simpa using hlen)
    rw [append_nil] at hrun
    exact run_done_pure.mpr ⟨hrun, rfl⟩
  yields {s y r} hr := by
    obtain ⟨hy, rfl⟩ := run_done_pure.mp hr
    obtain ⟨hok, hcanon⟩ := hd.yields hy
    refine ⟨hok, trivial, fun hc => ⟨?_, rfl⟩⟩
    rw [hcanon hc, append_nil]

/-! ## Tagged unions -/

section tagged

variable {tag : α → UInt64} {body : α → Bytes} {t : UInt64}

/-- A tag, and a payload that depends on it. -/
theorem Fields.tagged (tag : α → UInt64) {sel : UInt64 → Decoder α}
    (h : ∀ t, Fields canon ok (fun x => seen x ∧ tag x = t) (do let m ← sel t; Decoder.done; pure m) body) :
    Fields canon ok seen (do let t ← uint64; let m ← sel t; Decoder.done; pure m) fun x =>
      [appendUint64 (tag x), body x].flatten := by
  refine Fields.any codes_uint64 tag fun t => ?_
  simpa only [flatten_cons, flatten_nil, append_nil] using h t

/-- The values with one tag are those of one constructor: `k` reads its arguments. -/
theorem Fields.inject {k : Decoder β} {sel : Decoder α} (ht : t.toNat = n) (c : β → α)
    (hk : Fields canon okd (fun _ => True) k e)
    (hrun : ∀ {a s x r}, sel.run a s = .ok (x, r) ↔ ∃ y, k.run a s = .ok (y, r) ∧ x = c y)
    (htag : ∀ x, (tag x).toNat = n ↔ ∃ y, x = c y) (hok : ∀ y, ok (c y) ↔ okd y) (hbody : ∀ y, body (c y) = e y) :
    Fields canon ok (fun x => True ∧ tag x = t) sel body where
  writes {a x} hx hseen hlen := by
    obtain ⟨y, rfl⟩ := (htag x).mp (hseen.2 ▸ ht)
    rw [hbody] at hlen ⊢
    exact hrun.mpr ⟨y, hk.writes ((hok y).mp hx) trivial hlen, rfl⟩
  yields {s x r} hr := by
    obtain ⟨y, hy, rfl⟩ := hrun.mp hr
    obtain ⟨hoky, -, hcanon⟩ := hk.yields hy
    have hty : tag (c y) = t := UInt64.toNat_inj.mp (((htag _).mpr ⟨y, rfl⟩).trans ht.symm)
    refine ⟨(hok y).mpr hoky, ⟨trivial, hty⟩, fun hc => ?_⟩
    rw [hbody]
    exact hcanon hc

theorem Fields.case {c : β → α} (hd : Codes canon d (fun y => body (c y)) fun y => ok (c y))
    (ht : t.toNat = n) (htag : ∀ x, (tag x).toNat = n ↔ ∃ y, x = c y) :
    Fields canon ok (fun x => True ∧ tag x = t) (do let m ← c <$> d; Decoder.done; pure m) body := by
  refine Fields.inject ht c (Fields.one hd) ?_ htag (fun _ => Iff.rfl) fun _ => rfl
  intro a s x r
  simp only [run_done_pure, run_map_ok]
  constructor
  · intro h
    obtain ⟨⟨y, hy, rfl⟩, rfl⟩ := h
    exact ⟨y, ⟨hy, rfl⟩, rfl⟩
  · intro h
    obtain ⟨y, ⟨hy, rfl⟩, rfl⟩ := h
    exact ⟨⟨y, hy, rfl⟩, rfl⟩

/-- No value has any other tag. -/
theorem Fields.unknown (htag : ∀ x, tag x ≠ t) :
    Fields canon ok (fun x => True ∧ tag x = t) (do let m ← (Decoder.fail err : Decoder α); Decoder.done; pure m) body where
  writes {a x} _ hseen _ := absurd hseen.2 (htag x)
  yields {s x r} hr := by
    obtain ⟨hm, -⟩ := run_done_pure.mp hr
    cases hm

end tagged

end rules

end MonadBft.Rlp
