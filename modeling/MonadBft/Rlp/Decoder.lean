/-
  MonadBft.Rlp.Decoder — decoders built from stream reads.

  A `Decoder` reads values off the front of a stream. It can be run in either arithmetic, and it
  lists the items it reads when every sum is exact. What every decoder of the repository
  must satisfy is carried by the type: what is left is a suffix of the stream, loops make
  progress, and the machine run panics exactly when one of the items it reads has an
  overlong header (`Agrees`). The combinators are the moves the Go decoders make: the stream
  operations, an early error, entering a list, the loop `for l.Remaining() > 0`, a trailing
  optional field.

  Proved:
  - `Agrees.bind`: the one rule for sequences, from which every combinator's field follows;
  - `manyLoop_rest`: the loop ends with nothing left;
  - `Slices`: what is known of a decoded value and the stream it came from, by combinator.
-/
import MonadBft.Rlp.Stream

namespace MonadBft.Rlp

/-- One read: the kind of item asked for and the stream in front of it. -/
structure Item where
  list : Bool
  stream : Bytes
  deriving DecidableEq, Repr

def Item.overlong (i : Item) : Bool := Rlp.overlong i.list i.stream

/-- A Go byte array of `n` bytes. -/
abbrev Fixed (n : Nat) := { b : Bytes // b.length = n }

/-- The length check of `FixedBytes`. -/
def asFixed (n : Nat) (b : Bytes) : Except Err (Fixed n) :=
  if h : b.length = n then .ok ⟨b, h⟩ else .error .unexpectedLength

/-! ## The two readings of one computation -/

section agrees

variable {α β : Type} {x : Except Fault α} {is : List Item}

/-- The outcome `go` of a machine run, the outcome `exact` of the exact one and the items the
exact one reads: the exact run at most returns an error; the machine run panics if one of the
items is overlong, and otherwise succeeds as the exact run does or returns an error. -/
structure Agrees (go exact : Except Fault α) (items : List Item) : Prop where
  exact_faults : ∀ f, exact = .error f → ∃ e, f = .err e
  panics : (∃ i ∈ items, i.overlong = true) → go = .error .panic
  go_faults : (∀ i ∈ items, i.overlong = false) → ∀ f, go = .error f → ∃ e, f = .err e
  same : (∀ i ∈ items, i.overlong = false) → go.toOption = exact.toOption

/-- The items of what follows a read: none if the read failed. -/
def itemsAfter (x : Except Fault α) (k : α → List Item) : List Item :=
  match x with
  | .ok y => k y
  | .error _ => []

theorem mem_itemsAfter {k : α → List Item} {i : Item} : i ∈ itemsAfter x k ↔ ∃ y, x = .ok y ∧ i ∈ k y := by
  cases x <;> simp [itemsAfter]

theorem map_eq_error {g : α → β} {f : Fault} (h : x.map g = .error f) : x = .error f := by
  cases x <;> simp_all [Except.map]

/-- A computation that reads nothing and only returns errors. -/
theorem Agrees.refl (h : ∀ f, x = .error f → ∃ e, f = .err e) : Agrees x x [] where
  exact_faults := h
  panics := by simp
  go_faults _ := h
  same _ := rfl

theorem agrees_readItem (w : Bool) {s : Bytes} (hs : s.length < 2 ^ 63) :
    Agrees (readItem .go w s) (readItem .exact w s) [⟨w, s⟩] where
  exact_faults _ h := readItem_exact_faults h
  panics h := readItem_go_of_overlong (by simpa [Item.overlong] using h)
  go_faults h := (readItem_go hs (by simpa [Item.overlong] using h)).1
  same h := (readItem_go hs (by simpa [Item.overlong] using h)).2

/-- A sequence agrees if its first step does and what follows each of its exact results does. -/
theorem Agrees.bind {go exact : Except Fault α} {kgo kexact : α → Except Fault β} {kis : α → List Item}
    (h : Agrees go exact is) (hk : ∀ y, exact = .ok y → Agrees (kgo y) (kexact y) (kis y)) :
    Agrees (go >>= kgo) (exact >>= kexact) (is ++ itemsAfter exact kis) := by
  -- Without an overlong item in the first step the two first steps succeed alike.
  have first : (∀ i ∈ is, i.overlong = false) → ∀ y, go = .ok y → exact = .ok y := by
    intro his y hy
    rw [← Lib.toOption_eq_some, ← h.same his, Lib.toOption_eq_some]
    exact hy
  constructor
  · intro f hf
    rcases Lib.bind_eq_error.mp hf with hf | ⟨y, hy, hf⟩
    · exact h.exact_faults f hf
    · exact (hk y hy).exact_faults f hf
  · rintro ⟨i, hi, hov⟩
    by_cases his : ∀ i ∈ is, i.overlong = false
    · rcases List.mem_append.mp hi with hi | hi
      · simp [his i hi] at hov
      · obtain ⟨y, hy, hi⟩ := mem_itemsAfter.mp hi
        have hgo : go = .ok y := by
          rw [← Lib.toOption_eq_some, h.same his, Lib.toOption_eq_some]
          exact hy
        rw [hgo]
        exact (hk y hy).panics ⟨i, hi, hov⟩
    · obtain ⟨j, hj, hjov⟩ : ∃ j ∈ is, j.overlong = true := by simpa using his
      rw [h.panics ⟨j, hj, hjov⟩]
      rfl
  · intro hall f hf
    have his : ∀ i ∈ is, i.overlong = false := fun i hi => hall i (List.mem_append_left _ hi)
    rcases Lib.bind_eq_error.mp hf with hf | ⟨y, hy, hf⟩
    · exact h.go_faults his f hf
    · have hex := first his y hy
      refine (hk y hex).go_faults (fun i hi => hall i (List.mem_append_right _ ?_)) f hf
      exact mem_itemsAfter.mpr ⟨y, hex, hi⟩
  · intro hall
    have his : ∀ i ∈ is, i.overlong = false := fun i hi => hall i (List.mem_append_left _ hi)
    cases hex : exact with
    | error f =>
      cases hgo : go with
      | error f' => rfl
      | ok y => exact absurd (first his y hgo) (by simp [hex])
    | ok y =>
      have hgo : go = .ok y := by
        rw [← Lib.toOption_eq_some, h.same his, Lib.toOption_eq_some]
        exact hex
      rw [hgo]
      refine (hk y hex).same fun i hi => hall i (List.mem_append_right _ ?_)
      exact mem_itemsAfter.mpr ⟨y, hex, hi⟩

theorem Agrees.map {go exact : Except Fault α} (g : α → β)
    (h : Agrees go exact is) : Agrees (go.map g) (exact.map g) is where
  exact_faults f hf := h.exact_faults f (map_eq_error hf)
  panics hov := by rw [h.panics hov]; rfl
  go_faults hov f hf := h.go_faults hov f (map_eq_error hf)
  same hov := by
    have hs := h.same hov
    cases go <;> cases exact <;> simp_all [Except.map, Except.toOption]

end agrees

/-! ## Decoders -/

structure Decoder (α : Type) where
  run : Arith → Bytes → Except Fault (α × Bytes)
  /-- The items read when no sum wraps. -/
  items : Bytes → List Item
  suffix : ∀ {a s x r}, run a s = .ok (x, r) → r <:+ s
  agrees : ∀ {s : Bytes}, s.length < 2 ^ 63 → Agrees (run .go s) (run .exact s) (items s)
  items_within : ∀ {s i}, i ∈ items s → i.stream <:+: s

namespace Decoder

variable {α β : Type}

/-- A decoder that reads no item: a check, or a look at the stream. -/
def ofPure (f : Bytes → Except Err α) : Decoder α where
  run _ s := match f s with
    | .ok x => .ok (x, s)
    | .error e => .error (.err e)
  items _ := []
  suffix {a s x r} h := by
    cases hf : f s with
    | error e => simp [hf] at h
    | ok y =>
      simp only [hf, Except.ok.injEq, Prod.mk.injEq] at h
      rw [← h.2]
  agrees {s} _ := Agrees.refl (by
    intro f' hf'
    cases hf : f s with
    | error e => exact ⟨e, by simpa [hf] using hf'.symm⟩
    | ok y => simp [hf] at hf')
  items_within h := by simp at h

/-- One item, without its header. -/
def item (w : Bool) : Decoder Bytes where
  run a s := readItem a w s
  items s := [⟨w, s⟩]
  suffix h := by
    obtain ⟨hd, rfl, -⟩ := readItem_ok h
    exact List.suffix_append _ _
  agrees hs := agrees_readItem w hs
  items_within h := by
    rw [List.mem_singleton.mp h]

/-- First `d`, then what `f` makes of its value. -/
def andThen (d : Decoder α) (f : α → Decoder β) : Decoder β where
  run a s := d.run a s >>= fun p => (f p.1).run a p.2
  items s := d.items s ++ itemsAfter (d.run .exact s) fun p => (f p.1).items p.2
  suffix h := by
    obtain ⟨⟨x, r⟩, hd, hf⟩ := Lib.bind_eq_ok.mp h
    exact ((f x).suffix hf).trans (d.suffix hd)
  agrees hs := (d.agrees hs).bind fun p hp =>
    (f p.1).agrees (lt_of_le_of_lt (d.suffix hp).length_le hs)
  items_within {s i} hi := by
    rcases List.mem_append.mp hi with hi | hi
    · exact d.items_within hi
    · obtain ⟨p, hp, hi⟩ := mem_itemsAfter.mp hi
      exact ((f p.1).items_within hi).trans (d.suffix hp).isInfix

instance : Monad Decoder where
  pure x := ofPure fun _ => .ok x
  bind := andThen

/-- `l, err := s.List()` and the reads on `l`. What `inner` leaves unread is dropped. -/
def list (inner : Decoder α) : Decoder α where
  run a s := readItem a true s >>= fun p => (inner.run a p.1).map fun q => (q.1, p.2)
  items s := [⟨true, s⟩] ++ itemsAfter (readItem .exact true s) fun p => inner.items p.1
  suffix h := by
    obtain ⟨⟨p, r⟩, hp, hi⟩ := Lib.bind_eq_ok.mp h
    obtain ⟨q, -, hq⟩ := Lib.map_eq_ok.mp hi
    obtain ⟨hd, rfl, -⟩ := readItem_ok hp
    rw [← (Prod.mk.inj hq).2]
    exact List.suffix_append _ _
  agrees hs := (agrees_readItem true hs).bind fun p hp => (inner.agrees (by
    obtain ⟨hd, rfl, -⟩ := readItem_ok hp
    simp only [List.length_append] at hs
    omega)).map _
  items_within {s i} hi := by
    rcases List.mem_append.mp hi with hi | hi
    · rw [List.mem_singleton.mp hi]
    · obtain ⟨p, hp, hin⟩ := mem_itemsAfter.mp hi
      obtain ⟨hd, rfl, -⟩ := readItem_ok hp
      exact (inner.items_within hin).trans (List.infix_append _ _ _)

/-- Every successful run takes something off the stream. -/
def Strict (d : Decoder α) : Prop :=
  ∀ {a s x r}, d.run a s = .ok (x, r) → r.length < s.length

/-- The loop `for l.Remaining() > 0`, with a bound on the number of passes. -/
def manyLoop (d : Decoder α) (a : Arith) : Nat → Bytes → Except Fault (List α × Bytes)
  | _, [] => .ok ([], [])
  | 0, _ :: _ => .error .diverge
  | n + 1, c :: s => d.run a (c :: s) >>= fun p =>
      (manyLoop d a n p.2).map fun q => (p.1 :: q.1, q.2)

def manyItems (d : Decoder α) : Nat → Bytes → List Item
  | _, [] => []
  | 0, _ :: _ => []
  | n + 1, c :: s => d.items (c :: s) ++ itemsAfter (d.run .exact (c :: s)) fun p => manyItems d n p.2

variable {d : Decoder α} {n : Nat} {s : Bytes}

theorem manyLoop_rest {a : Arith} {xs : List α} {r : Bytes} (h : manyLoop d a n s = .ok (xs, r)) : r = [] := by
  induction n generalizing s xs with
  | zero => cases s <;> simp_all [manyLoop]
  | succ n ih =>
    cases s with
    | nil => simp_all [manyLoop]
    | cons c s =>
      obtain ⟨p, -, hm⟩ := Lib.bind_eq_ok.mp h
      obtain ⟨⟨ys, r'⟩, hq, hqr⟩ := Lib.map_eq_ok.mp hm
      obtain ⟨-, rfl⟩ := Prod.mk.inj hqr
      exact ih hq

/-- A pass that always takes something off the stream needs no more passes than bytes. -/
theorem manyLoop_agrees (hd : d.Strict) (hn : s.length ≤ n) (hs : s.length < 2 ^ 63) :
    Agrees (manyLoop d .go n s) (manyLoop d .exact n s) (manyItems d n s) := by
  induction n generalizing s with
  | zero =>
    obtain rfl := List.length_eq_zero_iff.mp (Nat.le_zero.mp hn)
    exact Agrees.refl (by simp [manyLoop])
  | succ n ih =>
    cases s with
    | nil => exact Agrees.refl (by simp [manyLoop])
    | cons c s =>
      refine (d.agrees hs).bind fun p hp => (ih ?_ ?_).map _
      · have := hd hp
        omega
      · have := hd hp
        omega

theorem manyItems_within {i : Item} (h : i ∈ manyItems d n s) : i.stream <:+: s := by
  induction n generalizing s with
  | zero => cases s <;> simp [manyItems] at h
  | succ n ih =>
    cases s with
    | nil => simp [manyItems] at h
    | cons c s =>
      rcases List.mem_append.mp h with h | h
      · exact d.items_within h
      · obtain ⟨p, hp, h⟩ := mem_itemsAfter.mp h
        exact (ih h).trans (d.suffix hp).isInfix

/-- `for l.Remaining() > 0 { ... }`: each pass must take something off the stream. -/
def many (d : Decoder α) (hd : d.Strict) : Decoder (List α) where
  run a s := manyLoop d a s.length s
  items s := manyItems d s.length s
  suffix h := by
    rw [manyLoop_rest h]
    exact List.nil_suffix
  agrees hs := manyLoop_agrees hd le_rfl hs
  items_within h := manyItems_within h

/-! ## The stream operations -/

/-- A value the caller computes from what it has read, or its error. -/
def lift (x : Except Err α) : Decoder α := ofPure fun _ => x

def fail (e : Err) : Decoder α := lift (.error e)

def check (c : Prop) [Decidable c] (e : Err) : Decoder Unit := lift (Lib.require c e)

def remaining : Decoder Nat := ofPure fun s => .ok s.length

def raw : Decoder Bytes := ofPure .ok

def done : Decoder Unit := ofPure fun s => Lib.require (s = []) .unexpectedLength

def bytes : Decoder Bytes := item false

/-- A byte string and a check of its value. -/
def bytesAs (f : Bytes → Except Err α) : Decoder α := do
  let b ← bytes
  lift (f b)

def uint64 : Decoder UInt64 := bytesAs leftPadUint64
def uint32 : Decoder UInt32 := bytesAs leftPadUint32
def uint16 : Decoder UInt16 := bytesAs leftPadUint16
def uint8 : Decoder UInt8 := bytesAs leftPadUint8
def bool : Decoder Bool := bytesAs leftPadBool
def uint128 : Decoder (UInt64 × UInt64) := bytesAs leftPadUint128

def fixedBytes (n : Nat) : Decoder (Fixed n) := bytesAs (asFixed n)

/-- A field that is read only if something is left. -/
def trailing (d : Decoder α) : Decoder (Option α) := do
  let n ← remaining
  if 0 < n then
    let x ← d
    pure (some x)
  else pure none

theorem item_strict (w : Bool) : (item w).Strict := by
  intro a s x r h
  obtain ⟨hd, rfl, hpos⟩ := readItem_ok h
  simp only [List.length_append] at hpos ⊢
  omega

theorem list_strict (inner : Decoder α) : (list inner).Strict := by
  intro a s x r h
  obtain ⟨⟨p, r'⟩, hp, hi⟩ := Lib.bind_eq_ok.mp h
  obtain ⟨q, -, hq⟩ := Lib.map_eq_ok.mp hi
  rw [← (Prod.mk.inj hq).2]
  exact item_strict true hp

/-! ## Where the slices of a value come from -/

/-- The slices `sl x` of a decoded value lie inside the stream it was decoded from, apart from
those in `ctx`, which were read before. -/
def Slices (ctx : List Bytes) (d : Decoder α) (sl : α → List Bytes) : Prop :=
  ∀ a s x r, d.run a s = .ok (x, r) → ∀ t ∈ sl x, t ∈ ctx ∨ t <:+: s

section slices

variable {ctx : List Bytes} {d : Decoder α} {f : α → Decoder β} {sl : α → List Bytes}
  {sl' : β → List Bytes}

theorem slices_none (h : ∀ x, sl x = []) : Slices ctx d sl := by
  intro a s x r _ t ht
  simp [h] at ht

theorem slices_pure {x : α} (h : ∀ t ∈ sl x, t ∈ ctx) : Slices ctx (pure x) sl := by
  intro a s y r hy t ht
  obtain ⟨rfl, -⟩ := Prod.mk.inj (Except.ok.inj hy)
  exact .inl (h t ht)

theorem slices_bytes : Slices ctx bytes fun b => [b] := by
  intro a s x r h t ht
  obtain ⟨hd, rfl, -⟩ := readItem_ok h
  rw [List.mem_singleton.mp ht]
  exact .inr (List.infix_append _ _ _)

theorem slices_bind (hd : Slices ctx d sl) (hf : ∀ x, Slices (ctx ++ sl x) (f x) sl') : Slices ctx (d >>= f) sl' := by
  intro a s y r h t ht
  obtain ⟨⟨x, r'⟩, hx, hy⟩ := Lib.bind_eq_ok.mp h
  rcases hf x _ _ _ _ hy t ht with hmem | hin
  · rcases List.mem_append.mp hmem with hmem | hmem
    · exact .inl hmem
    · exact hd _ _ _ _ hx t hmem
  · exact .inr (hin.trans (d.suffix hx).isInfix)

/-- The first step reads nothing the value keeps. -/
theorem slices_then (hf : ∀ x, Slices ctx (f x) sl') : Slices ctx (d >>= f) sl' := by
  have hd : Slices ctx d fun _ => [] := slices_none fun _ => rfl
  refine slices_bind hd fun x => ?_
  rw [List.append_nil]
  exact hf x

theorem slices_fail {e : Err} : Slices ctx (fail e) sl := by
  intro a s x r h
  cases h

theorem slices_map {g : α → β} (h : Slices ctx d sl) (hg : ∀ x, sl' (g x) = sl x) : Slices ctx (g <$> d) sl' :=
  slices_bind h fun x => slices_pure fun _ ht => List.mem_append_right _ (hg x ▸ ht)

theorem slices_list (h : Slices ctx d sl) : Slices ctx (list d) sl := by
  intro a s x r hr t ht
  obtain ⟨⟨p, r'⟩, hp, hi⟩ := Lib.bind_eq_ok.mp hr
  obtain ⟨⟨y, q⟩, hq, hyr⟩ := Lib.map_eq_ok.mp hi
  obtain ⟨hd, rfl, -⟩ := readItem_ok hp
  obtain ⟨rfl, -⟩ := Prod.mk.inj hyr
  rcases h _ _ _ _ hq t ht with hmem | hin
  · exact .inl hmem
  · exact .inr (hin.trans (List.infix_append _ _ _))

theorem slices_many {hd : d.Strict} (h : Slices ctx d sl) : Slices ctx (many d hd) fun xs => xs.flatMap sl := by
  intro a s xs r hr t ht
  have loop : ∀ n s xs r, manyLoop d a n s = .ok (xs, r) → t ∈ xs.flatMap sl → t ∈ ctx ∨ t <:+: s := by
    intro n
    induction n with
    | zero => intro s xs r hm; cases s <;> simp_all [manyLoop]
    | succ n ih =>
      intro s xs r hm htx
      cases s with
      | nil => simp_all [manyLoop]
      | cons c s =>
        obtain ⟨⟨x, r'⟩, hx, hm⟩ := Lib.bind_eq_ok.mp hm
        obtain ⟨⟨ys, q⟩, hq, hqr⟩ := Lib.map_eq_ok.mp hm
        obtain ⟨rfl, -⟩ := Prod.mk.inj hqr
        rcases List.mem_append.mp (by simpa using htx : t ∈ sl x ++ ys.flatMap sl) with htx | htx
        · exact h _ _ _ _ hx t htx
        · rcases ih _ _ _ hq htx with hmem | hin
          · exact .inl hmem
          · exact .inr (hin.trans (d.suffix hx).isInfix)
  exact loop _ _ _ _ hr ht

end slices

end Decoder

end MonadBft.Rlp
