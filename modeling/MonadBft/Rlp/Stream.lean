/-
  MonadBft.Rlp.Stream — the read operations of `rlp.Stream` (rlp/rlp.go).

  A stream is the slice of bytes it has not read yet. `header` parses the item header at
  its front, `Bytes` and `List` cut the payload out and move on, and every other read is
  `Bytes` followed by a check of the payload. The header adds `1 + lenOfLen + l` in
  `uint64` and returns `int(l)`, so both wrap: a long header that announces `2^64 - 9` bytes
  or more passes the length check, and the slice expression that follows panics. `Arith`
  names the two ways to read those sums: as the machine does (`go`) and as numbers (`exact`).

  Proved:
  - `readItem_ok`: a successful read splits the stream into header, payload and rest, in
    either arithmetic; the rest is a proper suffix and the payload lies inside the stream.
  - `readItem_go`: the machine read panics exactly on an overlong header of the kind asked
    for, and otherwise agrees with the exact one.
  - `readItem_exact_faults`: the exact read never panics.
-/
import MonadBft.Lib.Except
import MonadBft.Lib.Machine
import Mathlib.Data.List.Infix
import Mathlib.Tactic.Ring

namespace MonadBft.Rlp

open Lib (int64 int64_of_lt int64_of_ge)

/-- A Go byte slice. Its length is an `int`, hence below `2 ^ 63`. -/
abbrev Bytes := List UInt8

/-- The errors of the decoders: those of package rlp, then those of the callers. -/
inductive Err where
  | inputTooShort
  | inputTooLong
  | nonCanonicalSingleByte
  | nonCanonicalSize
  | leadingZero
  | overflow
  | unexpectedString
  | unexpectedList
  | unexpectedLength
  | custom
  | blsBadEncoding
  | secpSignatureLength
  | secpRecoveryId
  | appMessageTooLarge
  | unknownMessageType
  | extraData
  | tooShort
  deriving DecidableEq, Repr

/-- What ends a decoder early: an error it returns, a run-time panic, or a loop that makes
no progress. -/
inductive Fault where
  | err (e : Err)
  | panic
  | diverge
  deriving DecidableEq, Repr

/-- How the header's sums are read. -/
inductive Arith where
  | go
  | exact
  deriving DecidableEq, Repr

/-- A sum of `uint64` values. -/
def Arith.sum : Arith → Nat → Nat
  | .go, n => n % 2 ^ 64
  | .exact, n => n

/-- The conversion `int(l)` of a `uint64`. -/
def Arith.int : Arith → Nat → Int
  | .go, n => int64 n
  | .exact, n => n

@[simp] theorem Arith.sum_exact (n : Nat) : Arith.exact.sum n = n := rfl
@[simp] theorem Arith.int_exact (n : Nat) : Arith.exact.int n = n := rfl

variable (b : Bytes)

/-- The big-endian value of a byte string: the loop `l = l<<8 | uint64(c)`. It is only run on
at most eight bytes, so nothing is shifted out. -/
def beNat : Nat := b.foldl (fun l c => l * 256 + c.toNat) 0

/-- The long form of a header, whose first byte counts the bytes of the length. -/
def longHeader (a : Arith) (s : Bytes) (list : Bool) (lenOfLen : Nat) : Except Fault (Bool × Int) := do
  let lenBytes := (s.drop 1).take lenOfLen
  let l := beNat lenBytes
  Lib.require (1 + lenOfLen ≤ s.length) (.err .inputTooShort)
  Lib.require (lenBytes.head? ≠ some 0) (.err .leadingZero)
  Lib.require (56 ≤ l) (.err .nonCanonicalSize)
  Lib.require (a.sum (1 + lenOfLen + l) ≤ s.length) (.err .inputTooShort)
  pure (list, a.int l)

/-- `Stream.header`: whether the item is a list, and the length of its payload. -/
def header (a : Arith) (s : Bytes) : Except Fault (Bool × Int) :=
  match s with
  | [] => .error (.err .inputTooShort)
  | c :: rest =>
    let b := c.toNat
    if b < 0x80 then .ok (false, 1)
    else if b ≤ 0xB7 then
      if s.length < 1 + (b - 0x80) then .error (.err .inputTooShort)
      else if b - 0x80 = 1 ∧ (rest.headD 0).toNat < 0x80 then
        .error (.err .nonCanonicalSingleByte)
      else .ok (false, ((b - 0x80 : Nat) : Int))
    else if b ≤ 0xBF then longHeader a s false (b - 0xB7)
    else if 0xF8 ≤ b then longHeader a s true (b - 0xF7)
    else if s.length < 1 + (b - 0xC0) then .error (.err .inputTooShort)
    else .ok (true, ((b - 0xC0 : Nat) : Int))

/-- `headerSize`: a byte below `0x80` is its own payload. -/
def headerSize (s : Bytes) : Nat :=
  let b := (s.headD 0).toNat
  if b < 0x80 then 0
  else if b ≤ 0xB7 ∨ (0xC0 ≤ b ∧ b ≤ 0xF7) then 1
  else if 0xF8 ≤ b then 1 + (b - 0xF7)
  else 1 + (b - 0xB7)

/-- The slice expression `s[lo:hi]`, with the run-time check of its bounds. -/
def slice (s : Bytes) (lo hi : Int) : Except Fault Bytes :=
  if 0 ≤ lo ∧ lo ≤ hi ∧ hi ≤ s.length then .ok ((s.take hi.toNat).drop lo.toNat)
  else .error .panic

/-- The common body of `Bytes` and `List`: the payload and the rest of the stream. -/
def readItem (a : Arith) (wantList : Bool) (s : Bytes) : Except Fault (Bytes × Bytes) := do
  let (list, l) ← header a s
  Lib.require (list = wantList)
    (.err (if list then .unexpectedList else .unexpectedString))
  let hs : Int := headerSize s
  let out ← slice s hs (hs + l)
  let rest ← slice s (hs + l) s.length
  pure (out, rest)

def bytes (a : Arith) (s : Bytes) : Except Fault (Bytes × Bytes) := readItem a false s

def list (a : Arith) (s : Bytes) : Except Fault (Bytes × Bytes) := readItem a true s

def leftPadUint64 : Except Err UInt64 :=
  if 8 < b.length then .error .overflow
  else if b.head? = some 0 then .error .leadingZero
  else .ok (UInt64.ofNat (beNat b))

/-- The check of a narrower integer: `Uint8`, `Uint16` and `Uint32` all decode a `uint64`. -/
def leftPadUpTo (bound : Nat) (b : Bytes) : Except Err UInt64 := do
  let v ← leftPadUint64 b
  Lib.require (v.toNat ≤ bound) .overflow
  pure v

def leftPadUint8 : Except Err UInt8 := UInt64.toUInt8 <$> leftPadUpTo 0xff b
def leftPadUint16 : Except Err UInt16 := UInt64.toUInt16 <$> leftPadUpTo 0xffff b
def leftPadUint32 : Except Err UInt32 := UInt64.toUInt32 <$> leftPadUpTo 0xffffffff b

/-- The value check of `Bool`. -/
def leftPadBool : Except Err Bool := do
  let v ← leftPadUint8 b
  Lib.require (v.toNat ≤ 1) .custom
  pure (v == 1)

/-- The value check of `Uint128`: the two halves of the left-padded sixteen bytes. -/
def leftPadUint128 : Except Err (UInt64 × UInt64) :=
  if 16 < b.length then .error .overflow
  else if b.head? = some 0 then .error .leadingZero
  else
    let v := List.replicate (16 - b.length) 0 ++ b
    .ok (UInt64.ofNat (beNat (v.take 8)), UInt64.ofNat (beNat (v.drop 8)))

/-! ## What a header announces -/

/-- The stream starts with a long header of the given kind that announces `2 ^ 64 - 9` bytes or
more: the first byte says eight bytes of length, and their value is that large. -/
def overlong (wantList : Bool) (s : Bytes) : Bool :=
  s.head? = some (if wantList then 0xFF else 0xBF) && 9 ≤ s.length && 2 ^ 64 - 9 ≤ beNat ((s.drop 1).take 8)

theorem foldl_be (n : Nat) : b.foldl (fun l c => l * 256 + c.toNat) n = n * 256 ^ b.length + beNat b := by
  induction b generalizing n with
  | nil => simp [beNat]
  | cons c b ih =>
    have h0 : beNat (c :: b) = (0 * 256 + c.toNat) * 256 ^ b.length + beNat b := ih _
    rw [List.foldl_cons, List.length_cons, ih, h0, pow_succ]
    ring

theorem beNat_cons (c : UInt8) (b : Bytes) : beNat (c :: b) = c.toNat * 256 ^ b.length + beNat b := by
  have h := foldl_be b (0 * 256 + c.toNat)
  simpa [beNat] using h

theorem beNat_lt : beNat b < 256 ^ b.length := by
  induction b with
  | nil => simp [beNat]
  | cons c b ih =>
    have hc : c.toNat ≤ 255 := by have := c.toNat_lt; omega
    have hm : c.toNat * 256 ^ b.length ≤ 255 * 256 ^ b.length := Nat.mul_le_mul_right _ hc
    rw [beNat_cons, List.length_cons, pow_succ]
    omega

/-- The length bytes of a header of `lenOfLen` bytes are a number below `256 ^ lenOfLen`. -/
theorem beNat_take_lt (s : Bytes) (k : Nat) : beNat (s.take k) < 256 ^ k := by
  have h := beNat_lt (s.take k)
  have hk : (s.take k).length ≤ k := List.length_take_le k s
  exact lt_of_lt_of_le h (Nat.pow_le_pow_right (by omega) hk)

variable {s : Bytes} {a : Arith} {w : Bool} {k : Nat} {f : Fault} {l : Int}

/-- Eight bytes with a leading zero stay below `2 ^ 56`. -/
theorem beNat_take_lt_of_zero (h : (s.take 8).head? = some 0) : beNat (s.take 8) < 2 ^ 56 := by
  cases s with
  | nil => simp at h
  | cons c s =>
    simp only [List.take_succ_cons, List.head?_cons, Option.some.injEq] at h
    subst h
    have := beNat_take_lt s 7
    rw [List.take_succ_cons, beNat_cons]
    simpa using this

/-! ## One read -/

/-- The five forms of an item, by its first byte. -/
theorem byte_forms (b : Nat) : b < 0x80 ∨ (0x80 ≤ b ∧ b ≤ 0xB7) ∨ (0xB8 ≤ b ∧ b ≤ 0xBF) ∨
    0xF8 ≤ b ∨ (0xC0 ≤ b ∧ b ≤ 0xF7) := by omega

section forms

variable {a : Arith} {c : UInt8} {rest : Bytes}

theorem header_single (h : c.toNat < 0x80) : header a (c :: rest) = .ok (false, 1) := by
  simp [header, h]

theorem header_short (h : 0x80 ≤ c.toNat ∧ c.toNat ≤ 0xB7) : header a (c :: rest) =
      if rest.length < c.toNat - 0x80 then .error (.err .inputTooShort)
      else if c.toNat - 0x80 = 1 ∧ (rest.headD 0).toNat < 0x80 then
        .error (.err .nonCanonicalSingleByte)
      else .ok (false, ((c.toNat - 0x80 : Nat) : Int)) := by
  have h1 : ¬c.toNat < 0x80 := by omega
  have h2 : (rest.length + 1 < 1 + (c.toNat - 0x80)) = (rest.length < c.toNat - 0x80) := by
    simp only [eq_iff_iff]; omega
  simp only [header, h1, h.2, if_false, if_true, List.length_cons, h2]

theorem header_longString (h : 0xB8 ≤ c.toNat ∧ c.toNat ≤ 0xBF) :
    header a (c :: rest) = longHeader a (c :: rest) false (c.toNat - 0xB7) := by
  have h1 : ¬c.toNat < 0x80 := by omega
  have h2 : ¬c.toNat ≤ 0xB7 := by omega
  simp only [header, h1, h2, h.2, if_false, if_true]

theorem header_longList (h : 0xF8 ≤ c.toNat) :
    header a (c :: rest) = longHeader a (c :: rest) true (c.toNat - 0xF7) := by
  have h1 : ¬c.toNat < 0x80 := by omega
  have h2 : ¬c.toNat ≤ 0xB7 := by omega
  have h3 : ¬c.toNat ≤ 0xBF := by omega
  simp only [header, h1, h2, h3, h, if_false, if_true]

theorem header_shortList (h : 0xC0 ≤ c.toNat ∧ c.toNat ≤ 0xF7) : header a (c :: rest) =
      if rest.length < c.toNat - 0xC0 then .error (.err .inputTooShort)
      else .ok (true, ((c.toNat - 0xC0 : Nat) : Int)) := by
  have h1 : ¬c.toNat < 0x80 := by omega
  have h2 : ¬c.toNat ≤ 0xB7 := by omega
  have h3 : ¬c.toNat ≤ 0xBF := by omega
  have h4 : ¬0xF8 ≤ c.toNat := by omega
  have h5 : (rest.length + 1 < 1 + (c.toNat - 0xC0)) = (rest.length < c.toNat - 0xC0) := by
    simp only [eq_iff_iff]; omega
  simp only [header, h1, h2, h3, h4, if_false, List.length_cons, h5]

theorem headerSize_cons : headerSize (c :: rest) = if c.toNat < 0x80 then 0
    else if c.toNat ≤ 0xB7 ∨ (0xC0 ≤ c.toNat ∧ c.toNat ≤ 0xF7) then 1
    else if 0xF8 ≤ c.toNat then 1 + (c.toNat - 0xF7) else 1 + (c.toNat - 0xB7) := rfl

end forms

theorem longHeader_err (h : longHeader a s w k = .error f) : ∃ e, f = .err e := by
  simp only [longHeader, Lib.bind_eq_error, Lib.require_eq_error, Lib.pure_ne_error, and_false,
    exists_false, or_false] at h
  rcases h with ⟨-, rfl⟩ | ⟨_, -, ⟨-, rfl⟩ | ⟨_, -, ⟨-, rfl⟩ | ⟨_, -, -, rfl⟩⟩⟩ <;> exact ⟨_, rfl⟩

theorem longHeader_ok {w' : Bool} : longHeader a s w k = .ok (w', l) ↔
      1 + k ≤ s.length ∧ ((s.drop 1).take k).head? ≠ some 0 ∧
      56 ≤ beNat ((s.drop 1).take k) ∧ a.sum (1 + k + beNat ((s.drop 1).take k)) ≤ s.length ∧
      w = w' ∧ a.int (beNat ((s.drop 1).take k)) = l := by
  simp only [longHeader, Lib.bind_eq_ok, Lib.require_eq_ok, Lib.pure_eq_ok, exists_and_left,
    exists_const, Prod.mk.injEq]

theorem header_err (h : header a s = .error f) : ∃ e, f = .err e := by
  cases s with
  | nil => exact ⟨_, (Except.error.inj h).symm⟩
  | cons c rest =>
    rcases byte_forms c.toNat with hc | hc | hc | hc | hc
    · simp [header_single hc] at h
    · rw [header_short hc] at h
      split_ifs at h <;> exact ⟨_, (Except.error.inj h).symm⟩
    · rw [header_longString hc] at h
      exact longHeader_err h
    · rw [header_longList hc] at h
      exact longHeader_err h
    · rw [header_shortList hc] at h
      split_ifs at h
      exact ⟨_, (Except.error.inj h).symm⟩

/-- With exact sums an accepted header announces no more than the stream holds. -/
theorem header_exact_ok (h : header .exact s = .ok (w, l)) : 0 ≤ l ∧ headerSize s + l ≤ s.length := by
  cases s with
  | nil => simp [header] at h
  | cons c rest =>
    have hlen : (c :: rest).length = rest.length + 1 := rfl
    rw [headerSize_cons]
    rcases byte_forms c.toNat with hc | hc | hc | hc | hc
    · rw [header_single hc] at h
      obtain ⟨-, rfl⟩ := Prod.mk.inj (Except.ok.inj h)
      simp only [hc, if_true]
      omega
    · rw [header_short hc] at h
      split_ifs at h
      obtain ⟨-, rfl⟩ := Prod.mk.inj (Except.ok.inj h)
      split_ifs <;> omega
    · rw [header_longString hc] at h
      obtain ⟨-, -, -, hl, -, rfl⟩ := longHeader_ok.mp h
      simp only [Arith.sum_exact, Arith.int_exact] at hl ⊢
      split_ifs <;> omega
    · rw [header_longList hc] at h
      obtain ⟨-, -, -, hl, -, rfl⟩ := longHeader_ok.mp h
      simp only [Arith.sum_exact, Arith.int_exact] at hl ⊢
      split_ifs <;> omega
    · rw [header_shortList hc] at h
      split_ifs at h
      obtain ⟨-, rfl⟩ := Prod.mk.inj (Except.ok.inj h)
      split_ifs <;> omega

/-! ## The machine's sums -/

@[simp] theorem Arith.int_go (n : Nat) : Arith.go.int n = int64 n := rfl

theorem Arith.sum_go_of_lt {n : Nat} (h : n < 2 ^ 64) : Arith.go.sum n = n := Nat.mod_eq_of_lt h

/-- Below the wrap the two readings of a long header agree. -/
theorem longHeader_go_eq (hs : s.length < 2 ^ 63) (hk : 1 + k + beNat ((s.drop 1).take k) < 2 ^ 64) :
    longHeader .go s w k = longHeader .exact s w k := by
  have hsum : Arith.go.sum (1 + k + beNat ((s.drop 1).take k)) ≤ s.length ↔
      Arith.exact.sum (1 + k + beNat ((s.drop 1).take k)) ≤ s.length := by
    rw [Arith.sum_go_of_lt hk, Arith.sum_exact]
  unfold longHeader
  refine bind_congr fun _ => bind_congr fun _ => bind_congr fun _ => ?_
  rw [Lib.require_congr hsum]
  by_cases hn : 1 + k + beNat ((s.drop 1).take k) ≤ s.length
  · rw [Arith.int_go, int64_of_lt (by omega), Arith.int_exact]
  · have hno : ¬Arith.exact.sum (1 + k + beNat ((s.drop 1).take k)) ≤ s.length := hn
    simp only [Lib.require, if_neg hno, bind, Except.bind]

/-- Past the wrap the machine accepts the header, with a negative length. -/
theorem longHeader_go_wrap (hs : 9 ≤ s.length) (hl : 2 ^ 64 - 9 ≤ beNat ((s.drop 1).take 8)) :
    ∃ l, longHeader .go s w 8 = .ok (w, l) ∧ l < 0 := by
  have hlt : beNat ((s.drop 1).take 8) < 2 ^ 64 := by simpa using beNat_take_lt (s.drop 1) 8
  refine ⟨int64 (beNat ((s.drop 1).take 8)), longHeader_ok.mpr ?_, int64_of_ge (by omega) hlt⟩
  refine ⟨by omega, ?_, by omega, ?_, rfl, rfl⟩
  · intro h0
    have := beNat_take_lt_of_zero h0
    omega
  · have hsum : Arith.go.sum (1 + 8 + beNat ((s.drop 1).take 8)) = (1 + 8 + beNat ((s.drop 1).take 8)) % 2 ^ 64 := rfl
    omega

/-- With exact sums the same header is too long for any slice. -/
theorem longHeader_exact_wrap (hs : s.length < 2 ^ 63) (hl : 2 ^ 64 - 9 ≤ beNat ((s.drop 1).take 8)) :
    ∃ f, longHeader .exact s w 8 = .error f := by
  cases h : longHeader .exact s w 8 with
  | error f => exact ⟨f, rfl⟩
  | ok v =>
    obtain ⟨w', l⟩ := v
    obtain ⟨-, -, -, hsum, -⟩ := longHeader_ok.mp h
    rw [Arith.sum_exact] at hsum
    omega

/-- The first byte of an overlong header, and what makes it overlong. -/
theorem overlong_iff : overlong w s = true ↔
    ∃ c rest, s = c :: rest ∧ c.toNat = (if w then 0xFF else 0xBF) ∧ 9 ≤ s.length ∧
      2 ^ 64 - 9 ≤ beNat ((s.drop 1).take 8) := by
  cases s with
  | nil => simp [overlong]
  | cons c rest =>
    have hc : c = (if w then 0xFF else 0xBF) ↔ c.toNat = (if w then 0xFF else 0xBF) := by
      rw [← UInt8.toNat_inj]
      cases w <;> simp
    simp [overlong, hc, and_assoc]

theorem header_go_of_overlong (h : overlong w s = true) : ∃ l, header .go s = .ok (w, l) ∧ l < 0 := by
  obtain ⟨c, rest, rfl, hc, hlen, hl⟩ := overlong_iff.mp h
  cases w with
  | false =>
    have hc' : c.toNat = 0xBF := hc
    rw [header_longString (by omega), hc']
    exact longHeader_go_wrap hlen hl
  | true =>
    have hc' : c.toNat = 0xFF := hc
    rw [header_longList (by omega), hc']
    exact longHeader_go_wrap hlen hl

theorem header_exact_of_overlong (hs : s.length < 2 ^ 63)
    (h : overlong w s = true) : ∃ f, header .exact s = .error f := by
  obtain ⟨c, rest, rfl, hc, hlen, hl⟩ := overlong_iff.mp h
  cases w with
  | false =>
    have hc' : c.toNat = 0xBF := hc
    rw [header_longString (by omega), hc']
    exact longHeader_exact_wrap hs hl
  | true =>
    have hc' : c.toNat = 0xFF := hc
    rw [header_longList (by omega), hc']
    exact longHeader_exact_wrap hs hl

/-- A length of at most seven bytes, or of eight and not overlong, does not wrap. -/
theorem sum_lt_of_not_overlong (w : Bool) {c : UInt8} {rest : Bytes} (hk : k ≤ 8)
    (hc : k = 8 → c.toNat = (if w then 0xFF else 0xBF)) (h : overlong w (c :: rest) = false) :
    1 + k + beNat (((c :: rest).drop 1).take k) < 2 ^ 64 := by
  -- A length of seven bytes or fewer, also one cut short by the end of the stream.
  have small : ∀ n, n ≤ 7 → beNat (((c :: rest).drop 1).take n) < 2 ^ 56 := by
    intro n hn
    have hlt := beNat_take_lt ((c :: rest).drop 1) n
    have hpow : 256 ^ n ≤ 256 ^ 7 := Nat.pow_le_pow_right (by omega) hn
    omega
  rcases Nat.lt_or_eq_of_le hk with hk | rfl
  · have := small k (by omega)
    omega
  · by_cases hlen : 9 ≤ (c :: rest).length
    · by_contra hge
      have : overlong w (c :: rest) = true :=
        overlong_iff.mpr ⟨c, rest, rfl, hc rfl, hlen, by omega⟩
      simp [h] at this
    · have hrest : rest.length ≤ 7 := by simp only [List.length_cons] at hlen; omega
      have htake : ((c :: rest).drop 1).take 8 = ((c :: rest).drop 1).take 7 := by
        rw [List.drop_succ_cons, List.drop_zero, List.take_of_length_le (by omega), List.take_of_length_le hrest]
      have := small 7 le_rfl
      rw [htake]
      omega

theorem header_go_eq (hs : s.length < 2 ^ 63) (h : ∀ w, overlong w s = false) : header .go s = header .exact s := by
  cases s with
  | nil => rfl
  | cons c rest =>
    have hc256 := c.toNat_lt
    rcases byte_forms c.toNat with hc | hc | hc | hc | hc
    · rw [header_single hc, header_single hc]
    · rw [header_short hc, header_short hc]
    · rw [header_longString hc, header_longString hc]
      exact longHeader_go_eq hs (sum_lt_of_not_overlong false (by omega) (by simp; omega) (h false))
    · rw [header_longList hc, header_longList hc]
      exact longHeader_go_eq hs (sum_lt_of_not_overlong true (by omega) (by simp; omega) (h true))
    · rw [header_shortList hc, header_shortList hc]

/-! ## The read as a whole -/

theorem slice_ok {out : Bytes} {lo hi : Int} : slice s lo hi = .ok out ↔
    (0 ≤ lo ∧ lo ≤ hi ∧ hi ≤ s.length) ∧ (s.take hi.toNat).drop lo.toNat = out := by
  unfold slice
  split <;> simp_all

theorem slice_err {lo hi : Int} : slice s lo hi = .error f ↔ ¬(0 ≤ lo ∧ lo ≤ hi ∧ hi ≤ s.length) ∧ f = .panic := by
  unfold slice
  split <;> simp_all [eq_comm]

theorem header_of_headerSize_zero (h : header a s = .ok (w, l)) (h0 : headerSize s = 0) : l = 1 := by
  cases s with
  | nil => simp [header] at h
  | cons c rest =>
    rw [headerSize_cons] at h0
    have hc : c.toNat < 0x80 := by
      by_contra hc
      rw [if_neg hc] at h0
      split_ifs at h0 <;> omega
    rw [header_single hc] at h
    exact (Prod.mk.inj (Except.ok.inj h)).2.symm

/-- What a successful read says about the header it found. -/
theorem readItem_header {p r : Bytes} (h : readItem a w s = .ok (p, r)) :
    header a s = .ok (w, (p.length : Int)) ∧ s = s.take (headerSize s) ++ p ++ r ∧
      headerSize s + p.length ≤ s.length := by
  simp only [readItem, Lib.bind_eq_ok, Lib.require_eq_ok, Lib.pure_eq_ok, slice_ok, Prod.mk.injEq] at h
  obtain ⟨⟨w', l⟩, hh, _, hw, out, ⟨hb, hout⟩, rest, ⟨hb', hrest⟩, rfl, rfl⟩ := h
  simp only at hb hout hb' hrest hw
  obtain ⟨n, rfl⟩ : ∃ n : Nat, l = n := ⟨l.toNat, by omega⟩
  have hto : ((headerSize s : Int) + n).toNat = headerSize s + n := by omega
  rw [hto, Int.toNat_natCast] at hout
  rw [hto, Int.toNat_natCast, List.take_length] at hrest
  have hlen : out.length = n := by
    rw [← hout, List.length_drop, List.length_take]
    omega
  refine ⟨by rw [hh, hw, hlen], ?_, by omega⟩
  rw [← hout, ← hrest, List.drop_take, List.append_assoc]
  have : headerSize s + n - headerSize s = n := by omega
  rw [this, ← List.drop_drop, List.take_append_drop, List.take_append_drop]

/-- A successful read cuts the stream into a header, the payload and the rest, and header and
payload are not both empty. -/
theorem readItem_ok {p r : Bytes} (h : readItem a w s = .ok (p, r)) :
    ∃ hd, s = hd ++ p ++ r ∧ 0 < (hd ++ p).length := by
  obtain ⟨hh, hs, hle⟩ := readItem_header h
  refine ⟨s.take (headerSize s), hs, ?_⟩
  rw [List.length_append, List.length_take, Nat.min_eq_left (by omega)]
  rcases Nat.eq_zero_or_pos (headerSize s) with h0 | h0
  · have := header_of_headerSize_zero hh h0
    omega
  · omega

theorem readItem_exact_faults (h : readItem .exact w s = .error f) : ∃ e, f = .err e := by
  simp only [readItem, Lib.bind_eq_error, Lib.require_eq_error, Lib.pure_ne_error, and_false,
    exists_false, or_false, slice_err] at h
  rcases h with h | ⟨⟨w', l⟩, hh, ⟨-, rfl⟩ | ⟨_, -, ⟨hb, -⟩ | ⟨_, -, hb, -⟩⟩⟩
  · exact header_err h
  · exact ⟨_, rfl⟩
  · exact absurd (by have := header_exact_ok hh; simp only; omega) hb
  · exact absurd (by have := header_exact_ok hh; simp only; omega) hb

/-- An overlong header of the kind asked for: the slice expression panics. -/
theorem readItem_go_of_overlong (h : overlong w s = true) : readItem .go w s = .error .panic := by
  obtain ⟨l, hh, hl⟩ := header_go_of_overlong h
  simp only [readItem, hh, bind, Except.bind, Lib.require, if_true]
  have hb : ¬(0 ≤ (headerSize s : Int) ∧ (headerSize s : Int) ≤ headerSize s + l ∧
      headerSize s + l ≤ s.length) := by omega
  rw [slice, if_neg hb]

/-- On any other stream the machine read succeeds as the exact one does, or returns an error. -/
theorem readItem_go (hs : s.length < 2 ^ 63) (h : overlong w s = false) :
    (∀ f, readItem .go w s = .error f → ∃ e, f = .err e) ∧
      (readItem .go w s).toOption = (readItem .exact w s).toOption := by
  by_cases hw : overlong (!w) s = true
  · -- An overlong header of the other kind is refused by its kind, or as too long.
    obtain ⟨l, hh, -⟩ := header_go_of_overlong hw
    obtain ⟨f, hf⟩ := header_exact_of_overlong hs hw
    cases w <;> simp [readItem, hh, hf, bind, Except.bind, Lib.require, Except.toOption]
  · have hall : ∀ w', overlong w' s = false := by
      intro w'
      rcases Bool.eq_or_eq_not w' w with rfl | rfl
      · exact h
      · simpa using hw
    have heq : readItem .go w s = readItem .exact w s := by
      simp only [readItem, header_go_eq hs hall]
    rw [heq]
    exact ⟨fun f hf => readItem_exact_faults hf, rfl⟩

end MonadBft.Rlp
