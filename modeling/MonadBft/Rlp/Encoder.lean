/-
  MonadBft.Rlp.Encoder — the encoders of package rlp (rlp/rlp.go) and what the stream reads back.

  An integer is its big-endian bytes without leading zeros, a byte string or a list is its
  payload behind a header, and a single byte below `0x80` is its own encoding. The length of a
  payload is a Go `int`, so it takes at most eight bytes.

  Proved:
  - `readItem_appendItem`: an exact read of an encoded item gives its payload and what follows.
  - `readItem_canonical`: an exact read succeeds on nothing else, so every payload has one encoding.
  - `leftPadUint64_iff`, `leftPadUint128_iff`: so has every integer.
-/
import MonadBft.Rlp.Stream

namespace MonadBft.Rlp

open List

/-- The `k` big-endian bytes of a number: the loop `b[i] = byte(v); v >>= 8` from the end. -/
def beBytes : Nat → Nat → Bytes
  | 0, _ => []
  | k + 1, v => beBytes k (v / 256) ++ [UInt8.ofNat v]

/-- Without leading zeros: the loop `for b[i] == 0`. -/
def stripped (b : Bytes) : Bytes := b.dropWhile (· == 0)

def appendLenPrefix (base : UInt8) (l : Nat) : Bytes :=
  let b := stripped (beBytes 8 l)
  (base + UInt8.ofNat b.length) :: b

def appendString (s : Bytes) : Bytes :=
  match s with
  | [c] => if c < 0x80 then [c] else [0x81, c]
  | s => (if s.length < 56 then [0x80 + UInt8.ofNat s.length] else appendLenPrefix 0xB7 s.length) ++ s

def appendList (payload : Bytes) : Bytes :=
  (if payload.length < 56 then [0xC0 + UInt8.ofNat payload.length] else appendLenPrefix 0xF7 payload.length) ++ payload

/-- `AppendList` of a body that appends these fields in turn. -/
def appendFields (fields : List Bytes) : Bytes := appendList fields.flatten

def appendUint64 (v : UInt64) : Bytes :=
  if v = 0 then [0x80] else appendString (stripped (beBytes 8 v.toNat))

/-- `AppendUint128`, of the two halves. -/
def appendUint128 (v : UInt64 × UInt64) : Bytes :=
  if v.1 = 0 then appendUint64 v.2
  else appendString (stripped (beBytes 8 v.1.toNat ++ beBytes 8 v.2.toNat))

def optional {α : Type} (enc : α → Bytes) : Option α → Bytes
  | none => []
  | some x => enc x

def appendItem (list : Bool) (payload : Bytes) : Bytes := if list then appendList payload else appendString payload

/-- The payload is the end of its encoding. -/
theorem appendItem_length (w : Bool) (p : Bytes) : p.length ≤ (appendItem w p).length := by
  cases w with
  | true =>
    simp only [appendItem, if_true, appendList, length_append]
    omega
  | false =>
    have hle : p.length ≤ (appendString p).length := by
      unfold appendString
      split
      · split <;> simp
      · rw [length_append]
        omega
    exact hle

/-! ## Big-endian numbers -/

@[simp] theorem beBytes_length (k v : Nat) : (beBytes k v).length = k := by
  induction k generalizing v with
  | zero => rfl
  | succ k ih => simp [beBytes, ih]

variable (b : Bytes) (v : UInt64) (n : Nat)

theorem beNat_append (c : Bytes) : beNat (b ++ c) = beNat b * 256 ^ c.length + beNat c := by
  show (b ++ c).foldl _ 0 = _
  rw [foldl_append, foldl_be]
  rfl

theorem beNat_beBytes (k v : Nat) : beNat (beBytes k v) = v % 256 ^ k := by
  induction k generalizing v with
  | zero =>
    rw [pow_zero, Nat.mod_one]
    rfl
  | succ k ih =>
    have hone : beNat [UInt8.ofNat v] = v % 256 := by simp [beNat]
    rw [beBytes, beNat_append, ih, hone, length_singleton, pow_one, pow_succ, Nat.mul_comm (256 ^ k), Nat.mod_mul]
    ring

theorem beNat_inj {b c : Bytes} (hlen : b.length = c.length) (h : beNat b = beNat c) : b = c := by
  induction b generalizing c with
  | nil => exact (length_eq_zero_iff.mp hlen.symm).symm
  | cons x b ih =>
    cases c with
    | nil => cases hlen
    | cons y c =>
      have hlen' : b.length = c.length := Nat.succ.inj hlen
      rw [beNat_cons, beNat_cons, hlen'] at h
      have hb := beNat_lt b
      have hc := beNat_lt c
      rw [hlen'] at hb
      have hxy : x.toNat = y.toNat := by
        have hdiv := congrArg (· / 256 ^ c.length) h
        have hpos : 0 < 256 ^ c.length := Nat.pow_pos (by decide)
        simpa [Nat.mul_comm _ (256 ^ c.length), Nat.mul_add_div hpos, Nat.div_eq_of_lt hb, Nat.div_eq_of_lt hc] using hdiv
      have hbc : beNat b = beNat c := by
        rw [hxy] at h
        omega
      rw [UInt8.toNat_inj.mp hxy, ih hlen' hbc]

/-- Leading zeros do not count. -/
theorem beNat_stripped : beNat (stripped b) = beNat b := by
  unfold stripped
  induction b with
  | nil => rfl
  | cons c b ih =>
    rw [dropWhile_cons]
    by_cases hc : (c == 0) = true
    · rw [if_pos hc, ih, beNat_cons, eq_of_beq hc]
      simp
    · rw [if_neg hc]

theorem stripped_head : (stripped b).head? ≠ some 0 := by
  intro h
  have := head?_dropWhile_not (· == (0 : UInt8)) b
  rw [show b.dropWhile (· == 0) = stripped b from rfl, h] at this
  simp at this

theorem stripped_length_le : (stripped b).length ≤ b.length := (dropWhile_suffix _).length_le

@[simp] theorem beNat_replicate_zero : beNat (replicate n 0) = 0 := by
  induction n with
  | zero => rfl
  | succ n ih =>
    rw [replicate_succ, beNat_cons, ih]
    simp

/-- A shorter spelling of a number is a longer one without some of its zeros. -/
theorem padded_of_beNat {b c : Bytes} (hlen : b.length ≤ c.length) (h : beNat b = beNat c) :
    replicate (c.length - b.length) 0 ++ b = c := by
  refine beNat_inj ?_ ?_
  · rw [length_append, length_replicate]
    omega
  · rw [beNat_append, beNat_replicate_zero, h]
    simp

theorem stripped_padded : stripped (replicate n 0 ++ b) = stripped b := by
  unfold stripped
  induction n with
  | zero => rfl
  | succ n ih => simp [replicate_succ, ih]

/-- A number is written in one way without leading zeros. -/
theorem stripped_of_beNat {b c : Bytes} (hhead : b.head? ≠ some 0) (hlen : b.length ≤ c.length)
    (h : beNat b = beNat c) : stripped c = b := by
  rw [← padded_of_beNat hlen h, stripped_padded]
  cases b with
  | nil => rfl
  | cons x b =>
    have hx : ¬(x == 0) = true := by
      intro hx
      exact hhead (by rw [eq_of_beq hx]; rfl)
    unfold stripped
    rw [dropWhile_cons, if_neg hx]

/-! ## Reading an encoded item -/

section read

variable {a : Arith} {w : Bool} {hd p r s : Bytes} {c : UInt8} (base : UInt8)

theorem readItem_of_header (hh : header a (hd ++ p ++ r) = .ok (w, (p.length : Int)))
    (hsz : headerSize (hd ++ p ++ r) = hd.length) : readItem a w (hd ++ p ++ r) = .ok (p, r) := by
  simp only [readItem, Lib.bind_eq_ok, Lib.require_eq_ok, Lib.pure_eq_ok, slice_ok, Prod.mk.injEq]
  have hto : ((hd.length : Int) + p.length).toNat = hd.length + p.length := by omega
  refine ⟨(w, p.length), hh, (), rfl, p, ?_, r, ?_, rfl, rfl⟩
  · rw [hsz, hto, Int.toNat_natCast]
    refine ⟨?_, ?_⟩
    · simp only [length_append]
      omega
    · rw [← length_append, take_left, drop_left]
  · rw [hsz, hto, Int.toNat_natCast, take_length]
    refine ⟨?_, ?_⟩
    · simp only [length_append]
      omega
    · rw [← length_append, drop_left]

theorem lenBytes_spec {l : Nat} (hl : 56 ≤ l) (hlt : l < 2 ^ 64) :
    beNat (stripped (beBytes 8 l)) = l ∧ 1 ≤ (stripped (beBytes 8 l)).length ∧ (stripped (beBytes 8 l)).length ≤ 8 := by
  have hval : beNat (stripped (beBytes 8 l)) = l := by
    rw [beNat_stripped, beNat_beBytes]
    exact Nat.mod_eq_of_lt (by omega)
  refine ⟨hval, ?_, ?_⟩
  · by_contra hnil
    have : stripped (beBytes 8 l) = [] := length_eq_zero_iff.mp (by omega)
    rw [this] at hval
    have : beNat [] = 0 := rfl
    omega
  · have := stripped_length_le (beBytes 8 l)
    rwa [beBytes_length] at this

theorem toNat_add_ofNat {n : Nat} (h : base.toNat + n < 256) : (base + UInt8.ofNat n).toNat = base.toNat + n := by
  rw [UInt8.toNat_add, UInt8.toNat_ofNat']
  omega

/-- A long header: eight bytes are enough for the length. -/
theorem longHeader_append (hp : 56 ≤ p.length) (hlt : p.length < 2 ^ 64) :
    longHeader .exact (c :: stripped (beBytes 8 p.length) ++ p ++ r) w (stripped (beBytes 8 p.length)).length =
      .ok (w, (p.length : Int)) := by
  obtain ⟨hval, -, -⟩ := lenBytes_spec hp hlt
  have htake : ((c :: stripped (beBytes 8 p.length) ++ p ++ r).drop 1).take (stripped (beBytes 8 p.length)).length =
      stripped (beBytes 8 p.length) := by
    rw [cons_append, cons_append, drop_succ_cons, drop_zero, append_assoc, take_left]
  rw [longHeader_ok, htake, hval, Arith.sum_exact, Arith.int_exact]
  refine ⟨?_, stripped_head _, hp, ?_, rfl, rfl⟩
  · simp only [cons_append, length_cons, length_append]
    omega
  · simp only [cons_append, length_cons, length_append]
    omega

theorem readItem_appendString (hlt : p.length < 2 ^ 64) : readItem .exact false (appendString p ++ r) = .ok (p, r) := by
  by_cases hlong : 56 ≤ p.length
  · -- a long string
    obtain ⟨-, hk, hk8⟩ := lenBytes_spec hlong hlt
    have henc : appendString p ++ r = appendLenPrefix 0xB7 p.length ++ p ++ r := by
      unfold appendString
      split
      · simp at hlong
      · rw [if_neg (by omega)]
    rw [henc]
    unfold appendLenPrefix
    have hc : ((0xB7 : UInt8) + UInt8.ofNat (stripped (beBytes 8 p.length)).length).toNat =
        0xB7 + (stripped (beBytes 8 p.length)).length :=
      toNat_add_ofNat 0xB7 (by simp; omega)
    refine readItem_of_header ?_ ?_
    · rw [cons_append, cons_append, header_longString (by omega), hc, Nat.add_sub_cancel_left]
      exact longHeader_append hlong hlt
    · rw [cons_append, cons_append, headerSize_cons, hc, length_cons]
      split_ifs <;> omega
  · by_cases hsingle : ∃ c, p = [c] ∧ c < 0x80
    · obtain ⟨c, rfl, hc⟩ := hsingle
      have hc' : c.toNat < 0x80 := hc
      rw [show appendString [c] = [c] by simp [appendString, hc]]
      refine (readItem_of_header ?_ ?_ : readItem .exact false ([] ++ [c] ++ r) = _)
      · exact header_single hc'
      · show headerSize (c :: r) = 0
        rw [headerSize_cons, if_pos hc']
    · -- a short string that is not a single small byte
      have henc : appendString p = [0x80 + UInt8.ofNat p.length] ++ p := by
        unfold appendString
        split
        · rename_i c
          have hc : ¬c < 0x80 := fun hc => hsingle ⟨c, rfl, hc⟩
          rw [if_neg hc]
          rfl
        · rw [if_pos (by omega)]
      have hc : ((0x80 : UInt8) + UInt8.ofNat p.length).toNat = 0x80 + p.length :=
        toNat_add_ofNat 0x80 (by simp; omega)
      rw [henc]
      refine readItem_of_header ?_ ?_
      · show header .exact ((0x80 + UInt8.ofNat p.length) :: (p ++ r)) = _
        rw [header_short (by omega), hc, Nat.add_sub_cancel_left, if_neg (by simp), if_neg]
        rintro ⟨hone, hhead⟩
        obtain ⟨c, rfl⟩ := length_eq_one_iff.mp hone
        exact hsingle ⟨c, rfl, hhead⟩
      · show headerSize ((0x80 + UInt8.ofNat p.length) :: (p ++ r)) = 1
        rw [headerSize_cons, hc]
        split_ifs <;> omega

theorem readItem_appendList (hlt : p.length < 2 ^ 64) : readItem .exact true (appendList p ++ r) = .ok (p, r) := by
  unfold appendList
  by_cases hlong : p.length < 56
  · have hc : ((0xC0 : UInt8) + UInt8.ofNat p.length).toNat = 0xC0 + p.length :=
      toNat_add_ofNat 0xC0 (by simp; omega)
    rw [if_pos hlong]
    refine readItem_of_header ?_ ?_
    · show header .exact ((0xC0 + UInt8.ofNat p.length) :: (p ++ r)) = _
      rw [header_shortList (by omega), hc, Nat.add_sub_cancel_left, if_neg (by simp)]
    · show headerSize ((0xC0 + UInt8.ofNat p.length) :: (p ++ r)) = 1
      rw [headerSize_cons, hc]
      split_ifs <;> omega
  · obtain ⟨-, hk, hk8⟩ := lenBytes_spec (l := p.length) (by omega) hlt
    rw [if_neg hlong]
    unfold appendLenPrefix
    have hc : ((0xF7 : UInt8) + UInt8.ofNat (stripped (beBytes 8 p.length)).length).toNat =
        0xF7 + (stripped (beBytes 8 p.length)).length :=
      toNat_add_ofNat 0xF7 (by simp; omega)
    refine readItem_of_header ?_ ?_
    · rw [cons_append, cons_append, header_longList (by omega), hc, Nat.add_sub_cancel_left]
      exact longHeader_append (by omega) hlt
    · rw [cons_append, cons_append, headerSize_cons, hc, length_cons]
      split_ifs <;> omega

theorem readItem_appendItem (w : Bool) (hlt : p.length < 2 ^ 64) :
    readItem .exact w (appendItem w p ++ r) = .ok (p, r) := by
  cases w with
  | false => exact readItem_appendString hlt
  | true => exact readItem_appendList hlt

/-- What the exact read returns, the machine's does too. -/
theorem readItem_of_exact (hs : s.length < 2 ^ 63) (h : readItem .exact w s = .ok (p, r)) :
    readItem a w s = .ok (p, r) := by
  cases a with
  | exact => exact h
  | go =>
    have hov : overlong w s = false := by
      by_contra hov
      obtain ⟨f, hf⟩ := header_exact_of_overlong hs (by simpa using hov)
      simp [readItem, hf, bind, Except.bind] at h
    rw [← Lib.toOption_eq_some, (readItem_go hs hov).2, Lib.toOption_eq_some]
    exact h

/-- An encoded item of a machine slice is read back in either arithmetic. -/
theorem readItem_append (w : Bool) (hlen : (appendItem w p ++ r).length < 2 ^ 63) :
    readItem a w (appendItem w p ++ r) = .ok (p, r) := by
  have hpay := appendItem_length w p
  refine readItem_of_exact hlen (readItem_appendItem w ?_)
  rw [length_append] at hlen
  omega

/-! ## Every item has one encoding -/

theorem longHeader_canonical {rest : Bytes} {w' : Bool} {k : Nat} (hk : k ≤ 8) (hc : c.toNat = base.toNat + k)
    (h : longHeader .exact (c :: rest) w k = .ok (w', (p.length : Int))) :
    appendLenPrefix base p.length = (c :: rest).take (1 + k) ∧ 56 ≤ p.length ∧ w = w' := by
  obtain ⟨hlen, hhead, hmin, -, hw, hval⟩ := longHeader_ok.mp h
  rw [drop_succ_cons, drop_zero] at hhead hmin hval
  rw [Arith.int_exact, Int.natCast_inj] at hval
  have hk' : (rest.take k).length = k := by
    rw [length_take]
    simp only [length_cons] at hlen
    omega
  have hstrip : stripped (beBytes 8 p.length) = rest.take k := by
    refine stripped_of_beNat hhead (by rw [hk', beBytes_length]; exact hk) ?_
    rw [beNat_beBytes, ← hval]
    refine (Nat.mod_eq_of_lt ?_).symm
    exact lt_of_lt_of_le (beNat_take_lt rest k) (Nat.pow_le_pow_right (by omega) hk)
  refine ⟨?_, by omega, hw⟩
  unfold appendLenPrefix
  dsimp only
  rw [hstrip, hk', Nat.add_comm 1 k, take_succ_cons]
  congr 1
  refine UInt8.toNat_inj.mp ?_
  have hc256 := c.toNat_lt
  rw [hc, toNat_add_ofNat base (by omega)]

theorem readItem_canonical (h : readItem .exact w s = .ok (p, r)) : s = appendItem w p ++ r := by
  obtain ⟨hh, hs, hle⟩ := readItem_header h
  cases s with
  | nil => simp [header] at hh
  | cons c rest =>
    have hc256 := c.toNat_lt
    rw [headerSize_cons] at hs hle
    rcases byte_forms c.toNat with hc | hc | hc | hc | hc
    · -- a single byte
      rw [header_single hc] at hh
      obtain ⟨rfl, hlen⟩ := Prod.mk.inj (Except.ok.inj hh)
      rw [if_pos hc, take_zero, nil_append] at hs
      obtain ⟨c', rfl⟩ := length_eq_one_iff.mp (by omega : p.length = 1)
      obtain ⟨rfl, -⟩ := cons.inj hs
      rw [hs]
      have hlt : c < 0x80 := hc
      simp [appendItem, appendString, hlt]
    · -- a short string
      rw [header_short hc] at hh
      split_ifs at hh with h₁ h₂
      obtain ⟨rfl, hlen⟩ := Prod.mk.inj (Except.ok.inj hh)
      have hlen' : p.length = c.toNat - 0x80 := by omega
      rw [if_neg (by omega), if_pos (by omega), take_succ_cons, take_zero] at hs
      have hrest : rest = p ++ r := (cons.inj hs).2
      have hcode : c = 0x80 + UInt8.ofNat p.length := by
        refine UInt8.toNat_inj.mp ?_
        rw [toNat_add_ofNat 0x80 (by simp; omega)]
        simp
        omega
      have henc : appendString p = c :: p := by
        unfold appendString
        split
        · rename_i b
          have hb : ¬b < 0x80 := by
            intro hb
            refine h₂ ⟨by simpa using hlen'.symm, ?_⟩
            rw [hrest]
            exact hb
          rw [if_neg hb, hcode]
          rfl
        · rw [if_pos (by omega), ← hcode]
          rfl
      rw [hrest]
      simp [appendItem, henc]
    · -- a long string
      rw [header_longString hc] at hh
      obtain ⟨hpre, hmin, rfl⟩ := longHeader_canonical 0xB7 (by omega) (by simp; omega) hh
      rw [if_neg (by omega), if_neg (by omega), if_neg (by omega), ← hpre] at hs
      have henc : appendString p = appendLenPrefix 0xB7 p.length ++ p := by
        unfold appendString
        split
        · simp at hmin
        · rw [if_neg (by omega)]
      rw [hs]
      simp [appendItem, henc]
    · -- a long list
      rw [header_longList hc] at hh
      obtain ⟨hpre, hmin, rfl⟩ := longHeader_canonical 0xF7 (by omega) (by simp; omega) hh
      rw [if_neg (by omega), if_neg (by omega), if_pos hc, ← hpre] at hs
      rw [hs]
      simp only [appendItem, if_true, appendList]
      rw [if_neg (by omega)]
    · -- a short list
      rw [header_shortList hc] at hh
      split_ifs at hh
      obtain ⟨rfl, hlen⟩ := Prod.mk.inj (Except.ok.inj hh)
      have hlen' : p.length = c.toNat - 0xC0 := by omega
      rw [if_neg (by omega), if_pos (by omega), take_succ_cons, take_zero] at hs
      have hrest : rest = p ++ r := (cons.inj hs).2
      have hcode : c = 0xC0 + UInt8.ofNat p.length := by
        refine UInt8.toNat_inj.mp ?_
        rw [toNat_add_ofNat 0xC0 (by simp; omega)]
        simp
        omega
      rw [hrest]
      simp only [appendItem, if_true, appendList]
      rw [if_pos (by omega), ← hcode]
      rfl

end read

/-! ## Integers -/

theorem appendUint64_eq : appendUint64 v = appendString (stripped (beBytes 8 v.toNat)) := by
  unfold appendUint64
  by_cases h : v = 0
  · rw [if_pos h, h]
    rfl
  · rw [if_neg h]

theorem leftPadUint64_iff {b : Bytes} {v : UInt64} : leftPadUint64 b = .ok v ↔ b = stripped (beBytes 8 v.toNat) := by
  have hv := v.toNat_lt
  unfold leftPadUint64
  constructor
  · intro h
    split_ifs at h with hlen hhead
    obtain rfl := Except.ok.inj h
    refine (stripped_of_beNat hhead (by rw [beBytes_length]; omega) ?_).symm
    have hb : beNat b < 2 ^ 64 := by
      refine lt_of_lt_of_le (beNat_lt b) ?_
      exact Nat.pow_le_pow_right (n := 256) (by omega) (by omega : b.length ≤ 8)
    rw [beNat_beBytes, UInt64.toNat_ofNat', Nat.mod_eq_of_lt hb]
    exact (Nat.mod_eq_of_lt (by omega)).symm
  · rintro rfl
    have hlen := stripped_length_le (beBytes 8 v.toNat)
    rw [beBytes_length] at hlen
    rw [if_neg (by omega), if_neg (stripped_head _), beNat_stripped, beNat_beBytes, Nat.mod_eq_of_lt (by omega)]
    simp

theorem beNat_beBytes_uint64 : beNat (beBytes 8 v.toNat) = v.toNat := by
  have := v.toNat_lt
  rw [beNat_beBytes]
  exact Nat.mod_eq_of_lt (by omega)

theorem appendUint128_eq (v : UInt64 × UInt64) :
    appendUint128 v = appendString (stripped (beBytes 8 v.1.toNat ++ beBytes 8 v.2.toNat)) := by
  unfold appendUint128
  by_cases h : v.1 = 0
  · rw [if_pos h, appendUint64_eq, h]
    have hzero : beBytes 8 (UInt64.toNat 0) = replicate 8 0 := rfl
    rw [hzero, stripped_padded]
  · rw [if_neg h]

theorem leftPadUint128_iff {b : Bytes} {v : UInt64 × UInt64} :
    leftPadUint128 b = .ok v ↔ b = stripped (beBytes 8 v.1.toNat ++ beBytes 8 v.2.toNat) := by
  have hlen16 : (beBytes 8 v.1.toNat ++ beBytes 8 v.2.toNat).length = 16 := by
    rw [length_append, beBytes_length, beBytes_length]
  unfold leftPadUint128
  constructor
  · intro h
    split_ifs at h with hlen hhead
    obtain rfl := Except.ok.inj h
    refine (stripped_of_beNat hhead (by omega) ?_).symm
    have hpad : (replicate (16 - b.length) 0 ++ b).length = 16 := by
      rw [length_append, length_replicate]
      omega
    -- the two halves of the sixteen bytes, each a number below `2 ^ 64`
    have hhalf : ∀ c : Bytes, c.length = 8 → (UInt64.ofNat (beNat c)).toNat = beNat c := by
      intro c hc
      have := beNat_lt c
      rw [hc] at this
      rw [UInt64.toNat_ofNat']
      exact Nat.mod_eq_of_lt (by omega)
    have hsplit := beNat_append ((replicate (16 - b.length) 0 ++ b).take 8)
      ((replicate (16 - b.length) 0 ++ b).drop 8)
    rw [take_append_drop, beNat_append, beNat_replicate_zero, Nat.zero_mul, Nat.zero_add,
      length_drop, hpad] at hsplit
    rw [hsplit, beNat_append, beNat_beBytes_uint64, beNat_beBytes_uint64, beBytes_length, hhalf, hhalf]
    · rw [length_drop, hpad]
    · rw [length_take, hpad]
      rfl
  · intro h
    have hle := stripped_length_le (beBytes 8 v.1.toNat ++ beBytes 8 v.2.toNat)
    have hhead := stripped_head (beBytes 8 v.1.toNat ++ beBytes 8 v.2.toNat)
    have hpad := padded_of_beNat hle (beNat_stripped _)
    rw [← h] at hle hhead hpad
    rw [hlen16] at hle hpad
    have htake : (beBytes 8 v.1.toNat ++ beBytes 8 v.2.toNat).take 8 = beBytes 8 v.1.toNat :=
      take_left' (beBytes_length 8 _)
    have hdrop : (beBytes 8 v.1.toNat ++ beBytes 8 v.2.toNat).drop 8 = beBytes 8 v.2.toNat :=
      drop_left' (beBytes_length 8 _)
    rw [if_neg (by omega), if_neg hhead]
    dsimp only
    rw [hpad, htake, hdrop, beNat_beBytes_uint64, beNat_beBytes_uint64]
    simp

end MonadBft.Rlp
