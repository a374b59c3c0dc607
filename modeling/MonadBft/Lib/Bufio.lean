/-
  MonadBft.Lib.Bufio — a buffered reader over the bytes of a file.

  `read` is one call of `Read` on the buffered reader: it hands out what is buffered, and goes
  to the file only when the buffer is empty, directly into the caller's slice when that is as
  long as the buffer. `readFull` is `io.ReadFull` over it.

  What is left to read (`data`) does not depend on where the buffer ends. `readFull` returns
  the first `n` bytes of it if there are as many (`readFull_ok`); otherwise it reports an
  unexpected end of the file if it got some, and a plain end if it got none
  (`readFull_short`). How much a single `read` returns depends on the buffer (`read_length`).
-/
import Mathlib.Data.List.Basic

namespace MonadBft.Lib

open List

/-- A buffered reader: the bytes in the buffer and those still in the file. -/
structure Bufio where
  buffered : List UInt8
  rest : List UInt8
  deriving DecidableEq, Repr

inductive ReadErr where
  | eof
  | unexpectedEof
  deriving DecidableEq, Repr

namespace Bufio

/-- `bufio.NewReaderSize` over a file that has just been opened. -/
def new (file : List UInt8) : Bufio := ⟨[], file⟩

def data (r : Bufio) : List UInt8 := r.buffered ++ r.rest

variable (size : Nat)

/-- `Read` into `n` bytes, at least one; `none` is the end of the file. -/
def read (r : Bufio) (n : Nat) : Option (List UInt8 × Bufio) :=
  if r.buffered = [] then
    if r.rest = [] then none
    else if size ≤ n then some (r.rest.take n, ⟨[], r.rest.drop n⟩)
    else some ((r.rest.take size).take n, ⟨(r.rest.take size).drop n, r.rest.drop size⟩)
  else some (r.buffered.take n, ⟨r.buffered.drop n, r.rest⟩)

/-- The loop of `io.ReadFull`: `n` more bytes are wanted, and `got` says whether there have been
any. Every read gives one byte at least, so `n` rounds are enough. -/
def readMore : Nat → Bufio → Nat → Bool → Except ReadErr (List UInt8 × Bufio)
  | _, r, 0, _ => .ok ([], r)
  | 0, _, _ + 1, _ => .error .eof
  | k + 1, r, n + 1, got =>
    match r.read size (n + 1) with
    | none => .error (if got then .unexpectedEof else .eof)
    | some (b, r') => (readMore k r' (n + 1 - b.length) true).map fun q => (b ++ q.1, q.2)

def readFull (r : Bufio) (n : Nat) : Except ReadErr (List UInt8 × Bufio) := readMore size n r n false

variable {size} {r r' : Bufio} {n : Nat} {b : List UInt8}

theorem read_eq_none : r.read size n = none ↔ r.data = [] := by
  unfold read data
  by_cases hb : r.buffered = []
  · by_cases hr : r.rest = []
    · simp [hb, hr]
    · by_cases hs : size ≤ n <;> simp [hb, hr, hs]
  · simp [hb]

theorem read_some (hsize : 0 < size) (hn : 0 < n) (h : r.read size n = some (b, r')) :
    r.data = b ++ r'.data ∧ 0 < b.length ∧ b.length ≤ n := by
  unfold read at h
  unfold data
  split_ifs at h with hb hr hs
  · obtain ⟨rfl, rfl⟩ := Prod.mk.inj (Option.some.inj h)
    have hpos := length_pos_iff.mpr hr
    refine ⟨by simp [hb], ?_, length_take_le _ _⟩
    rw [length_take]
    omega
  · obtain ⟨rfl, rfl⟩ := Prod.mk.inj (Option.some.inj h)
    have hpos := length_pos_iff.mpr hr
    refine ⟨?_, ?_, length_take_le _ _⟩
    · rw [hb, nil_append, ← append_assoc, take_append_drop, take_append_drop]
    · rw [length_take, length_take]
      omega
  · obtain ⟨rfl, rfl⟩ := Prod.mk.inj (Option.some.inj h)
    have hpos := length_pos_iff.mpr hb
    refine ⟨?_, ?_, length_take_le _ _⟩
    · rw [← append_assoc, take_append_drop]
    · rw [length_take]
      omega

/-- How much one read below the size of the buffer gives. -/
theorem read_length (hn : n < size) (h : r.read size n = some (b, r')) :
    b.length = min n (if r.buffered = [] then min size r.rest.length else r.buffered.length) := by
  unfold read at h
  split_ifs at h with hb hr hs
  · omega
  · obtain ⟨rfl, -⟩ := Prod.mk.inj (Option.some.inj h)
    rw [if_pos hb, length_take, length_take]
  · obtain ⟨rfl, -⟩ := Prod.mk.inj (Option.some.inj h)
    rw [if_neg hb, length_take]

section ReadFull

variable (hsize : 0 < size) {g : Bool} {k : Nat}
include hsize

theorem readMore_ok (hk : n ≤ k) (hn : n ≤ r.data.length) :
    ∃ r', readMore size k r n g = .ok (r.data.take n, r') ∧ r'.data = r.data.drop n := by
  induction k generalizing r n g with
  | zero =>
    obtain rfl : n = 0 := by omega
    exact ⟨r, rfl, rfl⟩
  | succ k ih =>
    cases n with
    | zero => exact ⟨r, rfl, rfl⟩
    | succ n =>
      cases hread : r.read size (n + 1) with
      | none =>
        rw [read_eq_none.mp hread] at hn
        simp at hn
      | some p =>
        obtain ⟨b, r₁⟩ := p
        obtain ⟨hdata, hpos, hle⟩ := read_some hsize (by omega) hread
        have hlen : r.data.length = b.length + r₁.data.length := by rw [hdata, length_append]
        obtain ⟨r', hmore, hrest⟩ := ih (r := r₁) (n := n + 1 - b.length) (g := true) (by omega) (by omega)
        refine ⟨r', ?_, ?_⟩
        · simp only [readMore, hread, hmore, Except.map, Except.ok.injEq, Prod.mk.injEq, and_true]
          rw [hdata, take_append, take_of_length_le hle]
        · rw [hrest, hdata, drop_append, drop_of_length_le hle, nil_append]

theorem readFull_ok (hn : n ≤ r.data.length) :
    ∃ r', r.readFull size n = .ok (r.data.take n, r') ∧ r'.data = r.data.drop n :=
  readMore_ok hsize (Nat.le_refl n) hn

theorem readMore_short (hk : n ≤ k) (hn : r.data.length < n) :
    readMore size k r n g = .error (if r.data = [] ∧ g = false then .eof else .unexpectedEof) := by
  induction k generalizing r n g with
  | zero => omega
  | succ k ih =>
    cases n with
    | zero => omega
    | succ n =>
      cases hread : r.read size (n + 1) with
      | none =>
        simp only [readMore, hread, read_eq_none.mp hread, true_and]
        cases g <;> rfl
      | some p =>
        obtain ⟨b, r₁⟩ := p
        obtain ⟨hdata, hpos, hle⟩ := read_some hsize (by omega) hread
        have hlen : r.data.length = b.length + r₁.data.length := by rw [hdata, length_append]
        have hmore := ih (r := r₁) (n := n + 1 - b.length) (g := true) (by omega) (by omega)
        have hne : r.data ≠ [] := by
          intro h
          rw [h] at hlen
          simp only [length_nil] at hlen
          omega
        simp only [readMore, hread, hmore, Except.map, hne, Bool.true_eq_false, and_false, false_and, if_false]

theorem readFull_short (hn : r.data.length < n) :
    r.readFull size n = .error (if r.data = [] then .eof else .unexpectedEof) := by
  rw [readFull, readMore_short hsize (Nat.le_refl n) hn]
  simp

end ReadFull

end Bufio

end MonadBft.Lib
