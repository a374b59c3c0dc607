/-
  MonadBft.Wal.Reader — reading the records of a log back (`wal.Reader`).

  A record is a little-endian length of four bytes and a payload. `loadOneRaw` reads the length
  with one `Read` and an `io.ReadFull` of what is missing, then the payload with `io.ReadFull`.

  A complete record is returned wherever the buffer ends (`loadOneRaw_record`), and the end of
  a chunk after a complete record is a clean one (`loadOneRaw_end`). A record that is cut is
  always an error, but `io.ReadFull` reports an unexpected end only if it got a byte itself:
  `loadOneRaw_torn` gives the error, and `tornErr_iff` says when it is the unexpected end.

  A reader goes through its chunks in order. `drain` calls it until it has nothing more or
  fails; `drain_records` takes it over the complete records of a chunk.
-/
import MonadBft.Lib.Bufio
import MonadBft.RaptorCast.Types

namespace MonadBft.Wal

open Lib WireAuth RaptorCast Bufio List
open Rlp (Bytes)

def eventHeaderLen : Nat := 4

def walReadBufferSize : Nat := 1024 * 1024

def record (payload : Bytes) : Bytes := littleEndian eventHeaderLen payload.length ++ payload

structure ChunkReader where
  reader : Bufio
  exhausted : Bool
  deriving DecidableEq, Repr

def newChunkReader (file : Bytes) : ChunkReader := ⟨Bufio.new file, false⟩

namespace ChunkReader

/-- `chunkReader.loadOneRaw`; no payload is the end of the chunk. -/
def loadOneRaw (c : ChunkReader) : Except ReadErr (Option Bytes × ChunkReader) :=
  if c.exhausted then .ok (none, c)
  else
    match c.reader.read walReadBufferSize eventHeaderLen with
    | none => .ok (none, { c with exhausted := true })
    | some (b, r) => do
      let (b', r) ← r.readFull walReadBufferSize (eventHeaderLen - b.length)
      let (buf, r) ← r.readFull walReadBufferSize (ofLittleEndian (b ++ b'))
      pure (some buf, ⟨r, false⟩)

/-! ## What one call reads -/

theorem size_pos : 0 < walReadBufferSize := by decide

theorem record_length (p : Bytes) : (record p).length = eventHeaderLen + p.length := by
  simp [record, littleEndian_length]

theorem ofLittleEndian_header {p : Bytes} (hp : p.length < 2 ^ 32) :
    ofLittleEndian (littleEndian eventHeaderLen p.length) = p.length := by
  rw [ofLittleEndian_littleEndian]
  refine Nat.mod_eq_of_lt ?_
  unfold eventHeaderLen
  omega

variable {c : ChunkReader} {p rest tail : Bytes} {ps : List Bytes} {r : Bufio}

theorem read_header {b : Bytes} {r₀ : Bufio} (hread : r₀.read walReadBufferSize eventHeaderLen = some (b, r))
    (hlen : eventHeaderLen ≤ r₀.data.length) :
    ∃ b' r', r.readFull walReadBufferSize (eventHeaderLen - b.length) = .ok (b', r') ∧
      b ++ b' = r₀.data.take eventHeaderLen ∧ r'.data = r₀.data.drop eventHeaderLen := by
  obtain ⟨hdata, -, hle⟩ := read_some size_pos (by decide) hread
  have hsum : r₀.data.length = b.length + r.data.length := by rw [hdata, length_append]
  obtain ⟨r', hfull, hrest⟩ := readFull_ok (r := r) (n := eventHeaderLen - b.length) size_pos (by omega)
  refine ⟨_, r', hfull, ?_, ?_⟩
  · rw [hdata, take_append, take_of_length_le hle]
  · rw [hrest, hdata, drop_append, drop_of_length_le hle, nil_append]

theorem loadOneRaw_record (hc : c.exhausted = false) (hp : p.length < 2 ^ 32)
    (hdata : c.reader.data = record p ++ rest) : ∃ r, c.loadOneRaw = .ok (some p, ⟨r, false⟩) ∧ r.data = rest := by
  have hlen : eventHeaderLen ≤ c.reader.data.length := by
    rw [hdata, length_append, record_length]
    omega
  cases hread : c.reader.read walReadBufferSize eventHeaderLen with
  | none =>
    rw [read_eq_none.mp hread] at hlen
    cases hlen
  | some q =>
    obtain ⟨b, r⟩ := q
    obtain ⟨b', r', hfull, htake, hdrop⟩ := read_header hread hlen
    have hheader : b ++ b' = littleEndian eventHeaderLen p.length := by
      rw [htake, hdata, record, append_assoc]
      exact take_left' (littleEndian_length _ _)
    have hbody : r'.data = p ++ rest := by
      rw [hdrop, hdata, record, append_assoc]
      exact drop_left' (littleEndian_length _ _)
    obtain ⟨r'', hpay, hrest⟩ := readFull_ok (r := r') (n := p.length) size_pos (by rw [hbody]; simp)
    refine ⟨r'', ?_, by rw [hrest, hbody, drop_left]⟩
    unfold loadOneRaw
    rw [hc, hread]
    simp only [Bool.false_eq_true, if_false, hfull, ok_bind, hheader, ofLittleEndian_header hp, hpay]
    rw [hbody, take_left]
    rfl

theorem loadOneRaw_end (hc : c.exhausted = false) (hdata : c.reader.data = []) :
    c.loadOneRaw = .ok (none, { c with exhausted := true }) := by
  unfold loadOneRaw
  rw [hc, read_eq_none.mpr hdata]
  rfl

/-- The error at a record of which only the bytes in `r` are there. -/
def tornErr (r : Bufio) : ReadErr :=
  if r.data.length < eventHeaderLen then
    if r.buffered ≠ [] ∧ r.buffered.length < r.data.length then .unexpectedEof else .eof
  else if r.data.length = eventHeaderLen then .eof
  else .unexpectedEof

theorem tornErr_iff : tornErr r = .unexpectedEof ↔ eventHeaderLen < r.data.length ∨
    r.data.length < eventHeaderLen ∧ r.buffered ≠ [] ∧ r.buffered.length < r.data.length := by
  unfold tornErr
  by_cases h : r.data.length < eventHeaderLen
  · rw [if_pos h]
    by_cases hb : r.buffered ≠ [] ∧ r.buffered.length < r.data.length
    · rw [if_pos hb]
      exact iff_of_true rfl (.inr ⟨h, hb⟩)
    · rw [if_neg hb]
      refine iff_of_false (by simp) ?_
      rintro (hlt | ⟨-, hb'⟩)
      · omega
      · exact hb hb'
  · rw [if_neg h]
    by_cases heq : r.data.length = eventHeaderLen
    · rw [if_pos heq]
      refine iff_of_false (by simp) ?_
      omega
    · rw [if_neg heq]
      exact iff_of_true rfl (.inl (by omega))

/-- A record that is cut, with some bytes of it left. -/
theorem loadOneRaw_torn (hc : c.exhausted = false) (hp : p.length < 2 ^ 32) (hne : c.reader.data ≠ [])
    (hcut : c.reader.data <+: record p) (hshort : c.reader.data.length < (record p).length) :
    c.loadOneRaw = .error (tornErr c.reader) := by
  rw [record_length] at hshort
  cases hread : c.reader.read walReadBufferSize eventHeaderLen with
  | none => exact absurd (read_eq_none.mp hread) hne
  | some q =>
    obtain ⟨b, r⟩ := q
    by_cases hlen : c.reader.data.length < eventHeaderLen
    · -- the length is cut: what the first read left decides
      obtain ⟨hdata, hpos, hle⟩ := read_some size_pos (by decide) hread
      have hsum : c.reader.data.length = b.length + r.data.length := by rw [hdata, length_append]
      have hfull := readFull_short (r := r) (n := eventHeaderLen - b.length) size_pos (by omega)
      have hb := read_length (by decide) hread
      have hbuf : r.data = [] ↔ ¬(c.reader.buffered ≠ [] ∧ c.reader.buffered.length < c.reader.data.length) := by
        have htotal : c.reader.data.length = c.reader.buffered.length + c.reader.rest.length := by
          simp [data]
        have hsize : eventHeaderLen < walReadBufferSize := by decide
        rw [← length_eq_zero_iff]
        by_cases hempty : c.reader.buffered = []
        · rw [if_pos hempty] at hb
          rw [hempty, length_nil] at htotal
          simp only [hempty, ne_eq, not_true_eq_false, false_and, not_false_eq_true, iff_true]
          omega
        · rw [if_neg hempty] at hb
          simp only [ne_eq, hempty, not_false_eq_true, true_and]
          omega
      unfold loadOneRaw tornErr
      rw [hc, hread, if_pos hlen]
      simp only [Bool.false_eq_true, if_false, hfull]
      by_cases hr : r.data = []
      · rw [if_pos hr, if_neg (hbuf.mp hr)]
        rfl
      · rw [if_neg hr, if_pos (not_not.mp (mt hbuf.mpr hr))]
        rfl
    · -- the payload is cut
      obtain ⟨b', r', hfull, htake, hdrop⟩ := read_header hread (by omega)
      have hheader : b ++ b' = littleEndian eventHeaderLen p.length := by
        obtain ⟨t, ht⟩ := hcut
        rw [htake]
        have hsame : c.reader.data.take eventHeaderLen = (record p).take eventHeaderLen := by
          rw [← ht, take_append_of_le_length (by omega)]
        rw [hsame, record]
        exact take_left' (littleEndian_length _ _)
      have hbody : r'.data.length = c.reader.data.length - eventHeaderLen := by
        rw [hdrop, length_drop]
      have hpay := readFull_short (r := r') (n := p.length) size_pos (by omega)
      unfold loadOneRaw tornErr
      rw [hc, hread, if_neg hlen]
      simp only [Bool.false_eq_true, if_false, hfull, ok_bind, hheader, ofLittleEndian_header hp, hpay]
      by_cases heq : c.reader.data.length = eventHeaderLen
      · have hnil : r'.data = [] := length_eq_zero_iff.mp (by omega)
        rw [if_pos hnil, if_pos heq]
        rfl
      · have hnil : r'.data ≠ [] := by
          rw [← length_pos_iff]
          omega
        rw [if_neg hnil, if_neg heq]
        rfl

def next (c : ChunkReader) : ChunkReader :=
  match c.loadOneRaw with
  | .ok (some _, c') => c'
  | _ => c

def skip : Nat → ChunkReader → ChunkReader
  | 0, c => c
  | n + 1, c => skip n c.next

structure Holds (c : ChunkReader) (ps : List Bytes) (tail : Bytes) : Prop where
  open_ : c.exhausted = false
  data : c.reader.data = ps.flatMap record ++ tail
  bound : ∀ p ∈ ps, p.length < 2 ^ 32

theorem Holds.load (h : Holds c (p :: ps) tail) : c.loadOneRaw = .ok (some p, c.next) ∧ Holds c.next ps tail := by
  have hdata : c.reader.data = record p ++ (ps.flatMap record ++ tail) := by
    rw [h.data, flatMap_cons, append_assoc]
  obtain ⟨r, hload, hrest⟩ := loadOneRaw_record h.open_ (h.bound p (.head _)) hdata
  have hnext : c.next = ⟨r, false⟩ := by
    unfold next
    rw [hload]
  rw [hnext]
  exact ⟨hload, rfl, hrest, fun q hq => h.bound q (.tail p hq)⟩

theorem Holds.skip (h : Holds c ps tail) : Holds (c.skip ps.length) [] tail := by
  induction ps generalizing c with
  | nil => exact h
  | cons p ps ih => exact ih h.load.2

theorem holds_new {file : Bytes} (hfile : file = ps.flatMap record ++ tail)
    (hps : ∀ p ∈ ps, p.length < 2 ^ 32) : Holds (newChunkReader file) ps tail :=
  ⟨rfl, hfile, hps⟩

end ChunkReader

/-! ## Several chunks -/

namespace Reader

/-- `Reader.LoadOneRaw`: chunks that have ended are closed and dropped. -/
def loadOneRaw : List ChunkReader → Except ReadErr (Option Bytes × List ChunkReader)
  | [] => .ok (none, [])
  | front :: readers =>
    if front.exhausted then loadOneRaw readers
    else do
      match ← front.loadOneRaw with
      | (none, _) => loadOneRaw readers
      | (some buf, front') => pure (some buf, front' :: readers)

/-- The payloads of up to `n` calls of `LoadOneRaw`, and the error that ends them, if any. -/
def drain : Nat → List ChunkReader → List Bytes × Option ReadErr
  | 0, _ => ([], none)
  | n + 1, readers =>
    match loadOneRaw readers with
    | .error e => ([], some e)
    | .ok (none, _) => ([], none)
    | .ok (some buf, readers') =>
      let r := drain n readers'
      (buf :: r.1, r.2)

variable {c : ChunkReader} {readers : List ChunkReader} {ps : List Bytes} {tail : Bytes} {n : Nat}

theorem drain_records (h : c.Holds ps tail) : drain (ps.length + n) (c :: readers) =
      (ps ++ (drain n (c.skip ps.length :: readers)).1, (drain n (c.skip ps.length :: readers)).2) := by
  induction ps generalizing c with
  | nil =>
    rw [length_nil, Nat.zero_add]
    rfl
  | cons p ps ih =>
    obtain ⟨hload, hnext⟩ := h.load
    have hone : loadOneRaw (c :: readers) = .ok (some p, c.next :: readers) := by
      unfold loadOneRaw
      rw [h.open_, hload]
      rfl
    have hlen : (p :: ps).length + n = (ps.length + n) + 1 := by
      rw [length_cons]
      omega
    have hdrain : drain (ps.length + n + 1) (c :: readers) =
        (p :: (drain (ps.length + n) (c.next :: readers)).1, (drain (ps.length + n) (c.next :: readers)).2) := by
      conv_lhs => unfold drain
      rw [hone]
    rw [hlen, hdrain, ih hnext]
    rfl

/-- A chunk that ends after a record is left for the next one. -/
theorem drain_end (h : c.Holds [] []) : drain n (c :: readers) = drain n readers := by
  cases n with
  | zero => rfl
  | succ n =>
    have hone : loadOneRaw (c :: readers) = loadOneRaw readers := by
      conv_lhs => unfold loadOneRaw
      rw [h.open_, ChunkReader.loadOneRaw_end h.open_ (by simpa using h.data)]
      rfl
    unfold drain
    rw [hone]

theorem drain_chunk (h : c.Holds ps []) :
    drain (ps.length + n) (c :: readers) = (ps ++ (drain n readers).1, (drain n readers).2) := by
  rw [drain_records h, drain_end h.skip]

theorem drain_torn {p : Bytes} (h : c.Holds [] tail) (hp : p.length < 2 ^ 32) (hne : tail ≠ [])
    (hcut : tail <+: record p) (hshort : tail.length < (record p).length) :
    drain (n + 1) (c :: readers) = ([], some (ChunkReader.tornErr c.reader)) := by
  have hdata : c.reader.data = tail := by simpa using h.data
  have htorn := ChunkReader.loadOneRaw_torn h.open_ hp (by rwa [hdata]) (by rwa [hdata]) (by rwa [hdata])
  have hone : loadOneRaw (c :: readers) = .error (ChunkReader.tornErr c.reader) := by
    unfold loadOneRaw
    rw [h.open_, htorn]
    rfl
  unfold drain
  rw [hone]

end Reader

end MonadBft.Wal
