/-
  MonadBft.Wal.Replay — replaying a log whose newest chunk has been cut.

  A crash leaves a prefix of the newest chunk. `complete k ps` are the payloads whose records
  end within the first `k` bytes of the records of `ps`, and `torn k ps` is what is left of the
  next record (`take_records`); there is something left exactly when the cut falls strictly
  inside a record (`torn_ne_nil_iff`).

  `replay`: after any forward run and any cut, the reader yields the payloads of the chunks that
  were kept, in the order they were pushed and up to the cut. The end is a clean one when the
  cut is at the end of a record. When it is inside a record the reader fails, but with an
  unexpected end only where `ReportsTear` holds of what is left of the record: a cut in the
  length, or right after it, looks like a plain end of the file (`cut_header_plain_eof`).
-/
import MonadBft.Wal.Logger

namespace MonadBft.Wal

open Lib WireAuth RaptorCast Reader List
open Rlp (Bytes)

def newReader (dir : Dir) : List ChunkReader :=
  (discoverChunks dir).map fun name => newChunkReader ((dir.get name).getD [])

/-- The directory with only the first `k` bytes of its newest chunk. -/
def truncateNewest (dir : Dir) (k : Nat) : Dir :=
  match (discoverChunks dir).getLast? with
  | none => dir
  | some name => dir.modify name (·.take k)

/-- The payloads whose records end within the first `k` bytes. -/
def complete : Nat → List Bytes → List Bytes
  | _, [] => []
  | k, p :: ps => if (record p).length ≤ k then p :: complete (k - (record p).length) ps else []

/-- What is left of the record that the cut after `k` bytes falls into. -/
def torn : Nat → List Bytes → Bytes
  | _, [] => []
  | k, p :: ps => if (record p).length ≤ k then torn (k - (record p).length) ps else (record p).take k

/-- The cut after `k` bytes falls strictly inside the record of a payload of `ps`. -/
def StrictlyInside (k : Nat) (ps : List Bytes) : Prop :=
  ∃ before p after, ps = before ++ p :: after ∧ (before.flatMap record).length < k ∧
    k < (before.flatMap record).length + (record p).length

/-- The reader in front of a cut record sees at least one byte of the payload; or the length
itself is cut, and the read buffer ends inside what is left of it. -/
def ReportsTear (r : Bufio) : Prop :=
  eventHeaderLen < r.data.length ∨ r.data.length < eventHeaderLen ∧ r.buffered ≠ [] ∧ r.buffered.length < r.data.length

variable {k n : Nat} {ps : List Bytes} {dir : Dir} {log : List (ChunkName × List Bytes)}

theorem record_length_pos (p : Bytes) : 0 < (record p).length := by
  rw [ChunkReader.record_length]
  unfold eventHeaderLen
  omega

theorem take_records (k : Nat) (ps : List Bytes) :
    (ps.flatMap record).take k = (complete k ps).flatMap record ++ torn k ps := by
  induction ps generalizing k with
  | nil => simp [complete, torn]
  | cons p ps ih =>
    rw [flatMap_cons, take_append]
    unfold complete torn
    by_cases hk : (record p).length ≤ k
    · rw [if_pos hk, if_pos hk, take_of_length_le hk, ih, flatMap_cons, append_assoc]
    · have hzero : k - (record p).length = 0 := by omega
      rw [if_neg hk, if_neg hk, hzero]
      simp

theorem complete_sublist (k : Nat) (ps : List Bytes) : (complete k ps).Sublist ps := by
  induction ps generalizing k with
  | nil => exact List.Sublist.refl _
  | cons p ps ih =>
    unfold complete
    split_ifs
    · exact (ih _).cons_cons p
    · exact nil_sublist _

/-- What is left of a record is a proper part of it. -/
theorem torn_cut (h : torn k ps ≠ []) : ∃ p ∈ ps, torn k ps <+: record p ∧ (torn k ps).length < (record p).length := by
  induction ps generalizing k with
  | nil => exact absurd rfl h
  | cons p ps ih =>
    unfold torn at h ⊢
    split_ifs at h ⊢ with hk
    · obtain ⟨q, hq, hcut⟩ := ih h
      exact ⟨q, .tail p hq, hcut⟩
    · refine ⟨p, .head _, take_prefix _ _, ?_⟩
      rw [length_take]
      omega

theorem torn_ne_nil_iff : torn k ps ≠ [] ↔ StrictlyInside k ps := by
  induction ps generalizing k with
  | nil =>
    refine iff_of_false (fun h => h rfl) ?_
    rintro ⟨before, p, after, h, -⟩
    simp at h
  | cons p ps ih =>
    unfold torn
    by_cases hk : (record p).length ≤ k
    · rw [if_pos hk, ih]
      constructor
      · rintro ⟨before, q, after, rfl, hlo, hhi⟩
        refine ⟨p :: before, q, after, rfl, ?_, ?_⟩
        · rw [flatMap_cons, length_append]
          omega
        · rw [flatMap_cons, length_append]
          omega
      · rintro ⟨before, q, after, heq, hlo, hhi⟩
        cases before with
        | nil =>
          obtain ⟨rfl, -⟩ := cons.inj heq
          simp only [flatMap_nil, length_nil] at hhi
          omega
        | cons p' before =>
          obtain ⟨rfl, rfl⟩ := cons.inj heq
          rw [flatMap_cons, length_append] at hlo hhi
          exact ⟨before, q, after, rfl, by omega, by omega⟩
    · rw [if_neg hk]
      have hpos := record_length_pos p
      constructor
      · intro h
        have hk0 : k ≠ 0 := by
          rintro rfl
          exact h rfl
        exact ⟨[], p, ps, rfl, by simp only [flatMap_nil, length_nil]; omega, by simp; omega⟩
      · rintro ⟨before, q, after, heq, hlo, -⟩ hnil
        have hlen := congrArg length hnil
        rw [length_take, length_nil] at hlen
        omega

/-! ## The directory that is read -/

theorem newReader_truncated {older : List (ChunkName × List Bytes)} {name : ChunkName}
    (h : Files dir (older ++ [(name, ps)])) (k : Nat) :
    newReader (truncateNewest dir k) = older.map (fun e => newChunkReader (e.2.flatMap record)) ++
      [newChunkReader ((ps.flatMap record).take k)] := by
  have hlast : (discoverChunks dir).getLast? = some name := by
    rw [h.discover]
    simp
  have hname : ∀ e ∈ older, e.1 ≠ name := by
    intro e he heq
    have hnodup := h.nodup
    rw [map_append, nodup_append] at hnodup
    exact hnodup.2.2 _ (mem_map_of_mem he) name (by simp) heq
  have hdiscover : discoverChunks (truncateNewest dir k) = discoverChunks dir := by
    unfold truncateNewest
    rw [hlast]
    unfold discoverChunks
    congr 1
    simp [AMap.keys, AMap.modify, AMap.mapVal]
  have hget : ∀ x, (truncateNewest dir k).get x = if x = name then (dir.get name).map (·.take k) else dir.get x := by
    intro x
    unfold truncateNewest
    rw [hlast]
    exact AMap.get_modify _ _ _ _
  have hold : ∀ e ∈ older ++ [(name, ps)], dir.get e.1 = some (e.2.flatMap record) :=
    fun e he => (h.get _ _).mpr ⟨e.2, he, rfl⟩
  unfold newReader
  rw [hdiscover, h.discover, map_map, map_append]
  congr 1
  · refine map_congr_left ?_
    intro e he
    simp [hget, hname e he, hold e (mem_append_left _ he)]
  · simp [hget, hold (name, ps) (by simp)]

theorem drain_chunks {chunks : List (List Bytes)} (hbound : ∀ c ∈ chunks, ∀ p ∈ c, p.length < 2 ^ 32)
    (readers : List ChunkReader) :
    drain (chunks.flatten.length + n) (chunks.map (fun c => newChunkReader (c.flatMap record)) ++ readers) =
      (chunks.flatten ++ (drain n readers).1, (drain n readers).2) := by
  induction chunks with
  | nil => simp
  | cons c chunks ih =>
    have hholds : (newChunkReader (c.flatMap record)).Holds c [] :=
      ChunkReader.holds_new (by simp) (hbound c (.head _))
    have hlen : (c :: chunks).flatten.length + n = c.length + (chunks.flatten.length + n) := by
      rw [flatten_cons, length_append]
      omega
    rw [hlen, map_cons, cons_append, drain_chunk hholds, ih fun d hd => hbound d (.tail c hd)]
    simp

/-- The reader of a cut chunk when it gets to the end of the complete records. -/
def arrival (k : Nat) (ps : List Bytes) : ChunkReader :=
  (newChunkReader ((ps.flatMap record).take k)).skip (complete k ps).length

theorem drain_cut (hps : ∀ p ∈ ps, p.length < 2 ^ 32) :
    drain ((complete k ps).length + (n + 1)) [newChunkReader ((ps.flatMap record).take k)] =
      (complete k ps, if torn k ps = [] then none else some (ChunkReader.tornErr (arrival k ps).reader)) := by
  have hholds : (newChunkReader ((ps.flatMap record).take k)).Holds (complete k ps) (torn k ps) :=
    ChunkReader.holds_new (take_records k ps) fun p hp => hps p ((complete_sublist k ps).subset hp)
  have harrive : (arrival k ps).Holds [] (torn k ps) := hholds.skip
  rw [drain_records hholds]
  show (complete k ps ++ (drain (n + 1) [arrival k ps]).1, (drain (n + 1) [arrival k ps]).2) = _
  by_cases htorn : torn k ps = []
  · rw [htorn] at harrive
    rw [drain_end harrive, if_pos htorn]
    simp [drain, loadOneRaw]
  · obtain ⟨p, hp, hcut, hshort⟩ := torn_cut htorn
    rw [drain_torn harrive (hps p hp) htorn hcut hshort, if_neg htorn]
    simp

/-! ## Replay -/

/-- After a forward run and a cut of the newest chunk after `k` bytes. The chunks there, in the order
of their names, are the records of `log`, whose payloads are the last ones pushed. Those with a
complete record are yielded in order, and the end is reported as the position of the cut demands
exactly when a record that is cut `ReportsTear`. -/
theorem replay {s : State} (h : Forward s) (k : Nat) :
    ∃ log : List (ChunkName × List Bytes), discoverChunks s.dir = log.map Prod.fst ∧
      (∀ name file, s.dir.get name = some file ↔ ∃ ps, (name, ps) ∈ log ∧ file = ps.flatMap record) ∧
      (∃ dropped, s.pushed = dropped ++ log.flatMap Prod.snd) ∧
      let older := log.dropLast.flatMap Prod.snd
      let newest := (log.getLast?.map Prod.snd).getD []
      ∀ n, older.length + newest.length < n →
        (Reader.drain n (newReader (truncateNewest s.dir k))).1 = older ++ complete k newest ∧
        ((StrictlyInside k newest → (Reader.drain n (newReader (truncateNewest s.dir k))).2 = some .unexpectedEof) ↔
          (StrictlyInside k newest → ReportsTear (arrival k newest).reader)) ∧
        ((Reader.drain n (newReader (truncateNewest s.dir k))).2 = none ↔ ¬StrictlyInside k newest) := by
  obtain ⟨log, hlog⟩ := forward_inv h
  refine ⟨log, hlog.files.discover, hlog.files.get, hlog.suffix, ?_⟩
  intro older newest n hn
  have hdiscover := hlog.files.discover
  rcases List.eq_nil_or_concat log with rfl | ⟨before, ⟨name, ps⟩, rfl⟩
  · -- no chunk has been started
    have hnot : ¬StrictlyInside k [] := fun hin => (torn_ne_nil_iff.mpr hin) rfl
    have hread : newReader (truncateNewest s.dir k) = [] := by
      unfold truncateNewest newReader
      rw [hdiscover]
      simp [hdiscover]
    obtain ⟨n, rfl⟩ : ∃ m, n = m + 1 := ⟨n - 1, by omega⟩
    rw [hread]
    simp [older, newest, Reader.drain, Reader.loadOneRaw, complete, hnot]
  · rw [List.concat_eq_append] at hlog
    have holder : older = (before.map Prod.snd).flatten := by
      simp [older, List.concat_eq_append, List.flatMap_def]
    have hnewest : newest = ps := by simp [newest, List.concat_eq_append]
    rw [holder, hnewest] at hn ⊢
    have hbound : ∀ c ∈ before.map Prod.snd, ∀ p ∈ c, p.length < 2 ^ 32 := by
      intro c hc
      obtain ⟨e, he, rfl⟩ := List.mem_map.mp hc
      exact hlog.files.bound e (List.mem_append_left _ he)
    have hps : ∀ p ∈ ps, p.length < 2 ^ 32 := hlog.files.bound (name, ps) (by simp)
    have hlen := (complete_sublist k ps).length_le
    obtain ⟨m, rfl⟩ : ∃ m, n = (before.map Prod.snd).flatten.length + ((complete k ps).length + (m + 1)) :=
      ⟨n - ((before.map Prod.snd).flatten.length + ((complete k ps).length + 1)), by omega⟩
    have hmap : before.map (fun e => newChunkReader (e.2.flatMap record)) =
        (before.map Prod.snd).map fun c => newChunkReader (c.flatMap record) := by
      rw [List.map_map]
      rfl
    rw [newReader_truncated hlog.files k, hmap, drain_chunks hbound, drain_cut hps]
    refine ⟨rfl, ?_, ?_⟩
    · refine forall_congr' ?_
      intro hin
      have htorn := torn_ne_nil_iff.mpr hin
      rw [if_neg htorn]
      exact Option.some_inj.trans ChunkReader.tornErr_iff
    · rw [← torn_ne_nil_iff]
      by_cases htorn : torn k ps = [] <;> simp [htorn]

/-- Three records of which the first fills its chunk; the cut leaves one byte of the last payload. -/
theorem replay_two_chunks : ∃ s, Forward s ∧ s.pushed = [[7, 8, 9], [1, 2], [3, 4]] ∧
    Reader.drain 4 (newReader (truncateNewest s.dir 11)) = ([[7, 8, 9], [1, 2]], some .unexpectedEof) ∧
    ∃ log : List (ChunkName × List Bytes), log.map Prod.fst = [⟨5, 0⟩, ⟨5, 1⟩] ∧
      log.dropLast.flatMap Prod.snd ++ complete 11 ((log.getLast?.map Prod.snd).getD []) = [[7, 8, 9], [1, 2]] ∧
      StrictlyInside 11 ((log.getLast?.map Prod.snd).getD []) := by
  have hrun : Forward ⟨_, _, [[7, 8, 9], [1, 2], [3, 4]]⟩ := .push [3, 4] (.push [1, 2] (.push [7, 8, 9]
    (.start ⟨8, 12⟩ [5] .init rfl (by decide)) rfl rfl) rfl rfl) rfl rfl
  refine ⟨_, hrun, rfl, by decide +kernel, ?_⟩
  obtain ⟨log, hdiscover, -, ⟨dropped, hpushed⟩, hread⟩ := replay hrun 11
  have hnames : log.map Prod.fst = [⟨5, 0⟩, ⟨5, 1⟩] := hdiscover.symm.trans (by decide +kernel)
  have hlen : (log.dropLast.flatMap Prod.snd).length + ((log.getLast?.map Prod.snd).getD []).length < 4 := by
    obtain ⟨x, y, rfl⟩ : ∃ x y, log = [x, y] := List.length_eq_two.mp (by simpa using congrArg List.length hnames)
    have hall := congrArg List.length hpushed
    simp at hall ⊢
    omega
  obtain ⟨hyield, -, hend⟩ := hread 4 hlen
  refine ⟨log, hnames, hyield.symm.trans (by decide +kernel), ?_⟩
  by_contra hclean
  exact absurd (hend.mpr hclean) (by decide +kernel)

/-! ## One record -/

/-- A log with one record, of the payload `[7]`. -/
def oneRecord : State where
  dir := ⟨[(⟨5, 0⟩, record [7])], by decide⟩
  logger := some ⟨5, 0, ⟨5, 0⟩, 5, [], 8, 1000⟩
  pushed := [[7]]

theorem forward_oneRecord : Forward oneRecord :=
  Forward.push [7] (Forward.start ⟨8, 1000⟩ [5] .init rfl (by decide)) rfl rfl

/-- Cut after two bytes of the length: the reader reports a plain end of the file. -/
theorem cut_header_plain_eof : Forward oneRecord ∧ StrictlyInside 2 [[7]] ∧
    Reader.drain 2 (newReader (truncateNewest oneRecord.dir 2)) = ([], some .eof) :=
  ⟨forward_oneRecord, ⟨[], [7], [], rfl, by decide, by decide⟩, by decide +kernel⟩

end MonadBft.Wal
