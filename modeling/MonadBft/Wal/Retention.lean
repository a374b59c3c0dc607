/-
  MonadBft.Wal.Retention — what a log keeps while its configuration stays the same.

  A configuration bounds the number of chunks and the length of each. In the runs of
  `Configured`, which are those of `Forward` with one configuration for all loggers, both bounds
  hold in every state, whatever is pushed and however often the logger is started again
  (`configured_within`). With what `forward_inv` says of the files this is `retention`: the
  chunks are whole records, the last ones pushed, and a push that fails changes nothing.

  A new chunk is created before the oldest is removed. The states here are those after a call
  has returned; inside `rotate` and `Build` there may be one chunk more.
-/
import MonadBft.Wal.Logger

namespace MonadBft.Wal

open Lib
open Rlp (Bytes)

inductive Configured (cfg : LoggerConfig) : State → Prop
  | init : Configured cfg ⟨AMap.empty, none, []⟩
  | start {s : State} {dir : Dir} {l : Logger} (clock : List Nat) : Configured cfg s →
      cfg.build s.dir clock = .ok (dir, l) → (∀ name ∈ s.dir.keys, name.timestamp < l.timestamp) →
      Configured cfg ⟨dir, some l, s.pushed⟩
  | push {s : State} {l l' : Logger} {dir : Dir} {err : Option WalErr} (payload : Bytes) : Configured cfg s →
      s.logger = some l → l.push s.dir payload = (err, dir, l') →
      Configured cfg ⟨dir, some l', if err = none then s.pushed ++ [payload] else s.pushed⟩

def Small (dir : Dir) (size : Nat) : Prop := ∀ name file, dir.get name = some file → file.length ≤ size

/-- The logger keeps to `cfg`, and knows how long its current chunk is. -/
structure Within (cfg : LoggerConfig) (dir : Dir) (l : Logger) : Prop where
  chunks : l.chunks = cfg.chunks
  chunkSize : l.chunkSize = cfg.chunkSize
  count : l.rotated.length < cfg.chunks
  size : ∀ file, dir.get l.current = some file → file.length = l.size
  small : Small dir cfg.chunkSize

variable {cfg : LoggerConfig} {dir dir' : Dir} {l l' : Logger} {s : State} {chunks size : Nat}
  {name : ChunkName} {payload : Bytes} {err : Option WalErr}

theorem Configured.forward (h : Configured cfg s) : Forward s := by
  induction h with
  | init => exact .init
  | start clock _ hbuild hlate ih => exact .start cfg clock ih hbuild hlate
  | push payload _ hl hpush ih => exact .push payload ih hl hpush

/-! ## The bounds, call by call -/

theorem trimOldestChunks_count (hpos : 0 < chunks) (dir : Dir) (rotated : List ChunkName) :
    (trimOldestChunks chunks dir rotated).2.length < chunks := by
  induction rotated generalizing dir with
  | nil => exact hpos
  | cons oldest rotated ih =>
    unfold trimOldestChunks
    split_ifs with h
    · exact ih _
    · exact Nat.lt_of_succ_le (Nat.not_lt.mp h)

theorem of_get_trim {file : Bytes} {rotated : List ChunkName}
    (h : (trimOldestChunks chunks dir rotated).1.get name = some file) : dir.get name = some file := by
  obtain ⟨n, htrim⟩ := trimOldestChunks_eq chunks dir rotated
  rw [htrim, AMap.get_eraseAll] at h
  split_ifs at h
  exact h

/-- A new chunk after which the oldest are dropped. -/
theorem small_newChunk (h : Small dir size) (chunks : Nat) (name : ChunkName) (rotated : List ChunkName) :
    Small (trimOldestChunks chunks (dir.insert name []) rotated).1 size ∧
      ∀ file, (trimOldestChunks chunks (dir.insert name []) rotated).1.get name = some file → file.length = 0 := by
  constructor
  · intro name' file hget
    have hnew := of_get_trim hget
    rw [AMap.get_insert] at hnew
    split_ifs at hnew
    · rw [← Option.some.inj hnew]
      exact Nat.zero_le _
    · exact h name' file hnew
  · intro file hget
    have hnew := of_get_trim hget
    rw [AMap.get_insert_self] at hnew
    rw [← Option.some.inj hnew]
    rfl

theorem Within.write (h : Within cfg dir l) (payload : Bytes)
    (hroom : l.size + (eventHeaderLen + payload.length) ≤ l.chunkSize) :
    Within cfg (l.write dir payload).1 (l.write dir payload).2 := by
  have hcur : ∀ file, (l.write dir payload).1.get l.current = some file →
      file.length = l.size + (eventHeaderLen + payload.length) := by
    intro file hget
    unfold Logger.write at hget
    rw [AMap.get_modify, if_pos rfl] at hget
    obtain ⟨old, hold, rfl⟩ := Option.map_eq_some_iff.mp hget
    rw [List.length_append, ChunkReader.record_length, h.size old hold]
  refine ⟨h.chunks, h.chunkSize, h.count, hcur, ?_⟩
  intro name file hget
  by_cases hname : name = l.current
  · rw [hname] at hget
    rw [hcur file hget, ← h.chunkSize]
    exact hroom
  · unfold Logger.write at hget
    rw [AMap.get_modify, if_neg hname] at hget
    exact h.small name file hget

theorem Within.rotate (h : Within cfg dir l) (hrot : l.rotate dir = (err, dir', l')) :
    Within cfg dir' l' ∧ (err = none → l'.size = 0) := by
  have hpos : 0 < l.chunks := by
    rw [h.chunks]
    exact Nat.zero_lt_of_lt h.count
  unfold Logger.rotate at hrot
  simp only at hrot
  split at hrot
  · obtain ⟨rfl, rfl, rfl⟩ := by simpa using hrot
    exact ⟨{ h with }, by simp⟩
  · rename_i dir₁ hcreate
    obtain ⟨-, rfl⟩ := createChunk_ok hcreate
    obtain ⟨rfl, rfl, rfl⟩ := by simpa using hrot
    obtain ⟨hsmall, hempty⟩ := small_newChunk h.small l.chunks ⟨l.timestamp, l.generation + 1⟩
      (l.rotated ++ [l.current])
    exact ⟨⟨h.chunks, h.chunkSize, h.chunks ▸ trimOldestChunks_count hpos _ _, hempty, hsmall⟩, fun _ => rfl⟩

theorem Within.push (h : Within cfg dir l) (hpush : l.push dir payload = (err, dir', l')) : Within cfg dir' l' := by
  unfold Logger.push at hpush
  split_ifs at hpush with hbig hchunk hfull
  · obtain ⟨rfl, rfl, rfl⟩ := by simpa using hpush
    exact h
  · obtain ⟨rfl, rfl, rfl⟩ := by simpa using hpush
    exact h
  · split at hpush
    · rename_i e dir₁ l₁ hrot
      obtain ⟨rfl, rfl, rfl⟩ := by simpa using hpush
      exact (h.rotate hrot).1
    · rename_i dir₁ l₁ hrot
      obtain ⟨hw, hsize⟩ := h.rotate hrot
      obtain ⟨-, hwrite⟩ := Prod.mk.inj hpush
      have hw' := hw.write payload (by rw [hsize rfl, hw.chunkSize, ← h.chunkSize]; omega)
      rw [hwrite] at hw'
      exact hw'
  · obtain ⟨-, hwrite⟩ := Prod.mk.inj hpush
    have hw := h.write payload (by omega)
    rw [hwrite] at hw
    exact hw

theorem within_build {clock : List Nat} (hs : Small dir cfg.chunkSize) (h : cfg.build dir clock = .ok (dir', l)) :
    Within cfg dir' l := by
  unfold LoggerConfig.build at h
  obtain ⟨⟨⟩, hpos, h⟩ := bind_eq_ok.mp h
  obtain ⟨⟨now, dir₁⟩, hinit, h⟩ := bind_eq_ok.mp h
  obtain ⟨-, rfl⟩ := createChunk_ok (createInitialChunk_ok hinit)
  obtain ⟨rfl, rfl⟩ := Prod.mk.inj (pure_eq_ok.mp h)
  obtain ⟨hsmall, hempty⟩ := small_newChunk hs cfg.chunks ⟨now, 0⟩ (discoverChunks dir)
  have hchunks : 0 < cfg.chunks := Nat.pos_of_ne_zero (require_eq_ok.mp hpos)
  exact ⟨rfl, rfl, trimOldestChunks_count hchunks _ _, hempty, hsmall⟩

/-! ## Runs -/

theorem configured_within (h : Configured cfg s) : Small s.dir cfg.chunkSize ∧ (s.logger = none → s.dir.keys = []) ∧
      ∀ l, s.logger = some l → Within cfg s.dir l := by
  induction h with
  | init => exact ⟨by simp [Small], fun _ => rfl, by simp⟩
  | start clock _ hbuild _ ih =>
    have hw := within_build ih.1 hbuild
    exact ⟨hw.small, nofun, fun l hl => Option.some.inj hl ▸ hw⟩
  | push payload _ hl hpush ih =>
    have hw := (ih.2.2 _ hl).push hpush
    exact ⟨hw.small, nofun, fun l hl => Option.some.inj hl ▸ hw⟩

/-- A rotation succeeds, so a push fails only before it has changed anything. -/
theorem Running.push_error {log : List (ChunkName × List Bytes)} {e : WalErr} (h : Running dir l log)
    (hpush : l.push dir payload = (some e, dir', l')) : dir' = dir ∧ l' = l := by
  unfold Logger.push at hpush
  split_ifs at hpush
  · obtain ⟨-, rfl, rfl⟩ := by simpa using hpush
    exact ⟨rfl, rfl⟩
  · obtain ⟨-, rfl, rfl⟩ := by simpa using hpush
    exact ⟨rfl, rfl⟩
  · obtain ⟨dir₁, l₁, -, -, hrot, -⟩ := h.rotate
    rw [hrot] at hpush
    cases hpush
  · cases hpush

/-- With one configuration: the chunks in the order of their names hold whole records, those of
the last payloads pushed and in that order; there are at most `chunks` of them, each at most
`chunkSize` long; and a push that is rejected leaves the log and the logger as they are. -/
theorem retention (h : Configured cfg s) :
    ∃ log : List (ChunkName × List Bytes), discoverChunks s.dir = log.map Prod.fst ∧
      (∀ name file, s.dir.get name = some file ↔ ∃ ps, (name, ps) ∈ log ∧ file = ps.flatMap record) ∧
      (∃ dropped, s.pushed = dropped ++ log.flatMap Prod.snd) ∧ s.dir.keys.length ≤ cfg.chunks ∧
      (∀ name file, s.dir.get name = some file → file.length ≤ cfg.chunkSize) ∧
      ∀ l payload err dir' l', s.logger = some l → l.push s.dir payload = (some err, dir', l') →
        dir' = s.dir ∧ l' = l := by
  obtain ⟨log, hlog⟩ := forward_inv h.forward
  obtain ⟨hsmall, hnone, hwithin⟩ := configured_within h
  refine ⟨log, hlog.files.discover, hlog.files.get, hlog.suffix, ?_, hsmall, ?_⟩
  · cases hl : s.logger with
    | none => simp [hnone hl]
    | some l =>
      have hnames := hlog.files.discover.trans (hlog.running l hl).names
      have hlen : s.dir.keys.length = l.rotated.length + 1 := by
        simpa [discoverChunks] using congrArg List.length hnames
      rw [hlen]
      exact (hwithin l hl).count
  · intro l payload err dir' l' hl hpush
    exact (hlog.running l hl).push_error hpush

/-- Two records that do not fit into one chunk, where one chunk is kept. -/
theorem retention_rotated : ∃ s, Configured ⟨1, 5⟩ s ∧ s.pushed = [[7], [8]] ∧ s.dir.keys.length ≤ 1 := by
  have hrun : Configured ⟨1, 5⟩ ⟨_, _, _⟩ := .push [8] (.push [7] (.start [5] .init rfl (by decide)) rfl rfl) rfl rfl
  obtain ⟨log, -, -, -, hcount, -⟩ := retention hrun
  exact ⟨_, hrun, rfl, hcount⟩

end MonadBft.Wal
