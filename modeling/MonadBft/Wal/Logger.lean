/-
  MonadBft.Wal.Logger — the write-ahead log (`wal.Logger`).

  A log is a directory of chunks, each named by the time its logger was started and a
  generation. A logger appends records to its current chunk, goes on to the next generation when
  a record does not fit, and keeps only the newest chunks. A restart is a new logger over the
  same directory: it starts a chunk of its own, named by the clock.

  Chunks are read back in the order of their names. So that this is the order of writing, the
  clock must not have gone back: in the runs of `Forward`, a logger that starts finds no chunk
  in the directory as late as its own. Then (`forward_inv`) the names are in the order in which
  the chunks were started, the files are the records pushed to them, and what has been dropped is
  the beginning of the sequence of pushes.
-/
import MonadBft.Wal.Reader

namespace MonadBft.Wal

open Lib WireAuth RaptorCast List
open Rlp (Bytes)

/-- `DiscoveredChunk`: the name of a chunk, `wal_{timestamp}.{generation}`. -/
structure ChunkName where
  timestamp : Nat
  generation : Nat
  deriving DecidableEq, Repr

namespace ChunkName

def lt (a b : ChunkName) : Prop :=
  a.timestamp < b.timestamp ∨ a.timestamp = b.timestamp ∧ a.generation < b.generation

/-- The order in which `DiscoverChunks` sorts. -/
def le (a b : ChunkName) : Prop :=
  a.timestamp < b.timestamp ∨ a.timestamp = b.timestamp ∧ a.generation ≤ b.generation

instance : DecidableRel le := fun _ _ => inferInstanceAs (Decidable (_ ∨ _))

instance : Std.Total le := ⟨fun a b => by unfold le; omega⟩

instance : IsTrans ChunkName le := ⟨fun a b c => by unfold le; omega⟩

instance : Std.Antisymm le := ⟨fun a b h h' => by
  obtain ⟨t, g⟩ := a
  obtain ⟨t', g'⟩ := b
  simp only [le] at h h'
  simp only [mk.injEq]
  omega⟩

theorem le_of_lt {a b : ChunkName} (h : a.lt b) : a.le b := by
  unfold lt at h
  unfold le
  omega

theorem ne_of_lt {a b : ChunkName} (h : a.lt b) : a ≠ b := by
  rintro rfl
  unfold lt at h
  omega

end ChunkName

abbrev Dir := AMap ChunkName Bytes

def discoverChunks (dir : Dir) : List ChunkName := dir.keys.insertionSort ChunkName.le

inductive WalErr where
  | chunksZero
  | exist (name : ChunkName)
  | noTime
  | exceedsHeaderSize
  | exceedsChunkSize
  deriving DecidableEq, Repr

structure LoggerConfig where
  chunks : Nat
  chunkSize : Nat
  deriving DecidableEq, Repr

structure Logger where
  timestamp : Nat
  generation : Nat
  current : ChunkName
  size : Nat
  rotated : List ChunkName
  chunks : Nat
  chunkSize : Nat
  deriving DecidableEq, Repr

def createChunk (dir : Dir) (name : ChunkName) : Except WalErr Dir :=
  if dir.contains name then .error (.exist name) else .ok (dir.insert name [])

/-- `createInitialChunk`, at the readings of the clock one after the other. -/
def createInitialChunk (dir : Dir) : List Nat → Except WalErr (Nat × Dir)
  | [] => .error .noTime
  | now :: clock =>
    match createChunk dir ⟨now, 0⟩ with
    | .ok dir' => .ok (now, dir')
    | .error _ => createInitialChunk dir clock

/-- `trimOldestChunks`: the directory and the rotated chunks that are kept. -/
def trimOldestChunks (chunks : Nat) : Dir → List ChunkName → Dir × List ChunkName
  | dir, [] => (dir, [])
  | dir, oldest :: rotated =>
    if chunks < (oldest :: rotated).length + 1 then trimOldestChunks chunks (dir.erase oldest) rotated
    else (dir, oldest :: rotated)

def LoggerConfig.build (cfg : LoggerConfig) (dir : Dir) (clock : List Nat) : Except WalErr (Dir × Logger) := do
  require (cfg.chunks ≠ 0) .chunksZero
  let discovered := discoverChunks dir
  let (timestamp, dir) ← createInitialChunk dir clock
  let (dir, rotated) := trimOldestChunks cfg.chunks dir discovered
  pure (dir, ⟨timestamp, 0, ⟨timestamp, 0⟩, 0, rotated, cfg.chunks, cfg.chunkSize⟩)

namespace Logger

/-- `rotate`. The generation is counted up even if the chunk cannot be created. -/
def rotate (l : Logger) (dir : Dir) : Option WalErr × Dir × Logger :=
  let generation := l.generation + 1
  match createChunk dir ⟨l.timestamp, generation⟩ with
  | .error e => (some e, dir, { l with generation := generation })
  | .ok dir =>
    let (dir, rotated) := trimOldestChunks l.chunks dir (l.rotated ++ [l.current])
    (none, dir, { l with
      generation := generation
      current := ⟨l.timestamp, generation⟩
      size := 0
      rotated := rotated })

/-- The two writes of `push`, to a chunk that has room. -/
def write (l : Logger) (dir : Dir) (payload : Bytes) : Dir × Logger :=
  (dir.modify l.current (· ++ record payload), { l with size := l.size + (eventHeaderLen + payload.length) })

def push (l : Logger) (dir : Dir) (payload : Bytes) : Option WalErr × Dir × Logger :=
  if 2 ^ 32 ≤ payload.length then (some .exceedsHeaderSize, dir, l)
  else if l.chunkSize < eventHeaderLen + payload.length then (some .exceedsChunkSize, dir, l)
  else if l.chunkSize < l.size + (eventHeaderLen + payload.length) then
    match l.rotate dir with
    | (some e, dir, l) => (some e, dir, l)
    | (none, dir, l) => (none, l.write dir payload)
  else (none, l.write dir payload)

end Logger

/-! ## Runs -/

structure State where
  dir : Dir
  logger : Option Logger
  pushed : List Bytes

/-- Runs from an empty directory in which no logger finds a chunk as late as the first of its own. -/
inductive Forward : State → Prop
  | init : Forward ⟨AMap.empty, none, []⟩
  | start {s : State} {dir : Dir} {l : Logger} (cfg : LoggerConfig) (clock : List Nat) : Forward s →
      cfg.build s.dir clock = .ok (dir, l) → (∀ name ∈ s.dir.keys, name.timestamp < l.timestamp) →
      Forward ⟨dir, some l, s.pushed⟩
  | push {s : State} {l l' : Logger} {dir : Dir} {err : Option WalErr} (payload : Bytes) : Forward s →
      s.logger = some l → l.push s.dir payload = (err, dir, l') →
      Forward ⟨dir, some l', if err = none then s.pushed ++ [payload] else s.pushed⟩

/-! ## The chunks and their records -/

/-- The files of a directory are the records of `log`, chunk by chunk. -/
structure Files (dir : Dir) (log : List (ChunkName × List Bytes)) : Prop where
  sorted : (log.map Prod.fst).Pairwise ChunkName.lt
  get : ∀ name file, dir.get name = some file ↔ ∃ ps, (name, ps) ∈ log ∧ file = ps.flatMap record
  bound : ∀ e ∈ log, ∀ p ∈ e.2, p.length < 2 ^ 32

variable {dir dir' : Dir} {log before : List (ChunkName × List Bytes)} {name : ChunkName} {ps : List Bytes} {l : Logger}
  {clock : List Nat} {payload : Bytes}

theorem Files.nodup (h : Files dir log) : (log.map Prod.fst).Nodup := h.sorted.imp ChunkName.ne_of_lt

theorem Files.mem_keys (h : Files dir log) : name ∈ dir.keys ↔ name ∈ log.map Prod.fst := by
  constructor
  · intro hm
    obtain ⟨⟨name', file⟩, he, rfl⟩ := mem_map.mp hm
    obtain ⟨ps, hps, -⟩ := (h.get _ _).mp (AMap.get_eq_some.mpr he)
    exact mem_map_of_mem hps
  · intro hm
    obtain ⟨⟨name', ps⟩, he, rfl⟩ := mem_map.mp hm
    exact mem_map_of_mem (AMap.get_eq_some.mp ((h.get _ _).mpr ⟨ps, he, rfl⟩))

/-- The chunks are discovered in the order in which they were started. -/
theorem Files.discover (h : Files dir log) : discoverChunks dir = log.map Prod.fst := by
  have hperm : (discoverChunks dir).Perm (log.map Prod.fst) := by
    refine (perm_insertionSort _ _).trans ?_
    exact (perm_ext_iff_of_nodup dir.nodup h.nodup).mpr fun name => h.mem_keys
  exact hperm.eq_of_pairwise' (pairwise_insertionSort _ _) (h.sorted.imp ChunkName.le_of_lt)

theorem trimOldestChunks_eq (chunks : Nat) (dir : Dir) (rotated : List ChunkName) :
    ∃ n, trimOldestChunks chunks dir rotated = (dir.eraseAll (rotated.take n), rotated.drop n) := by
  induction rotated generalizing dir with
  | nil => exact ⟨0, rfl⟩
  | cons oldest rotated ih =>
    unfold trimOldestChunks
    split_ifs with h
    · obtain ⟨n, hn⟩ := ih (dir.erase oldest)
      exact ⟨n + 1, hn⟩
    · exact ⟨0, rfl⟩

theorem createChunk_ok (h : createChunk dir name = .ok dir') : name ∉ dir.keys ∧ dir' = dir.insert name [] := by
  unfold createChunk at h
  split_ifs at h with hc
  refine ⟨?_, (Except.ok.inj h).symm⟩
  rw [← AMap.get_eq_none]
  simpa [AMap.contains] using hc

theorem createInitialChunk_ok {now : Nat} (h : createInitialChunk dir clock = .ok (now, dir')) :
    createChunk dir ⟨now, 0⟩ = .ok dir' := by
  induction clock with
  | nil => cases h
  | cons t clock ih =>
    unfold createInitialChunk at h
    split at h
    · rename_i d hd
      obtain ⟨rfl, rfl⟩ := Prod.mk.inj (Except.ok.inj h)
      exact hd
    · exact ih h

theorem Files.newChunk (h : Files dir log) (hlast : ∀ e ∈ log, e.1.lt name) (n : Nat) :
    Files ((dir.insert name []).eraseAll ((log.map Prod.fst).take n)) (log.drop n ++ [(name, [])]) := by
  have hname : name ∉ log.map Prod.fst := by
    intro hm
    obtain ⟨e, he, rfl⟩ := mem_map.mp hm
    exact ChunkName.ne_of_lt (hlast e he) rfl
  have hsplit : log.map Prod.fst = (log.take n).map Prod.fst ++ (log.drop n).map Prod.fst := by
    rw [← map_append, take_append_drop]
  have hdisj : ∀ {x}, x ∈ (log.map Prod.fst).take n → x ∉ (log.drop n).map Prod.fst := by
    intro x hx hx'
    rw [← map_take] at hx
    have hnodup := h.nodup
    rw [hsplit, nodup_append] at hnodup
    exact hnodup.2.2 x hx x hx' rfl
  refine ⟨?_, ?_, ?_⟩
  · rw [map_append, pairwise_append]
    refine ⟨h.sorted.sublist ((drop_sublist n log).map _), by simp, ?_⟩
    intro x hx y hy
    obtain ⟨e, he, rfl⟩ := mem_map.mp hx
    obtain rfl : y = name := by simpa using hy
    exact hlast e (mem_of_mem_drop he)
  · intro x file
    rw [AMap.get_eraseAll, AMap.get_insert]
    by_cases hx : x = name
    · have hnot : name ∉ (log.map Prod.fst).take n := fun hm => hname (mem_of_mem_take hm)
      have hdrop : ∀ ps, (name, ps) ∉ log.drop n := by
        intro ps hm
        exact hname (mem_map_of_mem (mem_of_mem_drop hm))
      simp [hx, hnot, hdrop, eq_comm]
    · rw [if_neg hx]
      by_cases hdropped : x ∈ (log.map Prod.fst).take n
      · rw [if_pos hdropped]
        refine iff_of_false (by simp) ?_
        rintro ⟨ps, hm, -⟩
        rcases mem_append.mp hm with hm | hm
        · exact hdisj hdropped (mem_map_of_mem hm)
        · exact hx (by simpa using (Prod.mk.inj (mem_singleton.mp hm)).1)
      · rw [if_neg hdropped, h.get]
        have hkept : ∀ ps, (x, ps) ∈ log ↔ (x, ps) ∈ log.drop n ++ [(name, [])] := by
          intro ps
          constructor
          · intro hm
            rw [← take_append_drop n log] at hm
            rcases mem_append.mp hm with hm | hm
            · refine absurd ?_ hdropped
              rw [← map_take]
              exact mem_map_of_mem hm
            · exact mem_append_left _ hm
          · intro hm
            rcases mem_append.mp hm with hm | hm
            · exact mem_of_mem_drop hm
            · exact absurd (Prod.mk.inj (mem_singleton.mp hm)).1 hx
        simp only [hkept]
  · intro e he p hp
    rcases mem_append.mp he with he | he
    · exact h.bound e (mem_of_mem_drop he) p hp
    · rw [mem_singleton.mp he] at hp
      cases hp

theorem Files.append (h : Files dir (before ++ [(name, ps)])) (hp : payload.length < 2 ^ 32) :
    Files (dir.modify name (· ++ record payload)) (before ++ [(name, ps ++ [payload])]) := by
  have hname : name ∉ before.map Prod.fst := by
    intro hm
    have hnodup := h.nodup
    rw [map_append, nodup_append] at hnodup
    exact hnodup.2.2 name hm name (by simp) rfl
  have hget : dir.get name = some (ps.flatMap record) := (h.get _ _).mpr ⟨ps, by simp, rfl⟩
  refine ⟨?_, ?_, ?_⟩
  · have hsorted := h.sorted
    rw [map_append] at hsorted ⊢
    exact hsorted
  · intro x file
    rw [AMap.get_modify]
    by_cases hx : x = name
    · have hbefore : ∀ ps, (name, ps) ∉ before := fun ps hm => hname (mem_map_of_mem hm)
      simp [hx, hget, hbefore, eq_comm]
    · rw [if_neg hx, h.get]
      simp [hx]
  · intro e he p hpe
    rcases mem_append.mp he with he | he
    · exact h.bound e (mem_append_left _ he) p hpe
    · rw [mem_singleton.mp he] at hpe
      rcases mem_append.mp hpe with hpe | hpe
      · exact h.bound (name, ps) (by simp) p hpe
      · rw [mem_singleton.mp hpe]
        exact hp

structure Running (dir : Dir) (l : Logger) (log : List (ChunkName × List Bytes)) : Prop where
  files : Files dir log
  rotated : ∃ ps, log = log.dropLast ++ [(l.current, ps)] ∧ (log.dropLast).map Prod.fst = l.rotated
  current : l.current = ⟨l.timestamp, l.generation⟩

theorem Running.names (h : Running dir l log) : log.map Prod.fst = l.rotated ++ [l.current] := by
  obtain ⟨ps, hlog, hrot⟩ := h.rotated
  rw [hlog, map_append, hrot]
  rfl

theorem running_new (h : Files dir log) (hlast : ∀ e ∈ log, e.1.lt l.current) (n : Nat)
    (hrot : l.rotated = (log.map Prod.fst).drop n) (hcur : l.current = ⟨l.timestamp, l.generation⟩) :
    Running ((dir.insert l.current []).eraseAll ((log.map Prod.fst).take n)) l
      (log.drop n ++ [(l.current, [])]) := by
  refine ⟨h.newChunk hlast n, ⟨[], ?_, ?_⟩, hcur⟩
  · rw [dropLast_concat]
  · rw [dropLast_concat, map_drop, hrot]

theorem Running.write (h : Running dir l log) (payload : Bytes) (hp : payload.length < 2 ^ 32) :
    ∃ log', Running (l.write dir payload).1 (l.write dir payload).2 log' ∧
      log'.flatMap Prod.snd = log.flatMap Prod.snd ++ [payload] := by
  obtain ⟨ps, hlog, hrot⟩ := h.rotated
  have hfiles := h.files
  rw [hlog] at hfiles
  refine ⟨log.dropLast ++ [(l.current, ps ++ [payload])], ⟨hfiles.append hp, ⟨ps ++ [payload], ?_, ?_⟩, h.current⟩, ?_⟩
  · rw [dropLast_concat]
    rfl
  · rw [dropLast_concat]
    exact hrot
  · conv_rhs => rw [hlog]
    simp

/-- The next chunk is always new, so a rotation succeeds. -/
theorem Running.rotate (h : Running dir l log) :
    ∃ dir' l' log' dropped, l.rotate dir = (none, dir', l') ∧ Running dir' l' log' ∧
      log.flatMap Prod.snd = dropped ++ log'.flatMap Prod.snd := by
  have hsorted := h.files.sorted
  rw [h.names, pairwise_append] at hsorted
  have hlast : ∀ e ∈ log, e.1.lt ⟨l.timestamp, l.generation + 1⟩ := by
    intro e he
    have hcur : l.current.lt ⟨l.timestamp, l.generation + 1⟩ := by
      rw [h.current]
      exact .inr ⟨rfl, Nat.lt_succ_self _⟩
    have hmem : e.1 ∈ l.rotated ++ [l.current] := by
      rw [← h.names]
      exact mem_map_of_mem he
    rcases mem_append.mp hmem with hmem | hmem
    · have hlt := hsorted.2.2 _ hmem _ (mem_singleton_self _)
      unfold ChunkName.lt at hlt hcur ⊢
      omega
    · rw [mem_singleton.mp hmem]
      exact hcur
  have hnew : (⟨l.timestamp, l.generation + 1⟩ : ChunkName) ∉ dir.keys := by
    intro hm
    obtain ⟨e, he, heq⟩ := mem_map.mp (h.files.mem_keys.mp hm)
    exact ChunkName.ne_of_lt (hlast e he) heq
  have hcreate : createChunk dir ⟨l.timestamp, l.generation + 1⟩ = .ok (dir.insert ⟨l.timestamp, l.generation + 1⟩ []) := by
    unfold createChunk
    rw [if_neg]
    simpa [AMap.contains] using AMap.get_eq_none.mpr hnew
  obtain ⟨n, htrim⟩ := trimOldestChunks_eq l.chunks (dir.insert ⟨l.timestamp, l.generation + 1⟩ [])
    (l.rotated ++ [l.current])
  have hrotate : l.rotate dir = (none,
      (dir.insert ⟨l.timestamp, l.generation + 1⟩ []).eraseAll ((l.rotated ++ [l.current]).take n),
      { l with
        generation := l.generation + 1
        current := ⟨l.timestamp, l.generation + 1⟩
        size := 0
        rotated := (l.rotated ++ [l.current]).drop n }) := by
    unfold Logger.rotate
    simp only [hcreate, htrim]
  refine ⟨_, _, log.drop n ++ [(⟨l.timestamp, l.generation + 1⟩, [])], (log.take n).flatMap Prod.snd, hrotate, ?_, ?_⟩
  · rw [← h.names]
    exact running_new (l := { l with
      generation := l.generation + 1
      current := ⟨l.timestamp, l.generation + 1⟩
      size := 0
      rotated := (log.map Prod.fst).drop n }) h.files hlast n rfl rfl
  · simp only [flatMap_append, flatMap_cons, flatMap_nil, append_nil]
    rw [← flatMap_append, take_append_drop]

theorem Running.push {l' : Logger} (h : Running dir l log) {err : Option WalErr}
    (hpush : l.push dir payload = (err, dir', l')) : ∃ log' dropped, Running dir' l' log' ∧
      (if err = none then log.flatMap Prod.snd ++ [payload] else log.flatMap Prod.snd) =
        dropped ++ log'.flatMap Prod.snd := by
  unfold Logger.push at hpush
  split_ifs at hpush with hbig hchunk hfull
  · obtain ⟨rfl, rfl, rfl⟩ := by simpa using hpush
    exact ⟨log, [], h, rfl⟩
  · obtain ⟨rfl, rfl, rfl⟩ := by simpa using hpush
    exact ⟨log, [], h, rfl⟩
  · obtain ⟨dir₁, l₁, log₁, dropped, hrot, hrun, hlog⟩ := h.rotate
    rw [hrot] at hpush
    obtain ⟨log', hrun', hlog'⟩ := hrun.write payload (by omega)
    obtain ⟨rfl, hw⟩ := Prod.mk.inj hpush
    rw [hw] at hrun'
    refine ⟨log', dropped, hrun', ?_⟩
    rw [if_pos rfl, hlog, hlog', append_assoc]
  · obtain ⟨log', hrun', hlog'⟩ := h.write payload (by omega)
    obtain ⟨rfl, hw⟩ := Prod.mk.inj hpush
    rw [hw] at hrun'
    exact ⟨log', [], hrun', by rw [if_pos rfl, hlog', nil_append]⟩

theorem running_build {cfg : LoggerConfig} (h : Files dir log) (hbuild : cfg.build dir clock = .ok (dir', l))
    (hlate : ∀ name ∈ dir.keys, name.timestamp < l.timestamp) :
    ∃ log' dropped, Running dir' l log' ∧ log.flatMap Prod.snd = dropped ++ log'.flatMap Prod.snd := by
  unfold LoggerConfig.build at hbuild
  obtain ⟨⟨⟩, -, hbuild⟩ := bind_eq_ok.mp hbuild
  obtain ⟨⟨now, dir₁⟩, hinit, hbuild⟩ := bind_eq_ok.mp hbuild
  obtain ⟨n, htrim⟩ := trimOldestChunks_eq cfg.chunks dir₁ (discoverChunks dir)
  simp only [htrim] at hbuild
  obtain ⟨rfl, rfl⟩ := Prod.mk.inj (pure_eq_ok.mp hbuild)
  obtain ⟨-, rfl⟩ := createChunk_ok (createInitialChunk_ok hinit)
  have hlast : ∀ e ∈ log, e.1.lt ⟨now, 0⟩ := by
    intro e he
    have hlt := hlate e.1 (h.mem_keys.mpr (mem_map_of_mem he))
    exact .inl hlt
  refine ⟨log.drop n ++ [(⟨now, 0⟩, [])], (log.take n).flatMap Prod.snd, ?_, ?_⟩
  · rw [h.discover]
    exact running_new (l := ⟨now, 0, ⟨now, 0⟩, 0, (log.map Prod.fst).drop n, cfg.chunks, cfg.chunkSize⟩) h hlast n rfl rfl
  · simp only [flatMap_append, flatMap_cons, flatMap_nil, append_nil]
    rw [← flatMap_append, take_append_drop]

/-- What a run leaves: the chunks of `log` in the directory, and the end of the payloads pushed. -/
structure Logged (s : State) (log : List (ChunkName × List Bytes)) : Prop where
  files : Files s.dir log
  suffix : ∃ dropped, s.pushed = dropped ++ log.flatMap Prod.snd
  running : ∀ l, s.logger = some l → Running s.dir l log

theorem forward_inv {s : State} (h : Forward s) : ∃ log, Logged s log := by
  induction h with
  | init =>
    refine ⟨[], ⟨by simp, by simp, by simp⟩, ⟨[], rfl⟩, ?_⟩
    intro l hl
    cases hl
  | @start s dir l cfg clock _ hbuild hlate ih =>
    obtain ⟨log, hlog⟩ := ih
    obtain ⟨dropped, hpushed⟩ := hlog.suffix
    obtain ⟨log', dropped', hrun, hflat⟩ := running_build hlog.files hbuild hlate
    refine ⟨log', hrun.files, ⟨dropped ++ dropped', ?_⟩, ?_⟩
    · rw [append_assoc, ← hflat]
      exact hpushed
    · intro l' hl'
      obtain rfl := Option.some.inj hl'
      exact hrun
  | @push s l l' dir err payload _ hl hpush ih =>
    obtain ⟨log, hlog⟩ := ih
    obtain ⟨dropped, hpushed⟩ := hlog.suffix
    obtain ⟨log', dropped', hrun, hflat⟩ := (hlog.running l hl).push hpush
    refine ⟨log', hrun.files, ⟨dropped ++ dropped', ?_⟩, ?_⟩
    · show (if err = none then s.pushed ++ [payload] else s.pushed) = _
      rw [append_assoc, ← hflat, hpushed]
      split_ifs
      · rw [append_assoc]
      · rfl
    · intro l₁ hl₁
      obtain rfl := Option.some.inj hl₁
      exact hrun

end MonadBft.Wal
