/-
  MonadBft.Store.BlockStore — the durable block store (`store.BlockStore`).

  Four key spaces: blocks by id (`blk/`), the last block written at each sequence number
  (`seq/`), the last block written with each body (`pld/`), and the finalized block at each
  sequence number (`fin/`). Every write is one batch. Blocks are read back as they were
  written, under the id of their header.

  `PruneBelow` finds the blocks to delete through `seq/`, so a block that shares its sequence
  number with a later one is not found, and it deletes the `pld/` row of each block it finds
  even when a block above the floor has the same body. `pruneBelow_exact_iff`: after any
  sequence of writes, pruning changes no answer at or above the floor and leaves no row of a
  block below it if and only if the store is `Separated` at the floor.
-/
import MonadBft.Scenario
import Mathlib.Data.List.Sort

namespace MonadBft

open Lib AMap

def ConsensusFullBlock.getBodyId (b : ConsensusFullBlock) : BodyId := b.body.getId

/-- `store.BlockStore`, by key space. A block row is kept under the id of its block. -/
structure BlockStore where
  blk : AMap BlockId ConsensusFullBlock
  seq : AMap Nat BlockId
  pld : AMap BodyId BlockId
  fin : AMap Nat BlockId
  keyed : ∀ {id b}, blk.get id = some b → b.getId = id

inductive StoreErr where
  | finalizedMissing (id : BlockId)
  deriving DecidableEq, Repr

namespace BlockStore

def empty : BlockStore where
  blk := AMap.empty
  seq := AMap.empty
  pld := AMap.empty
  fin := AMap.empty
  keyed h := by simp at h

variable (s : BlockStore)

def putBlock (b : ConsensusFullBlock) : BlockStore :=
  { s with
    blk := s.blk.insert b.getId b
    seq := s.seq.insert b.getSeqNum b.getId
    pld := s.pld.insert b.getBodyId b.getId
    keyed := by
      intro id b' h
      rcases AMap.of_get_insert h with h | ⟨rfl, rfl⟩
      · exact s.keyed h
      · rfl }

def putFinalized (seq : Nat) (id : BlockId) : BlockStore :=
  { s with fin := s.fin.insert seq id }

def getBlock (id : BlockId) : Option ConsensusFullBlock := s.blk.get id

def getBySeqNum (seq : Nat) : Option ConsensusFullBlock := (s.seq.get seq).bind s.getBlock

def getPayload (pid : BodyId) : Option ConsensusBlockBody :=
  ((s.pld.get pid).bind s.getBlock).map (·.body)

/-- `GetFinalized`, through `GetFinalizedID`. -/
def getFinalized (seq : Nat) : Option ConsensusFullBlock := (s.fin.get seq).bind s.getBlock

/-- The finalized rows from `floor` on, in the order of the iterator. -/
def finalizedRows (floor : Nat) : List (Nat × BlockId) :=
  (s.fin.entries.filter fun r => floor ≤ r.1).insertionSort fun r r' => r.1 ≤ r'.1

/-- `FinalizedSince`: in order of sequence numbers; a row without its block is an error. -/
def finalizedSince (floor : Nat) : Except StoreErr (List ConsensusFullBlock) :=
  (s.finalizedRows floor).mapM fun r =>
    match s.getBlock r.2 with
    | some b => .ok b
    | none => .error (.finalizedMissing r.2)

/-- The blocks `PruneBelow` finds through the `seq/` rows below the floor. -/
def found (floor : Nat) : List ConsensusFullBlock :=
  (s.seq.entries.filter fun r => r.1 < floor).filterMap fun r => s.getBlock r.2

/-- `PruneBelow`: the rows below the floor of the two spaces keyed by sequence numbers, then the
block and payload rows of the blocks found. -/
def pruneBelow (floor : Nat) : BlockStore where
  blk := s.blk.eraseAll ((s.found floor).map (·.getId))
  seq := s.seq.filter fun n _ => floor ≤ n
  pld := s.pld.eraseAll ((s.found floor).map (·.getBodyId))
  fin := s.fin.filter fun n _ => floor ≤ n
  keyed := by
    intro id b h
    rw [AMap.get_eraseAll] at h
    split_ifs at h
    exact s.keyed h

/-! ## What the writes keep -/

variable {s : BlockStore} {b : ConsensusFullBlock} {id : BlockId} {n floor : Nat}

structure Sound (s : BlockStore) : Prop where
  seq_blk : ∀ {n id}, s.seq.get n = some id → ∃ b, s.blk.get id = some b ∧ b.getSeqNum = n
  blk_seq : ∀ {id b}, s.blk.get id = some b → ∃ id', s.seq.get b.getSeqNum = some id'
  pld_blk : ∀ {p id}, s.pld.get p = some id → ∃ b, s.blk.get id = some b ∧ b.getBodyId = p
  blk_pld : ∀ {id b}, s.blk.get id = some b → ∃ id', s.pld.get b.getBodyId = some id'

theorem empty_sound : Sound empty where
  seq_blk h := by cases h
  blk_seq h := by cases h
  pld_blk h := by cases h
  blk_pld h := by cases h

theorem get_putBlock_of_some {b' : ConsensusFullBlock} (h : s.blk.get id = some b') :
    (s.putBlock b).blk.get id = some b' := by
  show (s.blk.insert b.getId b).get id = some b'
  rw [get_insert]
  by_cases hid : id = b.getId
  · rw [if_pos hid]
    have hb' := s.keyed h
    rw [ConsensusFullBlock.eq_of_getId (hb'.trans hid)]
  · rw [if_neg hid]
    exact h

theorem Sound.putBlock (h : Sound s) (b : ConsensusFullBlock) : Sound (s.putBlock b) := by
  have hself : (s.putBlock b).blk.get b.getId = some b := get_insert_self _ _ _
  refine ⟨?_, ?_, ?_, ?_⟩
  · intro n id hn
    rcases of_get_insert hn with hn | ⟨rfl, rfl⟩
    · obtain ⟨b', hb', hseq⟩ := h.seq_blk hn
      exact ⟨b', get_putBlock_of_some hb', hseq⟩
    · exact ⟨b, hself, rfl⟩
  · intro id b' hb'
    show ∃ id', (s.seq.insert b.getSeqNum b.getId).get b'.getSeqNum = some id'
    rw [get_insert]
    by_cases hseq : b'.getSeqNum = b.getSeqNum
    · exact ⟨b.getId, if_pos hseq⟩
    · rw [if_neg hseq]
      rcases of_get_insert hb' with hb' | ⟨-, rfl⟩
      · exact h.blk_seq hb'
      · exact absurd rfl hseq
  · intro p id hp
    rcases of_get_insert hp with hp | ⟨rfl, rfl⟩
    · obtain ⟨b', hb', hbody⟩ := h.pld_blk hp
      exact ⟨b', get_putBlock_of_some hb', hbody⟩
    · exact ⟨b, hself, rfl⟩
  · intro id b' hb'
    show ∃ id', (s.pld.insert b.getBodyId b.getId).get b'.getBodyId = some id'
    rw [get_insert]
    by_cases hbody : b'.getBodyId = b.getBodyId
    · exact ⟨b.getId, if_pos hbody⟩
    · rw [if_neg hbody]
      rcases of_get_insert hb' with hb' | ⟨-, rfl⟩
      · exact h.blk_pld hb'
      · exact absurd rfl hbody

inductive Put where
  | block (b : ConsensusFullBlock)
  | finalized (seq : Nat) (id : BlockId)

def put (s : BlockStore) : Put → BlockStore
  | .block b => s.putBlock b
  | .finalized seq id => s.putFinalized seq id

def written (puts : List Put) : BlockStore := puts.foldl put empty

theorem written_sound (puts : List Put) : Sound (written puts) := by
  refine foldl_invariant (I := Sound) ?_ empty_sound
  intro p _ s h
  cases p with
  | block b => exact h.putBlock b
  | finalized n id => exact { h with }

/-! ## Pruning -/

/-- At the floor, the store falls apart into what is to go and what is to stay: below it no two
blocks share a sequence number, no block below it shares its body with one above, and no
finalized row above it names a block below. -/
structure Separated (s : BlockStore) (floor : Nat) : Prop where
  alone : ∀ {id id' b b'}, s.getBlock id = some b → s.getBlock id' = some b' →
    b.getSeqNum = b'.getSeqNum → b.getSeqNum < floor → b = b'
  bodies : ∀ {id id' b b'}, s.getBlock id = some b → s.getBlock id' = some b' →
    b.getSeqNum < floor → floor ≤ b'.getSeqNum → b.getBodyId ≠ b'.getBodyId
  finals : ∀ {n id b}, s.fin.get n = some id → s.getBlock id = some b → floor ≤ n → floor ≤ b.getSeqNum

structure SameAbove (s s' : BlockStore) (floor : Nat) : Prop where
  block : ∀ {id b}, s.getBlock id = some b → floor ≤ b.getSeqNum → s'.getBlock id = s.getBlock id
  bySeqNum : ∀ {n}, floor ≤ n → s'.getBySeqNum n = s.getBySeqNum n
  finalized : ∀ {n}, floor ≤ n → s'.getFinalized n = s.getFinalized n
  since : ∀ {n}, floor ≤ n → s'.finalizedSince n = s.finalizedSince n
  payload : ∀ {id b}, s.getBlock id = some b → floor ≤ b.getSeqNum →
    s'.getPayload b.getBodyId = s.getPayload b.getBodyId

/-- `s'` has no row of a block that `s` stores below `floor`, and none keyed below it. -/
structure NoneBelow (s s' : BlockStore) (floor : Nat) : Prop where
  seq : ∀ {n}, n < floor → s'.seq.get n = none
  fin : ∀ {n}, n < floor → s'.fin.get n = none
  blk : ∀ {id b}, s.getBlock id = some b → b.getSeqNum < floor → s'.blk.get id = none
  named : ∀ {id b}, s.getBlock id = some b → b.getSeqNum < floor →
    (∀ n, s'.seq.get n ≠ some id) ∧ (∀ n, s'.fin.get n ≠ some id) ∧ ∀ p, s'.pld.get p ≠ some id

theorem mem_found : b ∈ s.found floor ↔ ∃ n id, n < floor ∧ s.seq.get n = some id ∧ s.getBlock id = some b := by
  unfold found
  simp only [List.mem_filterMap, List.mem_filter, decide_eq_true_eq, Prod.exists, get_eq_some]
  constructor
  · rintro ⟨n, id, ⟨hm, hn⟩, hb⟩
    exact ⟨n, id, hn, hm, hb⟩
  · rintro ⟨n, id, hn, hm, hb⟩
    exact ⟨n, id, ⟨hm, hn⟩, hb⟩

theorem found_below (h : Sound s) (hb : b ∈ s.found floor) : b.getSeqNum < floor ∧ s.getBlock b.getId = some b := by
  obtain ⟨n, id, hn, hseq, hget⟩ := mem_found.mp hb
  obtain ⟨b', hb', rfl⟩ := h.seq_blk hseq
  obtain rfl : b' = b := Option.mem_unique hb' hget
  exact ⟨hn, by rw [s.keyed hb']; exact hb'⟩

theorem get_blk_pruneBelow (s : BlockStore) (floor : Nat) (id : BlockId) :
    (s.pruneBelow floor).getBlock id = if id ∈ (s.found floor).map (·.getId) then none else s.getBlock id :=
  get_eraseAll _ _ _

theorem get_pld_pruneBelow (s : BlockStore) (floor : Nat) (p : BodyId) : (s.pruneBelow floor).pld.get p =
      if p ∈ (s.found floor).map (·.getBodyId) then none else s.pld.get p :=
  get_eraseAll _ _ _

theorem get_seq_pruneBelow (s : BlockStore) (floor n : Nat) :
    (s.pruneBelow floor).seq.get n = if floor ≤ n then s.seq.get n else none := by
  show (s.seq.filter _).get n = _
  rw [get_filter]
  by_cases hn : floor ≤ n
  · cases s.seq.get n <;> simp [hn, Option.filter_some]
  · cases s.seq.get n <;> simp [hn, Option.filter_some]

theorem get_fin_pruneBelow (s : BlockStore) (floor n : Nat) :
    (s.pruneBelow floor).fin.get n = if floor ≤ n then s.fin.get n else none := by
  show (s.fin.filter _).get n = _
  rw [get_filter]
  by_cases hn : floor ≤ n
  · cases s.fin.get n <;> simp [hn, Option.filter_some]
  · cases s.fin.get n <;> simp [hn, Option.filter_some]

theorem getBlock_pruneBelow_above (h : Sound s) (hb : s.getBlock id = some b) (hseq : floor ≤ b.getSeqNum) :
    (s.pruneBelow floor).getBlock id = some b := by
  rw [get_blk_pruneBelow, if_neg, hb]
  intro hm
  obtain ⟨b', hb', hid⟩ := List.mem_map.mp hm
  obtain ⟨hlt, hget⟩ := found_below h hb'
  rw [hid, hb] at hget
  obtain rfl := Option.some.inj hget
  omega

/-- The rows from a higher number on are those of the store before. -/
theorem finalizedRows_pruneBelow (s : BlockStore) (h : floor ≤ n) :
    (s.pruneBelow floor).finalizedRows n = s.finalizedRows n := by
  unfold finalizedRows
  show (((s.fin.filter _).entries.filter _).insertionSort _) = _
  congr 1
  show ((s.fin.entries.filter _).filter _) = _
  rw [List.filter_filter]
  refine List.filter_congr ?_
  intro r _
  by_cases hr : n ≤ r.1
  · have : floor ≤ r.1 := by omega
    simp [hr, this]
  · simp [hr]

theorem mem_finalizedRows {r : Nat × BlockId} (h : r ∈ s.finalizedRows n) : s.fin.get r.1 = some r.2 ∧ n ≤ r.1 := by
  rw [finalizedRows, List.mem_insertionSort, List.mem_filter] at h
  exact ⟨get_eq_some.mpr h.1, by simpa using h.2⟩

/-- Below the floor of a separated store, every block is found. -/
theorem mem_found_of_separated (h : Sound s) (hsep : Separated s floor) (hb : s.getBlock id = some b)
    (hlt : b.getSeqNum < floor) : b ∈ s.found floor := by
  obtain ⟨id', hid'⟩ := h.blk_seq hb
  obtain ⟨b', hb', hseq⟩ := h.seq_blk hid'
  obtain rfl := hsep.alone hb' hb hseq (by omega)
  exact mem_found.mpr ⟨_, id', hlt, hid', hb'⟩

theorem noneBelow_of_separated (h : Sound s) (hsep : Separated s floor) : NoneBelow s (s.pruneBelow floor) floor := by
  refine ⟨?_, ?_, ?_, ?_⟩
  · intro n hn
    rw [get_seq_pruneBelow, if_neg (by omega)]
  · intro n hn
    rw [get_fin_pruneBelow, if_neg (by omega)]
  · intro id b hb hlt
    have hmem := mem_found_of_separated h hsep hb hlt
    refine (get_blk_pruneBelow s floor id).trans (if_pos ?_)
    rw [← s.keyed hb]
    exact List.mem_map_of_mem hmem
  · intro id b hb hlt
    refine ⟨?_, ?_, ?_⟩
    · intro n hn
      rw [get_seq_pruneBelow] at hn
      split_ifs at hn with hle
      obtain ⟨b', hb', hseq⟩ := h.seq_blk hn
      obtain rfl : b' = b := Option.mem_unique hb' hb
      omega
    · intro n hn
      rw [get_fin_pruneBelow] at hn
      split_ifs at hn with hle
      have := hsep.finals hn hb hle
      omega
    · intro p hp
      rw [get_pld_pruneBelow] at hp
      split_ifs at hp with hm
      obtain ⟨b', hb', hbody⟩ := h.pld_blk hp
      obtain rfl : b' = b := Option.mem_unique hb' hb
      refine hm ?_
      rw [← hbody]
      exact List.mem_map_of_mem (mem_found_of_separated h hsep hb hlt)

/-- The block a row from the floor on names, if it names one at or above the floor. -/
theorem getBlock_pruneBelow_of (h : Sound s) (hb : ∀ b, s.getBlock id = some b → floor ≤ b.getSeqNum) :
    (s.pruneBelow floor).getBlock id = s.getBlock id := by
  cases hg : s.getBlock id with
  | some b => exact getBlock_pruneBelow_above h hg (hb b hg)
  | none =>
    rw [get_blk_pruneBelow]
    split_ifs
    · rfl
    · exact hg

theorem sameAbove_of_separated (h : Sound s) (hsep : Separated s floor) : SameAbove s (s.pruneBelow floor) floor := by
  refine ⟨?_, ?_, ?_, ?_, ?_⟩
  · intro id b hb hle
    rw [getBlock_pruneBelow_above h hb hle, hb]
  · intro n hn
    unfold getBySeqNum
    rw [get_seq_pruneBelow, if_pos hn]
    cases hs : s.seq.get n with
    | none => rfl
    | some id =>
      refine getBlock_pruneBelow_of h ?_
      intro b hb
      obtain ⟨b', hb', hseq⟩ := h.seq_blk hs
      obtain rfl : b' = b := Option.mem_unique hb' hb
      omega
  · intro n hn
    unfold getFinalized
    rw [get_fin_pruneBelow, if_pos hn]
    cases hf : s.fin.get n with
    | none => rfl
    | some id => exact getBlock_pruneBelow_of h fun b hb => hsep.finals hf hb hn
  · intro n hn
    unfold finalizedSince
    rw [finalizedRows_pruneBelow s hn]
    refine mapM_congr ?_
    intro r hr
    obtain ⟨hf, hle⟩ := mem_finalizedRows hr
    rw [getBlock_pruneBelow_of h fun b hb => hsep.finals hf hb (by omega)]
  · intro id b hb hle
    unfold getPayload
    have hnot : b.getBodyId ∉ (s.found floor).map (·.getBodyId) := by
      intro hm
      obtain ⟨b', hb', hbody⟩ := List.mem_map.mp hm
      obtain ⟨hlt, hget⟩ := found_below h hb'
      exact hsep.bodies hget hb hlt hle hbody
    rw [get_pld_pruneBelow, if_neg hnot]
    cases hp : s.pld.get b.getBodyId with
    | none => rfl
    | some id' =>
      show ((s.pruneBelow floor).getBlock id').map _ = (s.getBlock id').map _
      rw [getBlock_pruneBelow_of h]
      intro b' hb'
      obtain ⟨b'', hb'', hbody⟩ := h.pld_blk hp
      obtain rfl : b'' = b' := Option.mem_unique hb'' hb'
      by_contra hlt
      exact hsep.bodies hb'' hb (by omega) hle hbody

theorem separated_of_exact (h : Sound s) (hsame : SameAbove s (s.pruneBelow floor) floor)
    (hnone : NoneBelow s (s.pruneBelow floor) floor) : Separated s floor := by
  have hfound : ∀ {id b}, s.getBlock id = some b → b.getSeqNum < floor → b ∈ s.found floor := by
    intro id b hb hlt
    have hgone : (s.pruneBelow floor).getBlock id = none := hnone.blk hb hlt
    rw [get_blk_pruneBelow] at hgone
    split_ifs at hgone with hm
    · obtain ⟨b', hb', hid⟩ := List.mem_map.mp hm
      have hget := (found_below h hb').2
      rw [hid, hb] at hget
      rw [Option.some.inj hget]
      exact hb'
    · rw [hb] at hgone
      cases hgone
  refine ⟨?_, ?_, ?_⟩
  · intro id id' b b' hb hb' hseq hlt
    obtain ⟨n, i, -, hn, hi⟩ := mem_found.mp (hfound hb hlt)
    obtain ⟨n', i', -, hn', hi'⟩ := mem_found.mp (hfound hb' (by omega))
    obtain ⟨c, hc, rfl⟩ := h.seq_blk hn
    obtain ⟨c', hc', rfl⟩ := h.seq_blk hn'
    obtain rfl : c = b := Option.mem_unique hc hi
    obtain rfl : c' = b' := Option.mem_unique hc' hi'
    rw [hseq, hn'] at hn
    obtain rfl := Option.some.inj hn
    exact Option.mem_unique hi hi'
  · intro id id' b b' hb hb' hlt hle hbody
    have hpay := hsame.payload hb' hle
    obtain ⟨i, hi⟩ := h.blk_pld hb'
    obtain ⟨c, hc, -⟩ := h.pld_blk hi
    have hm : b'.getBodyId ∈ (s.found floor).map (·.getBodyId) := by
      rw [← hbody]
      exact List.mem_map_of_mem (hfound hb hlt)
    unfold getPayload at hpay
    rw [get_pld_pruneBelow, if_pos hm, hi] at hpay
    have hc' : s.getBlock i = some c := hc
    simp [hc'] at hpay
  · intro n id b hf hb hle
    by_contra hlt
    refine (hnone.named hb (by omega)).2.1 n ?_
    rw [get_fin_pruneBelow, if_pos hle]
    exact hf

/-- After any writes, `PruneBelow` changes no answer from the floor on and leaves no row below it
exactly when the store is separated at the floor. -/
theorem pruneBelow_exact_iff (puts : List Put) (floor : Nat) :
    SameAbove (written puts) ((written puts).pruneBelow floor) floor ∧
        NoneBelow (written puts) ((written puts).pruneBelow floor) floor ↔ Separated (written puts) floor := by
  have h := written_sound puts
  constructor
  · rintro ⟨hsame, hnone⟩
    exact separated_of_exact h hsame hnone
  · intro hsep
    exact ⟨sameAbove_of_separated h hsep, noneBelow_of_separated h hsep⟩

/-! ## Siblings and shared bodies -/

section Example

open Scenario

/-- Another block with sequence number 1. -/
def sibling : ConsensusFullBlock := blockOf 2 GenesisQC 1

/-- Two blocks with sequence number 1 and a later block with the same, empty, body: the first
sibling stays, and the body of the later block is gone. -/
theorem pruneBelow_sibling : let s := written [.block sibling, .block block1, .block block2]
    (s.pruneBelow 2).getBlock sibling.getId = some sibling ∧ sibling.getSeqNum = 1 ∧
      s.getPayload block2.getBodyId = some block2.body ∧ 2 ≤ block2.getSeqNum ∧
      (s.pruneBelow 2).getPayload block2.getBodyId = none := by
  decide +kernel

end Example

end BlockStore

end MonadBft
