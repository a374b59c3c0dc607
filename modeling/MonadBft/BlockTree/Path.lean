/-
  MonadBft.BlockTree.Path — what the walks of the block tree return.

  `GetBlocksOnPathFromRoot` returns the blocks that link a block to the root, if the tree has
  them all (`getBlocksOnPathFromRoot_eq_some`).
-/
import MonadBft.BlockTree.Tree

namespace MonadBft

open Lib ConsensusFullBlock Linked List

/-- A path of blocks, newest first, from the id of its first block to the parent of its last. -/
abbrev BlockPath : BlockId → List ConsensusFullBlock → BlockId → Prop :=
  Linked ConsensusFullBlock.getId ConsensusFullBlock.getParentId

/-- The size of an id, which grows from parent to child. -/
def BlockId.rank (b : BlockId) : Nat := b.bytes.length

theorem ConsensusFullBlock.rank_lt (b : ConsensusFullBlock) : b.getParentId.rank < b.getId.rank :=
  getParentId_length_lt b.header

namespace BlockTree

variable {t : BlockTree} {stop : BlockId → Bool} {b : BlockId} {vb : ConsensusFullBlock}

theorem getBlock_keyed (h : t.getBlock b = some vb) : vb.getId = b := by
  obtain ⟨e, he, rfl⟩ := Option.map_eq_some_iff.mp h
  exact t.keyed he

theorem stopped_eq_some : (if stop b then none else t.getBlock b) = some vb ↔
    stop b = false ∧ t.getBlock b = some vb := by
  cases hs : stop b <;> simp

theorem walk_linked (t : BlockTree) (stop : BlockId → Bool) (b : BlockId) :
    BlockPath b (t.walk stop b).1 (t.walk stop b).2 := by
  refine follow_linked ?_ _ b
  intro id vb h
  exact getBlock_keyed (stopped_eq_some.mp h).2

theorem walk_mem (h : vb ∈ (t.walk stop b).1) : stop vb.getId = false ∧ t.getBlock vb.getId = some vb := by
  have hkeyed : ∀ id vb, (if stop id then none else t.getBlock id) = some vb → vb.getId = id :=
    fun _ _ hg => getBlock_keyed (stopped_eq_some.mp hg).2
  have hget := get_of_mem_follow hkeyed h
  exact stopped_eq_some.mp hget

/-- The walk finds every path of the tree that leads to where it has to stop. -/
theorem walk_of_path {l : List ConsensusFullBlock} {b' : BlockId} (hl : BlockPath b l b')
    (hmem : ∀ vb ∈ l, stop vb.getId = false ∧ t.getBlock vb.getId = some vb)
    (hend : stop b' = true ∨ t.getBlock b' = none) : t.walk stop b = (l, b') := by
  refine follow_of_linked hl ?_ ?_ ?_
  · intro vb hvb
    exact stopped_eq_some.mpr (hmem vb hvb)
  · rcases hend with hs | hn
    · simp [hs]
    · simp [hn]
  · have := rank_le (r := BlockId.rank) rank_lt hl
    unfold steps
    unfold BlockId.rank at this
    omega

/-! ## Paths from the root -/

variable {path : List ConsensusFullBlock} {id : BlockId}

theorem getBlocksOnPathFromRoot_eq_some : t.getBlocksOnPathFromRoot b = some path ↔
      BlockPath b path.reverse t.root.blockId ∧ ∀ vb ∈ path, t.getBlock vb.getId = some vb := by
  unfold getBlocksOnPathFromRoot
  simp only
  constructor
  · intro h
    split_ifs at h with hroot
    obtain rfl := Option.some.inj h
    refine ⟨?_, ?_⟩
    · have hl := walk_linked t (· = t.root.blockId) b
      rw [hroot] at hl
      rwa [reverse_reverse]
    · intro vb hvb
      exact (walk_mem (mem_reverse.mp hvb)).2
  · rintro ⟨hl, hmem⟩
    have hwalk : t.walk (· = t.root.blockId) b = (path.reverse, t.root.blockId) := by
      refine walk_of_path hl ?_ (.inl (by simp))
      intro vb hvb
      refine ⟨?_, hmem vb (mem_reverse.mp hvb)⟩
      have := rank_mem (r := BlockId.rank) rank_lt hl hvb
      simp only [decide_eq_false_iff_not]
      intro heq
      rw [heq] at this
      exact Nat.lt_irrefl _ this
    rw [hwalk, if_pos rfl, reverse_reverse]

theorem getBlocksOnPathFromRoot_snoc (hne : vb.getId ≠ t.root.blockId) (hget : t.getBlock vb.getId = some vb) :
    t.getBlocksOnPathFromRoot vb.getId = some path ↔
      ∃ path', t.getBlocksOnPathFromRoot vb.getParentId = some path' ∧ path = path' ++ [vb] := by
  simp only [getBlocksOnPathFromRoot_eq_some]
  constructor
  · rintro ⟨hl, hmem⟩
    cases hr : path.reverse with
    | nil =>
      rw [hr] at hl
      exact absurd (nil_iff.mp hl) hne
    | cons b rest =>
      rw [hr] at hl
      obtain ⟨hid, hl⟩ := cons_iff.mp hl
      obtain rfl := eq_of_getId hid
      obtain rfl : path = rest.reverse ++ [vb] := by
        rw [← reverse_reverse path, hr, reverse_cons]
      exact ⟨rest.reverse, ⟨by rwa [reverse_reverse], fun b hb => hmem b (mem_append_left _ hb)⟩, rfl⟩
  · rintro ⟨path', ⟨hl, hmem⟩, rfl⟩
    refine ⟨?_, ?_⟩
    · rw [reverse_append]
      exact cons vb hl
    · intro b hb
      rcases mem_append.mp hb with hb | hb
      · exact hmem b hb
      · obtain rfl := mem_singleton.mp hb
        exact hget

theorem child_path (hvb : t.getBlock vb.getId = some vb) (hp : t.getBlocksOnPathFromRoot vb.getParentId = some path) :
    vb.getId ≠ t.root.blockId ∧ t.getBlocksOnPathFromRoot vb.getId = some (path ++ [vb]) := by
  have hne : vb.getId ≠ t.root.blockId := by
    intro heq
    have hrank := rank_le (r := BlockId.rank) rank_lt (getBlocksOnPathFromRoot_eq_some.mp hp).1
    have hlt := vb.rank_lt
    rw [heq] at hlt
    omega
  exact ⟨hne, (getBlocksOnPathFromRoot_snoc hne hvb).mpr ⟨path, hp, rfl⟩⟩

theorem getBlocksOnPathFromRoot_root (t : BlockTree) : t.getBlocksOnPathFromRoot t.root.blockId = some [] :=
  getBlocksOnPathFromRoot_eq_some.mpr ⟨nil _, by simp⟩

theorem getBlock_of_path (h : t.getBlocksOnPathFromRoot id = some (path ++ [vb])) :
    t.getBlock id = some vb ∧ vb.getId = id ∧ id ≠ t.root.blockId := by
  obtain ⟨hl, hmem⟩ := getBlocksOnPathFromRoot_eq_some.mp h
  rw [reverse_append] at hl
  have hid : vb.getId = id := (cons_iff.mp hl).1.symm
  refine ⟨?_, hid, ?_⟩
  · rw [← hid]
    exact hmem vb (by simp)
  · intro hroot
    rw [hroot, getBlocksOnPathFromRoot_root] at h
    simp at h

theorem path_split {rest : List ConsensusFullBlock} (h : t.getBlocksOnPathFromRoot id = some (path ++ vb :: rest)) :
    t.getBlocksOnPathFromRoot vb.getId = some (path ++ [vb]) := by
  obtain ⟨hl, hmem⟩ := getBlocksOnPathFromRoot_eq_some.mp h
  refine getBlocksOnPathFromRoot_eq_some.mpr ⟨?_, ?_⟩
  · rw [reverse_append, reverse_cons, append_assoc] at hl
    obtain ⟨k, -, hl⟩ := append_iff.mp hl
    rw [reverse_append]
    obtain ⟨-, hl'⟩ := cons_iff.mp hl
    exact cons vb hl'
  · intro c hvb
    refine hmem c ?_
    rcases mem_append.mp hvb with hvb | hvb
    · exact mem_append_left _ hvb
    · rw [mem_singleton.mp hvb]
      simp

end BlockTree

end MonadBft
