/-
  MonadBft.BlockTree.Prune — what `Prune` does to the tree.

  `Prune` removes the blocks from the new root back to the old one, then every block whose QC
  is below the new root's round. `prune_eq_ok` says when it succeeds and what is left: the new
  root has a path to the old one through coherent blocks, and the tree is that of `committed`,
  whose entries `get_committed` reads off.
-/
import MonadBft.BlockTree.Path

namespace MonadBft

open Lib Linked

namespace BlockTree

variable {t t' : BlockTree} {id id' newRoot : BlockId} {e : BlockTreeEntry} {vb : ConsensusFullBlock}
  {l rest commit : List ConsensusFullBlock} {ids : List BlockId} {n : Nat}

/-! ## Removing entries -/

theorem get_drop (t : BlockTree) (id id' : BlockId) :
    (t.drop id).tree.get id' = if id' = id then none else t.tree.get id' := by
  unfold drop remove
  cases hg : t.tree.get id with
  | none =>
    by_cases h : id' = id
    · simp [h, hg]
    · simp [h]
  | some e => exact AMap.get_erase _ _ _

theorem root_drop (t : BlockTree) (id : BlockId) : (t.drop id).root = t.root := by
  unfold drop remove
  cases t.tree.get id <;> rfl

theorem remove_eq_some : t.remove id = some (e, t') ↔ t.tree.get id = some e ∧ t' = t.drop id := by
  unfold drop
  constructor
  · intro h
    have hg : t.tree.get id = some e := by
      unfold remove at h
      split at h
      · cases h
      · rename_i e' he
        rw [he, (Prod.mk.inj (Option.some.inj h)).1]
    exact ⟨hg, by rw [h]⟩
  · rintro ⟨hg, rfl⟩
    have hsome : ∃ t₁, t.remove id = some (e, t₁) := by
      unfold remove
      split
      · rename_i hn
        rw [hn] at hg
        cases hg
      · rename_i e' he
        obtain rfl : e' = e := Option.mem_unique he hg
        exact ⟨_, rfl⟩
    obtain ⟨t₁, ht₁⟩ := hsome
    rw [ht₁]

def dropAll (t : BlockTree) (ids : List BlockId) : BlockTree := ids.foldl drop t

theorem get_dropAll (t : BlockTree) (ids : List BlockId) (id : BlockId) :
    (t.dropAll ids).tree.get id = if id ∈ ids then none else t.tree.get id := by
  unfold dropAll
  induction ids generalizing t with
  | nil => simp
  | cons i ids ih =>
    rw [List.foldl_cons, ih, get_drop]
    by_cases hi : id = i <;> simp [hi]

/-- The blocks that the garbage collection for `round` removes. -/
def stale (t : BlockTree) (round : Nat) : List BlockId :=
  (t.tree.entries.filter fun e => e.2.validatedBlock.header.qc.getRound < round).map Prod.fst

theorem collect_eq_dropAll (t : BlockTree) (round : Nat) : t.collect round = t.dropAll (t.stale round) := rfl

theorem mem_stale {round : Nat} : id ∈ t.stale round ↔
    ∃ e, t.tree.get id = some e ∧ e.validatedBlock.header.qc.getRound < round := by
  unfold stale
  simp only [List.mem_map, List.mem_filter, decide_eq_true_eq, Prod.exists, exists_and_right, exists_eq_right,
    AMap.get_eq_some]

theorem get_collect (t : BlockTree) (round : Nat) (id : BlockId) : (t.collect round).tree.get id =
      (t.tree.get id).filter fun e => round ≤ e.validatedBlock.header.qc.getRound := by
  rw [collect_eq_dropAll, get_dropAll]
  cases hg : t.tree.get id with
  | none => simp
  | some e =>
    have hiff : id ∈ t.stale round ↔ e.validatedBlock.header.qc.getRound < round := by
      rw [mem_stale, hg]
      simp
    by_cases h : e.validatedBlock.header.qc.getRound < round
    · rw [if_pos (hiff.mpr h), Option.filter_some, if_neg]
      simpa using h
    · rw [if_neg (mt hiff.mp h), Option.filter_some, if_pos]
      simpa using h

/-! ## The commit path -/

def CoherentEntry (t : BlockTree) (vb : ConsensusFullBlock) : Prop :=
  ∃ e, t.tree.get vb.getId = some e ∧ e.validatedBlock = vb ∧ e.isCoherent = true

theorem CoherentEntry.getBlock (h : t.CoherentEntry vb) : t.getBlock vb.getId = some vb := by
  obtain ⟨e, he, rfl, -⟩ := h
  simp [BlockTree.getBlock, he]

theorem coherentEntry_drop (hid : vb.getId ≠ id) : (t.drop id).CoherentEntry vb ↔ t.CoherentEntry vb := by
  unfold CoherentEntry
  rw [get_drop, if_neg hid]

/-- A coherent block in front of a coherent path of the tree that has dropped it. -/
theorem dropped_path (hget : t.tree.get id = some e)
    (hpath : BlockPath e.validatedBlock.getParentId rest (t.drop id).root.blockId) (hcoh : e.isCoherent = true)
    (hmem : ∀ vb ∈ rest, (t.drop id).CoherentEntry vb) :
    BlockPath id (e.validatedBlock :: rest) t.root.blockId ∧ ∀ vb ∈ e.validatedBlock :: rest, t.CoherentEntry vb := by
  have hid := t.keyed hget
  rw [root_drop] at hpath
  refine ⟨cons_iff.mpr ⟨hid.symm, hpath⟩, ?_⟩
  intro vb hvb
  rcases List.mem_cons.mp hvb with rfl | hvb
  · exact ⟨e, by rw [hid]; exact hget, rfl, hcoh⟩
  · obtain ⟨e', he', hrest⟩ := hmem vb hvb
    rw [get_drop] at he'
    split_ifs at he' with hne
    exact ⟨e', he', hrest⟩

theorem pruneLoop_ok (h : pruneLoop n t e = .ok (t', l)) :
    ∃ rest, l = e.validatedBlock :: rest ∧ t' = t.dropAll (rest.map (·.getId)) ∧
      BlockPath e.validatedBlock.getParentId rest t.root.blockId ∧ e.isCoherent = true ∧
      ∀ vb ∈ rest, t.CoherentEntry vb := by
  induction n generalizing t t' e l with
  | zero =>
    unfold pruneLoop at h
    obtain ⟨⟨⟩, hc, h⟩ := bind_eq_ok.mp h
    split_ifs at h with hp
    obtain ⟨rfl, rfl⟩ := Prod.mk.inj (pure_eq_ok.mp h)
    exact ⟨[], rfl, rfl, nil_iff.mpr hp, require_eq_ok.mp hc, by simp⟩
  | succ n ih =>
    unfold pruneLoop at h
    obtain ⟨⟨⟩, hc, h⟩ := bind_eq_ok.mp h
    split_ifs at h with hp
    · obtain ⟨rfl, rfl⟩ := Prod.mk.inj (pure_eq_ok.mp h)
      exact ⟨[], rfl, rfl, nil_iff.mpr hp, require_eq_ok.mp hc, by simp⟩
    · cases hr : t.remove e.validatedBlock.getParentId with
      | none =>
        rw [hr] at h
        cases h
      | some r =>
        obtain ⟨e', t₁⟩ := r
        rw [hr] at h
        obtain ⟨⟨t₂, l'⟩, hloop, h⟩ := bind_eq_ok.mp h
        obtain ⟨rfl, rfl⟩ := Prod.mk.inj (pure_eq_ok.mp h)
        obtain ⟨hget, rfl⟩ := remove_eq_some.mp hr
        obtain ⟨rest, rfl, rfl, hpath, hcoh, hmem⟩ := ih hloop
        obtain ⟨hpath', hmem'⟩ := dropped_path hget hpath hcoh hmem
        refine ⟨e'.validatedBlock :: rest, rfl, ?_, hpath', require_eq_ok.mp hc, hmem'⟩
        rw [List.map_cons, t.keyed hget]
        rfl

/-- The loop of `Prune` runs along a path of coherent blocks to the root. -/
theorem pruneLoop_of_path (hc : e.isCoherent = true)
    (hpath : BlockPath e.validatedBlock.getParentId rest t.root.blockId) (hmem : ∀ vb ∈ rest, t.CoherentEntry vb)
    (hn : rest.length ≤ n) : pruneLoop n t e = .ok (t.dropAll (rest.map (·.getId)), e.validatedBlock :: rest) := by
  induction rest generalizing n t e with
  | nil =>
    have hp : e.validatedBlock.getParentId = t.root.blockId := nil_iff.mp hpath
    unfold pruneLoop
    rw [require_bind _ hc, if_pos hp]
    rfl
  | cons vb rest ih =>
    obtain ⟨n, rfl⟩ : ∃ m, n = m + 1 := ⟨n - 1, by simp only [List.length_cons] at hn; omega⟩
    obtain ⟨hid, hpath'⟩ := cons_iff.mp hpath
    obtain ⟨e', he', rfl, hc'⟩ := hmem vb (.head _)
    -- the parent is above the root, so the loop goes on
    have hp : e.validatedBlock.getParentId ≠ t.root.blockId :=
      ne ConsensusFullBlock.rank_lt hpath (by simp)
    have hremove : t.remove e.validatedBlock.getParentId = some (e', t.drop e'.validatedBlock.getId) :=
      remove_eq_some.mpr ⟨by rw [hid]; exact he', by rw [hid]⟩
    have hrest : ∀ vb ∈ rest, (t.drop e'.validatedBlock.getId).CoherentEntry vb := by
      intro vb hvb
      have hne := ne_of_mem_tail ConsensusFullBlock.rank_lt hpath hvb
      exact (coherentEntry_drop (by rw [← hid]; exact hne)).mpr (hmem vb (.tail _ hvb))
    have hloop := ih (n := n) (t := t.drop e'.validatedBlock.getId) hc' (by rw [root_drop]; exact hpath') hrest
      (by simpa using hn)
    unfold pruneLoop
    rw [require_bind _ hc, if_neg hp, hremove]
    show (pruneLoop n _ e' >>= _) = _
    rw [hloop]
    rfl

/-! ## Prune -/

/-- The tree after the blocks of `l` have been committed, the newest of which has the entry `e`. -/
def committed (t : BlockTree) (e : BlockTreeEntry) (l : List ConsensusFullBlock) : BlockTree :=
  { (t.dropAll (l.map (·.getId))).collect e.validatedBlock.header.blockRound with
    root := rootOf e.validatedBlock
    rootKids := e.childrenBlocks }

theorem get_committed (t : BlockTree) (e : BlockTreeEntry) (l : List ConsensusFullBlock) (id : BlockId) :
    (t.committed e l).tree.get id = if id ∈ l.map (·.getId) then none else
      (t.tree.get id).filter fun e' =>
        e.validatedBlock.header.blockRound ≤ e'.validatedBlock.header.qc.getRound := by
  show ((t.dropAll _).collect _).tree.get id = _
  rw [get_collect, get_dropAll]
  split_ifs with h <;> rfl

/-- A path through the tree is no longer than the tree. -/
theorem length_le_of_path {b b' : BlockId} (hpath : BlockPath b l b')
    (hmem : ∀ vb ∈ l, t.getBlock vb.getId = some vb) : l.length ≤ t.tree.entries.length := by
  have hnodup := nodup ConsensusFullBlock.rank_lt hpath
  have hsub : l.map (·.getId) ⊆ t.tree.entries.map Prod.fst := by
    intro id hid
    obtain ⟨vb, hvb, rfl⟩ := List.mem_map.mp hid
    obtain ⟨e, he, -⟩ := Option.map_eq_some_iff.mp (hmem vb hvb)
    exact List.mem_map_of_mem (AMap.get_eq_some.mp he)
  have := (List.subperm_of_subset hnodup hsub).length_le
  simpa using this

theorem prune_root (t : BlockTree) : t.prune t.root.blockId = .ok (t, []) := by
  unfold prune
  have hc : t.isCoherent t.root.blockId = true := by simp [isCoherent]
  rw [require_bind _ hc, if_pos rfl]
  rfl

/-- `Prune` of another block than the root succeeds exactly when coherent blocks lead from it to
the root. -/
theorem prune_eq_ok (hne : newRoot ≠ t.root.blockId) :
    t.prune newRoot = .ok (t', commit) ↔ ∃ e l, t.tree.get newRoot = some e ∧
      BlockPath newRoot l t.root.blockId ∧ (∀ vb ∈ l, t.CoherentEntry vb) ∧
      commit = l.reverse ∧ t' = t.committed e l := by
  constructor
  · intro h
    unfold prune at h
    obtain ⟨⟨⟩, -, h⟩ := bind_eq_ok.mp h
    rw [if_neg hne] at h
    split at h
    · cases h
    rename_i e t₁ hr
    obtain ⟨⟨t₂, l'⟩, hloop, h⟩ := bind_eq_ok.mp h
    obtain ⟨rfl, rfl⟩ := Prod.mk.inj (pure_eq_ok.mp h)
    obtain ⟨hget, rfl⟩ := remove_eq_some.mp hr
    obtain ⟨rest, rfl, rfl, hpath, hcoh, hmem⟩ := pruneLoop_ok hloop
    obtain ⟨hpath', hmem'⟩ := dropped_path hget hpath hcoh hmem
    refine ⟨e, e.validatedBlock :: rest, hget, hpath', hmem', rfl, ?_⟩
    unfold committed
    rw [List.map_cons, t.keyed hget]
    rfl
  · rintro ⟨e, l, hget, hpath, hmem, rfl, rfl⟩
    cases l with
    | nil => exact absurd (nil_iff.mp hpath) hne
    | cons vb rest =>
      obtain ⟨hid, hrest⟩ := cons_iff.mp hpath
      obtain ⟨e', he', rfl, hc⟩ := hmem vb (.head _)
      obtain rfl : e' = e := by
        rw [← hid, hget] at he'
        exact (Option.some.inj he').symm
      have hcoh : t.isCoherent newRoot = true := by simp [isCoherent, hget, hc]
      have hremove : t.remove newRoot = some (e', t.drop newRoot) := remove_eq_some.mpr ⟨hget, rfl⟩
      have hdrop : ∀ vb ∈ rest, (t.drop newRoot).CoherentEntry vb := by
        intro vb hvb
        have hne' := ne_of_mem_tail ConsensusFullBlock.rank_lt hpath hvb
        exact (coherentEntry_drop hne').mpr (hmem vb (.tail _ hvb))
      have hlen : rest.length ≤ t.tree.entries.length :=
        length_le_of_path hrest fun vb hvb => (hmem vb (.tail _ hvb)).getBlock
      have hloop := pruneLoop_of_path (t := t.drop newRoot) hc (by rw [root_drop]; exact hrest) hdrop hlen
      unfold prune
      rw [require_bind _ hcoh, if_neg hne, hremove]
      show (pruneLoop _ _ e' >>= _) = _
      rw [hloop]
      unfold committed
      rw [List.map_cons, ← hid]
      rfl

/-- What a tree keeps through `Prune`: nothing changes, or a coherent path is committed. -/
theorem prune_cases {P : BlockTree → Prop} (h : t.prune newRoot = .ok (t', commit)) (hsame : P t)
    (hcommit : ∀ e l, newRoot ≠ t.root.blockId → t.tree.get newRoot = some e →
      BlockPath newRoot l t.root.blockId → (∀ vb ∈ l, t.CoherentEntry vb) → P (t.committed e l)) : P t' := by
  by_cases hroot : newRoot = t.root.blockId
  · rw [hroot, prune_root] at h
    obtain ⟨rfl, -⟩ := Prod.mk.inj (Except.ok.inj h)
    exact hsame
  · obtain ⟨e, l, he, hpath, hmem, -, rfl⟩ := (prune_eq_ok hroot).mp h
    exact hcommit e l hroot he hpath hmem

end BlockTree

end MonadBft
