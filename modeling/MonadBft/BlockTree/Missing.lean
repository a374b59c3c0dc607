/-
  MonadBft.BlockTree.Missing — what `MaybeFillPathToRoot` asks for
  (`blocktree.BlockTree.MaybeFillPathToRoot`, with the caller `RequestBlocksIfMissingAncestor`).

  The walk goes from the block of a QC along the parents until it meets a block that the tree
  does not have. It asks for nothing exactly if the block is the root, is not newer than the
  root, or has its path to the root (`maybeFillPathToRoot_eq_none`). Otherwise it names the
  first unknown block of the chain back to the root (`walk_chain`).

  How many blocks it asks for is read off the last block it found: the blocks from the unknown
  one down to the child of the root (`missing_range`). Once they are in the tree the next
  call asks for nothing. If the block of the QC is itself unknown there is no such header, and
  the range has one block, whatever the tree has below it (`unknown_tip_asks_one`).
-/
import MonadBft.BlockTree.Coherency

namespace MonadBft

open Lib List

namespace BlockTree

variable {t t' : BlockTree} {qc : QuorumCertificate} {chain : List ConsensusFullBlock}

/-- The chain of the block of `qc` back to the root, newest first, whether or not the tree has
it. -/
structure ChainToRoot (t : BlockTree) (qc : QuorumCertificate) (chain : List ConsensusFullBlock) : Prop where
  path : BlockPath qc.getBlockId chain t.root.blockId
  next : chain.IsChain fun b p => b.header.seqNum = p.header.seqNum + 1
  first : ∀ b ∈ chain.getLast?, b.header.seqNum = t.root.seqNum + 1
  fits : ∀ b ∈ chain, b.header.seqNum < 2 ^ 64

theorem maybeFillPathToRoot_eq_none : t.maybeFillPathToRoot qc = none ↔
    t.root.blockId = qc.getBlockId ∨ qc.getRound ≤ t.root.round ∨ (t.getBlocksOnPathFromRoot qc.getBlockId).isSome := by
  unfold maybeFillPathToRoot getBlocksOnPathFromRoot
  by_cases hold : qc.getRound ≤ t.root.round ∨ t.root.blockId = qc.getBlockId
  · rw [if_pos hold]
    simp only [true_iff]
    rcases hold with hround | hroot
    · exact .inr (.inl hround)
    · exact .inl hroot
  · rw [if_neg hold]
    obtain ⟨hround, hroot⟩ := not_or.mp hold
    simp only [hround, hroot, false_or]
    by_cases hend : (t.walk (· = t.root.blockId) qc.getBlockId).2 = t.root.blockId
    · simp [hend]
    · simp only [if_neg hend, Option.isSome_none]
      split <;> simp

/-! ## The walk along the chain -/

/-- The walk finds the blocks of the chain that come before the first unknown one. -/
theorem walk_chain (hpath : BlockPath qc.getBlockId chain t.root.blockId) :
    ∃ known missing, chain = known ++ missing ∧ (∀ b ∈ known, t.getBlock b.getId = some b) ∧
      (∀ b ∈ missing.head?, t.getBlock b.getId = none) ∧
      t.walk (· = t.root.blockId) qc.getBlockId = (known, (missing.head?.map (·.getId)).getD t.root.blockId) := by
  have hsplit : chain = chain.takeWhile (fun b => (t.getBlock b.getId).isSome) ++
      chain.dropWhile fun b => (t.getBlock b.getId).isSome := (takeWhile_append_dropWhile).symm
  generalize hknown : chain.takeWhile (fun b => (t.getBlock b.getId).isSome) = known at hsplit
  generalize hmissing : chain.dropWhile (fun b => (t.getBlock b.getId).isSome) = missing at hsplit
  have hin : ∀ b ∈ known, t.getBlock b.getId = some b := by
    intro b hb
    rw [← hknown] at hb
    obtain ⟨b', hb'⟩ := Option.isSome_iff_exists.mp (all_eq_true.mp all_takeWhile b hb)
    rw [hb', ConsensusFullBlock.eq_of_getId (getBlock_keyed hb')]
  have hout : ∀ b ∈ missing.head?, t.getBlock b.getId = none := by
    intro b hb
    rw [← hmissing] at hb
    have := head?_dropWhile_not (fun b => (t.getBlock b.getId).isSome) chain
    rw [hb] at this
    simpa using this
  refine ⟨known, missing, hsplit, hin, hout, ?_⟩
  have hne : ∀ b ∈ chain, b.getId ≠ t.root.blockId := by
    intro b hb heq
    have := Linked.rank_mem (r := BlockId.rank) ConsensusFullBlock.rank_lt hpath hb
    rw [heq] at this
    exact Nat.lt_irrefl _ this
  rw [hsplit] at hpath
  obtain ⟨m, hto, hfrom⟩ := Linked.append_iff.mp hpath
  have hm : m = (missing.head?.map (·.getId)).getD t.root.blockId := by
    cases missing with
    | nil => exact Linked.nil_iff.mp hfrom
    | cons b missing => exact (Linked.cons_iff.mp hfrom).1
  rw [← hm]
  refine walk_of_path hto ?_ ?_
  · intro b hb
    refine ⟨decide_eq_false (hne b ?_), hin b hb⟩
    rw [hsplit]
    exact mem_append_left _ hb
  · cases missing with
    | nil => exact .inl (decide_eq_true (Linked.nil_iff.mp hfrom))
    | cons b missing =>
      right
      rw [(Linked.cons_iff.mp hfrom).1]
      exact hout b rfl

variable {b : ConsensusFullBlock} {known missing : List ConsensusFullBlock}

theorem seqNum_eq {seqNum : Nat} {rest : List ConsensusFullBlock}
    (hnext : (b :: rest).IsChain fun b p => b.header.seqNum = p.header.seqNum + 1)
    (hfirst : ∀ b' ∈ (b :: rest).getLast?, b'.header.seqNum = seqNum + 1) :
    b.header.seqNum = seqNum + rest.length + 1 := by
  induction rest generalizing b with
  | nil => exact hfirst b rfl
  | cons p rest ih =>
    obtain ⟨hb, hrest⟩ := isChain_cons_cons.mp hnext
    rw [hb, ih hrest (fun b' hb' => hfirst b' (by simpa [getLast?_cons_cons] using hb'))]
    simp only [length_cons]
    omega

theorem ChainToRoot.seqNum_eq
    (h : ChainToRoot t qc (known ++ b :: missing)) : b.header.seqNum = t.root.seqNum + missing.length + 1 := by
  refine BlockTree.seqNum_eq (h.next.right_of_append) ?_
  intro b' hb'
  refine h.first b' ?_
  rw [getLast?_append_of_ne_nil _ (by simp)]
  exact hb'

/-! ## The range -/

/-- What is missing between the root and the block of `qc`: the chain is known up to `known`,
and the first block of `missing` is not. -/
structure Gap (t : BlockTree) (chain known missing : List ConsensusFullBlock) : Prop where
  split : chain = known ++ missing
  known : ∀ b ∈ known, t.getBlock b.getId = some b
  unknown : ∀ b ∈ missing.head?, t.getBlock b.getId = none
  nonempty : missing ≠ []

/-- The range that is returned: it ends at the first unknown block. The number of blocks is the
difference of the sequence numbers of the last known block and the root, less one. -/
theorem maybeFillPathToRoot_some {range : BlockRange} (hpath : BlockPath qc.getBlockId chain t.root.blockId)
    (h : t.maybeFillPathToRoot qc = some range) :
    ∃ known missing, t.Gap chain known missing ∧ missing.head?.map (·.getId) = some range.lastBlockId ∧
      range.numBlocks = match known.getLast? with
        | none => 1
        | some vb => max (sub64 vb.header.seqNum t.root.seqNum) 2 - 1 := by
  obtain ⟨known, missing, hsplit, hknown, hunknown, hwalk⟩ := walk_chain (t := t) hpath
  unfold maybeFillPathToRoot at h
  split at h
  · cases h
  simp only [hwalk] at h
  split at h
  · cases h
  rename_i hroot
  obtain ⟨b, rest, rfl⟩ : ∃ b rest, missing = b :: rest := by
    cases missing with
    | nil => exact absurd rfl hroot
    | cons b rest => exact ⟨b, rest, rfl⟩
  refine ⟨known, b :: rest, ⟨hsplit, hknown, hunknown, by simp⟩, ?_, ?_⟩
  · cases hlast : known.getLast? with
    | none =>
      simp only [hlast] at h
      rw [← Option.some.inj h]
      rfl
    | some vb =>
      simp only [hlast] at h
      rw [← Option.some.inj h]
      rfl
  · cases hlast : known.getLast? with
    | none =>
      simp only [hlast] at h
      rw [← Option.some.inj h]
    | some vb =>
      simp only [hlast] at h
      rw [← Option.some.inj h]

/-- The sequence numbers of the known part are far enough above the root for the subtractions
to be exact. -/
theorem known_above (hchain : ChainToRoot t qc (known ++ missing))
    (hmissing : missing ≠ []) (hb : b ∈ known) : t.root.seqNum + 2 ≤ b.header.seqNum := by
  obtain ⟨l, l', rfl⟩ := append_of_mem hb
  rw [append_assoc, cons_append] at hchain
  have := hchain.seqNum_eq
  have := length_pos_iff.mpr hmissing
  simp only [length_append] at *
  omega

theorem last_known (hchain : ChainToRoot t qc (known ++ missing))
    {vb : ConsensusFullBlock} (hlast : known.getLast? = some vb) :
    vb.header.seqNum = t.root.seqNum + missing.length + 1 := by
  obtain ⟨l, rfl⟩ := getLast?_eq_some_iff.mp hlast
  rw [append_assoc, singleton_append] at hchain
  exact hchain.seqNum_eq

/-! ## Filling the gap -/

theorem root_addAll (t : BlockTree) (order : BlockId → List Nat) (blocks : List ConsensusFullBlock) :
    (blocks.foldl (fun t b => t.add order b) t).root = t.root := by
  induction blocks generalizing t with
  | nil => rfl
  | cons x blocks ih => exact (ih (t.add order x)).trans (root_add t order x)

/-- Adding blocks keeps what the tree has, and adds those that are newer than the root. -/
theorem getBlock_addAll {order : BlockId → List Nat} {blocks : List ConsensusFullBlock}
    (h : t.getBlock b.getId = some b ∨ b ∈ blocks ∧ t.root.round < b.header.blockRound) :
    (blocks.foldl (fun t b => t.add order b) t).getBlock b.getId = some b := by
  induction blocks generalizing t with
  | nil =>
    rcases h with h | ⟨hb, -⟩
    · exact h
    · cases hb
  | cons x blocks ih =>
    refine ih ?_
    rw [getBlock_add, root_add]
    rcases h with h | ⟨hb, habove⟩
    · left
      split_ifs with hid
      · rw [ConsensusFullBlock.eq_of_getId hid.1]
      · exact h
    · rcases mem_cons.mp hb with rfl | hb
      · exact .inl (if_pos ⟨rfl, habove⟩)
      · exact .inr ⟨hb, habove⟩

/-- A tree that has the whole chain asks for nothing. -/
theorem maybeFillPathToRoot_of_chain (hpath : BlockPath qc.getBlockId chain t.root.blockId)
    (hall : ∀ b ∈ chain, t.getBlock b.getId = some b) : t.maybeFillPathToRoot qc = none := by
  refine maybeFillPathToRoot_eq_none.mpr (.inr (.inr ?_))
  have hpath' : t.getBlocksOnPathFromRoot qc.getBlockId = some chain.reverse := by
    refine getBlocksOnPathFromRoot_eq_some.mpr ⟨by rwa [reverse_reverse], ?_⟩
    intro b hb
    exact hall b (mem_reverse.mp hb)
  rw [hpath']
  rfl

/-- `MaybeFillPathToRoot`, for a chain whose sequence numbers go up by one. It asks for nothing
exactly if the path is there or not wanted. Else it names the first unknown block of the chain,
and if the block of `qc` is known the number of blocks that are missing; when they have been
added it asks for nothing. -/
theorem missing_range (t : BlockTree) (qc : QuorumCertificate) :
    (t.maybeFillPathToRoot qc = none ↔ t.root.blockId = qc.getBlockId ∨ qc.getRound ≤ t.root.round ∨
      (t.getBlocksOnPathFromRoot qc.getBlockId).isSome) ∧
    ∀ chain, ChainToRoot t qc chain → ∀ range, t.maybeFillPathToRoot qc = some range → 0 < range.numBlocks ∧
      ∃ known missing, t.Gap chain known missing ∧ missing.head?.map (·.getId) = some range.lastBlockId ∧
        (∀ b ∈ known, t.root.seqNum + 2 ≤ b.header.seqNum) ∧
        ((t.getBlock qc.getBlockId).isNone → range.lastBlockId = qc.getBlockId ∧ range.numBlocks = 1) ∧
        ((t.getBlock qc.getBlockId).isSome → range.numBlocks = missing.length) ∧
        (∀ t' : BlockTree, t'.root = t.root → (∀ b ∈ known ++ missing, t'.getBlock b.getId = some b) →
          t'.maybeFillPathToRoot qc = none) ∧
        ∀ order (blocks : List ConsensusFullBlock), (∀ b ∈ missing, b ∈ blocks ∧ t.root.round < b.header.blockRound) →
          (blocks.foldl (fun t b => t.add order b) t).maybeFillPathToRoot qc = none := by
  refine ⟨maybeFillPathToRoot_eq_none, ?_⟩
  intro chain hchain range hrange
  obtain ⟨known, missing, hgap, hlast, hnum⟩ := maybeFillPathToRoot_some hchain.path hrange
  obtain ⟨rfl, hknown, hunknown, hne⟩ := hgap
  have habove : ∀ b ∈ known, t.root.seqNum + 2 ≤ b.header.seqNum := fun b hb => known_above hchain hne hb
  have hexact : ∀ vb, known.getLast? = some vb → range.numBlocks = missing.length := by
    intro vb hvb
    have hmem := List.mem_of_getLast? hvb
    have hseq := last_known hchain hvb
    have hpos := List.length_pos_iff.mpr hne
    rw [hvb] at hnum
    simp only at hnum
    rw [hnum, sub64_of_le (by omega) (hchain.fits vb (List.mem_append_left _ hmem))]
    omega
  refine ⟨?_, known, missing, ⟨rfl, hknown, hunknown, hne⟩, hlast, habove, ?_, ?_, ?_, ?_⟩
  · cases hk : known.getLast? with
    | none =>
      rw [hnum, hk]
      exact Nat.one_pos
    | some vb =>
      rw [hexact vb hk]
      exact List.length_pos_iff.mpr hne
  · intro hnone
    cases known with
    | nil =>
      refine ⟨?_, hnum⟩
      obtain ⟨b, rest, rfl⟩ := List.exists_cons_of_ne_nil hne
      rw [(Linked.cons_iff.mp hchain.path).1]
      exact (Option.some.inj hlast).symm
    | cons b known =>
      have hb := hknown b (.head _)
      rw [← (Linked.cons_iff.mp hchain.path).1] at hb
      rw [hb] at hnone
      cases hnone
  · intro hsome
    cases hk : known.getLast? with
    | none =>
      obtain rfl := List.getLast?_eq_none_iff.mp hk
      obtain ⟨b, rest, rfl⟩ := List.exists_cons_of_ne_nil hne
      have hb := hunknown b rfl
      rw [← (Linked.cons_iff.mp hchain.path).1] at hb
      rw [hb] at hsome
      cases hsome
    | some vb => exact hexact vb hk
  · intro t' hroot hall
    refine maybeFillPathToRoot_of_chain ?_ hall
    rw [hroot]
    exact hchain.path
  · intro order blocks hblocks
    have hpath : BlockPath qc.getBlockId (known ++ missing) (blocks.foldl (fun t b => t.add order b) t).root.blockId := by
      rw [root_addAll]
      exact hchain.path
    refine maybeFillPathToRoot_of_chain hpath ?_
    intro b hb
    refine getBlock_addAll ?_
    rcases List.mem_append.mp hb with hb | hb
    · exact .inl (hknown b hb)
    · exact .inr (hblocks b hb)

section Runs

open Scenario

theorem chain_three (hroot : t.root = genesisRoot) :
    ChainToRoot t (qcOf block3.header 3 [0, 1, 2]) [block3, block2, block1] := by
  refine ⟨?_, ?_, ?_, ?_⟩
  · rw [hroot]
    exact .cons block3 (.cons block2 (.cons block1 (.nil _)))
  · decide
  · rw [hroot]
    decide
  · decide

def tipOnly : BlockTree := (BlockTree.new genesisRoot).add (fun _ => []) block3

/-- With only the last of three blocks in the tree the other two are asked for, and then nothing. -/
theorem missing_range_two : ∃ range, tipOnly.maybeFillPathToRoot (qcOf block3.header 3 [0, 1, 2]) = some range ∧
    range.lastBlockId = block2.getId ∧ range.numBlocks = 2 ∧
    ([block1, block2].foldl (fun t b => t.add (fun _ => []) b) tipOnly).maybeFillPathToRoot
      (qcOf block3.header 3 [0, 1, 2]) = none := by
  have hcheck : (tipOnly.maybeFillPathToRoot (qcOf block3.header 3 [0, 1, 2])).map
      (fun r => (r.lastBlockId, r.numBlocks)) = some (block2.getId, 2) := by decide +kernel
  obtain ⟨range, hrange, hvalues⟩ := Option.map_eq_some_iff.mp hcheck
  obtain ⟨hlast, hnum⟩ := Prod.mk.inj hvalues
  obtain ⟨-, known, missing, hgap, -, -, -, hexact, -, hfill⟩ :=
    (missing_range tipOnly (qcOf block3.header 3 [0, 1, 2])).2 _ (chain_three rfl) range hrange
  refine ⟨range, hrange, hlast, hnum, hfill _ _ ?_⟩
  have hlen : missing.length = 2 := by
    rw [← hexact (by decide +kernel), hnum]
  have hmissing : missing = [block2, block1] := by
    have hdrop := congrArg (List.drop (known.length)) hgap.split
    rw [List.drop_left] at hdrop
    have hknown : known.length = 1 := by
      have := congrArg List.length hgap.split
      simp only [List.length_append, List.length_cons, List.length_nil] at this
      omega
    rw [← hdrop, hknown]
    rfl
  rw [hmissing]
  intro b hb
  rcases List.mem_cons.mp hb with rfl | hb
  · exact ⟨by simp, by decide⟩
  · obtain rfl := List.mem_singleton.mp hb
    exact ⟨by simp, by decide⟩

/-- The tree has the first of three blocks and not the other two. One block is asked for, not
three, and when it is there the next call asks for the other. -/
theorem unknown_tip_asks_one : ∃ chain range, ChainToRoot oneBlock (qcOf block3.header 3 [0, 1, 2]) chain ∧
    chain.length = 3 ∧ (∃ b ∈ chain, oneBlock.getBlock b.getId = some b) ∧
    oneBlock.maybeFillPathToRoot (qcOf block3.header 3 [0, 1, 2]) = some range ∧
    range.lastBlockId = block3.getId ∧ range.numBlocks = 1 ∧
    (oneBlock.add (fun _ => []) block3).maybeFillPathToRoot (qcOf block3.header 3 [0, 1, 2]) ≠ none := by
  have hcheck : (oneBlock.maybeFillPathToRoot (qcOf block3.header 3 [0, 1, 2])).map
      (fun r => (r.lastBlockId, r.numBlocks)) = some (block3.getId, 1) := by decide +kernel
  obtain ⟨range, hrange, hvalues⟩ := Option.map_eq_some_iff.mp hcheck
  obtain ⟨hlast, hnum⟩ := Prod.mk.inj hvalues
  have hnext : ((oneBlock.add (fun _ => []) block3).maybeFillPathToRoot (qcOf block3.header 3 [0, 1, 2])).isSome := by
    decide +kernel
  refine ⟨[block3, block2, block1], range, chain_three rfl, rfl, ⟨block1, by simp, ?_⟩, hrange, hlast, hnum, ?_⟩
  · decide +kernel
  · exact Option.isSome_iff_ne_none.mp hnext

end Runs

end BlockTree

end MonadBft
