/-
  MonadBft.BlockTree.Connected — whether coherent blocks stay connected to the root
  (`blocktree.BlockTree`; `tryPropose` panics on a coherent block without a path).

  The flag of a block is never cleared. `Add` and `TryUpdateCoherency` keep every coherent block
  on a coherent parent or the root; `Prune` does so exactly if every coherent block that the
  garbage collection spares descends from the new root (`Connected.prune_iff`): a block is
  spared by the round of its QC, and on a fork its parent need not be. A quorum that certifies
  a fork at or above the round of a committed block is what consensus safety excludes; where
  no such fork is in the tree when it is pruned, coherent blocks have their path to the root
  (`coherent_connected`). `spared_fork_cut_off` is a run with such a fork.
-/
import MonadBft.BlockTree.Coherency

namespace MonadBft

open Lib

namespace BlockTree

variable {U : ConsensusFullBlock → Prop} {t t' : BlockTree} {root : RootInfo} {id newRoot : BlockId}
  {e : BlockTreeEntry} {b vb : ConsensusFullBlock}

/-- Every coherent block is on the root or on a coherent block. -/
def Connected (t : BlockTree) : Prop := ∀ vb, t.CoherentEntry vb → t.isCoherent vb.getParentId = true

/-- The coherent blocks whose QC is from the round of `newRoot` or later descend from it. -/
def Unforked (t : BlockTree) (newRoot : BlockId) : Prop :=
  ∀ r, t.getBlock newRoot = some r → ∀ vb, t.CoherentEntry vb → r.header.blockRound ≤ vb.header.qc.getRound →
    t.Descendant newRoot vb.getId

inductive ReachUnforked (U : ConsensusFullBlock → Prop) (root : RootInfo) : BlockTree → Prop
  | new : ReachUnforked U root (new root)
  | add {t : BlockTree} (order : BlockId → List Nat) {block : ConsensusFullBlock} :
      ReachUnforked U root t → U block → ReachUnforked U root (t.add order block)
  | tryUpdateCoherency {t t' : BlockTree} {policy : BlockPolicy} {sr : StateRead} {id : BlockId}
      {out : List ConsensusFullBlock} :
      ReachUnforked U root t → t.tryUpdateCoherency policy sr id = .ok (t', out) → ReachUnforked U root t'
  | prune {t t' : BlockTree} {newRoot : BlockId} {commit : List ConsensusFullBlock} :
      ReachUnforked U root t → t.Unforked newRoot → t.prune newRoot = .ok (t', commit) → ReachUnforked U root t'

theorem ReachUnforked.reach (h : ReachUnforked U root t) : Reach U root t := by
  induction h with
  | new => exact .new
  | add order _ hU ih => exact ih.add order hU
  | tryUpdateCoherency _ ht ih => exact ih.tryUpdateCoherency ht
  | prune _ _ ht ih => exact ih.prune ht

/-- A coherent block of a connected tree has its path to the root. -/
theorem Connected.path (h : t.Connected) (hc : t.isCoherent id = true) : (t.getBlocksOnPathFromRoot id).isSome := by
  -- by induction on the size of the id, which falls from a block to its parent
  generalize hn : id.rank = n
  induction n using Nat.strong_induction_on generalizing id with
  | _ n ih =>
    by_cases hroot : id = t.root.blockId
    · rw [hroot, getBlocksOnPathFromRoot_root]
      rfl
    · obtain ⟨e, he, hcoh⟩ := (isCoherent_iff.mp hc).resolve_left hroot
      obtain rfl := t.keyed he
      have hparent := h e.validatedBlock ⟨e, he, rfl, hcoh⟩
      have hlt := e.validatedBlock.rank_lt
      obtain ⟨path, hpath⟩ := Option.isSome_iff_exists.mp (ih _ (by omega) hparent rfl)
      have hget : t.getBlock e.validatedBlock.getId = some e.validatedBlock := by simp [getBlock, he]
      rw [(getBlocksOnPathFromRoot_snoc hroot hget).mpr ⟨path, hpath, rfl⟩]
      rfl

/-! ## The operations -/

theorem Connected.add (h : t.Connected) (order : BlockId → List Nat) : (t.add order b).Connected := by
  intro vb hvb
  exact isCoherent_add order (h vb ((coherentEntry_add order).mp hvb))

theorem Connected.tryUpdateCoherency {policy : BlockPolicy} {sr : StateRead} {out : List ConsensusFullBlock}
    (hi : Inv U t) (h : t.Connected) (ht : t.tryUpdateCoherency policy sr id = .ok (t', out)) : t'.Connected := by
  obtain rfl := tryUpdateCoherency_ok ht
  intro vb hvb
  rcases coherentEntry_mark out hvb with hold | hnew
  · exact isCoherent_mark out (.inl (h vb hold))
  · exact isCoherent_mark out (marked_parent hi ht hnew)

section Prune

variable {path : List ConsensusFullBlock} (hU : RoundsGrow U) (h : Inv U t)
  (he : t.tree.get newRoot = some e) (hpath : BlockPath newRoot path t.root.blockId)
  (hmem : ∀ vb ∈ path, t.getBlock vb.getId = some vb)
include hU h he hpath hmem

theorem coherentEntry_committed : (t.committed e path).CoherentEntry vb ↔
    t.CoherentEntry vb ∧ e.validatedBlock.header.blockRound ≤ vb.header.qc.getRound := by
  unfold CoherentEntry
  rw [get_committed_eq hU h he hpath hmem]
  simp only [Option.filter_eq_some_iff, decide_eq_true_eq]
  constructor
  · rintro ⟨e', ⟨hget, hle⟩, rfl, hcoh⟩
    exact ⟨⟨e', hget, rfl, hcoh⟩, hle⟩
  · rintro ⟨⟨e', hget, rfl, hcoh⟩, hle⟩
    exact ⟨e', ⟨hget, hle⟩, rfl, hcoh⟩

/-- A spared block whose ancestors are spared and coherent leads to the new root. -/
theorem descendant_of_connected (hconn : (t.committed e path).Connected)
    (hvb : (t.committed e path).CoherentEntry vb) : t.Descendant newRoot vb.getId := by
  have hid : e.validatedBlock.getId = newRoot := t.keyed he
  generalize hn : vb.getId.rank = n
  induction n using Nat.strong_induction_on generalizing vb with
  | _ n ih =>
    have hget := ((coherentEntry_committed hU h he hpath hmem).mp hvb).1.getBlock
    rcases isCoherent_iff.mp (hconn vb hvb) with hroot | ⟨p, hp, hcoh⟩
    · have hparent : vb.getParentId = newRoot := hroot.trans hid
      refine ⟨[vb], by simp, Linked.cons vb (by rw [hparent]; exact Linked.nil _), ?_⟩
      intro x hx
      obtain rfl := List.mem_singleton.mp hx
      exact hget
    · have hpid : p.validatedBlock.getId = vb.getParentId := (t.committed e path).keyed hp
      have hlt := vb.rank_lt
      rw [← hpid] at hp hlt
      obtain ⟨l, -, hl, hlmem⟩ := ih _ (by omega) ⟨p, hp, rfl, hcoh⟩ rfl
      refine ⟨vb :: l, by simp, Linked.cons vb (by rw [← hpid]; exact hl), ?_⟩
      exact List.forall_mem_cons.mpr ⟨hget, hlmem⟩

theorem connected_of_descendants (hconn : t.Connected) (hun : t.Unforked newRoot) : (t.committed e path).Connected := by
  have hid : e.validatedBlock.getId = newRoot := t.keyed he
  have hroot : t.getBlock newRoot = some e.validatedBlock := by simp [getBlock, he]
  intro vb hvb
  obtain ⟨hold, hle⟩ := (coherentEntry_committed hU h he hpath hmem).mp hvb
  obtain ⟨l, hne, hl, hlmem⟩ := hun _ hroot vb hold hle
  obtain ⟨x, rest, rfl⟩ := List.exists_cons_of_ne_nil hne
  obtain ⟨hx, hrest⟩ := Linked.cons_iff.mp hl
  obtain rfl := ConsensusFullBlock.eq_of_getId hx
  cases rest with
  | nil =>
    rw [isCoherent_iff]
    exact .inl ((Linked.nil_iff.mp hrest).trans hid.symm)
  | cons p rest =>
    -- the parent descends from the new root too, so it stays as it was
    have hpmem : ∀ b ∈ p :: rest, t.getBlock b.getId = some b := fun b hb => hlmem b (.tail vb hb)
    have hkept := descendant_kept hU h he hpath hmem ⟨p :: rest, by simp, hrest, hpmem⟩
    rcases isCoherent_iff.mp (hconn vb hold) with hold' | ⟨e', he', hcoh⟩
    · exfalso
      have hr := Linked.rank_le (r := BlockId.rank) ConsensusFullBlock.rank_lt hrest
      have hr' := Linked.rank_le (r := BlockId.rank) ConsensusFullBlock.rank_lt hpath
      rw [hold', List.length_cons] at hr
      omega
    · rw [isCoherent_iff, hkept]
      exact .inr ⟨e', he', hcoh⟩

end Prune

/-- `Prune` keeps the tree connected exactly if what it spares descends from the new root. -/
theorem Connected.prune_iff (hU : RoundsGrow U) (hi : Inv U t) (h : t.Connected) {commit : List ConsensusFullBlock}
    (hne : newRoot ≠ t.root.blockId) (ht : t.prune newRoot = .ok (t', commit)) : t'.Connected ↔ t.Unforked newRoot := by
  obtain ⟨e, path, he, hpath, hmem, -, rfl⟩ := (prune_eq_ok hne).mp ht
  have hmem' : ∀ vb ∈ path, t.getBlock vb.getId = some vb := fun vb hvb => (hmem vb hvb).getBlock
  constructor
  · intro hconn r hr vb hvb hle
    obtain rfl : e.validatedBlock = r := by simpa [getBlock, he] using hr
    exact descendant_of_connected hU hi he hpath hmem' hconn
      ((coherentEntry_committed hU hi he hpath hmem').mpr ⟨hvb, hle⟩)
  · intro hun
    exact connected_of_descendants hU hi he hpath hmem' h hun

theorem reach_connected (hU : RoundsGrow U) (h : ReachUnforked U root t) : t.Connected := by
  induction h with
  | new =>
    intro vb hvb
    obtain ⟨e, he, -⟩ := hvb
    cases he
  | add order _ _ ih => exact ih.add order
  | tryUpdateCoherency hr ht ih => exact ih.tryUpdateCoherency (reach_inv hU hr.reach) ht
  | @prune t t' newRoot commit hr hun ht ih =>
    by_cases hroot : newRoot = t.root.blockId
    · rw [hroot, prune_root] at ht
      obtain ⟨rfl, -⟩ := Prod.mk.inj (Except.ok.inj ht)
      exact ih
    · exact (ih.prune_iff hU (reach_inv hU hr.reach) hroot ht).mpr hun

/-- Coherent blocks stay connected to the root while no certified fork is left at a `Prune`; and
the first `Prune` that leaves one disconnects a block. -/
theorem coherent_connected (hU : RoundsGrow U) (h : ReachUnforked U root t) :
    (∀ vb, t.CoherentEntry vb → t.isCoherent vb.getParentId = true) ∧
    (∀ id, t.isCoherent id = true → t.getBlocksOnPathFromRoot id ≠ none) ∧
    ∀ newRoot t' commit, newRoot ≠ t.root.blockId → t.prune newRoot = .ok (t', commit) →
      ((∀ vb, t'.CoherentEntry vb → t'.isCoherent vb.getParentId = true) ↔ t.Unforked newRoot) := by
  have hconn := reach_connected hU h
  refine ⟨hconn, ?_, ?_⟩
  · intro id hc
    exact Option.isSome_iff_ne_none.mp (hconn.path hc)
  · intro newRoot t' commit hne ht
    exact hconn.prune_iff hU (reach_inv hU h.reach) hne ht

section Runs

open Scenario

/-- Both blocks are found coherent, then the first is committed. -/
def twoBlocksPruned : Except Panic (BlockTree × BlockTree) := do
  let (t, _) ← twoBlocks.tryUpdateCoherency passthru liveEnv.stateRead block2.getId
  let (t', _) ← t.prune block1.getId
  return (t, t')

theorem unforked_block1 (hi : Inv firstTwo t) : t.Unforked block1.getId := by
  intro r hr vb hvb hle
  obtain rfl : r = block1 := ConsensusFullBlock.eq_of_getId (getBlock_keyed hr)
  have hmem : vb ∈ [block1, block2] := hi.added hvb.getBlock
  rcases List.mem_cons.mp hmem with rfl | hmem
  · exact absurd hle (by decide)
  · obtain rfl := List.mem_singleton.mp hmem
    refine ⟨[block2], by simp, Linked.cons block2 (Linked.nil _), ?_⟩
    intro b hb
    obtain rfl := List.mem_singleton.mp hb
    exact hvb.getBlock

theorem coherent_connected_twoBlocks : ∃ t : BlockTree, ReachUnforked firstTwo genesisRoot t ∧
    t.root.blockId = block1.getId ∧ t.isCoherent block2.getId = true ∧
    t.getBlocksOnPathFromRoot block2.getId ≠ none := by
  have hcheck : (match twoBlocksPruned with
    | .ok (_, t') => decide (t'.root.blockId = block1.getId) && t'.isCoherent block2.getId
    | .error _ => false) = true := by decide +kernel
  cases hrun : twoBlocksPruned with
  | error p =>
    rw [hrun] at hcheck
    cases hcheck
  | ok r =>
    obtain ⟨t, t'⟩ := r
    rw [hrun] at hcheck
    simp only [Bool.and_eq_true, decide_eq_true_eq] at hcheck
    obtain ⟨⟨t₁, out⟩, h₁, hrun⟩ := bind_eq_ok.mp hrun
    obtain ⟨⟨t₂, commit⟩, h₂, hrun⟩ := bind_eq_ok.mp hrun
    obtain ⟨rfl, rfl⟩ := Prod.mk.inj (pure_eq_ok.mp hrun)
    have hstart : ReachUnforked firstTwo genesisRoot t₁ :=
      .tryUpdateCoherency (.add _ (.add _ .new (by simp [firstTwo])) (by simp [firstTwo])) h₁
    have hreach : ReachUnforked firstTwo genesisRoot t₂ :=
      .prune hstart (unforked_block1 (reach_inv roundsGrow_firstTwo hstart.reach)) h₂
    exact ⟨t₂, hreach, hcheck.1, hcheck.2, (coherent_connected roundsGrow_firstTwo hreach).2.1 _ hcheck.2⟩

/-- A fork of the first block after genesis, in the next round, and a block on it. -/
def fork : ConsensusFullBlock := blockOf 2 GenesisQC 1

def forkChild : ConsensusFullBlock := blockOf 3 (qcOf fork.header 2 [0, 1, 2]) 2

def forked : BlockTree := (oneBlock.add (fun _ => []) fork).add (fun _ => []) forkChild

/-- Block 1, the fork and the block on the fork are all found coherent; then block 1 is committed. -/
def forkedPruned : Except Panic BlockTree := do
  let (t, _) ← forked.tryUpdateCoherency passthru liveEnv.stateRead block1.getId
  let (t, _) ← t.tryUpdateCoherency passthru liveEnv.stateRead fork.getId
  let (t, _) ← t.prune block1.getId
  return t

def theForked (b : ConsensusFullBlock) : Prop := b ∈ [block1, fork, forkChild]

theorem roundsGrow_theForked : RoundsGrow theForked := by
  unfold RoundsGrow theForked
  decide +kernel

theorem reach_forkedPruned (h : forkedPruned = .ok t) : Reach theForked genesisRoot t := by
  obtain ⟨⟨t₁, out₁⟩, h₁, h⟩ := bind_eq_ok.mp h
  obtain ⟨⟨t₂, out₂⟩, h₂, h⟩ := bind_eq_ok.mp h
  obtain ⟨⟨t₃, commit⟩, h₃, h⟩ := bind_eq_ok.mp h
  obtain rfl : t₃ = t := pure_eq_ok.mp h
  have hforked : Reach theForked genesisRoot forked :=
    .add _ (.add _ (.add _ .new (by simp [theForked])) (by simp [theForked])) (by simp [theForked])
  exact .prune (.tryUpdateCoherency (.tryUpdateCoherency hforked h₁) h₂) h₃

/-- The fork goes with its QC below the round of block 1, the block on it stays, coherent and
without a path to the root. -/
theorem spared_fork_cut_off : ∃ t : BlockTree, RoundsGrow theForked ∧ Reach theForked genesisRoot t ∧
    t.isCoherent forkChild.getId = true ∧ t.isCoherent forkChild.getParentId = false ∧
    t.getBlocksOnPathFromRoot forkChild.getId = none := by
  have hcheck : (match forkedPruned with
    | .ok t => t.isCoherent forkChild.getId && !t.isCoherent forkChild.getParentId &&
        (t.getBlocksOnPathFromRoot forkChild.getId).isNone
    | .error _ => false) = true := by decide +kernel
  cases hrun : forkedPruned with
  | error p =>
    rw [hrun] at hcheck
    cases hcheck
  | ok t =>
    rw [hrun] at hcheck
    simp only [Bool.and_eq_true, Bool.not_eq_true', Option.isNone_iff_eq_none] at hcheck
    obtain ⟨⟨hcoh, hparent⟩, hpath⟩ := hcheck
    exact ⟨t, roundsGrow_theForked, reach_forkedPruned hrun, hcoh, hparent, hpath⟩

end Runs

end BlockTree

end MonadBft
