/-
  MonadBft.BlockTree.Tree — the tree of pending blocks (`blocktree.BlockTree`).

  Entries are kept by block id, so that a tree whose entry sits under another id, or whose
  payload index names a body by another id, cannot be built. Parents are followed by id; since
  an id contains the id of the parent, such a walk is bounded by the length of the id it starts
  from (`walk`). The breadth-first searches go level by level, which is the order of
  their queue, and need no more levels than the tree has entries.

  Children are collected by ranging over a Go map: the order they come in is an argument of
  `insert`, by the id of the new block.
-/
import MonadBft.BlockTree.Policy
import MonadBft.Lib.Linked
import MonadBft.Lib.Machine

namespace MonadBft

open Lib

structure BlockTreeEntry where
  validatedBlock : ConsensusFullBlock
  isCoherent : Bool
  childrenBlocks : List BlockId
  deriving DecidableEq, Repr

structure BlockBodyIndex where
  body : ConsensusBlockBody
  activeBlocks : List BlockId
  deriving DecidableEq, Repr

structure BlockTree where
  root : RootInfo
  rootKids : List BlockId
  tree : AMap BlockId BlockTreeEntry
  payloads : AMap BodyId BlockBodyIndex
  keyed : ∀ {id e}, tree.get id = some e → e.validatedBlock.getId = id
  bodies : ∀ {pid idx}, payloads.get pid = some idx → idx.body.getId = pid

namespace BlockTree

def new (root : RootInfo) : BlockTree where
  root := root
  rootKids := []
  tree := AMap.empty
  payloads := AMap.empty
  keyed h := by simp at h
  bodies h := by simp at h

variable (t : BlockTree)

variable (id : BlockId)

def getBlock : Option ConsensusFullBlock :=
  (t.tree.get id).map (·.validatedBlock)

def getPayload (id : BodyId) : Option ConsensusBlockBody :=
  (t.payloads.get id).map (·.body)

def isCoherent (t : BlockTree) (b : BlockId) : Bool :=
  b = t.root.blockId || ((t.tree.get b).map (·.isCoherent)).getD false

def isValidToInsert (h : ConsensusBlockHeader) : Bool :=
  !t.tree.contains h.getId && t.root.round < h.blockRound

/-! ## Walks towards the root -/

def steps (b : BlockId) : Nat := b.bytes.length + 1

/-- The blocks from `b` on along the parents, newest first, as far as the tree has them and
`stop` does not end the walk, and the first id that was not followed. -/
def walk (stop : BlockId → Bool) (b : BlockId) : List ConsensusFullBlock × BlockId :=
  follow (fun id => if stop id then none else t.getBlock id) (·.getParentId) (steps b) b

/-- `GetBlocksOnPathFromRoot`, oldest first. -/
def getBlocksOnPathFromRoot (b : BlockId) : Option (List ConsensusFullBlock) :=
  let r := t.walk (· = t.root.blockId) b
  if r.2 = t.root.blockId then some r.1.reverse else none

/-- `GetParentBlockChain`, oldest first. -/
def getParentBlockChain (b : BlockId) : List ConsensusFullBlock :=
  (t.walk (fun _ => false) b).1.reverse

def getHighestCoherentBlockOnPathFromRoot (b : BlockId) : Option ConsensusFullBlock :=
  match t.getBlocksOnPathFromRoot b with
  | none => none
  | some path => path.reverse.find? fun vb => t.isCoherent vb.getId

variable (qc : QuorumCertificate) {payloads : AMap BodyId BlockBodyIndex} {idx : BlockBodyIndex} {p : BodyId}

def getSeqNumOfQc : Option Nat :=
  if qc.getBlockId = t.root.blockId then some t.root.seqNum
  else (t.getBlock qc.getBlockId).map (·.header.seqNum)

def getTimestampOfQc : Option Nat :=
  if qc.getBlockId = t.root.blockId then some t.root.timestampNs
  else (t.getBlock qc.getBlockId).map (·.header.timestampNs)

def getBlockRoundOfQc : Option Nat :=
  if qc.getBlockId = t.root.blockId then some t.root.round
  else (t.getBlock qc.getBlockId).map (·.header.blockRound)

omit t qc in
theorem filled_lt (m n : Nat) : max (sub64 m n) 2 - 1 < 2 ^ 64 := by
  have := sub64_lt m n
  omega

/-- `MaybeFillPathToRoot`: the range missing between the root and the block of `qc`. The number
of blocks is read off the last block that was found. -/
def maybeFillPathToRoot : Option BlockRange :=
  if qc.getRound ≤ t.root.round ∨ t.root.blockId = qc.getBlockId then none
  else
    let r := t.walk (· = t.root.blockId) qc.getBlockId
    if r.2 = t.root.blockId then none
    else
      match r.1.getLast? with
      | none => some ⟨r.2, 1, BlockRange.bound_one⟩
      | some vb => some ⟨r.2, max (sub64 vb.header.seqNum t.root.seqNum) 2 - 1, filled_lt _ _⟩

/-! ## Insertion and removal -/

/-- `delete(idx.activeBlocks, id)`, and the index itself once it is empty. -/
def unindex (payloads : AMap BodyId BlockBodyIndex) (pid : BodyId) (id : BlockId) : AMap BodyId BlockBodyIndex :=
  (payloads.modify pid fun idx => { idx with activeBlocks := idx.activeBlocks.filter (· ≠ id) }).filter
    fun p idx => p ≠ pid || !idx.activeBlocks.isEmpty

theorem unindex_bodies {pid : BodyId} {id : BlockId} (h : ∀ {p idx}, payloads.get p = some idx → idx.body.getId = p)
    (hg : (unindex payloads pid id).get p = some idx) : idx.body.getId = p := by
  rw [unindex, AMap.get_filter, Option.filter_eq_some_iff, AMap.get_modify] at hg
  have hg' := hg.1
  split_ifs at hg' with hp
  · obtain ⟨idx', hi, rfl⟩ := Option.map_eq_some_iff.mp hg'
    show idx'.body.getId = p
    rw [hp]
    exact h hi
  · exact h hg'

def remove : Option (BlockTreeEntry × BlockTree) :=
  match t.tree.get id with
  | none => none
  | some e => some (e, { t with
      tree := t.tree.erase id
      payloads := unindex t.payloads e.validatedBlock.header.blockBodyId id
      keyed := by
        intro id' e' h
        rw [AMap.get_erase] at h
        split_ifs at h
        exact t.keyed h
      bodies := unindex_bodies t.bodies })

def drop : BlockTree :=
  match t.remove id with
  | none => t
  | some r => r.2

def index (payloads : AMap BodyId BlockBodyIndex) (block : ConsensusFullBlock) : AMap BodyId BlockBodyIndex :=
  let pid := block.header.blockBodyId
  match payloads.get pid with
  | none => payloads.insert pid ⟨block.body, [block.getId]⟩
  | some idx => payloads.insert pid { idx with
      activeBlocks := if block.getId ∈ idx.activeBlocks then idx.activeBlocks
        else idx.activeBlocks ++ [block.getId] }

theorem index_bodies {block : ConsensusFullBlock} (h : ∀ {p idx}, payloads.get p = some idx → idx.body.getId = p)
    (hg : (index payloads block).get p = some idx) : idx.body.getId = p := by
  unfold index at hg
  simp only at hg
  split at hg
  · rw [AMap.get_insert] at hg
    split_ifs at hg with hp
    · obtain rfl := Option.some.inj hg
      rw [hp]
      exact block.bodyId
    · exact h hg
  · rename_i idx' hi
    rw [AMap.get_insert] at hg
    by_cases hp : p = block.header.blockBodyId
    · rw [if_pos hp] at hg
      rw [← Option.some.inj hg, hp]
      show idx'.body.getId = block.header.blockBodyId
      exact h hi
    · rw [if_neg hp] at hg
      exact h hg

def childrenOf : List BlockId :=
  (t.tree.entries.filter fun e => e.2.validatedBlock.getParentId = id).map Prod.fst

/-- `insert`: the new entry takes over its children, and its parent takes it on. -/
def insert (t : BlockTree) (order : BlockId → List Nat) (block : ConsensusFullBlock) : BlockTree :=
  let newId := block.getId
  let entry : BlockTreeEntry := ⟨block, false, shuffle (order newId) (t.childrenOf newId)⟩
  { t with
    tree := (t.tree.insert newId entry).modify block.getParentId fun pe =>
      { pe with childrenBlocks := pe.childrenBlocks ++ [newId] }
    payloads := index t.payloads block
    keyed := by
      intro id e h
      rw [AMap.get_modify] at h
      have hins : ∀ {id' e'}, (t.tree.insert newId entry).get id' = some e' → e'.validatedBlock.getId = id' := by
        intro id' e' h'
        rw [AMap.get_insert] at h'
        split_ifs at h' with hid
        · rw [hid, ← Option.some.inj h']
        · exact t.keyed h'
      split_ifs at h with hid
      · obtain ⟨e', he', rfl⟩ := Option.map_eq_some_iff.mp h
        show e'.validatedBlock.getId = id
        rw [hid]
        exact hins he'
      · exact hins h
    bodies := index_bodies t.bodies }

/-- `Add`: insert if not present and newer than the root. -/
def add (order : BlockId → List Nat) (block : ConsensusFullBlock) : BlockTree :=
  if t.isValidToInsert block.header then
    let t' := t.insert order block
    if block.getParentId = t.root.blockId then { t' with rootKids := t'.rootKids ++ [block.getId] }
    else t'
  else t

/-! ## Prune -/

/-- The loop of `Prune`: `e` has been removed; its ancestors up to the root are removed too, and
returned newest first. Each pass removes an entry, so there are at most as many as entries. -/
def pruneLoop : Nat → BlockTree → BlockTreeEntry → Except Panic (BlockTree × List ConsensusFullBlock)
  | n, t, e => do
    require e.isCoherent .incoherentOnCommitPath
    if e.validatedBlock.getParentId = t.root.blockId then pure (t, [e.validatedBlock])
    else
      match n, t.remove e.validatedBlock.getParentId with
      | n + 1, some (e', t') => do
        let r ← pruneLoop n t' e'
        pure (r.1, e.validatedBlock :: r.2)
      | _, _ => .error .pathToRootBroken

/-- The garbage collection of `Prune`: blocks whose QC is below the new root's round. -/
def collect (round : Nat) : BlockTree :=
  ((t.tree.entries.filter fun e => e.2.validatedBlock.header.qc.getRound < round).map Prod.fst).foldl
    drop t

/-- The root a committed block becomes. -/
def rootOf (b : ConsensusFullBlock) : RootInfo :=
  ⟨b.header.blockRound, b.header.seqNum, b.header.epoch, b.getId, b.header.timestampNs⟩

/-- `Prune`: commit the path to `newRoot`, oldest first. -/
def prune (newRoot : BlockId) : Except Panic (BlockTree × List ConsensusFullBlock) := do
  require (t.isCoherent newRoot) .pruneIncoherent
  if newRoot = t.root.blockId then pure (t, [])
  else
    match t.remove newRoot with
    | none => .error .newRootNotInTree
    | some (e, t') => do
      let r ← pruneLoop t.tree.entries.length t' e
      let t'' := r.1.collect e.validatedBlock.header.blockRound
      pure ({ t'' with root := rootOf e.validatedBlock, rootKids := e.childrenBlocks }, r.2.reverse)

/-! ## Coherency -/

/-- What the queue of `TryUpdateCoherency` does with one id: the block if it is coherent, and its
children. -/
def checkNext (policy : BlockPolicy) (sr : StateRead) (nextId : BlockId) :
    Except Panic (Option (ConsensusFullBlock × List BlockId)) :=
  match t.getBlocksOnPathFromRoot nextId with
  | none => .ok none
  | some path =>
    match path.getLast? with
    | none => .error .emptyExtendingPath
    | some nextBlock => do
      let r ← policy.checkCoherency nextBlock path.dropLast t.root sr
      match r with
      | .ok () => pure (some (nextBlock, ((t.tree.get nextId).map (·.childrenBlocks)).getD []))
      | .error _ => pure none

/-- The queue of `TryUpdateCoherency`, one level of the tree at a time. -/
def coherencyLevels (t : BlockTree) (policy : BlockPolicy) (sr : StateRead) :
    Nat → List BlockId → Except Panic (List ConsensusFullBlock)
  | _, [] => .ok []
  | 0, _ => .ok []
  | n + 1, level => do
    let passed ← level.mapM (t.checkNext policy sr)
    let passed := passed.reduceOption
    let rest ← t.coherencyLevels policy sr n (passed.flatMap (·.2))
    pure (passed.map (·.1) ++ rest)

def setCoherent : BlockTree :=
  { t with
    tree := t.tree.modify id fun e => { e with isCoherent := true }
    keyed := by
      intro id' e h
      rw [AMap.get_modify] at h
      split_ifs at h with hid
      · obtain ⟨e', he', rfl⟩ := Option.map_eq_some_iff.mp h
        show e'.validatedBlock.getId = id'
        rw [hid]
        exact t.keyed he'
      · exact t.keyed h }

/-- `TryUpdateCoherency`: the blocks that became coherent, in the order of the queue. Whether a
block passes does not depend on the flags, so they are set at the end. -/
def tryUpdateCoherency (policy : BlockPolicy) (sr : StateRead) (blockId : BlockId) :
    Except Panic (BlockTree × List ConsensusFullBlock) :=
  match t.getBlocksOnPathFromRoot blockId with
  | none => .ok (t, [])
  | some path =>
    match path.find? fun b => !((t.tree.get b.getId).map (·.isCoherent)).getD false with
    | none => .ok (t, [])
    | some incoherent => do
      let out ← t.coherencyLevels policy sr (t.tree.entries.length + 1) [incoherent.getId]
      pure (out.foldl (fun t b => t.setCoherent b.getId) t, out)

/-! ## Searches -/

/-- The ids a queue started with `level` visits, in order. -/
def visit (next : BlockId → List BlockId) : Nat → List BlockId → List BlockId
  | _, [] => []
  | 0, _ => []
  | n + 1, level => level ++ visit next n (level.flatMap next)

def children : List BlockId :=
  ((t.tree.get id).map (·.childrenBlocks)).getD []

/-- Whether the QC in a block commits a coherent block other than the root. -/
def committable : Bool :=
  match t.getBlock qc.getBlockId with
  | none => false
  | some parent =>
    match qc.getCommittableIdForHeader parent.header with
    | some (some cid) => cid ≠ t.root.blockId && t.isCoherent cid
    | _ => false

def getHighCommittableQc : Option QuorumCertificate :=
  (visit t.children (t.tree.entries.length + 1) t.rootKids).foldl (fun high bid =>
    match t.getBlock bid with
    | none => high
    | some b =>
      if (high.any fun h => b.header.qc.getRound ≤ h.getRound) || !t.committable b.header.qc then high
      else some b.header.qc) none

def coherentChildren : List BlockId :=
  (if id = t.root.blockId then t.rootKids else t.children id).filter fun c =>
    t.isCoherent c && t.tree.contains c

def roundOf : Option Nat :=
  if id = t.root.blockId then some t.root.round else (t.getBlock id).map (·.header.blockRound)

def highestRoundCoherentDescendant (blockId : BlockId) : BlockId :=
  match t.roundOf blockId with
  | none => blockId
  | some round =>
    ((visit t.coherentChildren (t.tree.entries.length + 2) [blockId]).tail.foldl (fun best c =>
      match t.getBlock c with
      | none => best
      | some b => if best.2 < b.header.blockRound then (c, b.header.blockRound) else best)
      (blockId, round)).1

def getCanonicalCoherentTip (highCertQc : QuorumCertificate) : BlockId :=
  match t.getBlocksOnPathFromRoot highCertQc.getBlockId with
  | none => t.highestRoundCoherentDescendant t.root.blockId
  | some path =>
    match path.reverse.find? fun b => t.isCoherent b.getId with
    | none => t.root.blockId
    | some b =>
      if b.getId = highCertQc.getBlockId then t.highestRoundCoherentDescendant b.getId else b.getId

end BlockTree

end MonadBft
