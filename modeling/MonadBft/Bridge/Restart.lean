/-
  MonadBft.Bridge.Restart — from the stores to a running ledger (`App.AttachStore`,
  `Ledger.AttachBlockStore`, `reconcileStoreTip`).

  Four stores are written one after the other, so a crash can leave each of them ahead of or
  behind the others: the blocks and the finalized index, the results with the validator
  sets, the versions of the application, and the forkpoint, whose root is where consensus
  resumes. `Ledger.disk` is what a crash leaves, `restart` what the next start makes of it.
-/
import MonadBft.Bridge.Ledger

namespace MonadBft.Bridge

open Lib

variable {σ : Type}

structure Disk (σ : Type) where
  /-- the block store -/
  blocks : List Block
  /-- the finalized index, in ascending order -/
  fin : List (Nat × BlockId)
  /-- the rows of the result store, its tip and its current set -/
  rows : HeightMap ResultEntry
  height : Nat
  valSet : Option CmtValidatorSet
  changes : List (Nat × CmtValidatorSet)
  /-- the versions of the application, newest first -/
  store : List σ
  /-- the root of the forkpoint, if there is one -/
  root : Option BlockId

/-- What a crash leaves of a running node. The finalized index and the forkpoint are written after
the rest, so they are arguments. -/
def Ledger.disk (l : Ledger σ) (fin : List (Nat × BlockId)) (root : Option BlockId) : Disk σ where
  blocks := l.blocks
  fin := fin
  rows := l.app.results
  height := l.app.height
  valSet := some l.app.appSet
  changes := l.app.changes
  store := l.app.store
  root := root

namespace Disk

def getBlock (d : Disk σ) (id : BlockId) : Option Block := d.blocks.find? (·.getId = id)

def finalizedTip (d : Disk σ) : Nat := (d.fin.getLast?.map (·.1)).getD 0

def finalizedSince (d : Disk σ) (floor : Nat) : List Block :=
  (d.fin.filter (floor ≤ ·.1)).filterMap fun r => d.getBlock r.2

end Disk

/-- The first height of the window that is kept in memory. -/
def windowStart (retain tip : Nat) : Nat := if 0 < retain ∧ retain < tip then tip - retain + 1 else 0

/-- The replay of the validator updates over the window: the last set and the sets by height. -/
def replaySets (e : Setup σ) (rows : HeightMap ResultEntry) :
    Nat → Nat → CmtValidatorSet → HeightMap CmtValidatorSet → Option (CmtValidatorSet × HeightMap CmtValidatorSet)
  | 0, _, cur, sets => some (cur, sets)
  | n + 1, h, cur, sets => do
    let next ← match rows h with
      | some en => if en.response.updates ≠ [] then e.abci.updateWithChangeSet cur en.response.updates else some cur
      | none => some cur
    replaySets e rows n (h + 1) next (sets.set h next)

variable (e : Setup σ)

variable (d : Disk σ)

/-- `AttachStore`; `none` is an error. -/
def attachStore : Option (App σ) :=
  let start := windowStart e.retain d.height
  let base := if 1 < start then ((d.changes.find? (·.1 ≤ start - 1)).map (·.2)).getD e.genesisSet else e.genesisSet
  let genesis : HeightMap CmtValidatorSet := HeightMap.set (fun _ => none) 0 e.genesisSet
  let sets := if 0 < start then genesis.set (start - 1) base else genesis
  let lo := max start 1
  (replaySets e d.rows (d.height + 1 - lo) lo base sets).map fun r =>
    { store := d.store
      height := d.height
      results := d.rows.keep (start ≤ ·)
      valSets := r.2
      lastValSet := r.1
      appSet := d.valSet.getD e.genesisSet
      changes := d.changes }

def App.truncateIndex (a : App σ) (tip : Nat) : App σ :=
  { a with
    results := a.results.keep (· ≤ tip)
    valSets := a.valSets.keep fun h => h ≤ tip || (a.results h).isNone
    height := tip }

def App.fillValSetGap (a : App σ) (h : Nat) : App σ := { a with valSets := a.valSets.set h a.lastValSet }

def markAll (m : HeightMap Block) (bs : List Block) : HeightMap Block :=
  bs.foldl (fun m b => m.set b.getSeqNum b) m

/-- The winners that the result index names, among the last heights. -/
def winners (a : App σ) : List Block :=
  ((List.range (a.height + 1)).filter (max 1 (a.height - 64) ≤ ·)).filterMap fun h =>
    ((a.results h).or (d.rows h)).bind fun en => d.getBlock en.blockID

/-- The walk from the forkpoint's root down to the index tip, newest first. A block's id is longer
than its parent's, which bounds the walk. -/
def collectGap (getBlock : BlockId → Option Block) (tip : Nat) : Nat → BlockId → List Block
  | 0, _ => []
  | fuel + 1, id =>
    match getBlock id with
    | none => []
    | some b => if b.getSeqNum ≤ tip then [] else b :: collectGap getBlock tip fuel b.getParentId

/-- An entry for a commit whose result was lost: the hash of the store's version, and nothing was
asked. -/
def lostEntry (storeAppHash : Nat → Nat) (b : Block) : ResultEntry :=
  ⟨b.getId, finalizeRequest e b none none, ⟨storeAppHash b.getSeqNum, []⟩⟩

/-- The backfill of one block of the gap. -/
def backfill (storeAppHash : Nat → Nat) (a : App σ) (b : Block) : App σ :=
  (a.recordCommit e.retain b.getSeqNum (lostEntry e storeAppHash b)).fillValSetGap b.getSeqNum

def SpecApp.resetToHeight (h : Nat) (tipID : BlockId) : SpecApp :=
  ⟨h, tipID, AMap.empty, AMap.empty, AMap.empty, []⟩

/-- The number of the forkpoint's root; the index tip stands in for a root that is not known. -/
def rootSeqOf (a : App σ) : Nat := ((d.root.bind d.getBlock).map (·.getSeqNum)).getD a.height

/-- `reconcileStoreTip` up to the backfill: the index is cut and the store rolled back to the root. -/
def cutToRoot (a : App σ) : App σ :=
  let rootSeq := rootSeqOf d a
  let a := if rootSeq < a.height then a.truncateIndex rootSeq else a
  if rootSeq < a.storeTip ∧ 0 < rootSeq then a.rollbackTo rootSeq else a

/-- The gap to fill, oldest first; none if the root itself is not there. -/
def gapOf (a : App σ) : List Block :=
  if rootSeqOf d a ≤ (cutToRoot d a).height then []
  else
    match d.root with
    | none => []
    | some id => (collectGap d.getBlock (cutToRoot d a).height (id.bytes.length + 1) id).reverse

/-- The committed map of a start, before the backfill. -/
def marksOf (a : App σ) : HeightMap Block :=
  markAll (markAll (fun _ => none) (d.finalizedSince (windowStart e.retain d.finalizedTip))) (winners d a)

/-- `AttachStore` and `AttachBlockStore`. `chain` is the chain up to the forkpoint's root, where
consensus resumes. -/
def restart (storeAppHash : Nat → Nat) (d : Disk σ) (chain : List Block) : Option (Ledger σ) :=
  (attachStore e d).map fun a =>
    { app := (gapOf d a).foldl (backfill e storeAppHash) (cutToRoot d a)
      spec := if 0 < rootSeqOf d a then .resetToHeight (rootSeqOf d a) (d.root.getD GENESIS_BLOCK_ID) else .init
      blocks := d.blocks
      committed := markAll (marksOf e d a) (gapOf d a)
      pendingSpec := []
      specInFlight := []
      commitQ := []
      worker := .idle
      drain := none
      specDone := none
      notifications := []
      storeClosed := false
      finalized := chain
      emitted := [] }

end MonadBft.Bridge
