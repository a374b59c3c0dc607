/-
  MonadBft.Panic — the panics of the consensus packages.

  Fallible code returns `Except Panic`; the state at the panic is lost with the process,
  so nothing else is returned.
-/
import MonadBft.Validator

namespace MonadBft

/-- One constructor for each `panic(...)` of `consensus`, `consensusstate`, `blocktree`,
`cstypes` and `validator` that a handler can reach. -/
inductive Panic where
  /-- `safety: unsafe vote` -/
  | unsafeVote
  /-- `safety: unsafe no-endorse` -/
  | unsafeNoEndorse
  /-- `safety: timeout round < highest_vote` -/
  | timeoutBelowHighestVote
  /-- `safety: unsafe propose` -/
  | unsafePropose
  /-- `safety: unsafe recovery request` -/
  | unsafeRecoveryRequest
  /-- `safety: proposal already handled` -/
  | proposalAlreadyHandled
  /-- `pacemaker: init round must exist in epoch manager` -/
  | initRoundMissing
  /-- `pacemaker: epoch must exist for higher round` -/
  | epochMissing
  /-- `pacemaker: timeout round != current round` -/
  | timeoutRoundNotCurrent
  /-- `pacemaker: has_honest_vote` -/
  | hasHonestVote
  /-- `pacemaker: has_super_majority_votes` -/
  | hasSuperMajorityVotes
  /-- `pacemaker: phase must reset after certificate` -/
  | phaseMustReset
  /-- `pacemaker: unexpected TC creation error: ` and the error -/
  | tcCreation (err : SigColErr)
  /-- `conflicting epoch start round` -/
  | conflictingEpochStart (epoch existing round : Nat)
  /-- `validator: validator set mismatch on re-insert` -/
  | validatorSetMismatch (epoch : Nat)
  /-- `cstypes: qc doesn't point to parent block` -/
  | qcNotOnParent
  /-- `blocktree: queried recently committed block that doesn't exist` -/
  | committedBlockMissing (base lastCommit : Nat)
  /-- `blocktree: committed seq does not follow` -/
  | commitSeqGap (seq lastCommit : Nat)
  /-- `blocktree: prune on incoherent block` -/
  | pruneIncoherent
  /-- `blocktree: new root not in tree` -/
  | newRootNotInTree
  /-- `blocktree: incoherent block on commit path` -/
  | incoherentOnCommitPath
  /-- `blocktree: path to root broken` -/
  | pathToRootBroken
  /-- index out of range in `TryUpdateCoherency`, on the empty path of the root -/
  | emptyExtendingPath
  /-- `consensusstate: empty block range` -/
  | emptyBlockRange
  /-- `consensusstate: epoch verified` -/
  | epochVerified
  /-- `consensusstate: <kind> message was verified` -/
  | messageVerified
  /-- `consensusstate: proposal author exists in validator_mapping` -/
  | authorNotInMapping
  /-- `consensusstate: looked up leader for invalid round` -/
  | leaderForInvalidRound
  /-- `consensusstate: checkpoint: no validator set populated for base_epoch` -/
  | checkpointNoValidatorSet
  /-- `consensusstate: tip block id mismatch` -/
  | tipBlockIdMismatch
  /-- `consensusstate: high qc certified block missing from pending tree` -/
  | highQcBlockMissing
  /-- `NeedStatesync{Root, HighQC}`, recovered by the node -/
  | needStatesync (root : ConsensusFullBlock) (highQC : QuorumCertificate)
  /-- `consensusstate: trying to schedule another vote in same round` -/
  | anotherVoteInSameRound
  /-- `consensusstate: current epoch exists` -/
  | currentEpochExists
  /-- `consensusstate: TODO handle non-existent validatorset for next round epoch` -/
  | nextRoundValidatorSet
  /-- `consensusstate: tip is coherent` -/
  | tipIsCoherent
  /-- `consensusstate: there should be a path to root` -/
  | noPathToRoot
  deriving DecidableEq, Repr

end MonadBft
