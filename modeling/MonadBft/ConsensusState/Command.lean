/-
  MonadBft.ConsensusState.Command — what the consensus state emits (`consensusstate.Command`).

  A published message is signed by the node's own key, so the key is not repeated. The limits
  and the beneficiary of a proposal request go through to the transaction pool unread and are
  left out, and so are `CmdRequestStateSync` and `CmdTimestampUpdate`, which no handler of the
  live state emits.
-/
import MonadBft.Consensus.Pacemaker
import MonadBft.Messages

namespace MonadBft

inductive RouterTarget where
  | broadcast (epoch : Nat)
  | raptorcast (round epoch : Nat)
  | pointToPoint (node : NodeId)
  deriving DecidableEq, Repr

/-- `consensusstate.CommitKind`, with the flag that only proposed commits have. -/
inductive CommitKind where
  | proposed (isCanonical : Bool)
  | voted
  | finalized
  deriving DecidableEq, Repr

structure ProposalRequest where
  nodeId : NodeId
  epoch : Nat
  round : Nat
  seqNum : Nat
  highQC : QuorumCertificate
  roundSignature : BlsSignature
  lastRoundTC : Option TimeoutCertificate
  freshProposalCertificate : Option FreshProposalCertificate
  timestampNs : Nat
  extendingBlocks : List ConsensusFullBlock
  delayedExecutionResults : List FinalizedHeader
  deriving DecidableEq, Repr

inductive Command where
  | enterRound (epoch round : Nat)
  | publish (target : RouterTarget) (message : ProtocolMessage)
  | publishToFullNodes (epoch round : Nat) (message : ProtocolMessage)
  | schedule (round duration : Nat)
  | scheduleReset
  | createProposal (request : ProposalRequest)
  | commitBlocks (kind : CommitKind) (block : ConsensusFullBlock)
  | requestSync (range : BlockRange)
  | cancelSync (range : BlockRange)
  | scheduleVote (duration round : Nat)
  deriving DecidableEq, Repr

def fromPacemakerCommand (nodeId : NodeId) : PacemakerCommand → List Command
  | .enterRound epoch round highCert =>
    [.enterRound epoch round, .publishToFullNodes epoch highCert.round (.advanceRound highCert)]
  | .prepareTimeout timeout highExtend safeToVote lastRC =>
    [.publish (.broadcast timeout.epoch) (.timeout (newTimeout nodeId timeout highExtend safeToVote lastRC))]
  | .schedule round duration => [.schedule round duration]
  | .scheduleReset => [.scheduleReset]

/-! ## What a command releases -/

def Command.finalizes : Command → Option ConsensusFullBlock
  | .commitBlocks .finalized b => some b
  | _ => none

/-- The signatures the node makes for a message it sends. -/
def ProtocolMessage.signed : ProtocolMessage → List BlsSignature
  | .vote m => [m.sig]
  | .timeout t =>
    t.timeoutSignature ::
      match t.highExtend with
      | .tip _ (some voteSig) => [voteSig]
      | _ => []
  | .noEndorsement m => [m.signature]
  | _ => []

/-- The BLS signatures of the node that leave it with a command. -/
def Command.signed : Command → List BlsSignature
  | .publish _ m => m.signed
  | .createProposal r => [r.roundSignature]
  | _ => []

end MonadBft
