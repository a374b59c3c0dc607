/-
  MonadBft.Messages — the protocol messages (`messages`).
-/
import MonadBft.Cstypes

namespace MonadBft

structure VoteMessage where
  vote : Vote
  sig : BlsSignature
  deriving DecidableEq, Repr

def newVoteMessage (vote : Vote) (certKey : NodeId) : VoteMessage := ⟨vote, blsSign certKey (.vote vote)⟩

structure ProposalMessage where
  proposalRound : Nat
  proposalEpoch : Nat
  tip : ConsensusTip
  blockBody : ConsensusBlockBody
  lastRoundTC : Option TimeoutCertificate
  deriving DecidableEq, Repr

structure RoundRecoveryMessage where
  round : Nat
  epoch : Nat
  tc : TimeoutCertificate
  deriving DecidableEq, Repr

structure NoEndorsementMessage where
  msg : NoEndorsement
  signature : BlsSignature
  deriving DecidableEq, Repr

def newNoEndorsementMessage (ne : NoEndorsement) (certKey : NodeId) : NoEndorsementMessage :=
  ⟨ne, blsSign certKey (.noEndorsement ne)⟩

/-- `messages.ProtocolMessage`; a `TimeoutMessage` is its timeout and an
`AdvanceRoundMessage` its certificate. -/
inductive ProtocolMessage where
  | proposal (m : ProposalMessage)
  | vote (m : VoteMessage)
  | timeout (m : Timeout)
  | roundRecovery (m : RoundRecoveryMessage)
  | noEndorsement (m : NoEndorsementMessage)
  | advanceRound (lastRoundCertificate : RoundCertificate)
  deriving DecidableEq, Repr

def ProtocolMessage.getRound : ProtocolMessage → Nat
  | .proposal m => m.proposalRound
  | .vote m => m.vote.round
  | .timeout m => m.tmInfo.round
  | .roundRecovery m => m.round
  | .noEndorsement m => m.msg.round
  | .advanceRound c => c.round

end MonadBft
