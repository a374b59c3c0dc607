/-
  MonadBft.Scenario — four validators of equal stake, for concrete runs.

  One epoch, leaders in turn; `signedBy` is the signature collection of some of the
  validators over a message. `liveEnv` is node 0, which executes nothing.
-/
import MonadBft.ConsensusState.State

namespace MonadBft.Scenario

open Lib

def validators : ValidatorSet where
  vals := ⟨[(0, 1), (1, 1), (2, 1), (3, 1)], by decide⟩
  nonempty := by decide
  pos := by decide

def epochManager : EpochManager := ⟨1000, 10, [(1, 0)]⟩

def env : ValidatorEnv where
  epochManager := epochManager
  valEpochMap := ⟨[(1, validators)], by decide⟩
  getLeader round _ := round % 4

def signedBy (signers : List NodeId) (msg : SignedMsg) : SigCol :=
  ⟨validators.members.map signers.contains, (validators.members.filter signers.contains).map (blsSign · msg)⟩

/-- A header of `round` by its leader, with an empty body. -/
def headerOf (round : Nat) (qc : QuorumCertificate) (seqNum : Nat) : ConsensusBlockHeader where
  blockRound := round
  epoch := 1
  qc := qc
  author := round % 4
  seqNum := seqNum
  timestampNs := seqNum
  roundSignature := blsSign (round % 4) (.round round)
  delayedExecutionResults := []
  executionInputs := 0
  blockBodyId := ⟨[]⟩
  baseFee := 0
  baseFeeTrend := 0
  baseFeeMoment := 0

def tipOf (h : ConsensusBlockHeader) (fresh : Option FreshProposalCertificate) : ConsensusTip :=
  newConsensusTip h.author h fresh

/-- The certificate of `signers` for a block in `round`. -/
def qcOf (h : ConsensusBlockHeader) (round : Nat) (signers : List NodeId) : QuorumCertificate :=
  let vote : Vote := ⟨h.getId, round, 1⟩
  ⟨vote, signedBy signers (.vote vote)⟩

/-- The part of a timeout certificate signed by `signers`, who report a QC of `qcRound` and a
tip of `tipRound` (zero for none). -/
def reported (round qcRound tipRound : Nat) (signers : List NodeId) : HighTipRoundSigColTuple :=
  ⟨qcRound, tipRound, signedBy signers (.timeout ⟨1, round, qcRound, tipRound⟩)⟩

def genesisRoot : RootInfo :=
  ⟨GENESIS_ROUND, GENESIS_SEQ_NUM, GENESIS_EPOCH, GENESIS_BLOCK_ID, 0⟩

def blockOf (round : Nat) (qc : QuorumCertificate) (seqNum : Nat) : ConsensusFullBlock :=
  ⟨headerOf round qc seqNum, ⟨[]⟩, rfl⟩

/-- The first block after genesis, and a block on it. -/
def block1 : ConsensusFullBlock := blockOf 1 GenesisQC 1

def block2 : ConsensusFullBlock := blockOf 2 (qcOf block1.header 1 [0, 1, 2]) 2

/-- Trees with the first block and the first two blocks after genesis. -/
def oneBlock : BlockTree := (BlockTree.new genesisRoot).add (fun _ => []) block1

def twoBlocks : BlockTree := oneBlock.add (fun _ => []) block2

def block3 : ConsensusFullBlock := blockOf 3 (qcOf block2.header 2 [0, 1, 2]) 3

/-! ## A live node -/

def liveEnv : Env where
  config := ⟨1, fun _ => 1, 100, 1⟩
  nodeId := 0
  getLeader round _ := round % 4
  valEpochMap := ⟨[(1, validators), (2, validators)], by decide⟩
  stateRead := ⟨fun _ _ _ => .error .notAvailableYet, none⟩
  blockValid _ _ := true
  localTimeNs := 100
  childOrder _ := []
  timeoutOrder := []
  cancelOrder := []

def passthru : BlockPolicy := ⟨.passthru, 0, 0, AMap.empty⟩

/-- The node at genesis, with the known epochs `em`. -/
def liveStart (em : EpochManager) : Except Panic State := State.new em passthru genesisRoot (.qc GenesisQC)

def proposed (b : ConsensusFullBlock) : State.Event :=
  .message b.header.author (.proposal ⟨b.header.blockRound, 1, tipOf b.header none, b.body, none⟩)

end MonadBft.Scenario
