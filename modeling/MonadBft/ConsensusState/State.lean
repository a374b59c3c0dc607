/-
  MonadBft.ConsensusState.State — the consensus state machine (`consensusstate.State`).

  The handlers take a state to the next one or panic. The commands a handler returns are
  appended to `out`, which is never emptied, so that the commands of a whole run can be read
  off its last state. `history` is a history variable no handler reads: what the watermarks
  were told, in order, each timeout with the state it was made in.

  Everything a handler reads but does not change is in `Env`: parameters, the leader election
  and the validator sets, execution, the block validator, the clock, and the orders in which Go
  maps are ranged over. Each event may come with another `Env`. Metrics, the delay of votes
  they measure, and debug hooks are left out.
-/
import MonadBft.BlockTree.Tree
import MonadBft.Consensus.VoteState
import MonadBft.ConsensusState.Command
import MonadBft.Validation

namespace MonadBft

open Lib

def futureVoteBound : Nat := 10

structure BlockSyncRequestStatus where
  blockRange : BlockRange
  cancelRound : Nat
  deriving DecidableEq, Repr

inductive OutgoingVoteStatus where
  | timerFired
  | ready (vote : Vote)
  deriving DecidableEq, Repr

inductive Act where
  /-- `Safety.Vote` -/
  | vote (round : Nat) (lastRoundTcTip : Option BlockId) (tip : ConsensusTip)
  /-- `localTimeoutRound`, in this epoch and round, with these watermarks before -/
  | timeout (epoch : Nat) (highCertificate : RoundCertificate) (safety : Safety)
  /-- `Safety.NoEndorse` -/
  | noEndorse (round : Nat) (tip : BlockId)
  /-- `ScheduleEpochStart` on a finalized block, in this round, with the epochs known before -/
  | commit (round : Nat) (epochManager : EpochManager) (block : ConsensusFullBlock)

structure Env where
  config : Config
  nodeId : NodeId
  getLeader : Nat → ValidatorSet → NodeId
  valEpochMap : ValidatorsEpochMapping
  stateRead : StateRead
  /-- the checks of `BlockValidator.Validate` before `NewFullBlock` -/
  blockValid : ConsensusBlockHeader → ConsensusBlockBody → Bool
  localTimeNs : Nat
  childOrder : BlockId → List Nat
  timeoutOrder : List NodeId
  cancelOrder : List Nat

/-- `consensusstate.ConsensusState`, with what `State` mutates of its environment. -/
structure State where
  pendingBlockTree : BlockTree
  voteState : VoteState
  noEndorsementState : NoEndorsementState
  scheduledVote : Option OutgoingVoteStatus
  safety : Safety
  pacemaker : Pacemaker
  blockSyncRequests : AMap BlockId BlockSyncRequestStatus
  canonicalProposedTip : Option BlockId
  epochManager : EpochManager
  blockPolicy : BlockPolicy
  out : List Command
  history : List Act

namespace State

/-- `NewConsensusState`, bound to the shared epoch manager and policy. -/
def new (epochManager : EpochManager) (blockPolicy : BlockPolicy) (root : RootInfo)
    (highCertificate : RoundCertificate) : Except Panic State := do
  let pacemaker ← Pacemaker.new epochManager highCertificate
  return {
    pendingBlockTree := .new root
    voteState := .new pacemaker.getCurrentRound
    noEndorsementState := .new pacemaker.getCurrentRound
    scheduledVote := none
    safety := newSafety highCertificate none
    pacemaker := pacemaker
    blockSyncRequests := AMap.empty
    canonicalProposedTip := none
    epochManager := epochManager
    blockPolicy := blockPolicy
    out := []
    history := [] }

variable (env : Env) (s : State)

def currentRound : Nat := s.pacemaker.getCurrentRound

def emit (cmds : List Command) : State := { s with out := s.out ++ cmds }

def finalized : List ConsensusFullBlock := s.out.filterMap Command.finalizes

/-- What a message is verified against. -/
def validatorEnv : ValidatorEnv :=
  { epochManager := s.epochManager, valEpochMap := env.valEpochMap, getLeader := env.getLeader }

/-- The validator set of the round of a verified message. -/
def verifiedSet (round : Nat) : Except Panic ValidatorSet :=
  match s.epochManager.getEpoch round with
  | none => .error .epochVerified
  | some epoch =>
    match env.valEpochMap.get epoch with
    | none => .error .messageVerified
    | some valSet => .ok valSet

/-- The leader of a round whose epoch must be known. -/
def roundLeader (round : Nat) : Except Panic NodeId :=
  match s.epochManager.getEpoch round with
  | none => .error .leaderForInvalidRound
  | some epoch =>
    match env.valEpochMap.get epoch with
    | none => .error .leaderForInvalidRound
    | some valSet => .ok (env.getLeader round valSet)

/-! ## Requests for missing blocks -/

def requestSync (s : State) (range : BlockRange) (cancelRound : Nat) : State :=
  { s with
    blockSyncRequests := s.blockSyncRequests.insert range.lastBlockId ⟨range, cancelRound⟩
    out := s.out ++ [.requestSync range] }

def requestBlocksIfMissingAncestor : Except Panic State :=
  let highQc := s.pacemaker.highCertificate.getQC
  match s.pendingBlockTree.maybeFillPathToRoot highQc with
  | none => .ok s
  | some range =>
    if range.numBlocks = 0 then .error .emptyBlockRange
    else if s.blockSyncRequests.contains range.lastBlockId then .ok s
    else .ok (s.requestSync range highQc.getRound)

def requestTipIfMissing : State :=
  match s.pacemaker.highCertificate with
  | .tc ⟨_, _, _, .tip tip⟩ =>
    let tipId := tip.blockHeader.getId
    if (s.pendingBlockTree.getBlock tipId).isSome || s.blockSyncRequests.contains tipId then s
    else s.requestSync ⟨tipId, 1, BlockRange.bound_one⟩ tip.blockHeader.blockRound
  | _ => s

/-! ## Timestamps (`consensusstate.BlockTimestamp`) -/

def getValidBlockTimestamp (prevBlockTs : Nat) : Nat :=
  if env.localTimeNs ≤ prevBlockTs then prevBlockTs + 1 else env.localTimeNs

/-- `ValidBlockTimestamp`, without the adjustment it proposes. -/
def validBlockTimestamp (prevBlockTs currBlockTs voteDelayNs : Nat) (isReproposal : Bool) : Bool :=
  let maxDelta := env.config.maxDeltaNs + voteDelayNs
  if isReproposal then prevBlockTs < currBlockTs ∧ currBlockTs < env.localTimeNs
  else prevBlockTs < currBlockTs ∧ env.localTimeNs - maxDelta ≤ currBlockTs ∧ currBlockTs ≤ env.localTimeNs + maxDelta

/-! ## Commits and coherency -/

/-- One block of the loop of `tryCommit`. -/
def commitBlock (block : ConsensusFullBlock) : Except Panic State := do
  let policy ← s.blockPolicy.updateCommittedBlock block
  let em ← s.epochManager.scheduleEpochStart block.header.seqNum block.getBlockRound
  return { s with
    blockPolicy := policy
    epochManager := em
    out := s.out ++ [.commitBlocks .finalized block]
    history := s.history ++ [.commit s.currentRound s.epochManager block] }

def tryCommit (qc : QuorumCertificate) (s : State) : Except Panic State :=
  match s.pendingBlockTree.getBlock qc.getBlockId with
  | none => .ok s
  | some qcParent =>
    match qc.getCommittableIdForHeader qcParent.header with
    | none => .error .qcNotOnParent
    | some none => .ok s
    | some (some committableId) =>
      if !s.pendingBlockTree.isCoherent committableId then .ok s
      else do
        let (tree, blocks) ← s.pendingBlockTree.prune committableId
        blocks.foldlM commitBlock { s with pendingBlockTree := tree }

def updateProposedHead : State :=
  let canonicalTipId := s.pendingBlockTree.getCanonicalCoherentTip s.pacemaker.highCertificate.getQC
  if s.canonicalProposedTip = some canonicalTipId then s
  else
    match s.pendingBlockTree.getBlock canonicalTipId with
    | none => s
    | some block => { s with
        canonicalProposedTip := some canonicalTipId
        out := s.out ++ [.commitBlocks (.proposed true) block] }

def tryUpdateCoherency (env : Env) (updatedBlockId : BlockId) (s : State) : Except Panic State := do
  let (tree, coherent) ← s.pendingBlockTree.tryUpdateCoherency s.blockPolicy env.stateRead updatedBlockId
  let s := updateProposedHead { s with
    pendingBlockTree := tree
    out := s.out ++ coherent.map (.commitBlocks (.proposed false)) }
  match s.pendingBlockTree.getHighCommittableQc with
  | none => .ok s
  | some qc => s.tryCommit qc

/-- `maybeStatesync`: panics when the high QC is too far ahead of the root. -/
def maybeStatesync : Except Panic Unit :=
  let highQc := s.pacemaker.highCertificate.getQC
  match s.pendingBlockTree.getSeqNumOfQc highQc with
  | none => .ok ()
  | some highQcSeqNum =>
    if s.pendingBlockTree.root.seqNum + env.config.liveToStatesyncThreshold > highQcSeqNum then .ok ()
    else
      match s.pendingBlockTree.getBlock highQc.getBlockId with
      | none => .error .highQcBlockMissing
      | some root => .error (.needStatesync root highQc)

/-! ## Voting -/

def sendVoteAndResetTimer (vote : Vote) (s : State) : Except Panic State := do
  let msg := .vote (newVoteMessage vote env.nodeId)
  let nextLeader ← s.roundLeader env (vote.round + 1)
  let currentLeader ← s.roundLeader env vote.round
  let publishes : List Command :=
    .publish (.pointToPoint nextLeader) msg ::
      if currentLeader ≠ nextLeader then [.publish (.pointToPoint currentLeader) msg] else []
  return { s with
    out := s.out ++ (publishes ++ [.scheduleVote (env.config.votePace (vote.round + 1)) (vote.round + 1)])
    scheduledVote := none }

/-- The end of `tryVote`: send the recorded vote now, or leave it to the timer. -/
def dispatchVote (v : Vote) (parentBlockRound : Nat) (s : State) : Except Panic State :=
  match s.scheduledVote with
  | some .timerFired => s.sendVoteAndResetTimer env v
  | some (.ready w) =>
    if w.round ≥ v.round then .error .anotherVoteInSameRound
    else if parentBlockRound + 1 ≠ v.round then s.sendVoteAndResetTimer env v
    else .ok { s with scheduledVote := some (.ready v) }
  | none =>
    if parentBlockRound + 1 ≠ v.round then s.sendVoteAndResetTimer env v
    else .ok { s with scheduledVote := some (.ready v) }

def tcTip (tc : Option TimeoutCertificate) : Option BlockId :=
  match tc with
  | some ⟨_, _, _, .tip tip⟩ => some tip.blockHeader.getId
  | _ => none

def tryVote (lastRoundTC : Option TimeoutCertificate) (tip : ConsensusTip) (s : State) : Except Panic State :=
  let proposalRound := s.currentRound
  match s.pendingBlockTree.getTimestampOfQc tip.blockHeader.qc,
    s.pendingBlockTree.getBlockRoundOfQc tip.blockHeader.qc with
  | some parentTimestamp, some parentBlockRound =>
    if !validBlockTimestamp env parentTimestamp tip.blockHeader.timestampNs
        (env.config.votePace proposalRound) (proposalRound ≠ tip.blockHeader.blockRound) then .ok s
    else if !s.pendingBlockTree.isCoherent tip.blockHeader.getId then .ok s
    else if !s.safety.isSafeToVote proposalRound (tcTip lastRoundTC) then .ok s
    else do
      let safety ← s.safety.vote proposalRound (tcTip lastRoundTC) tip
      dispatchVote env ⟨tip.blockHeader.getId, proposalRound, s.pacemaker.currentEpoch⟩ parentBlockRound
        { s with safety := safety, history := s.history ++ [.vote proposalRound (tcTip lastRoundTC) tip] }
  | _, _ => .ok s

/-! ## Proposing -/

/-- What a leader proposes from: a tip to propose again with the certificate that names it, or a
QC to extend. -/
inductive ProposeFrom where
  | tip (tip : ConsensusTip) (lastRoundTC : TimeoutCertificate)
  | qc (qc : QuorumCertificate) (fresh : Option FreshProposalCertificate) (lastRoundTC : Option TimeoutCertificate)

/-- The choice `tryPropose` makes by the certificate of the round. -/
def proposeFrom (round : Nat) : ProposeFrom :=
  match s.pacemaker.highCertificate with
  | .qc qc => .qc qc none none
  | .tc tc =>
    match s.noEndorsementState.getNec round with
    | some nec => .qc tc.highExtend.getQC (some (.nec nec)) (some tc)
    | none =>
      match tc.highExtend with
      | .tip tip => .tip tip tc
      | .qc qc => .qc qc (some (.noTip ⟨tc.epoch, tc.round, tc.tipRounds, qc⟩)) (some tc)

/-- `tryPropose` on a tip: propose it again, or ask for its recovery. -/
def repropose (round : Nat) (tip : ConsensusTip) (tc : TimeoutCertificate) (s : State) : Except Panic State := do
  let tipId := tip.blockHeader.getId
  let s ← s.tryUpdateCoherency env tipId
  if !s.pendingBlockTree.isCoherent tipId || !decide (tip.blockHeader.timestampNs < env.localTimeNs) then
    if !s.safety.isSafeToRecoveryRequest round then pure s
    else do
      let safety ← s.safety.recoveryRequest round
      pure ({ s with safety := safety }.emit [.publish (.broadcast s.pacemaker.currentEpoch)
        (.roundRecovery ⟨s.currentRound, s.pacemaker.currentEpoch, tc⟩)])
  else do
    let safety ← s.safety.propose round
    match s.pendingBlockTree.getBlock tipId with
    | none => .error .tipIsCoherent
    | some block =>
      pure ({ s with safety := safety }.emit [.publish (.raptorcast s.currentRound s.pacemaker.currentEpoch)
        (.proposal ⟨s.currentRound, s.pacemaker.currentEpoch, tip, block.body, some tc⟩)])

/-- The sequence number and timestamp of a block on `pendingBlocks`, or on the root. -/
def nextBlock (pendingBlocks : List ConsensusFullBlock) (root : RootInfo) : Nat × Nat :=
  match pendingBlocks.getLast? with
  | some extending => (extending.getSeqNum + 1, getValidBlockTimestamp env extending.header.timestampNs)
  | none => (root.seqNum + 1, getValidBlockTimestamp env root.timestampNs)

/-- `tryPropose` on a QC: ask for a block that extends it. -/
def proposeOn (epoch round : Nat) (qc : QuorumCertificate) (fresh : Option FreshProposalCertificate)
    (tc : Option TimeoutCertificate) (s : State) : Except Panic State := do
  let s ← s.tryUpdateCoherency env qc.getBlockId
  if !s.pendingBlockTree.isCoherent qc.getBlockId then pure s
  else
    match s.pendingBlockTree.getBlocksOnPathFromRoot qc.getBlockId with
    | none => .error .noPathToRoot
    | some pendingBlocks => do
      let next := nextBlock env pendingBlocks s.pendingBlockTree.root
      let expected ← s.blockPolicy.getExpectedExecutionResults next.1 pendingBlocks env.stateRead
      match expected with
      | .error _ => pure s
      | .ok results => do
        let safety ← s.safety.propose round
        pure ({ s with safety := safety }.emit [.createProposal {
          nodeId := env.nodeId
          epoch := epoch
          round := round
          seqNum := next.1
          highQC := qc
          roundSignature := blsSign env.nodeId (.round round)
          lastRoundTC := tc
          freshProposalCertificate := fresh
          timestampNs := next.2
          extendingBlocks := pendingBlocks
          delayedExecutionResults := results }])

def tryPropose : Except Panic State :=
  let round := s.currentRound
  match s.epochManager.getEpoch round with
  | none => .error .currentEpochExists
  | some epoch =>
    match env.valEpochMap.get epoch with
    | none => .error .nextRoundValidatorSet
    | some validatorSet =>
      if env.nodeId ≠ env.getLeader round validatorSet then .ok s
      else
        let s := s.requestTipIfMissing
        if !s.safety.isSafeToPropose round then .ok s
        else
          match s.proposeFrom round with
          | .tip tip tc => s.repropose env round tip tc
          | .qc qc fresh tc => s.proposeOn env epoch round qc fresh tc

/-! ## Certificates -/

/-- The timeouts among the commands of the pacemaker, for the history. -/
def timeoutActs (pacemaker : Pacemaker) (safety : Safety) (cmds : List PacemakerCommand) : List Act :=
  cmds.filterMap fun
    | .prepareTimeout .. => some (.timeout pacemaker.currentEpoch pacemaker.highCertificate safety)
    | _ => none

/-- The state after an operation of the pacemaker. -/
def afterPacemaker (r : Pacemaker × Safety × List PacemakerCommand) : State :=
  { s with
    pacemaker := r.1
    safety := r.2.1
    out := s.out ++ r.2.2.flatMap (fromPacemakerCommand env.nodeId)
    history := s.history ++ timeoutActs s.pacemaker s.safety r.2.2 }

def enterRound (cert : RoundCertificate) (s : State) : Except Panic State := do
  let r ← s.pacemaker.processCertificate env.config s.epochManager s.safety cert
  return s.afterPacemaker env r

/-- The cancellation of block requests below the root's round in `ProcessQC`. -/
def cancelObsolete : State :=
  let obsolete := shuffle env.cancelOrder
    (s.blockSyncRequests.entries.filter fun e => e.2.cancelRound ≤ s.pendingBlockTree.root.round)
  { s with
    blockSyncRequests := s.blockSyncRequests.filter fun _ st => !decide (st.cancelRound ≤ s.pendingBlockTree.root.round)
    out := s.out ++ obsolete.map fun e => .cancelSync e.2.blockRange }

/-- The `Voted` commit of `ProcessQC`. -/
def commitVoted (qc : QuorumCertificate) (s : State) : State :=
  match s.pendingBlockTree.getHighestCoherentBlockOnPathFromRoot qc.getBlockId with
  | none => s
  | some voted => s.emit [.commitBlocks .voted voted]

def startNewRound (s : State) : State :=
  { s with
    voteState := s.voteState.startNewRound s.currentRound
    noEndorsementState := s.noEndorsementState.startNewRound s.currentRound }

def processQC (qc : QuorumCertificate) (s : State) : Except Panic State :=
  if qc.info.round < s.currentRound then .ok s
  else do
    let s ← (s.commitVoted qc).tryCommit qc
    let s := s.cancelObsolete env
    s.maybeStatesync env
    let s ← s.enterRound env (.qc qc)
    let s ← s.updateProposedHead.requestBlocksIfMissingAncestor
    s.startNewRound.tryPropose env

def processTC (tc : TimeoutCertificate) (s : State) : Except Panic State :=
  if tc.round < s.currentRound then .ok s
  else do
    let s ← s.enterRound env (.tc tc)
    s.tryPropose env

/-! ## Handlers -/

def handleTimeoutExpiry (timeoutRound : Nat) (s : State) : Except Panic State :=
  if timeoutRound < s.currentRound then .ok s
  else do
    let r ← s.pacemaker.processLocalTimeout env.config s.safety
    return s.afterPacemaker env r

/-- `validateBlock`: `none` if the block is to be dropped. -/
def validateBlock (header : ConsensusBlockHeader) (body : ConsensusBlockBody) (s : State) :
    Except Panic (Option ConsensusFullBlock) :=
  match s.pendingBlockTree.getBlock header.getId with
  | some validated => .ok (if validated.body.getId ≠ body.getId then none else some validated)
  | none => do
    let validatorSet ← s.verifiedSet env header.blockRound
    if header.author ≠ env.getLeader header.blockRound validatorSet then pure none
    else
      match env.valEpochMap.get header.epoch with
      | none => .error .messageVerified
      | some mapping =>
        if !mapping.isMember header.author then .error .authorNotInMapping
        else pure (if env.blockValid header body then newFullBlock header body else none)

structure PendingVote where
  proposalRound : Nat
  lastRoundTC : Option TimeoutCertificate
  tip : ConsensusTip
  deriving DecidableEq, Repr

/-- The voting part of `tryAddAndCommitBlocktree`. -/
def voteOnAdded (block : ConsensusFullBlock) (pending : Option PendingVote) (s : State) : Except Panic State :=
  match pending with
  | none => .ok s
  | some v =>
    if v.proposalRound ≠ s.currentRound then .ok s
    else if v.tip.blockHeader.getId ≠ block.getId then .error .tipBlockIdMismatch
    else s.tryVote env v.lastRoundTC v.tip

def tryAddAndCommitBlocktree (block : ConsensusFullBlock) (pending : Option PendingVote) (s : State) :
    Except Panic State := do
  let s := { s with pendingBlockTree := s.pendingBlockTree.add env.childOrder block }
  let s ← s.tryUpdateCoherency env block.getId
  let s ← s.voteOnAdded env block pending
  let s ← s.tryPropose env
  s.maybeStatesync env
  s.requestBlocksIfMissingAncestor

def processLastRoundTC (tc : Option TimeoutCertificate) (s : State) : Except Panic State :=
  match tc with
  | none => .ok s
  | some tc => s.processTC env tc

/-- `HandleProposalMessage` once the certificates are processed. -/
def addProposal (p : ProposalMessage) (s : State) : Except Panic State :=
  if !s.safety.isSafeToHandleProposal p.proposalRound then .ok s
  else do
    let safety ← s.safety.handleProposal p.proposalRound
    let s := { s with safety := safety }
    let block ← s.validateBlock env p.tip.blockHeader p.blockBody
    match block with
    | none => pure s
    | some block => s.tryAddAndCommitBlocktree env block (some ⟨p.proposalRound, p.lastRoundTC, p.tip⟩)

variable (author : NodeId)

def handleProposalMessage (p : ProposalMessage) (s : State) : Except Panic State :=
  if p.proposalRound ≤ s.pendingBlockTree.root.round then .ok s
  else do
    let validatorSet ← s.verifiedSet env p.proposalRound
    let s ← s.processQC env p.tip.blockHeader.qc
    let s ← s.processLastRoundTC env p.lastRoundTC
    if p.proposalRound > s.currentRound ∨ author ≠ env.getLeader p.proposalRound validatorSet then pure s
    else s.addProposal env p

def handleVoteMessage (m : VoteMessage) (s : State) : Except Panic State :=
  if m.vote.round < s.currentRound ∨ m.vote.round > s.currentRound + futureVoteBound then .ok s
  else do
    let validatorSet ← s.verifiedSet env m.vote.round
    let r := s.voteState.processVote author m validatorSet
    let s := { s with voteState := r.1 }
    match r.2 with
    | none => pure s
    | some qc => do
      let s ← s.processQC env qc
      let s ← s.tryPropose env
      pure (if env.nodeId = env.getLeader m.vote.round validatorSet then
        s.emit [.publish (.broadcast s.pacemaker.currentEpoch) (.advanceRound (.qc qc))] else s)

def broadcastAdvanceRoundMessage (cert : RoundCertificate) (s : State) : State :=
  match s.epochManager.getEpoch cert.round with
  | none => s
  | some epoch => s.emit [.publish (.broadcast epoch) (.advanceRound cert)]

/-- The vote embedded in a timeout. -/
def handleEmbeddedVote (timeout : Timeout) (s : State) : Except Panic State :=
  match timeout.highExtend with
  | .tip tip (some voteSig) =>
    s.handleVoteMessage env author
      ⟨⟨tip.blockHeader.getId, timeout.tmInfo.round, timeout.tmInfo.epoch⟩, voteSig⟩
  | _ => .ok s

/-- The certificate of the last round in a timeout. -/
def handleLastRoundCertificate (lrc : Option RoundCertificate) (s : State) : Except Panic State :=
  match lrc with
  | none => .ok s
  | some (.qc qc) => s.processQC env qc
  | some (.tc tc) =>
    if tc.round = s.currentRound then do
      let s ← s.handleTimeoutExpiry env tc.round
      s.processTC env tc
    else if tc.round > s.currentRound then (s.broadcastAdvanceRoundMessage (.tc tc)).processTC env tc
    else .ok s

def remoteTimeout (validatorSet : ValidatorSet) (author : NodeId) (timeout : Timeout) (s : State) :
    Except Panic State := do
  let r ← s.pacemaker.processRemoteTimeout env.config s.epochManager validatorSet env.timeoutOrder s.safety
    author timeout
  return s.afterPacemaker env r

def handleTimeoutMessage (timeout : Timeout) (s : State) : Except Panic State :=
  if timeout.tmInfo.round < s.currentRound then .ok s
  else do
    let validatorSet ← s.verifiedSet env timeout.tmInfo.round
    let s ← s.processQC env timeout.highExtend.asHighExtend.getQC
    let s ← s.handleEmbeddedVote env author timeout
    let s ← s.handleLastRoundCertificate env timeout.lastRoundCertificate
    let s ← s.remoteTimeout env validatorSet author timeout
    s.tryPropose env

/-- `HandleRoundRecoveryMessage`, once the certificate is processed. -/
def noEndorseTip (epoch : Nat) (m : RoundRecoveryMessage) (tip : ConsensusTip) (s : State) : Except Panic State :=
  if s.pendingBlockTree.isCoherent tip.blockHeader.getId ∧ tip.blockHeader.timestampNs < env.localTimeNs then .ok s
  else if !s.safety.isSafeToNoEndorse m.round then .ok s
  else do
    let safety ← s.safety.noEndorse m.round tip.blockHeader.getId
    return { s with
      safety := safety
      out := s.out ++ [.publish (.pointToPoint author) (.noEndorsement
        (newNoEndorsementMessage ⟨epoch, m.round, tip.blockHeader.qc.getRound⟩ env.nodeId))]
      history := s.history ++ [.noEndorse m.round tip.blockHeader.getId] }

def handleRoundRecoveryMessage (m : RoundRecoveryMessage) (s : State) : Except Panic State :=
  match s.epochManager.getEpoch m.round with
  | none => .error .epochVerified
  | some epoch =>
    match env.valEpochMap.get epoch with
    | none => .error .messageVerified
    | some validatorSet => do
      let s ← s.processTC env m.tc
      if m.round ≠ s.currentRound ∨ author ≠ env.getLeader s.currentRound validatorSet then pure s
      else
        match m.tc.highExtend with
        | .qc _ => pure s
        | .tip tip => s.noEndorseTip env author epoch m tip

def handleNoEndorsementMessage (m : NoEndorsementMessage) (s : State) : Except Panic State :=
  if m.msg.round ≠ s.currentRound then .ok s
  else do
    let validatorSet ← s.verifiedSet env m.msg.round
    let r := s.noEndorsementState.processNoEndorsement author m validatorSet
    let s := { s with noEndorsementState := r.1 }
    match r.2 with
    | none => pure s
    | some _ => s.tryPropose env

def handleAdvanceRoundMessage (cert : RoundCertificate) (s : State) : Except Panic State :=
  match cert with
  | .tc tc => s.processTC env tc
  | .qc qc =>
    if qc.info.round < s.currentRound then .ok s
    else do
      let s ← s.processQC env qc
      let leader ← s.roundLeader env s.currentRound
      pure (s.emit [.publish (.pointToPoint leader) (.advanceRound (.qc qc))])

/-- The loop of `HandleBlockSync`. -/
def syncBlocks (env : Env) : List ConsensusFullBlock → State → Except Panic State
  | [], s => .ok s
  | b :: rest, s =>
    if !s.pendingBlockTree.isValidToInsert b.header then syncBlocks env rest s
    else do
      let block ← s.validateBlock env b.header b.body
      match block with
      | none => pure s
      | some block => do
        let s ← s.tryAddAndCommitBlocktree env block none
        syncBlocks env rest s

def handleBlockSync (range : BlockRange) (fullBlocks : List ConsensusFullBlock) (s : State) : Except Panic State :=
  if !s.blockSyncRequests.contains range.lastBlockId then .ok s
  else do
    let s ← syncBlocks env fullBlocks s
    return { s with blockSyncRequests := s.blockSyncRequests.erase range.lastBlockId }

def handleVoteTimer : Except Panic State :=
  match s.scheduledVote with
  | some (.ready v) => s.sendVoteAndResetTimer env v
  | _ => .ok { s with scheduledVote := some .timerFired }

/-! ## Events -/

inductive Event where
  | message (author : NodeId) (m : ProtocolMessage)
  | timeout (round : Nat)
  | sendVote (round : Nat)
  | blockSync (range : BlockRange) (fullBlocks : List ConsensusFullBlock)

def handleMessage (m : ProtocolMessage) (s : State) : Except Panic State :=
  match m with
  | .proposal p => s.handleProposalMessage env author p
  | .vote v => s.handleVoteMessage env author v
  | .timeout t => s.handleTimeoutMessage env author t
  | .roundRecovery r => s.handleRoundRecoveryMessage env author r
  | .noEndorsement n => s.handleNoEndorsementMessage env author n
  | .advanceRound cert => s.handleAdvanceRoundMessage env cert

def handle (ev : Event) (s : State) : Except Panic State :=
  match ev with
  | .message author m => s.handleMessage env author m
  | .timeout round => s.handleTimeoutExpiry env round
  | .sendVote _ => s.handleVoteTimer env
  | .blockSync range fullBlocks => s.handleBlockSync env range fullBlocks

end State

end MonadBft
