/-
  MonadBft.ConsensusState.Step — the elementary steps of the consensus state.

  `Step env ev` lists every elementary change a handler can make while it processes the event
  `ev`, with the condition it is made under and where its data comes from: which certificate
  opens a round or commits a block (`Source`), which block is inserted (`Event.Brings`), which
  proposal is voted for. `Fails` says what each panic needs of the state it happens in; the
  panics that a check right before them excludes need the impossible.

  `MonadBft.ConsensusState.Trace` shows that every handler is a sequence of these steps.
-/
import MonadBft.ConsensusState.State
import MonadBft.Lib.Traced

namespace MonadBft.State

open Lib Relation

/-! ## What an event brings -/

namespace Event

def certs : Event → List RoundCertificate
  | .message _ (.proposal p) => .qc p.tip.blockHeader.qc :: p.lastRoundTC.toList.map .tc
  | .message _ (.timeout t) => .qc t.highExtend.asHighExtend.getQC :: t.lastRoundCertificate.toList
  | .message _ (.roundRecovery m) => [.tc m.tc]
  | .message _ (.advanceRound cert) => [cert]
  | _ => []

def embeddedVote (t : Timeout) : Option VoteMessage :=
  match t.highExtend with
  | .tip tip (some voteSig) => some ⟨⟨tip.blockHeader.getId, t.tmInfo.round, t.tmInfo.epoch⟩, voteSig⟩
  | _ => none

def votes : Event → List (NodeId × VoteMessage)
  | .message author (.vote m) => [(author, m)]
  | .message author (.timeout t) => (embeddedVote t).toList.map (author, ·)
  | _ => []

def Brings (ev : Event) (block : ConsensusFullBlock) : Prop :=
  match ev with
  | .message _ (.proposal p) => block.header = p.tip.blockHeader
  | .blockSync _ blocks => block ∈ blocks
  | _ => False

end Event

/-- A QC formed from votes that the state keeps. -/
def Formed (env : Env) (s : State) (qc : QuorumCertificate) : Prop :=
  (∃ epoch validators, env.valEpochMap.get epoch = some validators ∧
    qc.signatures.CertifiedBy validators (.vote qc.info)) ∧ ∀ sg ∈ qc.signatures.sig, s.voteState.Stored sg

/-- Where a certificate comes from: the event, or the votes collected so far. -/
def Source (env : Env) (ev : Event) (s : State) (cert : RoundCertificate) : Prop :=
  cert ∈ ev.certs ∨ ∃ qc, cert = .qc qc ∧ Formed env s qc

/-- What is missing: the path to the block of the high QC, or the tip of the round's
certificate. -/
def Wanted (s : State) (range : BlockRange) : Prop :=
  s.pendingBlockTree.maybeFillPathToRoot s.pacemaker.highCertificate.getQC = some range ∨
  ∃ tc tip, s.pacemaker.highCertificate = .tc tc ∧ tc.highExtend = .tip tip ∧ range.lastBlockId = tip.blockHeader.getId

/-- A QC that `tryCommit` goes on with: it is on a block of the tree and one round above that
block's own QC, whose block is coherent. -/
structure Commits (env : Env) (ev : Event) (s : State) (qc : QuorumCertificate) (parent : ConsensusFullBlock) :
    Prop where
  source : Source env ev s (.qc qc) ∨ s.pendingBlockTree.getHighCommittableQc = some qc
  known : s.pendingBlockTree.getBlock qc.getBlockId = some parent
  consecutive : qc.getRound = parent.header.qc.getRound + 1
  coherent : s.pendingBlockTree.isCoherent parent.getParentId = true

/-- The round a command releases a proposal for, directly or by way of the transaction pool. -/
def proposesRound : Command → Option Nat
  | .publish _ (.proposal p) => some p.proposalRound
  | .createProposal r => some r.round
  | _ => none

/-- A command that signs, proposes and finalizes nothing. -/
structure Quiet (c : Command) : Prop where
  signed : c.signed = []
  proposes : proposesRound c = none
  finalizes : c.finalizes = none

/-! ## The elementary steps -/

inductive Step (env : Env) (ev : Event) : State → State → Prop
  /-- A block of the event is added to the tree. -/
  | insert (s : State) (block : ConsensusFullBlock) : ev.Brings block →
      Step env ev s { s with pendingBlockTree := s.pendingBlockTree.add env.childOrder block }
  /-- Blocks become coherent. -/
  | cohere (s : State) (id : BlockId) (tree : BlockTree) (blocks : List ConsensusFullBlock) :
      s.pendingBlockTree.tryUpdateCoherency s.blockPolicy env.stateRead id = .ok (tree, blocks) → Step env ev s { s with
        pendingBlockTree := tree
        out := s.out ++ blocks.map (.commitBlocks (.proposed false)) }
  /-- The path to a committable block is finalized. -/
  | commit (s s' : State) (qc : QuorumCertificate) (parent : ConsensusFullBlock) (tree : BlockTree)
      (blocks : List ConsensusFullBlock) :
      Commits env ev s qc parent → s.pendingBlockTree.prune parent.getParentId = .ok (tree, blocks) →
      blocks.foldlM commitBlock { s with pendingBlockTree := tree } = .ok s' → Step env ev s s'
  /-- The pacemaker makes a step. -/
  | pacemaker (s : State) (p : Pacemaker) (safety : Safety) (cmds : List PacemakerCommand) :
      Pacemaker.Step env.config s.epochManager (Source env ev s)
        (fun author t => ev = .message author (.timeout t)) (s.pacemaker, s.safety) cmds (p, safety) →
      Step env ev s (s.afterPacemaker env (p, safety, cmds))
  /-- A vote for the proposal of the current round is recorded, and to be sent. -/
  | recordVote (s : State) (author : NodeId) (p : ProposalMessage) (safety : Safety) :
      ev = .message author (.proposal p) → p.proposalRound = s.currentRound →
      s.pendingBlockTree.isCoherent p.tip.blockHeader.getId = true →
      s.safety.vote s.currentRound (tcTip p.lastRoundTC) p.tip = .ok safety → Step env ev s { s with
        safety := safety
        history := s.history ++ [.vote s.currentRound (tcTip p.lastRoundTC) p.tip]
        scheduledVote := some (.ready ⟨p.tip.blockHeader.getId, s.currentRound, s.pacemaker.currentEpoch⟩) }
  /-- The vote to be sent is sent. -/
  | sendVote (s : State) (v : Vote) (cmds : List Command) : s.scheduledVote = some (.ready v) →
      (∀ c ∈ cmds, (∃ target, c = .publish target (.vote (newVoteMessage v env.nodeId))) ∨ Quiet c) →
      Step env ev s { s with out := s.out ++ cmds, scheduledVote := none }
  | voteTimer (s : State) : (∀ v, s.scheduledVote ≠ some (.ready v)) →
      Step env ev s { s with scheduledVote := some .timerFired }
  /-- The tip of the certificate of the last round is not endorsed. -/
  | noEndorse (s : State) (author : NodeId) (m : RoundRecoveryMessage) (tip : ConsensusTip) (epoch : Nat)
      (safety : Safety) :
      ev = .message author (.roundRecovery m) → m.tc.highExtend = .tip tip → m.round = s.currentRound →
      s.safety.noEndorse m.round tip.blockHeader.getId = .ok safety → Step env ev s { s with
        safety := safety
        out := s.out ++ [.publish (.pointToPoint author) (.noEndorsement
          (newNoEndorsementMessage ⟨epoch, m.round, tip.blockHeader.qc.getRound⟩ env.nodeId))]
        history := s.history ++ [.noEndorse m.round tip.blockHeader.getId] }
  /-- A proposal for the current round is made, or asked for. -/
  | propose (s : State) (cmd : Command) (safety : Safety) : proposesRound cmd = some s.currentRound →
      (∀ sg ∈ cmd.signed, sg = blsSign env.nodeId (.round s.currentRound)) →
      s.safety.propose s.currentRound = .ok safety → Step env ev s ({ s with safety := safety }.emit [cmd])
  /-- Recovery of the tip of the round's certificate is asked for. -/
  | recoveryRequest (s : State) (cmd : Command) (safety : Safety) : Quiet cmd →
      s.safety.recoveryRequest s.currentRound = .ok safety → Step env ev s ({ s with safety := safety }.emit [cmd])
  | handleProposal (s : State) (round : Nat) (safety : Safety) : s.safety.handleProposal round = .ok safety →
      Step env ev s { s with safety := safety }
  | collectVote (s : State) (author : NodeId) (m : VoteMessage) (validators : ValidatorSet) :
      (author, m) ∈ ev.votes → Step env ev s { s with voteState := (s.voteState.processVote author m validators).1 }
  | collectNoEndorsement (s : State) (n : NoEndorsementState) :
      Step env ev s { s with noEndorsementState := n }
  | startNewRound (s : State) : Step env ev s s.startNewRound
  /-- Missing blocks are asked for. -/
  | request (s : State) (range : BlockRange) (cancelRound : Nat) : Wanted s range →
      Step env ev s (s.requestSync range cancelRound)
  /-- Requests are dropped. -/
  | forget (s : State) (keep : BlockId → BlockSyncRequestStatus → Bool) (cmds : List Command) :
      (∀ c ∈ cmds, Quiet c) →
      Step env ev s { s with blockSyncRequests := s.blockSyncRequests.filter keep, out := s.out ++ cmds }
  /-- Something is announced that binds nobody. -/
  | announce (s : State) (cmds : List Command) (canonical : Option BlockId) : (∀ c ∈ cmds, Quiet c) →
      Step env ev s { s with out := s.out ++ cmds, canonicalProposedTip := canonical }

/-! ## What each panic needs -/

/-- What is true of the state a panic happens in. -/
def Fails (env : Env) (ev : Event) (s : State) : Panic → Prop
  | .unsafeVote => False
  | .unsafeNoEndorse => False
  | .unsafePropose => False
  | .unsafeRecoveryRequest => False
  | .proposalAlreadyHandled => False
  | .phaseMustReset => False
  | .qcNotOnParent => False
  | .pruneIncoherent => False
  | .newRootNotInTree => False
  | .tipBlockIdMismatch => False
  | .timeoutBelowHighestVote => s.currentRound < s.safety.highestVote
  | .timeoutRoundNotCurrent =>
    ∃ author t, ev = .message author (.timeout t) ∧ s.currentRound < t.tmInfo.round ∧
      ∀ cert ∈ ev.certs, cert.round < s.currentRound
  | .anotherVoteInSameRound =>
    ∃ v, s.scheduledVote = some (.ready v) ∧ s.currentRound ≤ v.round ∧ s.safety.highestVote < s.currentRound
  | .tipIsCoherent =>
    ∃ tc tip, s.pacemaker.highCertificate = .tc tc ∧ tc.highExtend = .tip tip ∧
      tip.blockHeader.getId = s.pendingBlockTree.root.blockId
  | .noPathToRoot =>
    s.pendingBlockTree.isCoherent s.pacemaker.highCertificate.getQC.getBlockId = true ∧
      s.pendingBlockTree.getBlocksOnPathFromRoot s.pacemaker.highCertificate.getQC.getBlockId = none
  | .incoherentOnCommitPath =>
    ∃ qc parent, Commits env ev s qc parent ∧
      s.pendingBlockTree.prune parent.getParentId = .error .incoherentOnCommitPath
  | .pathToRootBroken =>
    ∃ qc parent, Commits env ev s qc parent ∧ s.pendingBlockTree.prune parent.getParentId = .error .pathToRootBroken
  | _ => True

end MonadBft.State
