/-
  MonadBft.Validation — what is accepted from the network (`validation`).

  `verify` checks the sender of a message, `validate` its structure and certificates. The
  verifiers here have no cache of verified certificates; `Validation.CertificateCache` adds it.
-/
import MonadBft.Epoch
import MonadBft.Lib.Except
import MonadBft.Messages

namespace MonadBft

open Lib

inductive ValidationError where
  | invalidAuthor
  | notWellFormed
  | invalidSignature
  | invalidTcRound
  | duplicateTcTipRound
  | emptySignersTcTipRound
  | tooManyTcTipRound
  | insufficientStake
  | validatorSetDataUnavailable
  | signaturesDuplicateNode
  | invalidVote
  | invalidVersion
  | invalidEpoch
  deriving DecidableEq, Repr

def immediatelyFollows (round prev : Nat) : Bool := round = prev + 1

/-- What `NewEpochToValidators` closes over, and how signature collections are verified. -/
structure ValidatorEnv where
  epochManager : EpochManager
  valEpochMap : ValidatorsEpochMapping
  getLeader : Nat → ValidatorSet → NodeId
  verifySigCol : SigCol → List NodeId → SignedMsg → Except SigColErr (List NodeId) := SigCol.verify

namespace ValidatorEnv

variable (env : ValidatorEnv)

def epochToValidators (epoch round : Nat) : Except ValidationError (ValidatorSet × NodeId) :=
  if env.epochManager.getEpoch round ≠ some epoch then .error .invalidEpoch
  else
    match env.valEpochMap.get epoch with
    | none => .error .validatorSetDataUnavailable
    | some valSet => .ok (valSet, env.getLeader round valSet)

/-- The stake check at the end of each certificate verifier. -/
def checkSuperMajority (validators : ValidatorSet) (nodeIds : List NodeId) : Except ValidationError Unit :=
  match validators.hasSuperMajorityVotes nodeIds with
  | .error _ => .error .signaturesDuplicateNode
  | .ok false => .error .insufficientStake
  | .ok true => .ok ()

/-- `Verify` of a signature collection, with the verifiers' one error. -/
def verifySigs (sigs : SigCol) (validators : ValidatorSet) (msg : SignedMsg) : Except ValidationError (List NodeId) :=
  match env.verifySigCol sigs validators.members msg with
  | .error _ => .error .invalidSignature
  | .ok signers => .ok signers

def verifyQC (qc : QuorumCertificate) : Except ValidationError Unit := do
  let (validators, _) ← env.epochToValidators qc.getEpoch qc.getRound
  if qc.getRound = GENESIS_ROUND then require (qc = GenesisQC) .invalidSignature
  else
    let nodeIds ← env.verifySigs qc.signatures validators (.vote qc.info)
    checkSuperMajority validators nodeIds

theorem verifyQC_of {env : ValidatorEnv} {qc : QuorumCertificate} {validators : ValidatorSet} {leader : NodeId}
    {nodeIds : List NodeId} (hround : qc.getRound ≠ GENESIS_ROUND)
    (hepoch : env.epochToValidators qc.getEpoch qc.getRound = .ok (validators, leader))
    (hsigs : env.verifySigs qc.signatures validators (.vote qc.info) = .ok nodeIds)
    (hsuper : validators.hasSuperMajorityVotes nodeIds = .ok true) : env.verifyQC qc = .ok () := by
  unfold verifyQC
  rw [hepoch, ok_bind]
  dsimp only
  rw [if_neg hround, hsigs, ok_bind, checkSuperMajority, hsuper]

def verifyNEC (nec : NoEndorsementCertificate) : Except ValidationError Unit := do
  let (validators, _) ← env.epochToValidators nec.msg.epoch nec.msg.round
  let nodeIds ← env.verifySigs nec.signatures validators (.noEndorsement nec.msg)
  checkSuperMajority validators nodeIds

/-- The loop of `VerifyTC` over the tuples: the signers so far and the highest rank. -/
def verifyTipRounds (env : ValidatorEnv) (validators : ValidatorSet) (epoch round : Nat) :
    List HighTipRoundSigColTuple → List (Nat × Nat) → List NodeId → HighExtendRank →
    Except ValidationError (List NodeId × HighExtendRank)
  | [], _, nodeIds, highestRank => .ok (nodeIds, highestRank)
  | t :: rest, seenTipRounds, nodeIds, highestRank => do
    require (¬t.highQcRound ≥ round) .invalidTcRound
    require (¬seenTipRounds.contains (t.highQcRound, t.highTipRound)) .duplicateTcTipRound
    require (¬t.sigs.signers.count true = 0) .emptySignersTcTipRound
    let signers ← env.verifySigs t.sigs validators (.timeout ⟨epoch, round, t.highQcRound, t.highTipRound⟩)
    require (¬signers.any nodeIds.contains) .signaturesDuplicateNode
    verifyTipRounds env validators epoch round rest ((t.highQcRound, t.highTipRound) :: seenTipRounds)
      (nodeIds ++ signers) (if t.rank.cmp highestRank = .gt then t.rank else highestRank)

/-- `VerifyTC`, over the verifier of its evidence. -/
def verifyTCWith (verifyHighExtend : HighExtend → Except ValidationError Unit)
    (tc : TimeoutCertificate) : Except ValidationError Unit := do
  let (validators, _) ← env.epochToValidators tc.epoch tc.round
  require (¬tc.tipRounds.length > validators.members.length) .tooManyTcTipRound
  let (nodeIds, highestRank) ← env.verifyTipRounds validators tc.epoch tc.round tc.tipRounds [] [] (.qc GENESIS_ROUND)
  checkSuperMajority validators nodeIds
  verifyHighExtend tc.highExtend
  require (tc.highExtend.rank.cmp highestRank = .eq) .notWellFormed

/-- `VerifyTC` of the timeout certificate a no-tip certificate stands for. -/
def verifyNoTip (noTip : NoTipCertificate) : Except ValidationError Unit :=
  env.verifyTCWith (fun he => env.verifyQC he.getQC)
    ⟨noTip.epoch, noTip.round, noTip.tipRounds, .qc noTip.highQc⟩

/-- The structural half of `VerifyTip`: a tip that does not extend the QC of the round
before it names a fresh certificate for its round and QC. -/
def wellFormedTip (tip : ConsensusTip) : Bool :=
  if immediatelyFollows tip.blockHeader.blockRound tip.blockHeader.qc.getRound then
    tip.freshCertificate.isNone
  else
    match tip.freshCertificate with
    | none => false
    | some (.nec nec) =>
      nec.msg.round = tip.blockHeader.blockRound ∧ nec.msg.tipQcRound = tip.blockHeader.qc.getRound
    | some (.noTip noTip) =>
      immediatelyFollows tip.blockHeader.blockRound noTip.round ∧ noTip.highQc.getRound = tip.blockHeader.qc.getRound

/-- The last check of `VerifyTip`. -/
def verifyFresh : Option FreshProposalCertificate → Except ValidationError Unit
  | none => .ok ()
  | some (.nec nec) => env.verifyNEC nec
  | some (.noTip noTip) => env.verifyNoTip noTip

def verifyTip (tip : ConsensusTip) : Except ValidationError Unit := do
  let (_, leader) ← env.epochToValidators tip.blockHeader.epoch tip.blockHeader.blockRound
  require tip.signatureAuthor.isSome .invalidSignature
  require (tip.signatureAuthor = some leader ∧ tip.signatureAuthor = some tip.blockHeader.author) .invalidAuthor
  require (wellFormedTip tip) .notWellFormed
  env.verifyQC tip.blockHeader.qc
  env.verifyFresh tip.freshCertificate

def verifyHighExtend : HighExtend → Except ValidationError Unit
  | .tip tip => env.verifyTip tip
  | .qc qc => env.verifyQC qc

def verifyTC (tc : TimeoutCertificate) : Except ValidationError Unit :=
  env.verifyTCWith env.verifyHighExtend tc

def verifyRoundCertificate : RoundCertificate → Except ValidationError Unit
  | .qc qc => env.verifyQC qc
  | .tc tc => env.verifyTC tc

/-! ## Messages -/

def tipsEqual (a b : ConsensusTip) : Bool :=
  a.blockHeader.getId = b.blockHeader.getId ∧ a.signature = b.signature

/-- The second half of `wellFormedProposal`: a proposal that does not extend the QC of the
round before it carries the TC of that round, and either reproposes its high tip, or is
fresh and extends the same QC. -/
def wellFormedAfterTC (m : ProposalMessage) (tc : TimeoutCertificate) : Bool :=
  immediatelyFollows m.proposalRound tc.round && match tc.highExtend with
    | .tip tcTip =>
      tipsEqual tcTip m.tip || decide (m.proposalRound = m.tip.blockHeader.blockRound ∧
          tcTip.blockHeader.qc.getRound = m.tip.blockHeader.qc.getRound)
    | .qc qc => decide (qc.getRound = m.tip.blockHeader.qc.getRound)

def wellFormedProposal (m : ProposalMessage) : Bool :=
  if m.tip.blockHeader.blockBodyId ≠ m.blockBody.getId then false
  else if immediatelyFollows m.proposalRound m.tip.blockHeader.qc.getRound then m.lastRoundTC.isNone
  else m.lastRoundTC.any (wellFormedAfterTC m)

/-- `verify_epoch`: the round belongs to the epoch the message names. -/
def verifyEpoch (epoch round : Nat) : Except ValidationError Unit :=
  if env.epochManager.getEpoch round = some epoch then .ok () else .error .invalidEpoch

def validateProposal (m : ProposalMessage) : Except ValidationError Unit := do
  require (wellFormedProposal m) .notWellFormed
  env.verifyEpoch m.proposalEpoch m.proposalRound
  env.verifyTip m.tip
  match m.lastRoundTC with
  | none => .ok ()
  | some tc => env.verifyTC tc

/-- `validateVote`; the signature is checked when votes are aggregated. -/
def validateVote (m : VoteMessage) : Except ValidationError Unit :=
  env.verifyEpoch m.vote.epoch m.vote.round

def wellFormedTimeout (timeout : Timeout) : Bool :=
  if timeout.highExtend.asHighExtend.rank.cmp timeout.tmInfo.rank ≠ .eq then false
  else if immediatelyFollows timeout.tmInfo.round timeout.highExtend.asHighExtend.getQC.getRound then
    timeout.lastRoundCertificate.isNone
  else timeout.lastRoundCertificate.any fun rc => immediatelyFollows timeout.tmInfo.round rc.round

def verifyLastRoundCertificate : Option RoundCertificate → Except ValidationError Unit
  | none => .ok ()
  | some rc => env.verifyRoundCertificate rc

/-- `validateTimeout`: the certificate of the last round is cleared, unverified, once the
round has been entered. -/
def validateTimeout (currentRound : Nat) (timeout : Timeout) : Except ValidationError Timeout := do
  require (wellFormedTimeout timeout) .notWellFormed
  env.verifyEpoch timeout.tmInfo.epoch timeout.tmInfo.round
  let timeout' :=
    if currentRound ≥ timeout.tmInfo.round then { timeout with lastRoundCertificate := none } else timeout
  env.verifyLastRoundCertificate timeout'.lastRoundCertificate
  env.verifyHighExtend timeout'.highExtend.asHighExtend
  return timeout'

theorem validateTimeout_ok {env : ValidatorEnv} {currentRound : Nat} {timeout timeout' : Timeout}
    (h : env.validateTimeout currentRound timeout = .ok timeout') :
    wellFormedTimeout timeout ∧ env.verifyEpoch timeout.tmInfo.epoch timeout.tmInfo.round = .ok () ∧
      timeout' = (if currentRound ≥ timeout.tmInfo.round then { timeout with lastRoundCertificate := none } else timeout) ∧
      env.verifyHighExtend timeout.highExtend.asHighExtend = .ok () := by
  obtain ⟨⟨⟩, hwf, h⟩ := bind_eq_ok.mp h
  obtain ⟨⟨⟩, hep, h⟩ := bind_eq_ok.mp h
  obtain ⟨⟨⟩, -, h⟩ := bind_eq_ok.mp h
  obtain ⟨⟨⟩, hhe, h⟩ := bind_eq_ok.mp h
  refine ⟨require_eq_ok.mp hwf, hep, (Except.ok.inj h).symm, ?_⟩
  split at hhe <;> exact hhe

def validateRoundRecovery (m : RoundRecoveryMessage) : Except ValidationError Unit := do
  require (immediatelyFollows m.round m.tc.round) .invalidTcRound
  require m.tc.highExtend.isTip .notWellFormed
  env.verifyEpoch m.epoch m.round
  env.verifyTC m.tc

def validateNoEndorsement (m : NoEndorsementMessage) : Except ValidationError Unit :=
  env.verifyEpoch m.msg.epoch m.msg.round

/-- `Validate`, without the version check. -/
def validate (currentRound : Nat) : ProtocolMessage → Except ValidationError ProtocolMessage
  | .proposal m => do
    env.validateProposal m
    return .proposal m
  | .vote m => do
    env.validateVote m
    return .vote m
  | .timeout m => do
    let m ← env.validateTimeout currentRound m
    return .timeout m
  | .roundRecovery m => do
    env.validateRoundRecovery m
    return .roundRecovery m
  | .noEndorsement m => do
    env.validateNoEndorsement m
    return .noEndorsement m
  | .advanceRound rc => do
    env.verifyRoundCertificate rc
    return .advanceRound rc

/-- `Verify`, given the author the signature recovers to: a member of the validator set
of the message's round. -/
def verify (author : NodeId) (m : ProtocolMessage) : Except ValidationError Unit :=
  match env.epochManager.getEpoch m.getRound with
  | none => .error .invalidEpoch
  | some epoch =>
    match env.valEpochMap.get epoch with
    | none => .error .validatorSetDataUnavailable
    | some valSet => if valSet.isMember author then .ok () else .error .invalidAuthor

end ValidatorEnv

end MonadBft
