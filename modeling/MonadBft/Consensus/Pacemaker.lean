/-
  MonadBft.Consensus.Pacemaker — rounds, certificates and timeouts
  (`consensus.Pacemaker`, `cstypes.NewTimeoutCertificate`).

  The current round is one above the certificate that opened it. A local timer, or
  timeouts of enough others, makes the node send its own timeout; a supermajority of
  timeouts is turned into a timeout certificate, which opens the next round. The source
  builds that certificate by ranging over a Go map, whose order is not fixed: the order
  is an argument (`pick`), and every order can be asked for.

  `Pacemaker.Step` lists the elementary changes of a pacemaker and the watermarks it
  drives; each operation is a run of them (`processCertificate_run`,
  `processLocalTimeout_run`, `processRemoteTimeout_run`).
-/
import MonadBft.Consensus.Safety
import MonadBft.Epoch
import MonadBft.Lib.Except
import MonadBft.Lib.Run

namespace MonadBft

open Lib

/-- The parameters of `consensusstate.Config` and of the chain configuration that the
handlers read; `votePace` is `GetChainRevision(round).ChainParams().VotePace`. -/
structure Config where
  delta : Nat
  votePace : Nat → Nat
  liveToStatesyncThreshold : Nat
  maxDeltaNs : Nat

inductive PhaseHonest where
  | zero
  | one
  deriving DecidableEq, Repr

inductive PacemakerCommand where
  | enterRound (epoch round : Nat) (highCert : RoundCertificate)
  | prepareTimeout (timeout : TimeoutInfo) (highExtend : HighExtend) (safeToVote : Bool)
      (lastRC : Option RoundCertificate)
  | schedule (round duration : Nat)
  | scheduleReset
  deriving DecidableEq, Repr

structure Pacemaker where
  currentEpoch : Nat
  highCertificate : RoundCertificate
  pendingTimeouts : AMap NodeId Timeout
  invalidTimeoutSenders : List NodeId
  phase : PhaseHonest
  deriving DecidableEq

/-! ## Timeout certificates -/

/-- The highest evidence among timeouts, the first one of its rank. -/
def highestExtend (timeouts : List (NodeId × Timeout)) : HighExtend :=
  timeouts.foldl (fun highest tm =>
    let he := tm.2.highExtend.asHighExtend
    if he.rank.cmp highest.rank = .gt then he else highest) (.qc GenesisQC)

/-- The signatures by what they sign, in the order of first appearance. -/
def groupTimeouts (timeouts : List (NodeId × Timeout)) : AMap TimeoutInfo (List (NodeId × BlsSignature)) :=
  timeouts.foldl (fun groups tm =>
    groups.insert tm.2.tmInfo ((groups.get tm.2.tmInfo).getD [] ++ [(tm.1, tm.2.timeoutSignature)])) AMap.empty

/-- One tuple for each group. -/
def tipRoundsOf (agg : Aggregator) (mapping : List NodeId) :
    List (TimeoutInfo × List (NodeId × BlsSignature)) → Except SigColErr (List HighTipRoundSigColTuple)
  | [] => .ok []
  | (ti, sigs) :: rest => do
    let sc ← agg sigs mapping (.timeout ti)
    let rest ← tipRoundsOf agg mapping rest
    return ⟨ti.highQcRound, ti.highTipRound, sc⟩ :: rest

def newTimeoutCertificateWith (agg : Aggregator) (epoch round : Nat) (timeouts : List (NodeId × Timeout))
    (mapping : List NodeId) : Except SigColErr TimeoutCertificate := do
  let tipRounds ← tipRoundsOf agg mapping (groupTimeouts timeouts).entries
  return ⟨epoch, round, tipRounds, highestExtend timeouts⟩

def newTimeoutCertificate : Nat → Nat → List (NodeId × Timeout) → List NodeId → Except SigColErr TimeoutCertificate :=
  newTimeoutCertificateWith SigCol.new

/-- The entries of a map, those of the listed keys first and in that order. -/
def pick {α : Type} (order : List NodeId) (m : AMap NodeId α) : List (NodeId × α) :=
  order.eraseDups.filterMap (fun id => (m.get id).map (id, ·)) ++ m.entries.filter fun e => !order.contains e.1

/-! ## The pacemaker -/

namespace Pacemaker

def getCurrentRound (p : Pacemaker) : Nat := p.highCertificate.round + 1

variable (cfg : Config)

/-- `getRoundTimer`; the local processing time is `delta`. -/
def getRoundTimer (round : Nat) : Nat := cfg.delta * 3 + cfg.votePace round + cfg.delta

def new (em : EpochManager) (highCertificate : RoundCertificate) : Except Panic Pacemaker :=
  match em.getEpoch (highCertificate.round + 1) with
  | none => .error .initRoundMissing
  | some epoch => .ok ⟨epoch, highCertificate, AMap.empty, [], .zero⟩

/-- `ProcessCertificate`: a certificate of a later round opens the round after it. -/
def processCertificate (cfg : Config) (em : EpochManager) (p : Pacemaker) (safety : Safety)
    (certificate : RoundCertificate) : Except Panic (Pacemaker × Safety × List PacemakerCommand) :=
  if certificate.round ≤ p.highCertificate.round then .ok (p, safety, [])
  else
    match em.getEpoch (certificate.round + 1) with
    | none => .error .epochMissing
    | some epoch =>
      .ok (⟨epoch, certificate, AMap.empty, [], .zero⟩, safety.processCertificate certificate,
        [.enterRound epoch (certificate.round + 1) certificate,
         .schedule (certificate.round + 1) (getRoundTimer cfg (certificate.round + 1))])

/-- The evidence of a timeout: the tip the node voted for, or else the QC inside the
certificate that opened the round. -/
def timeoutExtend (p : Pacemaker) (safety : Safety) : HighExtend :=
  match safety.maybeHighTip with
  | some tip => .tip tip
  | none => .qc p.highCertificate.getQC

/-- What a timeout of the current round signs. -/
def timeoutInfo (p : Pacemaker) (he : HighExtend) : TimeoutInfo where
  epoch := p.currentEpoch
  round := p.getCurrentRound
  highTipRound :=
    match he with
    | .tip tip => tip.blockHeader.blockRound
    | .qc _ => GENESIS_ROUND
  highQcRound := he.getQC.getRound

def localTimeoutRound (p : Pacemaker) (safety : Safety) : Except Panic (Safety × List PacemakerCommand) := do
  let currentRound := p.getCurrentRound
  let (safeToIncludeVote, safety) ← safety.timeout currentRound
  let highExtend := p.timeoutExtend safety
  let lastRC := if highExtend.getQC.getRound + 1 ≠ currentRound then some p.highCertificate else none
  return (safety, [.scheduleReset, .prepareTimeout (p.timeoutInfo highExtend) highExtend safeToIncludeVote lastRC,
     .schedule currentRound (getRoundTimer cfg currentRound)])

def processLocalTimeout (p : Pacemaker) (safety : Safety) :
    Except Panic (Pacemaker × Safety × List PacemakerCommand) := do
  let (safety, cmds) ← p.localTimeoutRound cfg safety
  return ({ p with phase := .one }, safety, cmds)

/-- The last loop of `ProcessRemoteTimeout`: form a certificate once a supermajority has
timed out, dropping the senders of bad signatures; `none` when the turns run out. -/
def tryFormTCLoop (agg : Aggregator) (cfg : Config) (em : EpochManager) (validators : ValidatorSet) (order : List NodeId)
    (tmInfo : TimeoutInfo) : Nat → Pacemaker → Safety →
      Option (Except Panic (Pacemaker × Safety × List PacemakerCommand))
  | 0, _, _ => none
  | turns + 1, p, safety =>
    match validators.hasSuperMajorityVotes p.pendingTimeouts.keys with
    | .error _ => some (.error .hasSuperMajorityVotes)
    | .ok false => some (.ok (p, safety, []))
    | .ok true =>
      match newTimeoutCertificateWith agg tmInfo.epoch tmInfo.round (pick order p.pendingTimeouts)
        validators.members with
      | .ok tc => some do
        let (p, safety, cmds) ← p.processCertificate cfg em safety (.tc tc)
        if p.phase ≠ .zero then .error .phaseMustReset else return (p, safety, cmds)
      | .error (.invalidSignaturesCreate bad) =>
        tryFormTCLoop agg cfg em validators order tmInfo turns
          { p with invalidTimeoutSenders := p.invalidTimeoutSenders ++ bad
                   pendingTimeouts := p.pendingTimeouts.filter fun id _ => !bad.contains id } safety
      | .error err => some (.error (.tcCreation err))

/-- The loop with a turn for each timeout and one more, which are enough (`tryFormTCLoop_ends`). -/
def tryFormTCWith (agg : Aggregator) (cfg : Config) (em : EpochManager) (validators : ValidatorSet) (order : List NodeId)
    (tmInfo : TimeoutInfo) (p : Pacemaker) (safety : Safety) :
    Except Panic (Pacemaker × Safety × List PacemakerCommand) :=
  (tryFormTCLoop agg cfg em validators order tmInfo (p.pendingTimeouts.entries.length + 1) p safety).getD
    (.ok (p, safety, []))

def tryFormTC : Config → EpochManager → ValidatorSet → List NodeId → TimeoutInfo → Pacemaker → Safety →
    Except Panic (Pacemaker × Safety × List PacemakerCommand) :=
  tryFormTCWith SigCol.new

/-- The first half of `ProcessRemoteTimeout`: time out once an honest node has. -/
def timeoutAfterHonest (validators : ValidatorSet) (p : Pacemaker) (safety : Safety) :
    Except Panic (Pacemaker × Safety × List PacemakerCommand) :=
  if p.phase = .zero then
    match validators.hasHonestVote p.pendingTimeouts.keys with
    | .error _ => .error .hasHonestVote
    | .ok false => .ok (p, safety, [])
    | .ok true => p.processLocalTimeout cfg safety
  else .ok (p, safety, [])

/-- The second half: form a certificate once a supermajority has timed out. -/
def certifyTimeoutsWith (agg : Aggregator) (cfg : Config) (em : EpochManager) (validators : ValidatorSet)
    (order : List NodeId) (tmInfo : TimeoutInfo) (p : Pacemaker) (safety : Safety) :
    Except Panic (Pacemaker × Safety × List PacemakerCommand) :=
  if p.phase = .one then
    tryFormTCWith agg cfg em validators order tmInfo p safety
  else .ok (p, safety, [])

def certifyTimeouts : Config → EpochManager → ValidatorSet → List NodeId → TimeoutInfo → Pacemaker → Safety →
    Except Panic (Pacemaker × Safety × List PacemakerCommand) :=
  certifyTimeoutsWith SigCol.new

def processRemoteTimeoutWith (agg : Aggregator) (cfg : Config) (em : EpochManager) (validators : ValidatorSet)
    (order : List NodeId) (p : Pacemaker) (safety : Safety) (author : NodeId) (timeout : Timeout) :
    Except Panic (Pacemaker × Safety × List PacemakerCommand) :=
  if timeout.tmInfo.round < p.getCurrentRound then .ok (p, safety, [])
  else if timeout.tmInfo.round ≠ p.getCurrentRound then .error .timeoutRoundNotCurrent
  else if p.invalidTimeoutSenders.contains author then .ok (p, safety, [])
  else do
    let (p₁, safety₁, cmds) ← timeoutAfterHonest cfg validators
      { p with pendingTimeouts := p.pendingTimeouts.insert author timeout } safety
    let (p₂, safety₂, tcCmds) ← certifyTimeoutsWith agg cfg em validators order timeout.tmInfo p₁ safety₁
    return (p₂, safety₂, cmds ++ tcCmds)

def processRemoteTimeout : Config → EpochManager → ValidatorSet → List NodeId → Pacemaker → Safety → NodeId →
    Timeout → Except Panic (Pacemaker × Safety × List PacemakerCommand) :=
  processRemoteTimeoutWith SigCol.new

/-! ## The elementary steps -/

/-- The state after a certificate opened a round of `epoch`. -/
def entered (epoch : Nat) (cert : RoundCertificate) : Pacemaker := ⟨epoch, cert, AMap.empty, [], .zero⟩

/-- What opening a round emits. -/
def enterCommands (epoch : Nat) (cert : RoundCertificate) : List PacemakerCommand :=
  [.enterRound epoch (cert.round + 1) cert, .schedule (cert.round + 1) (getRoundTimer cfg (cert.round + 1))]

/-- What a timeout emits; `safeToVote` is the answer of `Safety.timeout`. -/
def timeoutCommands (p : Pacemaker) (safety : Safety) (safeToVote : Bool) : List PacemakerCommand :=
  let he := p.timeoutExtend safety
  [.scheduleReset, .prepareTimeout (p.timeoutInfo he) he safeToVote
     (if he.getQC.getRound + 1 ≠ p.getCurrentRound then some p.highCertificate else none),
   .schedule p.getCurrentRound (getRoundTimer cfg p.getCurrentRound)]

/-- One elementary change, with what it emits; `given` are the certificates and `sent` the
timeouts the pacemaker is handed. -/
inductive Step (cfg : Config) (em : EpochManager) (given : RoundCertificate → Prop)
    (sent : NodeId → Timeout → Prop) :
    Pacemaker × Safety → List PacemakerCommand → Pacemaker × Safety → Prop
  /-- A timeout of the current round is kept. -/
  | record (p : Pacemaker) (safety : Safety) (author : NodeId) (timeout : Timeout) :
      sent author timeout → timeout.tmInfo.round = p.getCurrentRound → Step cfg em given sent (p, safety) []
        ({ p with pendingTimeouts := p.pendingTimeouts.insert author timeout }, safety)
  /-- Senders of bad signatures are dropped. -/
  | drop (p : Pacemaker) (safety : Safety) (bad : List NodeId) :
      Step cfg em given sent (p, safety) []
        ({ p with invalidTimeoutSenders := p.invalidTimeoutSenders ++ bad
                  pendingTimeouts := p.pendingTimeouts.filter fun id _ => !bad.contains id }, safety)
  | phase (p : Pacemaker) (safety : Safety) (phase : PhaseHonest) :
      Step cfg em given sent (p, safety) [] ({ p with phase := phase }, safety)
  /-- The node times out of its current round. -/
  | timeout (p : Pacemaker) (safety : Safety) :
      safety.highestVote ≤ p.getCurrentRound → Step cfg em given sent (p, safety)
        (timeoutCommands cfg p safety (decide (safety.highestNoEndorse.round < p.getCurrentRound) ||
          safety.maybeHighTip.any fun t => decide (t.blockHeader.blockRound = p.getCurrentRound)))
        (p, { safety with highestVote := p.getCurrentRound })
  /-- A certificate it was given opens a later round. -/
  | enter (p : Pacemaker) (safety : Safety) (cert : RoundCertificate) (epoch : Nat) :
      given cert → p.highCertificate.round < cert.round → em.getEpoch (cert.round + 1) = some epoch →
      Step cfg em given sent (p, safety) (enterCommands cfg epoch cert)
        (entered epoch cert, safety.processCertificate cert)
  /-- A certificate formed from the kept timeouts opens the next round. -/
  | form (p : Pacemaker) (safety : Safety) (validators : ValidatorSet) (order : List NodeId)
      (tcEpoch : Nat) (tc : TimeoutCertificate) (epoch : Nat) :
      validators.hasSuperMajorityVotes p.pendingTimeouts.keys = .ok true →
      newTimeoutCertificate tcEpoch p.getCurrentRound (pick order p.pendingTimeouts) validators.members = .ok tc →
      em.getEpoch (tc.round + 1) = some epoch → Step cfg em given sent (p, safety) (enterCommands cfg epoch (.tc tc))
        (entered epoch (.tc tc), safety.processCertificate (.tc tc))

variable {cfg : Config} {em : EpochManager} {given : RoundCertificate → Prop} {sent : NodeId → Timeout → Prop}
  {p p' : Pacemaker} {safety safety' : Safety}
  {cmds : List PacemakerCommand}
variable {validators : ValidatorSet} {order : List NodeId} {tmInfo : TimeoutInfo} {cert : RoundCertificate}

theorem processCertificate_ok (h : p.processCertificate cfg em safety cert = .ok (p', safety', cmds)) :
    cert.round ≤ p.highCertificate.round ∧ p' = p ∧ safety' = safety ∧ cmds = [] ∨
    p.highCertificate.round < cert.round ∧ ∃ epoch, em.getEpoch (cert.round + 1) = some epoch ∧
      p' = entered epoch cert ∧ safety' = safety.processCertificate cert ∧ cmds = enterCommands cfg epoch cert := by
  unfold processCertificate at h
  split at h
  · rename_i hle
    cases h
    exact .inl ⟨hle, rfl, rfl, rfl⟩
  rename_i hlt
  split at h
  · cases h
  · rename_i epoch hep
    cases h
    exact .inr ⟨by omega, epoch, hep, rfl, rfl, rfl⟩

theorem processCertificate_enter {epoch : Nat} (hlt : p.highCertificate.round < cert.round)
    (hep : em.getEpoch (cert.round + 1) = some epoch) : p.processCertificate cfg em safety cert =
      .ok (entered epoch cert, safety.processCertificate cert, enterCommands cfg epoch cert) := by
  unfold processCertificate
  rw [if_neg (by omega), hep]
  rfl

theorem processCertificate_round (h : p.processCertificate cfg em safety cert = .ok (p', safety', cmds)) :
    p.getCurrentRound ≤ p'.getCurrentRound ∧ safety'.highestVote = safety.highestVote := by
  obtain ⟨-, rfl, rfl, -⟩ | ⟨hlt, epoch, -, rfl, rfl, -⟩ := processCertificate_ok h
  · exact ⟨le_rfl, rfl⟩
  · refine ⟨?_, rfl⟩
    simp only [getCurrentRound, entered]
    omega

theorem processCertificate_run (hgiven : given cert)
    (h : p.processCertificate cfg em safety cert = .ok (p', safety', cmds)) :
    Run (Step cfg em given sent) (p, safety) cmds (p', safety') := by
  obtain ⟨-, rfl, rfl, rfl⟩ | ⟨hlt, epoch, hep, rfl, rfl, rfl⟩ := processCertificate_ok h
  · exact .nil _
  · exact .single (.enter p safety cert epoch hgiven hlt hep)

/-- Commands that at most open a round: none of them is a timeout. -/
def Entering (cfg : Config) (cmds : List PacemakerCommand) : Prop :=
  cmds = [] ∨ ∃ epoch cert, cmds = enterCommands cfg epoch cert

theorem processCertificate_entering
    (h : p.processCertificate cfg em safety cert = .ok (p', safety', cmds)) : Entering cfg cmds := by
  obtain ⟨-, -, -, rfl⟩ | ⟨-, epoch, -, -, -, rfl⟩ := processCertificate_ok h
  · exact .inl rfl
  · exact .inr ⟨epoch, cert, rfl⟩

theorem localTimeoutRound_ok (h : p.localTimeoutRound cfg safety = .ok (safety', cmds)) :
    safety.highestVote ≤ p.getCurrentRound ∧ safety' = { safety with highestVote := p.getCurrentRound } ∧
    cmds = timeoutCommands cfg p safety (decide (safety.highestNoEndorse.round < p.getCurrentRound) ||
      safety.maybeHighTip.any fun t => decide (t.blockHeader.blockRound = p.getCurrentRound)) := by
  unfold localTimeoutRound at h
  obtain ⟨⟨b, s₁⟩, htm, hrest⟩ := bind_eq_ok.mp h
  obtain ⟨hle, rfl, rfl⟩ := Safety.timeout_ok.mp htm
  cases hrest
  exact ⟨hle, rfl, rfl⟩

theorem processLocalTimeout_run {m : EpochManager} (h : p.processLocalTimeout cfg safety = .ok (p', safety', cmds)) :
    Run (Step cfg m given sent) (p, safety) cmds (p', safety') := by
  unfold processLocalTimeout at h
  obtain ⟨⟨s₁, c₁⟩, hlt, hrest⟩ := bind_eq_ok.mp h
  obtain ⟨hle, rfl, rfl⟩ := localTimeoutRound_ok hlt
  cases hrest
  have hphase : Run (Step cfg m given sent) (p, { safety with highestVote := p.getCurrentRound }) []
      ({ p with phase := .one }, { safety with highestVote := p.getCurrentRound }) := .single (.phase _ _ _)
  simpa using (Run.single (.timeout p safety hle)).trans hphase

theorem tryFormTCWith_eq {agg : Aggregator} {r : Except Panic (Pacemaker × Safety × List PacemakerCommand)}
    (h : tryFormTCWith agg cfg em validators order tmInfo p safety = r) :
    r = .ok (p, safety, []) ∨ ∃ turns, tryFormTCLoop agg cfg em validators order tmInfo turns p safety = some r := by
  unfold tryFormTCWith at h
  cases hloop : tryFormTCLoop agg cfg em validators order tmInfo (p.pendingTimeouts.entries.length + 1) p safety with
  | none => exact .inl (by rw [← h, hloop]; rfl)
  | some r' =>
    rw [hloop] at h
    exact .inr ⟨_, hloop.trans (congrArg some h)⟩

/-- The rule for the loop of `tryFormTC`: it stops, it forms a certificate and processes it, or it
goes on without the senders of bad signatures. -/
theorem tryFormTCWith_ok {agg : Aggregator} {motive : Pacemaker → Prop} {r : Pacemaker × Safety × List PacemakerCommand}
    (done : ∀ p, (p, safety, []) = r → motive p)
    (formed : ∀ p tc, validators.hasSuperMajorityVotes p.pendingTimeouts.keys = .ok true →
      newTimeoutCertificateWith agg tmInfo.epoch tmInfo.round (pick order p.pendingTimeouts) validators.members = .ok tc →
      p.processCertificate cfg em safety (.tc tc) = .ok r → motive p)
    (dropped : ∀ p bad, newTimeoutCertificateWith agg tmInfo.epoch tmInfo.round (pick order p.pendingTimeouts)
        validators.members = .error (.invalidSignaturesCreate bad) → motive { p with
        invalidTimeoutSenders := p.invalidTimeoutSenders ++ bad
        pendingTimeouts := p.pendingTimeouts.filter fun id _ => !bad.contains id } → motive p)
    (h : tryFormTCWith agg cfg em validators order tmInfo p safety = .ok r) : motive p := by
  replace h := tryFormTCWith_eq h
  rcases h with h | ⟨turns, h⟩
  · exact done p (Except.ok.inj h.symm)
  induction turns generalizing p with
  | zero => cases h
  | succ turns ih =>
    unfold tryFormTCLoop at h
    split at h
    · cases h
    · exact done p (Except.ok.inj (Option.some.inj h))
    rename_i hsuper
    split at h
    · rename_i tc htc
      obtain ⟨⟨p₁, s₁, c₁⟩, hpc, hrest⟩ := bind_eq_ok.mp (Option.some.inj h)
      by_cases hphase : p₁.phase = .zero
      · simp only [hphase, ne_eq, not_true_eq_false, if_false] at hrest
        cases hrest
        exact formed p tc hsuper htc hpc
      · simp [hphase] at hrest
    · rename_i bad hbad
      exact dropped p bad hbad (ih h)
    · cases h

theorem tryFormTC_run (hround : tmInfo.round = p.getCurrentRound)
    (h : tryFormTC cfg em validators order tmInfo p safety = .ok (p', safety', cmds)) :
    Run (Step cfg em given sent) (p, safety) cmds (p', safety') := by
  refine tryFormTCWith_ok (motive := fun p => tmInfo.round = p.getCurrentRound →
    Run (Step cfg em given sent) (p, safety) cmds (p', safety')) ?_ ?_ ?_ h hround
  · intro p hdone _
    cases hdone
    exact .nil _
  · intro p tc hsuper htc hpc hround
    have hr : tc.round = p.getCurrentRound := by
      obtain ⟨tr, -, heq⟩ := bind_eq_ok.mp htc
      cases heq
      exact hround
    obtain ⟨hle, -⟩ | ⟨-, epoch, hep, rfl, rfl, rfl⟩ := processCertificate_ok hpc
    · simp only [RoundCertificate.round, hr, getCurrentRound] at hle
      omega
    · rw [hround] at htc
      exact .single (.form p safety validators order tmInfo.epoch tc epoch hsuper htc hep)
  · intro p bad _ ih hround
    simpa using (Run.single (.drop p safety bad)).trans (ih hround)

theorem tryFormTC_entering
    (h : tryFormTC cfg em validators order tmInfo p safety = .ok (p', safety', cmds)) : Entering cfg cmds := by
  refine tryFormTCWith_ok (motive := fun _ => Entering cfg cmds) ?_ ?_ (fun _ _ _ ih => ih) h
  · intro p hdone
    cases hdone
    exact .inl rfl
  · intro p tc _ _ hpc
    exact processCertificate_entering hpc

theorem certifyTimeouts_entering
    (h : p.certifyTimeouts cfg em validators order tmInfo safety = .ok (p', safety', cmds)) : Entering cfg cmds := by
  unfold certifyTimeouts certifyTimeoutsWith at h
  split at h
  · exact tryFormTC_entering h
  · cases h
    exact .inl rfl

theorem tryFormTC_error {e : Panic} (hround : tmInfo.round = p.getCurrentRound)
    (h : tryFormTC cfg em validators order tmInfo p safety = .error e) :
    e = .hasSuperMajorityVotes ∨ e = .epochMissing ∨ ∃ err, e = .tcCreation err := by
  replace h := tryFormTCWith_eq h
  rcases h with h | ⟨turns, h⟩
  · cases h
  induction turns generalizing p with
  | zero => cases h
  | succ turns ih =>
    unfold tryFormTCLoop at h
    split at h
    · cases h
      exact .inl rfl
    · cases h
    split at h
    · rename_i tc htc
      have hr : tc.round = p.getCurrentRound := by
        obtain ⟨tr, -, heq⟩ := bind_eq_ok.mp htc
        cases heq
        exact hround
      rcases bind_eq_error.mp (Option.some.inj h) with h | ⟨⟨p₁, s₁, c₁⟩, hpc, h⟩
      · unfold processCertificate at h
        split at h
        · cases h
        split at h
        · cases h
          exact .inr (.inl rfl)
        · cases h
      · -- the certificate is above that of the round, so the round was entered afresh
        obtain ⟨hle, -⟩ | ⟨-, epoch, -, rfl, -⟩ := processCertificate_ok hpc
        · simp only [RoundCertificate.round, hr, getCurrentRound] at hle
          omega
        · simp [entered, pure, Except.pure] at h
    · rename_i bad _
      exact ih (p := { p with
        invalidTimeoutSenders := p.invalidTimeoutSenders ++ bad
        pendingTimeouts := p.pendingTimeouts.filter fun id _ => !bad.contains id }) hround h
    · cases h
      exact .inr (.inr ⟨_, rfl⟩)

theorem timeoutAfterHonest_run (h : p.timeoutAfterHonest cfg validators safety = .ok (p', safety', cmds)) :
    Run (Step cfg em given sent) (p, safety) cmds (p', safety') := by
  unfold timeoutAfterHonest at h
  split at h
  · split at h
    · cases h
    · cases h
      exact .nil _
    · exact processLocalTimeout_run h
  · cases h
    exact .nil _

theorem processLocalTimeout_highCertificate (h : p.processLocalTimeout cfg safety = .ok (p', safety', cmds)) :
    p'.highCertificate = p.highCertificate := by
  unfold processLocalTimeout at h
  obtain ⟨⟨s₁, c₁⟩, -, hrest⟩ := bind_eq_ok.mp h
  cases hrest
  rfl

theorem timeoutAfterHonest_highCertificate (h : p.timeoutAfterHonest cfg validators safety = .ok (p', safety', cmds)) :
    p'.highCertificate = p.highCertificate := by
  unfold timeoutAfterHonest at h
  split at h
  · split at h
    · cases h
    · cases h
      rfl
    · exact processLocalTimeout_highCertificate h
  · cases h
    rfl

theorem certifyTimeouts_run (hround : tmInfo.round = p.getCurrentRound)
    (h : p.certifyTimeouts cfg em validators order tmInfo safety = .ok (p', safety', cmds)) :
    Run (Step cfg em given sent) (p, safety) cmds (p', safety') := by
  unfold certifyTimeouts certifyTimeoutsWith at h
  split at h
  · exact tryFormTC_run hround h
  · cases h
    exact .nil _

theorem processRemoteTimeout_run {author : NodeId} {timeout : Timeout} (hsent : sent author timeout)
    (h : p.processRemoteTimeout cfg em validators order safety author timeout = .ok (p', safety', cmds)) :
    Run (Step cfg em given sent) (p, safety) cmds (p', safety') := by
  unfold processRemoteTimeout processRemoteTimeoutWith at h
  split at h
  · cases h
    exact .nil _
  split at h
  · cases h
  rename_i hround
  have hround : timeout.tmInfo.round = p.getCurrentRound := not_not.mp hround
  split at h
  · cases h
    exact .nil _
  obtain ⟨⟨p₁, s₁, c₁⟩, hfirst, hrest⟩ := bind_eq_ok.mp h
  obtain ⟨⟨p₂, s₂, c₂⟩, hsecond, hlast⟩ := bind_eq_ok.mp hrest
  cases hlast
  have hrec : Run (Step cfg em given sent) (p, safety) []
      ({ p with pendingTimeouts := p.pendingTimeouts.insert author timeout }, safety) :=
    .single (.record p safety author timeout hsent hround)
  refine (hrec.trans (timeoutAfterHonest_run hfirst)).trans (certifyTimeouts_run ?_ hsecond)
  rw [hround, getCurrentRound, getCurrentRound, timeoutAfterHonest_highCertificate hfirst]

end Pacemaker

end MonadBft
