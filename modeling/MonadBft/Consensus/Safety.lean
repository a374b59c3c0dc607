/-
  MonadBft.Consensus.Safety — the safety watermarks (`consensus.Safety`).

  Each operation that signs something is guarded by a watermark and panics when the
  guard fails. The lemmas say, for each operation, when it succeeds and what it changes
  (`vote_ok`, `noEndorse_ok`, `timeout_ok`, `propose_ok`, `recoveryRequest_ok`).
-/
import MonadBft.Panic

namespace MonadBft

def handledProposalCacheSize : Nat := 100

structure HighNoEndorse where
  round : Nat
  tip : BlockId
  deriving DecidableEq, Repr

/-- `consensus.Safety`. The handled proposals are listed in insertion order, oldest
first. -/
structure Safety where
  maybeHighTip : Option ConsensusTip
  highCertificateQcRound : Nat
  highestVote : Nat
  highestNoEndorse : HighNoEndorse
  highestPropose : Nat
  highestRecoveryRequest : Nat
  handledProposals : List Nat
  deriving DecidableEq, Repr

structure SafetySnapshot where
  maybeHighTip : Option ConsensusTip
  highCertificateQcRound : Nat
  highestVote : Nat
  highestNoEndorseRound : Nat
  highestNoEndorseTip : BlockId
  highestPropose : Nat
  highestRecoveryRequest : Nat
  deriving DecidableEq, Repr

/-- `consensus.NewSafety`: never vote, endorse or propose in the current round. -/
def newSafety (highCertificate : RoundCertificate) (maybeHighTip : Option ConsensusTip) : Safety :=
  let currentRound := highCertificate.round + 1
  { maybeHighTip := maybeHighTip
    highCertificateQcRound := highCertificate.getQC.getRound
    highestVote := currentRound
    highestNoEndorse := ⟨currentRound, GENESIS_BLOCK_ID⟩
    highestPropose := currentRound
    highestRecoveryRequest := currentRound
    handledProposals := [] }

namespace Safety

variable (s : Safety)

/-- `ProcessCertificate`: raise the certified round, drop a tip it has reached. -/
def processCertificate (cert : RoundCertificate) : Safety :=
  let hc := max s.highCertificateQcRound cert.getQC.getRound
  { s with
    highCertificateQcRound := hc
    maybeHighTip := s.maybeHighTip.filter fun t => !decide (t.blockHeader.blockRound ≤ hc) }

variable (round : Nat)

/-- `IsSafeToVote`: once a TC is no-endorsed, only proposals with that TC are voted. -/
def isSafeToVote (lastRoundTcTip : Option BlockId) : Bool :=
  if round = s.highestNoEndorse.round ∧ lastRoundTcTip ≠ some s.highestNoEndorse.tip then false
  else decide (round > s.highestVote)

def vote (lastRoundTcTip : Option BlockId) (tip : ConsensusTip) : Except Panic Safety :=
  if !s.isSafeToVote round lastRoundTcTip then .error .unsafeVote
  else .ok { s with
    highestVote := round
    maybeHighTip := if tip.blockHeader.blockRound > s.highCertificateQcRound then some tip else none }

def isSafeToNoEndorse : Bool :=
  decide (round > max s.highestNoEndorse.round s.highestVote)

def noEndorse (tip : BlockId) : Except Panic Safety :=
  if !s.isSafeToNoEndorse round then .error .unsafeNoEndorse
  else .ok { s with highestNoEndorse := ⟨round, tip⟩ }

/-- `Timeout`: also says whether the timeout may embed a vote for the high tip. -/
def timeout : Except Panic (Bool × Safety) :=
  if round < s.highestVote then .error .timeoutBelowHighestVote
  else .ok (decide (s.highestNoEndorse.round < round) ||
      s.maybeHighTip.any (fun t => decide (t.blockHeader.blockRound = round)),
    { s with highestVote := round })

def isSafeToPropose : Bool :=
  decide (round > max s.highestPropose s.highestVote)

def propose : Except Panic Safety :=
  if !s.isSafeToPropose round then .error .unsafePropose else .ok { s with highestPropose := round }

def isSafeToRecoveryRequest : Bool :=
  decide (round > s.highestRecoveryRequest)

def recoveryRequest : Except Panic Safety :=
  if !s.isSafeToRecoveryRequest round then .error .unsafeRecoveryRequest
  else .ok { s with highestRecoveryRequest := round }

def isSafeToHandleProposal : Bool := !s.handledProposals.contains round

/-- `HandleProposal`: remember the round, evicting the oldest beyond the cache size. -/
def handleProposal : Except Panic Safety :=
  if !s.isSafeToHandleProposal round then .error .proposalAlreadyHandled
  else
    let order := s.handledProposals ++ [round]
    .ok { s with handledProposals := order.drop (order.length - handledProposalCacheSize) }

def snapshot : SafetySnapshot where
  maybeHighTip := s.maybeHighTip
  highCertificateQcRound := s.highCertificateQcRound
  highestVote := s.highestVote
  highestNoEndorseRound := s.highestNoEndorse.round
  highestNoEndorseTip := s.highestNoEndorse.tip
  highestPropose := s.highestPropose
  highestRecoveryRequest := s.highestRecoveryRequest

def ofSnapshot (snap : SafetySnapshot) : Safety where
  maybeHighTip := snap.maybeHighTip
  highCertificateQcRound := snap.highCertificateQcRound
  highestVote := snap.highestVote
  highestNoEndorse := ⟨snap.highestNoEndorseRound, snap.highestNoEndorseTip⟩
  highestPropose := snap.highestPropose
  highestRecoveryRequest := snap.highestRecoveryRequest
  handledProposals := []

/-- `Merge`: the element-wise maximum of the watermarks, with the fresher high tip. -/
def merge (s o : Safety) : Safety :=
  let hc := max s.highCertificateQcRound o.highCertificateQcRound
  { s with
    highCertificateQcRound := hc
    highestVote := max s.highestVote o.highestVote
    highestNoEndorse :=
      if o.highestNoEndorse.round > s.highestNoEndorse.round then o.highestNoEndorse else s.highestNoEndorse
    highestPropose := max s.highestPropose o.highestPropose
    highestRecoveryRequest := max s.highestRecoveryRequest o.highestRecoveryRequest
    maybeHighTip :=
      match o.maybeHighTip with
      | some t =>
        if t.blockHeader.blockRound > hc ∧
            s.maybeHighTip.all (fun u => decide (t.blockHeader.blockRound > u.blockHeader.blockRound)) then
          some t
        else s.maybeHighTip
      | none => s.maybeHighTip }

/-! ## What each operation does -/

variable {s s' : Safety} {round : Nat} {tcTip : Option BlockId}

theorem isSafeToVote_iff : s.isSafeToVote round tcTip ↔
      s.highestVote < round ∧ (round = s.highestNoEndorse.round → tcTip = some s.highestNoEndorse.tip) := by
  unfold isSafeToVote
  split
  · rename_i h
    simp only [Bool.false_eq_true, false_iff, not_and]
    exact fun _ hne => h.2 (hne h.1)
  · rename_i h
    simp only [gt_iff_lt, decide_eq_true_eq]
    refine ⟨fun hr => ⟨hr, fun heq => ?_⟩, And.left⟩
    by_contra hne
    exact h ⟨heq, hne⟩

theorem vote_ok {tip : ConsensusTip} :
    s.vote round tcTip tip = .ok s' ↔ s.isSafeToVote round tcTip ∧ s' = { s with
      highestVote := round
      maybeHighTip := if tip.blockHeader.blockRound > s.highCertificateQcRound then some tip else none } := by
  unfold vote
  cases s.isSafeToVote round tcTip <;> simp [eq_comm]

theorem noEndorse_ok {tip : BlockId} : s.noEndorse round tip = .ok s' ↔
      max s.highestNoEndorse.round s.highestVote < round ∧ s' = { s with highestNoEndorse := ⟨round, tip⟩ } := by
  unfold noEndorse isSafeToNoEndorse
  by_cases h : max s.highestNoEndorse.round s.highestVote < round <;> simp [h, eq_comm]

theorem timeout_ok {b : Bool} :
    s.timeout round = .ok (b, s') ↔ s.highestVote ≤ round ∧ s' = { s with highestVote := round } ∧
      b = (decide (s.highestNoEndorse.round < round) ||
        s.maybeHighTip.any (fun t => decide (t.blockHeader.blockRound = round))) := by
  unfold timeout
  by_cases h : round < s.highestVote
  · simp [h]
  · simp only [h, if_false, Except.ok.injEq, Prod.mk.injEq]
    constructor
    · rintro ⟨rfl, rfl⟩
      exact ⟨by omega, rfl, rfl⟩
    · rintro ⟨-, rfl, rfl⟩
      exact ⟨rfl, rfl⟩

theorem propose_ok : s.propose round = .ok s' ↔
      max s.highestPropose s.highestVote < round ∧ s' = { s with highestPropose := round } := by
  unfold propose isSafeToPropose
  by_cases h : max s.highestPropose s.highestVote < round <;> simp [h, eq_comm]

theorem recoveryRequest_ok : s.recoveryRequest round = .ok s' ↔
      s.highestRecoveryRequest < round ∧ s' = { s with highestRecoveryRequest := round } := by
  unfold recoveryRequest isSafeToRecoveryRequest
  by_cases h : s.highestRecoveryRequest < round <;> simp [h, eq_comm]

end Safety

end MonadBft
