/-
  MonadBft.Consensus.VoteState — collecting votes and no-endorsements
  (`consensus.VoteState`, `consensus.NoEndorsementState`).

  Both collect signatures by round and by what is signed, and aggregate them once a
  supermajority has signed. Signatures are checked only then: the senders of bad ones are
  dropped and barred for the round, and the aggregation is tried again (`certifyLoop`). The
  signatures a node has sent (`nodeVotes`, `nodeNEs`) are written and never read, and are
  left out.

  Proved: the loop ends if each failed aggregation blames a signer (`certifyLoop_ends`); a QC
  that comes out is signed by a supermajority (`processVote_qc`), and the signatures kept are
  kept ones or the new one (`processVote_kept`).
-/
import MonadBft.Messages
import MonadBft.Validator

namespace MonadBft

open Lib AMap

/-- The loop of `ProcessVote` and `ProcessNoEndorsement`: the certificate if one is made, the
signatures still kept and the barred senders; `none` when the turns run out. -/
def certifyLoop (agg : Aggregator) (validators : ValidatorSet) (msg : SignedMsg) :
    Nat → AMap NodeId BlsSignature → List NodeId → Option (Option SigCol × AMap NodeId BlsSignature × List NodeId)
  | 0, _, _ => none
  | turns + 1, sigs, barred =>
    match validators.hasSuperMajorityVotes sigs.keys with
    | .ok true =>
      match agg sigs.entries validators.members msg with
      | .ok sc => some (some sc, sigs, barred)
      | .error (.invalidSignaturesCreate bad) =>
        certifyLoop agg validators msg turns (sigs.filter fun id _ => !bad.contains id) (barred ++ bad)
      | .error _ => some (none, sigs, barred)
    | _ => some (none, sigs, barred)

/-- The loop with a turn for each signature and one more, which are enough (`certifyLoop_ends`). -/
def certify (agg : Aggregator) (validators : ValidatorSet) (msg : SignedMsg) (sigs : AMap NodeId BlsSignature)
    (barred : List NodeId) : Option SigCol × AMap NodeId BlsSignature × List NodeId :=
  (certifyLoop agg validators msg (sigs.entries.length + 1) sigs barred).getD (none, sigs, barred)

variable {validators : ValidatorSet} {author x : NodeId} {barred : List NodeId} {sg : BlsSignature}
  {agg : Aggregator} {msg : SignedMsg} {sigs : AMap NodeId BlsSignature}

/-- The rule of the loop: it stops, with a certificate or without, or it drops the blamed and goes on. -/
theorem certify_rule
    {motive : AMap NodeId BlsSignature → List NodeId → Option SigCol × AMap NodeId BlsSignature × List NodeId → Prop}
    (stop : ∀ sigs barred, motive sigs barred (none, sigs, barred))
    (made : ∀ sigs barred sc, validators.hasSuperMajorityVotes sigs.keys = .ok true →
      agg sigs.entries validators.members msg = .ok sc → motive sigs barred (some sc, sigs, barred))
    (drop : ∀ sigs barred bad r, agg sigs.entries validators.members msg = .error (.invalidSignaturesCreate bad) →
      motive (sigs.filter fun id _ => !bad.contains id) (barred ++ bad) r → motive sigs barred r)
    (sigs : AMap NodeId BlsSignature) (barred : List NodeId) :
    motive sigs barred (certify agg validators msg sigs barred) := by
  have hloop : ∀ turns sigs barred r, certifyLoop agg validators msg turns sigs barred = some r → motive sigs barred r := by
    intro turns
    induction turns with
    | zero =>
      intro sigs barred r h
      cases h
    | succ turns ih =>
      intro sigs barred r h
      unfold certifyLoop at h
      split at h
      · rename_i hsuper
        split at h
        · rename_i sc hnew
          cases h
          exact made sigs barred sc hsuper hnew
        · rename_i bad hbad
          exact drop sigs barred bad r hbad (ih _ _ r h)
        · cases h
          exact stop sigs barred
      · cases h
        exact stop sigs barred
  unfold certify
  cases h : certifyLoop agg validators msg (sigs.entries.length + 1) sigs barred with
  | none => exact stop sigs barred
  | some r => exact hloop _ _ _ r h

theorem certify_some {kept : AMap NodeId BlsSignature} {barred' : List NodeId} {sc : SigCol}
    (h : certify SigCol.new validators msg sigs barred = (some sc, kept, barred')) :
    sc.CertifiedBy validators msg ∧ ∀ sg ∈ sc.sig, ∃ x, kept.get x = some sg := by
  refine certify_rule (motive := fun _ _ r => r = (some sc, kept, barred') →
    sc.CertifiedBy validators msg ∧ ∀ sg ∈ sc.sig, ∃ x, kept.get x = some sg) ?_ ?_ (fun _ _ _ _ _ ih => ih) sigs barred h
  · rintro sigs barred ⟨⟩
  · rintro sigs barred sc hsuper hnew ⟨⟩
    refine ⟨SigCol.new_certifiedBy hnew hsuper, ?_⟩
    intro sg hsg
    obtain ⟨x, hx⟩ := SigCol.new_sig_mem hnew hsg
    exact ⟨x, get_eq_some.mpr hx⟩

theorem certify_get (h : (certify agg validators msg sigs barred).2.1.get x = some sg) : sigs.get x = some sg := by
  refine certify_rule (motive := fun sigs _ r => r.2.1.get x = some sg → sigs.get x = some sg) (fun _ _ => id)
    (fun _ _ _ _ _ => id) ?_ sigs barred h
  intro sigs _ bad r _ ih hr
  have hget := ih hr
  rw [get_filter, Option.filter_eq_some_iff] at hget
  exact hget.1

section Blames

variable {valid : SignedMsg → NodeId → BlsSignature → Bool}

theorem length_drop_lt {bad : List NodeId} (hagg : agg.Blames valid)
    (h : agg sigs.entries validators.members msg = .error (.invalidSignaturesCreate bad)) :
    (sigs.filter fun id _ => !bad.contains id).entries.length < sigs.entries.length := by
  obtain ⟨hne, hbad⟩ := hagg _ _ _ _ h
  obtain ⟨y, hy⟩ := List.exists_mem_of_ne_nil _ hne
  obtain ⟨sg, hmem, -⟩ := hbad y hy
  exact List.length_filter_lt_length_iff_exists.mpr ⟨(y, sg), hmem, by simpa using hy⟩

/-- The loop ends: each turn but the last drops a signature. -/
theorem certifyLoop_ends {turns : Nat} (hagg : agg.Blames valid) (hturns : sigs.entries.length < turns) :
    (certifyLoop agg validators msg turns sigs barred).isSome := by
  induction turns generalizing sigs barred with
  | zero => omega
  | succ turns ih =>
    unfold certifyLoop
    split
    · split
      · rfl
      · rename_i bad hbad
        have hlt := length_drop_lt hagg hbad
        exact ih (by omega)
      · rfl
    · rfl

/-- Who is barred by the loop had a signature in it that is not valid. -/
theorem certify_barred (hagg : agg.Blames valid) (h : x ∈ (certify agg validators msg sigs barred).2.2) :
    x ∈ barred ∨ ∃ sg, sigs.get x = some sg ∧ valid msg x sg = false := by
  refine certify_rule (motive := fun sigs barred r => x ∈ r.2.2 →
    x ∈ barred ∨ ∃ sg, sigs.get x = some sg ∧ valid msg x sg = false) (fun _ _ => .inl) (fun _ _ _ _ _ => .inl) ?_
    sigs barred h
  intro sigs barred bad r hbad ih hr
  rcases ih hr with hx | ⟨sg, hget, hinv⟩
  · rcases List.mem_append.mp hx with hx | hx
    · exact .inl hx
    · obtain ⟨sg, hmem, hinv⟩ := (hagg _ _ _ _ hbad).2 x hx
      exact .inr ⟨sg, get_eq_some.mpr hmem, hinv⟩
  · rw [get_filter, Option.filter_eq_some_iff] at hget
    exact .inr ⟨sg, hget.1, hinv⟩

theorem certify_insert_barred (hagg : agg.Blames valid) {sig : BlsSignature}
    (h : x ∈ (certify agg validators msg (sigs.insert author sig) barred).2.2) :
    x ∈ barred ∨ ∃ sg, valid msg x sg = false ∧ (sigs.get x = some sg ∨ x = author ∧ sg = sig) := by
  rcases certify_barred hagg h with hx | ⟨sg, hget, hinv⟩
  · exact .inl hx
  · exact .inr ⟨sg, hinv, of_get_insert hget⟩

/-- A valid signature is kept. -/
theorem certify_keeps (hagg : agg.Blames valid) (hget : sigs.get x = some sg)
    (hvalid : valid msg x sg = true) : (certify agg validators msg sigs barred).2.1.get x = some sg := by
  refine certify_rule (motive := fun sigs _ r => sigs.get x = some sg → r.2.1.get x = some sg) (fun _ _ => id)
    (fun _ _ _ _ _ => id) ?_ sigs barred hget
  intro sigs _ bad r hbad ih hget
  refine ih ?_
  rw [get_filter, hget, Option.filter_eq_some_iff]
  refine ⟨rfl, ?_⟩
  simp only [Bool.not_eq_true', List.contains_eq_mem, decide_eq_false_iff_not]
  intro hx
  obtain ⟨sg', hmem, hinv⟩ := (hagg _ _ _ _ hbad).2 x hx
  obtain rfl : sg' = sg := by simpa [hget] using (get_eq_some.mpr hmem).symm
  rw [hvalid] at hinv
  cases hinv

end Blames

/-! ## Votes -/

/-- `roundVoteState`. A node may be in several buckets. -/
structure RoundVoteState where
  pendingVotes : AMap Vote (AMap NodeId BlsSignature)
  invalidVoters : List NodeId
  deriving DecidableEq

structure VoteState where
  pendingVotes : AMap Nat RoundVoteState
  earliestRound : Nat
  deriving DecidableEq

namespace VoteState

def new (round : Nat) : VoteState := ⟨AMap.empty, round⟩

def roundState (v : VoteState) (round : Nat) : RoundVoteState :=
  (v.pendingVotes.get round).getD ⟨AMap.empty, []⟩

/-- `ProcessVote`: keep the vote, and return a QC when one is formed. -/
def processVoteWith (agg : Aggregator) (v : VoteState) (author : NodeId) (m : VoteMessage) (validators : ValidatorSet) :
    VoteState × Option QuorumCertificate :=
  let round := m.vote.round
  if round < v.earliestRound then (v, none)
  else
    let rs := v.roundState round
    let rpv := (rs.pendingVotes.get m.vote).getD AMap.empty
    if rs.invalidVoters.contains author then
      ({ v with pendingVotes :=
          v.pendingVotes.insert round { rs with pendingVotes := rs.pendingVotes.insert m.vote rpv } }, none)
    else
      let rpv := rpv.insert author m.sig
      let r := certify agg validators (.vote m.vote) rpv rs.invalidVoters
      let pending := v.pendingVotes.insert round ⟨rs.pendingVotes.insert m.vote r.2.1, r.2.2⟩
      match r.1 with
      | none => ({ v with pendingVotes := pending }, none)
      | some sc => (⟨pending, round + 1⟩, some ⟨m.vote, sc⟩)

def processVote : VoteState → NodeId → VoteMessage → ValidatorSet → VoteState × Option QuorumCertificate :=
  processVoteWith SigCol.new

def startNewRound (v : VoteState) (newRound : Nat) : VoteState :=
  ⟨v.pendingVotes.filter fun r _ => !decide (r < newRound), newRound⟩

theorem roundState_startNewRound (v : VoteState) (newRound round : Nat) : (v.startNewRound newRound).roundState round =
      if round < newRound then ⟨empty, []⟩ else v.roundState round := by
  simp only [roundState, startNewRound, get_filter]
  by_cases hlt : round < newRound
  · cases v.pendingVotes.get round <;> simp [hlt, Option.filter]
  · cases v.pendingVotes.get round <;> simp [hlt, Option.filter]

def bucket (v : VoteState) (vote : Vote) : AMap NodeId BlsSignature :=
  ((v.roundState vote.round).pendingVotes.get vote).getD AMap.empty

variable {v : VoteState} {sg : BlsSignature} {vote : Vote} {m : VoteMessage} {newRound round : Nat}

theorem bucket_startNewRound (h : newRound ≤ vote.round) : (v.startNewRound newRound).bucket vote = v.bucket vote := by
  rw [bucket, roundState_startNewRound, if_neg (by omega)]
  rfl

section Process

variable {agg : Aggregator} {v : VoteState} {author : NodeId} {m : VoteMessage} {validators : ValidatorSet}

theorem processVote_other (h : round ≠ m.vote.round) :
    (v.processVoteWith agg author m validators).1.roundState round = v.roundState round := by
  simp only [processVoteWith]
  split
  · rfl
  split
  · simp [roundState, get_insert_ne _ _ h]
  split <;> simp [roundState, get_insert_ne _ _ h]

theorem bucket_processVote_other (h : vote ≠ m.vote) :
    (v.processVoteWith agg author m validators).1.bucket vote = v.bucket vote := by
  by_cases hround : vote.round = m.vote.round
  · simp only [bucket, processVoteWith]
    split
    · rfl
    split
    · simp [roundState, hround, get_insert_ne _ _ h]
    split <;> simp [roundState, hround, get_insert_ne _ _ h]
  · rw [bucket, processVote_other hround]
    rfl

/-- A vote that is too early, or of a barred voter, is not counted. -/
theorem processVote_skips (h : m.vote.round < v.earliestRound ∨ author ∈ (v.roundState m.vote.round).invalidVoters) :
    (v.processVoteWith agg author m validators).2 = none ∧
      (v.processVoteWith agg author m validators).1.bucket m.vote = v.bucket m.vote ∧
      (v.processVoteWith agg author m validators).1.earliestRound = v.earliestRound := by
  by_cases hearly : m.vote.round < v.earliestRound
  · have heq : v.processVoteWith agg author m validators = (v, none) := by
      simp only [processVoteWith, if_pos hearly]
    rw [heq]
    exact ⟨rfl, rfl, rfl⟩
  · have hbarred : (v.roundState m.vote.round).invalidVoters.contains author = true := by
      simpa using h.resolve_left hearly
    have heq : v.processVoteWith agg author m validators =
        ({ v with pendingVotes := v.pendingVotes.insert m.vote.round { v.roundState m.vote.round with
            pendingVotes := (v.roundState m.vote.round).pendingVotes.insert m.vote (v.bucket m.vote) } }, none) := by
      simp only [processVoteWith, if_neg hearly, hbarred, if_true]
      rfl
    rw [heq]
    refine ⟨rfl, ?_, rfl⟩
    rw [bucket, roundState, get_insert_self, Option.getD_some, get_insert_self, Option.getD_some]

/-- Any other vote is added to its bucket, and the bucket is certified if it can be. -/
theorem processVote_collects (hearly : ¬m.vote.round < v.earliestRound)
    (hbarred : author ∉ (v.roundState m.vote.round).invalidVoters) :
    let r := certify agg validators (.vote m.vote) ((v.bucket m.vote).insert author m.sig)
      (v.roundState m.vote.round).invalidVoters
    (v.processVoteWith agg author m validators).2 = r.1.map (fun sc => ⟨m.vote, sc⟩) ∧
      (v.processVoteWith agg author m validators).1.bucket m.vote = r.2.1 ∧
      (v.processVoteWith agg author m validators).1.earliestRound = if r.1.isSome then m.vote.round + 1 else v.earliestRound := by
  intro r
  have hnot : (v.roundState m.vote.round).invalidVoters.contains author = false := by simpa using hbarred
  have heq : v.processVoteWith agg author m validators = match r.1 with
      | none => (⟨v.pendingVotes.insert m.vote.round
          ⟨(v.roundState m.vote.round).pendingVotes.insert m.vote r.2.1, r.2.2⟩, v.earliestRound⟩, none)
      | some sc => (⟨v.pendingVotes.insert m.vote.round
          ⟨(v.roundState m.vote.round).pendingVotes.insert m.vote r.2.1, r.2.2⟩, m.vote.round + 1⟩, some ⟨m.vote, sc⟩) := by
    simp only [processVoteWith, if_neg hearly, hnot, if_false, Bool.false_eq_true]
    rfl
  rw [heq]
  cases r.1 with
  | none =>
    refine ⟨rfl, ?_, rfl⟩
    rw [bucket, roundState, get_insert_self, Option.getD_some, get_insert_self, Option.getD_some]
  | some sc =>
    refine ⟨rfl, ?_, rfl⟩
    rw [bucket, roundState, get_insert_self, Option.getD_some, get_insert_self, Option.getD_some]

end Process

/-- What a vote changes: its bucket, to which at most the vote is added, and the barred voters, to
which only those are added whose signature in the bucket is not valid. -/
theorem processVote_kept (agg : Aggregator) (v : VoteState) (author : NodeId) (m : VoteMessage)
    (validators : ValidatorSet) : (v.processVoteWith agg author m validators).1 = v ∨ ∃ sigs barred earliest,
      (v.processVoteWith agg author m validators).1 = ⟨v.pendingVotes.insert m.vote.round
        ⟨(v.roundState m.vote.round).pendingVotes.insert m.vote sigs, barred⟩, earliest⟩ ∧
      (∀ x sg, sigs.get x = some sg →
        (((v.roundState m.vote.round).pendingVotes.get m.vote).getD empty).get x = some sg ∨
          x = author ∧ sg = m.sig) ∧ ∀ valid, agg.Blames valid → ∀ x ∈ barred,
        x ∈ (v.roundState m.vote.round).invalidVoters ∨ ∃ sg, valid (.vote m.vote) x sg = false ∧
        ((((v.roundState m.vote.round).pendingVotes.get m.vote).getD empty).get x = some sg ∨
          x = author ∧ sg = m.sig) := by
  simp only [processVoteWith]
  split
  · exact .inl rfl
  right
  split
  · exact ⟨_, _, _, rfl, fun x sg hx => .inl hx, fun _ _ x hx => .inl hx⟩
  split <;> exact ⟨_, _, _, rfl, fun x sg hx => of_get_insert (certify_get hx),
    fun _ hagg x hx => certify_insert_barred hagg hx⟩

def Stored (v : VoteState) (sg : BlsSignature) : Prop :=
  ∃ round vote x, (((v.roundState round).pendingVotes.get vote).bind (·.get x)) = some sg

/-- A QC that comes out is on the vote that completed it, and made of kept signatures. -/
theorem processVote_qc {qc : QuorumCertificate} (h : (v.processVote author m validators).2 = some qc) :
    qc.info = m.vote ∧ qc.signatures.CertifiedBy validators (.vote qc.info) ∧
      ∀ sg ∈ qc.signatures.sig, (v.processVote author m validators).1.Stored sg := by
  simp only [processVote, processVoteWith] at h ⊢
  split at h
  · cases h
  rename_i hearly
  split at h
  · cases h
  rename_i hbarred
  split at h
  · cases h
  rename_i sc hsc
  cases h
  rw [if_neg hearly, if_neg hbarred]
  obtain ⟨hcert, hsig⟩ := certify_some (Prod.ext hsc rfl)
  refine ⟨rfl, hcert, ?_⟩
  intro sg hsg
  obtain ⟨x, hx⟩ := hsig sg hsg
  exact ⟨m.vote.round, m.vote, x, by simpa [roundState] using hx⟩

end VoteState

/-! ## No-endorsements -/

structure RoundNEState where
  qcRoundNEs : AMap Nat (AMap NodeId BlsSignature)
  invalidSenders : List NodeId
  certificate : Option NoEndorsementCertificate
  deriving DecidableEq

structure NoEndorsementState where
  pending : AMap Nat RoundNEState
  earliestRound : Nat
  deriving DecidableEq

namespace NoEndorsementState

def new (round : Nat) : NoEndorsementState := ⟨AMap.empty, round⟩

variable (n : NoEndorsementState)

def roundState (round : Nat) : RoundNEState :=
  (n.pending.get round).getD ⟨AMap.empty, [], none⟩

/-- `ProcessNoEndorsement`: keep the no-endorsement, and return the NEC when one is formed. -/
def processNoEndorsementWith (agg : Aggregator) (n : NoEndorsementState) (author : NodeId) (m : NoEndorsementMessage)
    (validators : ValidatorSet) : NoEndorsementState × Option NoEndorsementCertificate :=
  let round := m.msg.round
  if round < n.earliestRound then (n, none)
  else
    let rs := n.roundState round
    let rp := (rs.qcRoundNEs.get m.msg.tipQcRound).getD AMap.empty
    if rs.invalidSenders.contains author then
      ({ n with pending :=
          n.pending.insert round { rs with qcRoundNEs := rs.qcRoundNEs.insert m.msg.tipQcRound rp } }, none)
    else
      let rp := rp.insert author m.signature
      let r := certify agg validators (.noEndorsement m.msg) rp rs.invalidSenders
      let nes := rs.qcRoundNEs.insert m.msg.tipQcRound r.2.1
      match r.1 with
      | none => ({ n with pending := n.pending.insert round ⟨nes, r.2.2, rs.certificate⟩ }, none)
      | some sc =>
        let nec : NoEndorsementCertificate := ⟨m.msg, sc⟩
        (⟨n.pending.insert round ⟨nes, r.2.2, some nec⟩, round + 1⟩, some nec)

def processNoEndorsement : NoEndorsementState → NodeId → NoEndorsementMessage → ValidatorSet →
    NoEndorsementState × Option NoEndorsementCertificate :=
  processNoEndorsementWith SigCol.new

/-- `StartNewRound`; unlike that of the votes, it does not lower the earliest round. -/
def startNewRound (newRound : Nat) : NoEndorsementState :=
  ⟨n.pending.filter fun r _ => !decide (r < newRound), max n.earliestRound newRound⟩

theorem roundState_startNewRound (newRound round : Nat) : (n.startNewRound newRound).roundState round =
      if round < newRound then ⟨empty, [], none⟩ else n.roundState round := by
  simp only [roundState, startNewRound, get_filter]
  by_cases hlt : round < newRound
  · cases n.pending.get round <;> simp [hlt, Option.filter]
  · cases n.pending.get round <;> simp [hlt, Option.filter]

theorem processNoEndorsement_kept {valid : SignedMsg → NodeId → BlsSignature → Bool} (hagg : agg.Blames valid)
    (n : NoEndorsementState) (author : NodeId) (m : NoEndorsementMessage)
    (validators : ValidatorSet) : (n.processNoEndorsementWith agg author m validators).1 = n ∨
    ∃ sigs barred earliest cert, (n.processNoEndorsementWith agg author m validators).1 = ⟨n.pending.insert m.msg.round
        ⟨(n.roundState m.msg.round).qcRoundNEs.insert m.msg.tipQcRound sigs, barred, cert⟩, earliest⟩ ∧
      (∀ x sg, sigs.get x = some sg →
        (((n.roundState m.msg.round).qcRoundNEs.get m.msg.tipQcRound).getD empty).get x = some sg ∨
          x = author ∧ sg = m.signature) ∧
      ∀ x ∈ barred, x ∈ (n.roundState m.msg.round).invalidSenders ∨ ∃ sg, valid (.noEndorsement m.msg) x sg = false ∧
        ((((n.roundState m.msg.round).qcRoundNEs.get m.msg.tipQcRound).getD empty).get x = some sg ∨
          x = author ∧ sg = m.signature) := by
  simp only [processNoEndorsementWith]
  split
  · exact .inl rfl
  right
  split
  · exact ⟨_, _, _, _, rfl, fun x sg hx => .inl hx, fun x hx => .inl hx⟩
  split <;> exact ⟨_, _, _, _, rfl, fun x sg hx => of_get_insert (certify_get hx),
    fun x hx => certify_insert_barred hagg hx⟩

def getNec (round : Nat) : Option NoEndorsementCertificate :=
  (n.pending.get round).bind (·.certificate)

end NoEndorsementState

end MonadBft
