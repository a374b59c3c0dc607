/-
  MonadBft.Consensus.Collector — runs of the three certificate collectors
  (`ProcessRemoteTimeout`, `ProcessVote`, `ProcessNoEndorsement`).

  A collector is the part of the consensus state that these functions read and change, driven
  as the handlers drive it: the certificates of a timeout are processed before the timeout, and
  a QC that comes out of the votes opens the next round. Signatures are points (`Signing`), and
  the keys of the members may be anything.

  Proved: who is barred supplied a signature that does not verify under its own key
  (`step_blamed`), and as long as the keys of those who really signed one timeout message do not
  add up to zero, no input panics (`step_total`); together `collectors_blame_and_progress`. With
  keys that cancel, `cancelling_keys_panic`.
-/
import MonadBft.Consensus.TimeoutCert

namespace MonadBft

open Lib Pacemaker AMap

structure Collector where
  pacemaker : Pacemaker
  safety : Safety
  votes : VoteState
  noEndorsements : NoEndorsementState

namespace Collector

/-- What reaches the collectors: messages of others with their authors, certificates that come
with other messages, the local timer and the node's own votes. `order` is the order in which the
pending timeouts are read. -/
inductive Input where
  | timeout (order : List NodeId) (author : NodeId) (t : Timeout)
  | vote (author : NodeId) (m : VoteMessage)
  | noEndorsement (author : NodeId) (m : NoEndorsementMessage)
  | qc (qc : QuorumCertificate)
  | tc (tc : TimeoutCertificate)
  | localTimeout
  | ownVote (lastRoundTcTip : Option BlockId) (tip : ConsensusTip)

def round (c : Collector) : Nat := c.pacemaker.getCurrentRound

def start (em : EpochManager) (highCertificate : RoundCertificate) (safety : Safety) : Except Panic Collector := do
  let p ← Pacemaker.new em highCertificate
  return ⟨p, safety, VoteState.new p.getCurrentRound, NoEndorsementState.new p.getCurrentRound⟩

variable {K S : Type} [AddCommGroup K] [AddCommGroup S] [DecidableEq K] [DecidableEq S]
variable (b : Signing K S) (cfg : Config) (em : EpochManager) (validators : ValidatorSet)

def afterPacemaker (c : Collector) (r : Pacemaker × Safety × List PacemakerCommand) : Collector :=
  { c with pacemaker := r.1, safety := r.2.1 }

def enterRound (c : Collector) (cert : RoundCertificate) : Except Panic Collector := do
  let r ← c.pacemaker.processCertificate cfg em c.safety cert
  return c.afterPacemaker r

/-- `ProcessQC`; the votes and no-endorsements of past rounds are dropped. -/
def processQC (c : Collector) (qc : QuorumCertificate) : Except Panic Collector :=
  if qc.info.round < c.round then .ok c
  else do
    let c ← c.enterRound cfg em (.qc qc)
    return { c with
      votes := c.votes.startNewRound c.round
      noEndorsements := c.noEndorsements.startNewRound c.round }

def processTC (c : Collector) (tc : TimeoutCertificate) : Except Panic Collector :=
  if tc.round < c.round then .ok c else c.enterRound cfg em (.tc tc)

def localTimeout (c : Collector) : Except Panic Collector := do
  let r ← c.pacemaker.processLocalTimeout cfg c.safety
  return c.afterPacemaker r

/-- The certificate of the last round in a timeout. -/
def lastRound (c : Collector) : Option RoundCertificate → Except Panic Collector
  | none => .ok c
  | some (.qc qc) => c.processQC cfg em qc
  | some (.tc tc) =>
    if tc.round = c.round then do
      let c ← c.localTimeout cfg
      c.processTC cfg em tc
    else c.processTC cfg em tc

def remoteTimeout (c : Collector) (order : List NodeId) (author : NodeId) (t : Timeout) : Except Panic Collector := do
  let r ← c.pacemaker.processRemoteTimeoutWith b.new cfg em validators order c.safety author t
  return c.afterPacemaker r

/-- A timeout message: its certificates, then `ProcessRemoteTimeout`. -/
def timeout (c : Collector) (order : List NodeId) (author : NodeId) (t : Timeout) : Except Panic Collector :=
  if t.tmInfo.round < c.round then .ok c
  else do
    let c ← c.processQC cfg em t.highExtend.asHighExtend.getQC
    let c ← c.lastRound cfg em t.lastRoundCertificate
    c.remoteTimeout b cfg em validators order author t

/-- `ProcessVote`, and the QC that may come out. -/
def vote (c : Collector) (author : NodeId) (m : VoteMessage) : Except Panic Collector :=
  let r := c.votes.processVoteWith b.new author m validators
  match r.2 with
  | none => .ok { c with votes := r.1 }
  | some qc => { c with votes := r.1 }.processQC cfg em qc

def noEndorsement (c : Collector) (author : NodeId) (m : NoEndorsementMessage) : Collector :=
  { c with noEndorsements := (c.noEndorsements.processNoEndorsementWith b.new author m validators).1 }

/-- A vote of the node itself, in its round and if it is safe. -/
def ownVote (c : Collector) (lastRoundTcTip : Option BlockId) (tip : ConsensusTip) : Except Panic Collector :=
  if !c.safety.isSafeToVote c.round lastRoundTcTip then .ok c
  else do
    let safety ← c.safety.vote c.round lastRoundTcTip tip
    return { c with safety := safety }

def step (c : Collector) : Input → Except Panic Collector
  | .timeout order author t => c.timeout b cfg em validators order author t
  | .vote author m => c.vote b cfg em validators author m
  | .noEndorsement author m => .ok (c.noEndorsement b validators author m)
  | .qc qc => c.processQC cfg em qc
  | .tc tc => c.processTC cfg em tc
  | .localTimeout => c.localTimeout cfg
  | .ownVote lastRoundTcTip tip => c.ownVote lastRoundTcTip tip

def run (c : Collector) (inputs : List Input) : Except Panic Collector :=
  inputs.foldlM (step b cfg em validators) c

/-- Along the run, `ok` holds of each state and the input it gets. -/
def Along (ok : Collector → Input → Prop) : Collector → List Input → Prop
  | _, [] => True
  | c, i :: inputs => ok c i ∧ ∀ c', c.step b cfg em validators i = .ok c' → Along ok c' inputs

/-- The message is of a member and validated in the node's round. -/
def Validated (env : ValidatorEnv) (c : Collector) : Input → Prop
  | .timeout _ author t => author ∈ validators.members ∧ ∃ t₀, env.validateTimeout c.round t₀ = .ok t
  | .vote author m => author ∈ validators.members ∧ env.validateVote m = .ok ()
  | .noEndorsement author m => author ∈ validators.members ∧ env.validateNoEndorsement m = .ok ()
  | _ => True

/-- With the new timeout, the keys of those who really signed one message do not cancel. -/
def NoCancel (c : Collector) : Input → Prop
  | .timeout _ author t => b.NoCancel (c.pacemaker.pendingTimeouts.insert author t).entries
  | _ => True

/-! ## Who is barred -/

/-- The pending timeouts are from inputs in `seen`, and who is barred sent one whose signature does
not verify under its own key. -/
structure TimeoutsBlamed (seen : Input → Prop) (p : Pacemaker) : Prop where
  pending : ∀ x t, p.pendingTimeouts.get x = some t → ∃ order, seen (.timeout order x t)
  barred : ∀ x ∈ p.invalidTimeoutSenders, ∃ order t, seen (.timeout order x t) ∧ b.validTimeout (x, t) = false

structure VotesBlamed (valid : Vote → NodeId → BlsSignature → Bool) (seen : Input → Prop) (round : Nat)
    (rs : RoundVoteState) : Prop where
  pending : ∀ vote x sg, ((rs.pendingVotes.get vote).getD AMap.empty).get x = some sg →
    seen (.vote x ⟨vote, sg⟩) ∧ vote.round = round
  barred : ∀ x ∈ rs.invalidVoters, ∃ m, seen (.vote x m) ∧ m.vote.round = round ∧ valid m.vote x m.sig = false

structure NoEndorsementsBlamed (seen : Input → Prop) (round : Nat) (rs : RoundNEState) : Prop where
  pending : ∀ tipQcRound x sg, ((rs.qcRoundNEs.get tipQcRound).getD AMap.empty).get x = some sg →
    ∃ ne, seen (.noEndorsement x ⟨ne, sg⟩) ∧ ne.round = round ∧ ne.tipQcRound = tipQcRound
  barred : ∀ x ∈ rs.invalidSenders, ∃ m, seen (.noEndorsement x m) ∧ m.msg.round = round ∧
    b.valid (.noEndorsement m.msg) x m.signature = false

structure Blamed (seen : Input → Prop) (c : Collector) : Prop where
  timeouts : TimeoutsBlamed b seen c.pacemaker
  votes : ∀ round, VotesBlamed (fun vote => b.valid (.vote vote)) seen round (c.votes.roundState round)
  noEndorsements : ∀ round, NoEndorsementsBlamed b seen round (c.noEndorsements.roundState round)

variable {b cfg em validators} {valid : Vote → NodeId → BlsSignature → Bool} {seen : Input → Prop} {c c' : Collector}

theorem timeoutsBlamed_entered (epoch : Nat) (cert : RoundCertificate) :
    TimeoutsBlamed b seen (entered epoch cert) :=
  ⟨fun x t h => by simp [entered] at h, fun x h => by simp [entered] at h⟩

variable {safety : Safety} {v : VoteState} {author : NodeId} {t : Timeout} {env : ValidatorEnv}
  {highCertificate : RoundCertificate} {m : NoEndorsementMessage} {n : NoEndorsementState} {inputs : List Input}
  {newRound : Nat} {i : Input}

theorem blamed_start (h : start em highCertificate safety = .ok c) : Blamed b seen c := by
  obtain ⟨p, hp, hrest⟩ := bind_eq_ok.mp h
  cases hrest
  refine ⟨?_, fun round => ⟨?_, ?_⟩, fun round => ⟨?_, ?_⟩⟩
  · unfold new at hp
    split at hp
    · cases hp
    · cases hp
      exact timeoutsBlamed_entered _ _
  all_goals simp [VoteState.new, VoteState.roundState, NoEndorsementState.new, NoEndorsementState.roundState]

theorem VotesBlamed.startNewRound (hv : ∀ round, VotesBlamed valid seen round (v.roundState round))
    (round : Nat) : VotesBlamed valid seen round ((v.startNewRound newRound).roundState round) := by
  rw [VoteState.roundState_startNewRound]
  split
  · constructor <;> simp
  · exact hv round

theorem NoEndorsementsBlamed.startNewRound (hn : ∀ round, NoEndorsementsBlamed b seen round (n.roundState round))
    (round : Nat) : NoEndorsementsBlamed b seen round ((n.startNewRound newRound).roundState round) := by
  rw [NoEndorsementState.roundState_startNewRound]
  split
  · constructor <;> simp
  · exact hn round

theorem timeoutsBlamed_remote {order : List NodeId} {p p' : Pacemaker}
    {safety' : Safety} {cmds : List PacemakerCommand} (hp : TimeoutsBlamed b seen p)
    (hseen : seen (.timeout order author t))
    (h : p.processRemoteTimeoutWith b.new cfg em validators order safety author t = .ok (p', safety', cmds)) :
    TimeoutsBlamed b seen p' := by
  unfold processRemoteTimeoutWith at h
  split at h
  · cases h
    exact hp
  split at h
  · cases h
  split at h
  · cases h
    exact hp
  obtain ⟨⟨p₁, s₁, c₁⟩, hfirst, hrest⟩ := bind_eq_ok.mp h
  obtain ⟨⟨p₂, s₂, c₂⟩, hsecond, hlast⟩ := bind_eq_ok.mp hrest
  cases hlast
  have hins : TimeoutsBlamed b seen { p with pendingTimeouts := p.pendingTimeouts.insert author t } := by
    refine ⟨fun x t' hx => ?_, hp.barred⟩
    rcases of_get_insert hx with hx | ⟨rfl, rfl⟩
    · exact hp.pending x t' hx
    · exact ⟨order, hseen⟩
  -- timing out changes neither the timeouts nor the barred senders
  have h₁ : TimeoutsBlamed b seen p₁ := by
    unfold timeoutAfterHonest at hfirst
    split at hfirst
    · split at hfirst
      · cases hfirst
      · cases hfirst
        exact hins
      · obtain ⟨⟨s', c'⟩, -, hp₁⟩ := bind_eq_ok.mp hfirst
        cases hp₁
        exact ⟨hins.pending, hins.barred⟩
    · cases hfirst
      exact hins
  unfold certifyTimeoutsWith at hsecond
  split at hsecond
  · obtain ⟨hpend, hbar⟩ := tryFormTC_barred hsecond
    refine ⟨fun x t' hx => h₁.pending x t' (hpend x t' hx), fun x hx => ?_⟩
    rcases hbar x hx with hx | ⟨t', ht', hinv⟩
    · exact h₁.barred x hx
    · obtain ⟨order', hs⟩ := h₁.pending x t' ht'
      exact ⟨order', t', hs, hinv⟩
  · cases hsecond
    exact h₁

theorem VotesBlamed.mono {seen' : Input → Prop} {round : Nat} {rs : RoundVoteState} (h : VotesBlamed valid seen round rs)
    (hle : ∀ i, seen i → seen' i) : VotesBlamed valid seen' round rs := by
  refine ⟨fun vote x sg hx => ?_, fun x hx => ?_⟩
  · obtain ⟨hs, hr⟩ := h.pending vote x sg hx
    exact ⟨hle _ hs, hr⟩
  · obtain ⟨m, hs, hr, hinv⟩ := h.barred x hx
    exact ⟨m, hle _ hs, hr, hinv⟩

theorem VotesBlamed.process {m : VoteMessage}
    (hv : VotesBlamed valid seen m.vote.round (v.roundState m.vote.round)) (hseen : seen (.vote author m))
    (hvalid : ∀ x sg, b.valid (.vote m.vote) x sg = valid m.vote x sg) :
    VotesBlamed valid seen m.vote.round ((v.processVoteWith b.new author m validators).1.roundState m.vote.round) := by
  rcases VoteState.processVote_kept b.new v author m validators with heq | ⟨sigs, barred, earliest, heq, hsigs, hbar⟩
  · rw [heq]
    exact hv
  have hput : ∀ x sg, (((v.roundState m.vote.round).pendingVotes.get m.vote).getD empty).get x = some sg ∨
      x = author ∧ sg = m.sig → seen (.vote x ⟨m.vote, sg⟩) := by
    rintro x sg (hx | ⟨rfl, rfl⟩)
    · exact (hv.pending m.vote x sg hx).1
    · exact hseen
  rw [heq, VoteState.roundState, get_insert_self, Option.getD_some]
  refine ⟨fun vote x sg hx => ?_, fun x hx => ?_⟩
  · rw [get_insert] at hx
    by_cases hvote : vote = m.vote
    · subst hvote
      rw [if_pos rfl] at hx
      exact ⟨hput x sg (hsigs x sg hx), rfl⟩
    · rw [if_neg hvote] at hx
      exact hv.pending vote x sg hx
  · rcases hbar _ b.new_blames x hx with hx | ⟨sg, hinv, hx⟩
    · exact hv.barred x hx
    · exact ⟨⟨m.vote, sg⟩, hput x sg hx, rfl, by rw [← hvalid, hinv]⟩

theorem votesBlamed_process {m : VoteMessage}
    (hv : ∀ round, VotesBlamed valid seen round (v.roundState round)) (hseen : seen (.vote author m))
    (hvalid : ∀ x sg, b.valid (.vote m.vote) x sg = valid m.vote x sg) (round : Nat) :
    VotesBlamed valid seen round ((v.processVoteWith b.new author m validators).1.roundState round) := by
  by_cases hr : round = m.vote.round
  · rw [hr]
    exact (hv m.vote.round).process hseen hvalid
  · rw [VoteState.processVote_other hr]
    exact hv round

/-- Two no-endorsements of one round are told apart by the round of the tip's QC, as the epoch is
that of the round. -/
theorem noEndorsementsBlamed_process (hn : ∀ round, NoEndorsementsBlamed b seen round (n.roundState round))
    (hseen : seen (.noEndorsement author m))
    (hepoch : ∀ x m, seen (.noEndorsement x m) → em.getEpoch m.msg.round = some m.msg.epoch) (round : Nat) :
    NoEndorsementsBlamed b seen round ((n.processNoEndorsementWith b.new author m validators).1.roundState round) := by
  rcases NoEndorsementState.processNoEndorsement_kept b.new_blames n author m validators with
    heq | ⟨sigs, barred, earliest, cert, heq, hsigs, hbar⟩
  · rw [heq]
    exact hn round
  have hput : ∀ x sg, (((n.roundState m.msg.round).qcRoundNEs.get m.msg.tipQcRound).getD empty).get x = some sg ∨
      x = author ∧ sg = m.signature → seen (.noEndorsement x ⟨m.msg, sg⟩) := by
    rintro x sg (hx | ⟨rfl, rfl⟩)
    · obtain ⟨ne, hs, hround, htip⟩ := (hn m.msg.round).pending m.msg.tipQcRound x sg hx
      have hne : ne = m.msg := by
        have h₁ := hepoch x ⟨ne, sg⟩ hs
        have h₂ := hepoch author m hseen
        rw [hround, h₂] at h₁
        cases ne
        cases hmsg : m.msg
        simp_all
      rwa [hne] at hs
    · exact hseen
  rw [heq]
  simp only [NoEndorsementState.roundState, get_insert]
  by_cases hr : round = m.msg.round
  · subst hr
    simp only [if_true, Option.getD_some]
    refine ⟨fun tipQcRound x sg hx => ?_, fun x hx => ?_⟩
    · rw [get_insert] at hx
      by_cases htip : tipQcRound = m.msg.tipQcRound
      · subst htip
        rw [if_pos rfl] at hx
        exact ⟨m.msg, hput x sg (hsigs x sg hx), rfl, rfl⟩
      · rw [if_neg htip] at hx
        exact (hn m.msg.round).pending tipQcRound x sg hx
    · rcases hbar x hx with hx | ⟨sg, hinv, hx⟩
      · exact (hn m.msg.round).barred x hx
      · exact ⟨⟨m.msg, sg⟩, hput x sg hx, rfl, hinv⟩
  · rw [if_neg hr]
    exact hn round

section

variable (hc : Blamed b seen c)

include hc

theorem Blamed.enterRound {cert : RoundCertificate} (h : c.enterRound cfg em cert = .ok c') : Blamed b seen c' := by
  obtain ⟨⟨p, s, cmds⟩, hp, hrest⟩ := bind_eq_ok.mp h
  cases hrest
  obtain ⟨-, rfl, -⟩ | ⟨-, epoch, -, rfl, -⟩ := processCertificate_ok hp
  · exact ⟨hc.timeouts, hc.votes, hc.noEndorsements⟩
  · exact ⟨timeoutsBlamed_entered _ _, hc.votes, hc.noEndorsements⟩

theorem Blamed.processQC {qc : QuorumCertificate} (h : c.processQC cfg em qc = .ok c') : Blamed b seen c' := by
  unfold Collector.processQC at h
  split at h
  · cases h
    exact hc
  · obtain ⟨c₁, hc₁, hrest⟩ := bind_eq_ok.mp h
    cases hrest
    have h₁ := hc.enterRound hc₁
    exact ⟨h₁.timeouts, VotesBlamed.startNewRound h₁.votes, NoEndorsementsBlamed.startNewRound h₁.noEndorsements⟩

theorem Blamed.processTC {tc : TimeoutCertificate} (h : c.processTC cfg em tc = .ok c') : Blamed b seen c' := by
  unfold Collector.processTC at h
  split at h
  · cases h
    exact hc
  · exact hc.enterRound h

theorem Blamed.localTimeout (h : c.localTimeout cfg = .ok c') : Blamed b seen c' := by
  obtain ⟨⟨p, s, cmds⟩, hp, hrest⟩ := bind_eq_ok.mp h
  cases hrest
  obtain ⟨⟨s₁, c₁⟩, -, hp⟩ := bind_eq_ok.mp hp
  cases hp
  exact ⟨⟨hc.timeouts.pending, hc.timeouts.barred⟩, hc.votes, hc.noEndorsements⟩

theorem Blamed.lastRound {lrc : Option RoundCertificate} (h : c.lastRound cfg em lrc = .ok c') : Blamed b seen c' := by
  unfold Collector.lastRound at h
  split at h
  · cases h
    exact hc
  · exact hc.processQC h
  · split at h
    · obtain ⟨c₁, hc₁, hrest⟩ := bind_eq_ok.mp h
      exact (hc.localTimeout hc₁).processTC hrest
    · exact hc.processTC h

/-- No input bars a sender of valid signatures. -/
theorem step_blamed (hi : seen i)
    (hepoch : ∀ x m, seen (.noEndorsement x m) → em.getEpoch m.msg.round = some m.msg.epoch)
    (h : c.step b cfg em validators i = .ok c') : Blamed b seen c' := by
  cases i with
  | timeout order author t =>
    simp only [step, timeout] at h
    split at h
    · cases h
      exact hc
    obtain ⟨c₁, hc₁, hrest⟩ := bind_eq_ok.mp h
    obtain ⟨c₂, hc₂, hrest⟩ := bind_eq_ok.mp hrest
    have h₂ := (hc.processQC hc₁).lastRound hc₂
    obtain ⟨⟨p, s, cmds⟩, hp, hlast⟩ := bind_eq_ok.mp hrest
    cases hlast
    exact ⟨timeoutsBlamed_remote h₂.timeouts hi hp, h₂.votes, h₂.noEndorsements⟩
  | vote author m =>
    have hv : Blamed b seen { c with votes := (c.votes.processVoteWith b.new author m validators).1 } :=
      ⟨hc.timeouts, votesBlamed_process hc.votes hi fun _ _ => rfl, hc.noEndorsements⟩
    simp only [step, vote] at h
    split at h
    · cases h
      exact hv
    · exact hv.processQC h
  | noEndorsement author m =>
    cases h
    exact ⟨hc.timeouts, hc.votes, noEndorsementsBlamed_process hc.noEndorsements hi hepoch⟩
  | qc qc => exact hc.processQC h
  | tc tc => exact hc.processTC h
  | localTimeout => exact hc.localTimeout h
  | ownVote tcTip tip =>
    simp only [step, ownVote] at h
    split at h
    · cases h
      exact hc
    · obtain ⟨s, -, hlast⟩ := bind_eq_ok.mp h
      cases hlast
      exact ⟨hc.timeouts, hc.votes, hc.noEndorsements⟩

end

/-! ## No panic -/

/-- What keeps the functions from panicking: the timeouts are of members, the highest vote is not
above the round, and the round has an epoch. -/
structure Live (em : EpochManager) (validators : ValidatorSet) (c : Collector) : Prop where
  members : ∀ x ∈ c.pacemaker.pendingTimeouts.keys, x ∈ validators.members
  vote : c.safety.highestVote ≤ c.round
  epoch : (em.getEpoch c.round).isSome

/-- From `c` to `c'` the round does not fall, and the pending timeouts are kept or forgotten. -/
structure Enters (c c' : Collector) : Prop where
  round : c.round ≤ c'.round
  pending : c'.pacemaker.pendingTimeouts = c.pacemaker.pendingTimeouts ∨ c'.pacemaker.pendingTimeouts = AMap.empty

theorem Enters.refl (c : Collector) : Enters c c := ⟨le_rfl, .inl rfl⟩

theorem Enters.trans {c₁ c₂ c₃ : Collector} (h₁ : Enters c₁ c₂) (h₂ : Enters c₂ c₃) : Enters c₁ c₃ := by
  refine ⟨h₁.round.trans h₂.round, ?_⟩
  rcases h₂.pending with h | h
  · rw [h]
    exact h₁.pending
  · exact .inr h

theorem live_start (h : start em highCertificate safety = .ok c)
    (hvote : safety.highestVote ≤ highCertificate.round + 1) : Live em validators c := by
  obtain ⟨p, hp, hrest⟩ := bind_eq_ok.mp h
  cases hrest
  unfold new at hp
  split at hp
  · cases hp
  · rename_i epoch hep
    cases hp
    exact ⟨by simp [keys, empty], hvote, by simp [round, getCurrentRound, hep]⟩

theorem Live.enterRound (hc : Live em validators c) (cfg : Config) (cert : RoundCertificate) :
    ∃ c', c.enterRound cfg em cert = .ok c' ∧ Live em validators c' ∧ Enters c c' ∧ cert.round < c'.round := by
  by_cases hle : cert.round ≤ c.pacemaker.highCertificate.round
  · refine ⟨c, ?_, hc, Enters.refl c, ?_⟩
    · have hpc : c.pacemaker.processCertificate cfg em c.safety cert = .ok (c.pacemaker, c.safety, []) := by
        unfold processCertificate
        rw [if_pos hle]
      simp only [Collector.enterRound, hpc, ok_bind]
      rfl
    · simp only [Collector.round, getCurrentRound]
      omega
  · have hlt : c.round < cert.round + 1 := by
      simp only [round, getCurrentRound]
      omega
    obtain ⟨epoch, hep⟩ := Option.isSome_iff_exists.mp (EpochManager.getEpoch_isSome_mono hlt.le hc.epoch)
    have hpc : c.pacemaker.processCertificate cfg em c.safety cert = .ok (entered epoch cert,
        c.safety.processCertificate cert, enterCommands cfg epoch cert) :=
      processCertificate_enter (by omega) hep
    refine ⟨{ c with pacemaker := entered epoch cert, safety := c.safety.processCertificate cert }, ?_, ?_, ?_, ?_⟩
    · simp only [Collector.enterRound, hpc, ok_bind]
      rfl
    · refine ⟨by simp [entered, keys, empty], ?_, ?_⟩
      · exact hc.vote.trans hlt.le
      · show (em.getEpoch (cert.round + 1)).isSome
        simp [hep]
    · exact ⟨hlt.le, .inr rfl⟩
    · exact Nat.lt_succ_self _

theorem Live.processQC (hc : Live em validators c) (cfg : Config) (qc : QuorumCertificate) :
    ∃ c', c.processQC cfg em qc = .ok c' ∧ Live em validators c' ∧ Enters c c' ∧ qc.info.round < c'.round := by
  unfold Collector.processQC
  split
  · rename_i hlt
    exact ⟨c, rfl, hc, Enters.refl c, hlt⟩
  · obtain ⟨c₁, h₁, hlive, hent, hlt⟩ := hc.enterRound cfg (.qc qc)
    rw [h₁]
    exact ⟨_, rfl, ⟨hlive.members, hlive.vote, hlive.epoch⟩, ⟨hent.round, hent.pending⟩, hlt⟩

theorem Live.processTC (hc : Live em validators c) (cfg : Config) (tc : TimeoutCertificate) :
    ∃ c', c.processTC cfg em tc = .ok c' ∧ Live em validators c' ∧ Enters c c' ∧ tc.round < c'.round := by
  unfold Collector.processTC
  split
  · rename_i hlt
    exact ⟨c, rfl, hc, Enters.refl c, hlt⟩
  · exact hc.enterRound cfg (.tc tc)

theorem processLocalTimeout_total (cfg : Config) {p : Pacemaker} (h : safety.highestVote ≤ p.getCurrentRound) :
    ∃ cmds, p.processLocalTimeout cfg safety =
      .ok ({ p with phase := .one }, { safety with highestVote := p.getCurrentRound }, cmds) := by
  have htm := Safety.timeout_ok.mpr ⟨h, rfl, rfl⟩
  exact ⟨_, by simp only [processLocalTimeout, localTimeoutRound, htm, ok_bind]; rfl⟩

theorem Live.localTimeout (hc : Live em validators c) (cfg : Config) :
    ∃ c', c.localTimeout cfg = .ok c' ∧ Live em validators c' ∧ Enters c c' ∧ c'.round = c.round := by
  obtain ⟨cmds, h⟩ := processLocalTimeout_total cfg hc.vote
  refine ⟨{ c with
    pacemaker := { c.pacemaker with phase := .one }
    safety := { c.safety with highestVote := c.pacemaker.getCurrentRound } }, ?_, ?_, ?_, rfl⟩
  · simp only [Collector.localTimeout, h, ok_bind]
    rfl
  · exact ⟨hc.members, le_rfl, hc.epoch⟩
  · exact ⟨le_rfl, .inl rfl⟩

theorem Live.lastRound (hc : Live em validators c) (cfg : Config) (lrc : Option RoundCertificate) :
    ∃ c', c.lastRound cfg em lrc = .ok c' ∧ Live em validators c' ∧ Enters c c' ∧ ∀ rc ∈ lrc, rc.round < c'.round := by
  rcases lrc with - | (qc | tc)
  · exact ⟨c, rfl, hc, Enters.refl c, by simp⟩
  · obtain ⟨c', h, hl, he, hlt⟩ := hc.processQC cfg qc
    exact ⟨c', h, hl, he, by simpa [RoundCertificate.round] using hlt⟩
  · by_cases hround : tc.round = c.round
    · obtain ⟨c₁, h₁, hl₁, he₁, -⟩ := hc.localTimeout cfg
      obtain ⟨c', h, hl, he, hlt⟩ := hl₁.processTC cfg tc
      refine ⟨c', ?_, hl, he₁.trans he, by simpa [RoundCertificate.round] using hlt⟩
      simp only [Collector.lastRound, hround, if_true, h₁, ok_bind, h]
    · obtain ⟨c', h, hl, he, hlt⟩ := hc.processTC cfg tc
      exact ⟨c', by simpa only [Collector.lastRound, if_neg hround] using h, hl, he, by simpa [RoundCertificate.round] using hlt⟩

theorem noCancel_single : b.NoCancel ((empty : AMap NodeId Timeout).insert author t).entries := by
  have hentries : ((empty : AMap NodeId Timeout).insert author t).entries = [(author, t)] := by
    rw [entries_insert_new _ (by simp [keys, empty])]
    rfl
  rw [hentries]
  intro tm htm hvalid
  obtain rfl := List.mem_singleton.mp htm
  have hkey := (b.scheme.verify_iff.mp hvalid).1
  simpa [Signing.validWith, hvalid] using hkey

/-- The first half of a remote timeout times the node out at most. -/
theorem timeoutAfterHonest_total (cfg : Config) (validators : ValidatorSet) {p : Pacemaker} {s : Safety}
    (hvote : s.highestVote ≤ p.getCurrentRound) :
    ∃ p₁ s₁ c₁, timeoutAfterHonest cfg validators p s = .ok (p₁, s₁, c₁) ∧ p₁.highCertificate = p.highCertificate ∧
      p₁.pendingTimeouts = p.pendingTimeouts ∧ s₁.highestVote ≤ p.getCurrentRound := by
  unfold timeoutAfterHonest
  split
  · have hhonest : validators.hasHonestVote p.pendingTimeouts.keys = .ok _ :=
      ValidatorSet.hasThresholdVotes_nodup p.pendingTimeouts.nodup
    rw [hhonest]
    cases hd : decide (validators.threshold 1 3 ≤ (p.pendingTimeouts.keys.map validators.stakeOf).sum) with
    | false => exact ⟨_, _, _, rfl, rfl, rfl, hvote⟩
    | true =>
      obtain ⟨cmds, h⟩ := processLocalTimeout_total cfg hvote
      exact ⟨_, _, _, h, rfl, rfl, le_rfl⟩
  · exact ⟨_, _, _, rfl, rfl, rfl, hvote⟩

/-- The second half forms a certificate at most. -/
theorem certifyTimeouts_total (cfg : Config) (order : List NodeId) {p : Pacemaker} {s : Safety}
    (hround : t.tmInfo.round = p.getCurrentRound) (hep : (em.getEpoch (t.tmInfo.round + 1)).isSome)
    (hmem : ∀ x ∈ p.pendingTimeouts.keys, x ∈ validators.members) (hcancel : b.NoCancel p.pendingTimeouts.entries) :
    ∃ p₂ s₂ c₂, certifyTimeoutsWith b.new cfg em validators order t.tmInfo p s = .ok (p₂, s₂, c₂) ∧
      p.getCurrentRound ≤ p₂.getCurrentRound ∧ s₂.highestVote = s.highestVote ∧
      ∀ x t', p₂.pendingTimeouts.get x = some t' → p.pendingTimeouts.get x = some t' := by
  unfold certifyTimeoutsWith
  split
  · have htotal : ∃ r, tryFormTCWith b.new cfg em validators order t.tmInfo p s = .ok r :=
      tryFormTC_total hround hep hmem hcancel
    obtain ⟨⟨p₂, s₂, c₂⟩, h⟩ := htotal
    obtain ⟨hr, hv⟩ := tryFormTC_round h
    exact ⟨p₂, s₂, c₂, h, hr, hv, (tryFormTC_barred h).1⟩
  · exact ⟨_, _, _, rfl, le_rfl, rfl, fun _ _ => id⟩

theorem Live.remoteTimeout (hc : Live em validators c) (cfg : Config) (order : List NodeId)
    (hauthor : author ∈ validators.members) (hround : t.tmInfo.round ≤ c.round)
    (hcancel : b.NoCancel (c.pacemaker.pendingTimeouts.insert author t).entries) :
    ∃ c', c.remoteTimeout b cfg em validators order author t = .ok c' ∧ Live em validators c' := by
  unfold Collector.remoteTimeout processRemoteTimeoutWith
  split
  · exact ⟨_, rfl, hc.members, hc.vote, hc.epoch⟩
  rename_i hnlt
  have heq : t.tmInfo.round = c.pacemaker.getCurrentRound := by
    simp only [round] at hround
    omega
  rw [if_neg (not_not.mpr heq)]
  split
  · exact ⟨_, rfl, hc.members, hc.vote, hc.epoch⟩
  have hkeys : ∀ x ∈ (c.pacemaker.pendingTimeouts.insert author t).keys, x ∈ validators.members := by
    intro x hx
    obtain ⟨⟨y, t'⟩, hy, rfl⟩ := List.mem_map.mp hx
    rcases of_get_insert (get_eq_some.mpr hy) with hget | ⟨rfl, -⟩
    · exact hc.members _ (List.mem_map_of_mem (get_eq_some.mp hget))
    · exact hauthor
  have hep : (em.getEpoch (t.tmInfo.round + 1)).isSome := by
    refine EpochManager.getEpoch_isSome_mono ?_ hc.epoch
    simp only [round]
    omega
  obtain ⟨p₁, s₁, c₁, hfirst, hcert, hpend, hvote⟩ := timeoutAfterHonest_total cfg validators
    (p := { c.pacemaker with pendingTimeouts := c.pacemaker.pendingTimeouts.insert author t }) hc.vote
  have hcur : p₁.getCurrentRound = c.pacemaker.getCurrentRound := by
    rw [getCurrentRound, getCurrentRound, hcert]
  obtain ⟨p₂, s₂, c₂, hsecond, hround₂, hvote₂, hpend₂⟩ := certifyTimeouts_total (b := b) (s := s₁) cfg order
    (heq.trans hcur.symm) hep (by rwa [hpend]) (by rwa [hpend])
  refine ⟨{ c with pacemaker := p₂, safety := s₂ }, ?_, ?_⟩
  · simp only [hfirst, hsecond, ok_bind]
    rfl
  · have hle : c.round ≤ p₂.getCurrentRound := by
      rw [round, ← hcur]
      exact hround₂
    refine ⟨fun x hx => ?_, ?_, EpochManager.getEpoch_isSome_mono hle hc.epoch⟩
    · obtain ⟨⟨y, t'⟩, hy, rfl⟩ := List.mem_map.mp hx
      have hget := hpend₂ y t' (get_eq_some.mpr hy)
      rw [hpend] at hget
      exact hkeys y (List.mem_map_of_mem (get_eq_some.mp hget))
    · show s₂.highestVote ≤ p₂.getCurrentRound
      rw [hvote₂]
      exact hvote.trans hle

theorem validateTimeout_round {currentRound : Nat} {t₀ : Timeout} (h : env.validateTimeout currentRound t₀ = .ok t) :
    t.tmInfo.round ≤ currentRound ∨ t.tmInfo.round = t.highExtend.asHighExtend.getQC.info.round + 1 ∨
      ∃ rc ∈ t.lastRoundCertificate, t.tmInfo.round = rc.round + 1 := by
  obtain ⟨hwf, -, rfl, -⟩ := ValidatorEnv.validateTimeout_ok h
  by_cases hcur : currentRound ≥ t₀.tmInfo.round
  · simp only [hcur, if_true]
    exact .inl trivial
  · simp only [hcur, if_false]
    unfold ValidatorEnv.wellFormedTimeout at hwf
    split at hwf
    · cases hwf
    split at hwf
    · rename_i hfollows
      exact .inr (.inl (of_decide_eq_true hfollows))
    · cases hrc : t₀.lastRoundCertificate with
      | none => simp [hrc] at hwf
      | some rc => exact .inr (.inr ⟨rc, rfl, by simpa [hrc, immediatelyFollows] using hwf⟩)

/-- Without cancelling keys no validated input panics. -/
theorem step_total (cfg : Config) (hc : Live em validators c) (hvalid : Validated validators env c i)
    (hcancel : NoCancel b c i) : ∃ c', c.step b cfg em validators i = .ok c' ∧ Live em validators c' := by
  cases i with
  | timeout order author t =>
    simp only [step, timeout]
    split
    · exact ⟨c, rfl, hc⟩
    obtain ⟨hauthor, t₀, ht₀⟩ := hvalid
    obtain ⟨c₁, h₁, hl₁, he₁, hqc⟩ := hc.processQC cfg t.highExtend.asHighExtend.getQC
    obtain ⟨c₂, h₂, hl₂, he₂, hrc⟩ := hl₁.lastRound cfg t.lastRoundCertificate
    have hround : t.tmInfo.round ≤ c₂.round := by
      have hle₁ := he₁.round
      have hle₂ := he₂.round
      rcases validateTimeout_round ht₀ with h | h | ⟨rc, hmem, h⟩
      · omega
      · omega
      · have hlt := hrc rc hmem
        omega
    -- the certificates forget the pending timeouts or leave them
    have hpending : b.NoCancel (c₂.pacemaker.pendingTimeouts.insert author t).entries := by
      rcases (he₁.trans he₂).pending with h | h
      · rw [h]
        exact hcancel
      · rw [h]
        exact noCancel_single
    obtain ⟨c₃, h₃, hl₃⟩ := hl₂.remoteTimeout cfg order hauthor hround hpending
    exact ⟨c₃, by rw [h₁, ok_bind, h₂, ok_bind, h₃], hl₃⟩
  | vote author m =>
    simp only [step, vote]
    have hl : Live em validators { c with votes := (c.votes.processVoteWith b.new author m validators).1 } :=
      ⟨hc.members, hc.vote, hc.epoch⟩
    split
    · exact ⟨_, rfl, hl⟩
    · rename_i qc _
      obtain ⟨c', h, hl', -⟩ := hl.processQC cfg qc
      exact ⟨c', h, hl'⟩
  | noEndorsement author m => exact ⟨_, rfl, hc.members, hc.vote, hc.epoch⟩
  | qc qc =>
    obtain ⟨c', h, hl, -⟩ := hc.processQC cfg qc
    exact ⟨c', h, hl⟩
  | tc tc =>
    obtain ⟨c', h, hl, -⟩ := hc.processTC cfg tc
    exact ⟨c', h, hl⟩
  | localTimeout =>
    obtain ⟨c', h, hl, -⟩ := hc.localTimeout cfg
    exact ⟨c', h, hl⟩
  | ownVote tcTip tip =>
    simp only [step, ownVote]
    split
    · exact ⟨c, rfl, hc⟩
    · rename_i hsafe
      obtain ⟨s', hs', hvote⟩ : ∃ s', c.safety.vote c.round tcTip tip = .ok s' ∧ s'.highestVote = c.round :=
        ⟨_, Safety.vote_ok.mpr ⟨by simpa using hsafe, rfl⟩, rfl⟩
      rw [hs']
      exact ⟨_, rfl, hc.members, hvote.le, hc.epoch⟩

theorem run_total (hc : Live em validators c) (hvalid : Along b cfg em validators (Validated validators env) c inputs)
    (hcancel : Along b cfg em validators (NoCancel b) c inputs) : ∃ c', c.run b cfg em validators inputs = .ok c' := by
  induction inputs generalizing c with
  | nil => exact ⟨c, rfl⟩
  | cons i inputs ih =>
    obtain ⟨c₁, h₁, hl₁⟩ := step_total cfg hc hvalid.1 hcancel.1
    obtain ⟨c', h'⟩ := ih hl₁ (hvalid.2 c₁ h₁) (hcancel.2 c₁ h₁)
    exact ⟨c', by rw [run, List.foldlM_cons, h₁, ok_bind]; exact h'⟩

theorem validated_epoch (hem : env.epochManager = em)
    (hvalid : Along b cfg em validators (Validated validators env) c inputs)
    (h : c.run b cfg em validators inputs = .ok c') {x : NodeId}
    (hm : Input.noEndorsement x m ∈ inputs) : em.getEpoch m.msg.round = some m.msg.epoch := by
  induction inputs generalizing c with
  | nil => cases hm
  | cons i inputs ih =>
    rw [run, List.foldlM_cons] at h
    obtain ⟨c₁, h₁, hrest⟩ := bind_eq_ok.mp h
    rcases List.mem_cons.mp hm with rfl | hm
    · have hv := hvalid.1.2
      simp only [ValidatorEnv.validateNoEndorsement, ValidatorEnv.verifyEpoch, hem] at hv
      by_contra hne
      rw [if_neg hne] at hv
      cases hv
    · exact ih (hvalid.2 c₁ h₁) hrest hm

/-- In every run on validated messages of members, who is barred supplied a signature that does not
verify under its own key, and the loops end within a turn for each signature and one more; if
moreover the keys of those who signed one timeout message never cancel, nothing panics. -/
theorem collectors_blame_and_progress (b : Signing K S) (cfg : Config) (env : ValidatorEnv) (validators : ValidatorSet)
    {highCertificate : RoundCertificate} {safety : Safety} {c₀ : Collector} {inputs : List Input}
    (hstart : start env.epochManager highCertificate safety = .ok c₀)
    (hvote : safety.highestVote ≤ highCertificate.round + 1)
    (hvalid : Along b cfg env.epochManager validators (Validated validators env) c₀ inputs) :
    (Along b cfg env.epochManager validators (NoCancel b) c₀ inputs →
      ∃ c, c₀.run b cfg env.epochManager validators inputs = .ok c) ∧
    (∀ c, c₀.run b cfg env.epochManager validators inputs = .ok c → Blamed b (· ∈ inputs) c) ∧
    (∀ msg (sigs : AMap NodeId BlsSignature) barred,
      (certifyLoop b.new validators msg (sigs.entries.length + 1) sigs barred).isSome) ∧
    ∀ order tmInfo (p : Pacemaker) s, (tryFormTCLoop b.new cfg env.epochManager validators order tmInfo
      (p.pendingTimeouts.entries.length + 1) p s).isSome := by
  refine ⟨run_total (live_start hstart hvote) hvalid, fun c hc => ?_, fun msg sigs barred => ?_,
    fun order tmInfo p s => ?_⟩
  · exact foldlM_invariant
      (fun i hi s s' hs hI => step_blamed hI hi (fun x m hm => validated_epoch rfl hvalid hc hm) hs) hc
      (blamed_start hstart)
  · exact certifyLoop_ends b.new_blames (Nat.lt_succ_self _)
  · exact tryFormTCLoop_ends (Nat.lt_succ_self _)

/-! ## Keys that cancel -/

open Scenario

/-- Every timeout is of a member, passes validation and is properly signed, and the last one makes
`ProcessRemoteTimeout` panic. -/
theorem cancelling_keys_panic : seven.Bounded {5, 6} ∧
    (∀ tm ∈ cancelling, tm.1 ∈ seven.members ∧ sevenEnv.validateTimeout 1 tm.2 = .ok tm.2 ∧ signing.validTimeout tm) ∧
    (start epochManager (.qc GenesisQC) (newSafety (.qc GenesisQC) none) >>= fun c =>
      (c.run signing sevenConfig epochManager seven (cancelling.map fun tm => .timeout [] tm.1 tm.2)).map fun _ => ()) =
      .error (.tcCreation .invalidSignatures) := by
  refine ⟨?_, ?_, ?_⟩
  · unfold ValidatorSet.Bounded
    decide +kernel
  · decide +kernel
  · decide +kernel

/-- The collectors in round 1. -/
def atGenesis : Collector :=
  ⟨Pacemaker.entered 1 (.qc GenesisQC), newSafety (.qc GenesisQC) none, VoteState.new 1, NoEndorsementState.new 1⟩

/-- Three validators of four time out properly, and one with the signature of another. -/
def fourTimeouts : List Input :=
  [.timeout [] 0 (reportsGenesis 0),
   .timeout [] 1 { reportsGenesis 1 with timeoutSignature := (reportsGenesis 2).timeoutSignature },
   .timeout [] 2 (reportsGenesis 2), .timeout [] 3 (reportsGenesis 3)]

def fourEnv : ValidatorEnv := { sevenEnv with valEpochMap := Scenario.env.valEpochMap }

/-- The third timeout makes a supermajority whose certificate fails: the second sender is barred. With the
fourth there is a certificate. -/
theorem collectors_blame_and_progress_four :
    ((atGenesis.run signing sevenConfig epochManager Scenario.validators (fourTimeouts.take 3)).map fun c =>
      (c.round, c.pacemaker.invalidTimeoutSenders)) = .ok (1, [1]) ∧
    ∃ c, atGenesis.run signing sevenConfig epochManager Scenario.validators fourTimeouts = .ok c ∧ c.round = 2 ∧
      Blamed signing (· ∈ fourTimeouts) c := by
  have hstart : start fourEnv.epochManager (.qc GenesisQC) (newSafety (.qc GenesisQC) none) = .ok atGenesis := rfl
  have hvalid : Along signing sevenConfig fourEnv.epochManager Scenario.validators
      (Validated Scenario.validators fourEnv) atGenesis fourTimeouts := by
    refine ⟨⟨by decide, reportsGenesis 0, by decide +kernel⟩, fun c₁ h₁ => ?_⟩
    cases h₁
    refine ⟨⟨by decide, { reportsGenesis 1 with timeoutSignature := (reportsGenesis 2).timeoutSignature },
      by decide +kernel⟩, fun c₁ h₁ => ?_⟩
    cases h₁
    refine ⟨⟨by decide, reportsGenesis 2, by decide +kernel⟩, fun c₁ h₁ => ?_⟩
    cases h₁
    refine ⟨⟨by decide, reportsGenesis 3, by decide +kernel⟩, fun c₁ h₁ => trivial⟩
  have hcancel : Along signing sevenConfig fourEnv.epochManager Scenario.validators (NoCancel signing) atGenesis
      fourTimeouts := by
    refine ⟨by unfold NoCancel; decide +kernel, fun c₁ h₁ => ?_⟩
    cases h₁
    refine ⟨by unfold NoCancel; decide +kernel, fun c₁ h₁ => ?_⟩
    cases h₁
    refine ⟨by unfold NoCancel; decide +kernel, fun c₁ h₁ => ?_⟩
    cases h₁
    exact ⟨by unfold NoCancel; decide +kernel, fun _ _ => trivial⟩
  obtain ⟨hrun, hblamed, -⟩ :=
    collectors_blame_and_progress signing sevenConfig fourEnv Scenario.validators hstart (by decide) hvalid
  obtain ⟨c, hc⟩ := hrun hcancel
  refine ⟨by decide +kernel, c, hc, ?_, hblamed c hc⟩
  have hround : (atGenesis.run signing sevenConfig epochManager Scenario.validators fourTimeouts).map round = .ok 2 := by
    decide +kernel
  rw [show atGenesis.run signing sevenConfig epochManager Scenario.validators fourTimeouts = .ok c from hc] at hround
  exact Except.ok.inj hround

end Collector

end MonadBft
