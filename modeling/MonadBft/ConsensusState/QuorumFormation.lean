/-
  MonadBft.ConsensusState.QuorumFormation — QCs out of vote messages (`HandleVoteMessage`).

  A tally is what `HandleVoteMessage` reads and changes of the state: the round, the votes and
  the epochs. Votes of past rounds and of rounds too far ahead are dropped, the others are
  collected, and a QC opens the round after its own. Other certificates move the round on as
  well, but only a QC starts the votes anew, and commits may schedule epochs at any time. Each
  epoch has its own members and keys. `handleVoteMessage_tally` is the link to the state.

  Proved, for every sequence of validated votes (`quorum_formation`): a QC that is returned
  passes `VerifyQC` if the set is not too large for a signer map, no round gets two QCs, and once
  members with a supermajority who never sent a bad signature for the round have each delivered
  the same vote in time, the round has a QC, provided the keys of the valid signers of one vote
  never cancel. With cancelling keys, `cancelling_votes_wedge`.
-/
import MonadBft.Consensus.Collector
import MonadBft.ConsensusState.Trace

namespace MonadBft

open Lib VoteState ValidatorSet ValidatorEnv List

structure Tally where
  round : Nat
  votes : VoteState
  epochManager : EpochManager
  deriving DecidableEq

namespace Tally

variable (env : ValidatorEnv)

def validatorEnv (t : Tally) : ValidatorEnv := { env with epochManager := t.epochManager }

def verifiedSet (t : Tally) (round : Nat) : Except Panic (Nat × ValidatorSet) :=
  match t.epochManager.getEpoch round with
  | none => .error .epochVerified
  | some epoch =>
    match env.valEpochMap.get epoch with
    | none => .error .messageVerified
    | some validators => .ok (epoch, validators)

/-- The votes after `ProcessVote`; a QC is processed and opens its next round. -/
def after (t : Tally) (votes : VoteState) : Option QuorumCertificate → Tally
  | none => { t with votes := votes }
  | some qc => { t with round := qc.info.round + 1, votes := votes.startNewRound (qc.info.round + 1) }

/-- `HandleVoteMessage`, with the QC that `ProcessVote` returns; `aggs` is `New` with the keys of an epoch. -/
def handleVoteWith (aggs : Nat → Aggregator) (t : Tally) (author : NodeId) (m : VoteMessage) :
    Except Panic (Tally × Option QuorumCertificate) :=
  if m.vote.round < t.round ∨ m.vote.round > t.round + futureVoteBound then .ok (t, none)
  else do
    let (epoch, validators) ← t.verifiedSet env m.vote.round
    let r := t.votes.processVoteWith (aggs epoch) author m validators
    return (t.after r.1 r.2, r.2)

theorem handleVoteWith_congr {ve ve' : ValidatorEnv} {aggs aggs' : Nat → Aggregator} {t : Tally} {author : NodeId}
    {m : VoteMessage} (hve : ve.valEpochMap = ve'.valEpochMap)
    (hagree : ∀ epoch validators, ve.valEpochMap.get epoch = some validators →
      t.votes.processVoteWith (aggs epoch) author m validators = t.votes.processVoteWith (aggs' epoch) author m validators) :
    t.handleVoteWith ve aggs author m = t.handleVoteWith ve' aggs' author m := by
  have hset : t.verifiedSet ve m.vote.round = t.verifiedSet ve' m.vote.round := by
    unfold verifiedSet
    rw [hve]
  unfold handleVoteWith
  rw [← hset]
  split
  · rfl
  cases hverified : t.verifiedSet ve m.vote.round with
  | error p => simp only [bind, Except.bind]
  | ok r =>
    obtain ⟨epoch, validators⟩ := r
    have hget : ve.valEpochMap.get epoch = some validators := by
      unfold verifiedSet at hverified
      split at hverified
      · cases hverified
      split at hverified
      · cases hverified
      · cases hverified
        assumption
    simp only [ok_bind, hagree epoch validators hget]

def Validated (author : NodeId) (m : VoteMessage) : Prop :=
  env.verify author (.vote m) = .ok () ∧ env.validateVote m = .ok ()

structure Delivery where
  before : Tally
  author : NodeId
  m : VoteMessage
  out : Option QuorumCertificate

variable {K S : Type} [AddCommGroup K] [AddCommGroup S] [DecidableEq K] [DecidableEq S]
variable (env : ValidatorEnv) (keys : Nat → Signing K S)

def handleVote : Tally → NodeId → VoteMessage → Except Panic (Tally × Option QuorumCertificate) :=
  handleVoteWith env fun epoch => (keys epoch).new

/-- The runs of a tally, with what was delivered, newest first; `ok` holds of each state and the vote
it gets. -/
inductive Runs (ok : Tally → NodeId → VoteMessage → Prop) : List Delivery → Tally → Prop
  | start (highRound : Nat) (em : EpochManager) : Runs ok [] ⟨highRound + 1, VoteState.new (highRound + 1), em⟩
  | vote {log : List Delivery} {t t' : Tally} {author : NodeId} {m : VoteMessage} {out : Option QuorumCertificate} :
      Runs ok log t → Validated (t.validatorEnv env) author m → ok t author m →
      t.handleVote env keys author m = .ok (t', out) → Runs ok (⟨t, author, m, out⟩ :: log) t'
  /-- Another QC is processed. -/
  | qc {log : List Delivery} {t : Tally} {round : Nat} : Runs ok log t → t.round ≤ round →
      Runs ok log { t with round := round + 1, votes := t.votes.startNewRound (round + 1) }
  /-- A TC is processed. -/
  | tc {log : List Delivery} {t : Tally} {round : Nat} :
      Runs ok log t → t.round ≤ round → Runs ok log { t with round := round + 1 }
  /-- A commit schedules an epoch. -/
  | epoch {log : List Delivery} {t : Tally} (em : EpochManager) : Runs ok log t → Runs ok log { t with epochManager := em }

/-- The validation of a node, with the keys of `epoch`. -/
def envAt (epoch : Nat) : ValidatorEnv := { env with verifySigCol := (keys epoch).verifyCol }

/-- A signature on a vote, under the key the signer has in the epoch of the vote. -/
def validAt (vote : Vote) : NodeId → BlsSignature → Bool := (keys vote.epoch).valid (.vote vote)

/-- The members whose signature on `vote` in `sigs` is valid. -/
def validSigners (b : Signing K S) (vote : Vote) (sigs : AMap NodeId BlsSignature) : List NodeId :=
  (sigs.entries.filter fun e => b.valid (.vote vote) e.1 e.2).map Prod.fst

/-- With the new vote, the keys of the valid signers do not cancel if these hold a supermajority. -/
def NoCancel (t : Tally) (author : NodeId) (m : VoteMessage) : Prop :=
  ∀ validators, env.valEpochMap.get m.vote.epoch = some validators → validators.hasSuperMajorityVotes
      (validSigners (keys m.vote.epoch) m.vote ((t.votes.bucket m.vote).insert author m.sig)) = .ok true →
    ((validSigners (keys m.vote.epoch) m.vote ((t.votes.bucket m.vote).insert author m.sig)).map
      (keys m.vote.epoch).pubKey).sum ≠ 0

variable {env keys} {b : Signing K S} {validators : ValidatorSet} {vote : Vote} {sigs : AMap NodeId BlsSignature}
  {barred : List NodeId} {turns : Nat}

/-! ## The loop of `ProcessVote` -/

theorem validSigners_subset : validSigners b vote sigs ⊆ sigs.keys := by
  intro x hx
  obtain ⟨e, he, rfl⟩ := mem_map.mp hx
  exact mem_map_of_mem (mem_filter.mp he).1

variable {x : NodeId} {d : Delivery} {round : Nat} {ok : Tally → NodeId → VoteMessage → Prop}

theorem mem_validSigners {sg : BlsSignature} (hget : sigs.get x = some sg)
    (hvalid : b.valid (.vote vote) x sg = true) : x ∈ validSigners b vote sigs :=
  mem_map.mpr ⟨(x, sg), mem_filter.mpr ⟨AMap.get_eq_some.mp hget, hvalid⟩, rfl⟩

theorem validSigners_nodup : (validSigners b vote sigs).Nodup :=
  sigs.nodup.sublist ((filter_sublist).map _)

theorem validSigners_drop :
    validSigners b vote (sigs.filter fun id _ => !(b.badSigners (.vote vote) sigs).contains id) =
      validSigners b vote sigs := by
  unfold validSigners AMap.filter
  rw [filter_filter]
  congr 1
  refine filter_congr fun e he => ?_
  cases hv : b.valid (.vote vote) e.1 e.2 with
  | false => simp
  | true =>
    have hnot : e.1 ∉ b.badSigners (.vote vote) sigs := by
      intro hin
      obtain ⟨e', he', hfst⟩ := mem_map.mp hin
      obtain ⟨hmem, hinv⟩ := mem_filter.mp he'
      obtain rfl : e' = e := by
        have h₁ := AMap.get_eq_some.mpr hmem
        have h₂ := AMap.get_eq_some.mpr he
        rw [hfst, h₂] at h₁
        exact Prod.ext hfst (Option.some.inj h₁).symm
      simp [hv] at hinv
    simpa using hnot

/-- Where the valid signers hold a supermajority and their keys do not cancel, there is a certificate. -/
theorem certify_complete (hmem : ∀ x ∈ sigs.keys, x ∈ validators.members)
    (hsuper : validators.hasSuperMajorityVotes (validSigners b vote sigs) = .ok true)
    (hsum : ((validSigners b vote sigs).map b.pubKey).sum ≠ 0) :
    ∃ sc, (certify b.new validators (.vote vote) sigs barred).1 = some sc := by
  suffices hloop : ∀ turns, sigs.entries.length < turns →
      ∃ sc r, certifyLoop b.new validators (.vote vote) turns sigs barred = some (some sc, r) by
    obtain ⟨sc, r, hr⟩ := hloop _ (Nat.lt_succ_self _)
    exact ⟨sc, by rw [certify, hr]; rfl⟩
  intro turns hturns
  induction turns generalizing sigs barred with
  | zero => omega
  | succ turns ih =>
    have hkeys : validators.hasSuperMajorityVotes sigs.keys = .ok true :=
      hasThresholdVotes_mono sigs.nodup validSigners_subset hsuper
    cases hnew : b.new sigs.entries validators.members (.vote vote) with
    | ok sc =>
      unfold certifyLoop
      simp only [hkeys, hnew]
      exact ⟨sc, _, rfl⟩
    | error err =>
      have heq := hnew
      rw [b.new_eq hmem] at heq
      split at heq
      · cases heq
      rename_i hfail
      split at heq
      · -- nobody is bad: the signers are the valid ones, and these verify
        rename_i hnone
        exfalso
        have hvalid := b.valid_of_badSigners_nil hnone
        have hall : validSigners b vote sigs = sigs.entries.map Prod.fst := by
          unfold validSigners
          rw [filter_eq_self.mpr fun e he => hvalid e he]
        refine hfail (.inr ((b.scheme.verify_sum hvalid).mpr ?_))
        rwa [hall, map_map] at hsum
      · cases heq
        have hlt := length_drop_lt b.new_blames hnew
        unfold certifyLoop
        simp only [hkeys, hnew]
        refine ih (fun x hx => ?_) ?_ ?_ (by omega)
        · obtain ⟨e, he, rfl⟩ := mem_map.mp hx
          exact hmem _ (mem_map_of_mem (mem_filter.mp he).1)
        · rw [validSigners_drop]
          exact hsuper
        · rw [validSigners_drop]
          exact hsum

/-- A certificate is the collection of a supermajority whose aggregate verifies. -/
theorem certify_sound {msg : SignedMsg} {sc : SigCol} (h : (certify b.new validators msg sigs barred).1 = some sc) :
    ∃ kept : AMap NodeId BlsSignature, (∀ x ∈ kept.keys, x ∈ validators.members) ∧
      sc = SigCol.ofMap validators.members kept ∧ b.aggregateVerifies msg kept ∧
      validators.hasSuperMajorityVotes kept.keys = .ok true := by
  refine certify_rule (motive := fun _ _ r => r.1 = some sc → ∃ kept : AMap NodeId BlsSignature,
    (∀ x ∈ kept.keys, x ∈ validators.members) ∧ sc = SigCol.ofMap validators.members kept ∧
      b.aggregateVerifies msg kept ∧ validators.hasSuperMajorityVotes kept.keys = .ok true)
    ?_ ?_ (fun _ _ _ _ _ ih => ih) sigs barred h
  · rintro sigs barred ⟨⟩
  · rintro sigs barred sc hsuper hnew ⟨⟩
    have hne : sigs.entries ≠ [] := by
      intro hnil
      have hstake := (hasThresholdVotes_ok.mp hsuper).2
      simp [AMap.keys, hnil, threshold] at hstake
    obtain ⟨hmem, hsc, hagg⟩ := b.new_ok hne hnew
    exact ⟨sigs, hmem, hsc, hagg, hsuper⟩

/-! ## One delivery -/

variable {t t' : Tally} {author : NodeId} {m : VoteMessage} {out : Option QuorumCertificate} {log : List Delivery}
  {signers : List NodeId} {v : VoteState}

/-- The vote was of the node's round or not far ahead of it. -/
def Delivery.Counted (d : Delivery) : Prop :=
  d.before.round ≤ d.m.vote.round ∧ d.m.vote.round ≤ d.before.round + futureVoteBound

/-- No vote of `x` for `round` carries a bad signature. -/
def NeverBad (keys : Nat → Signing K S) (log : List Delivery) (x : NodeId) (round : Nat) : Prop :=
  ∀ d ∈ log, d.author = x → d.m.vote.round = round → validAt keys d.m.vote x d.m.sig = true

theorem NeverBad.tail (h : NeverBad keys (d :: log) x round) : NeverBad keys log x round :=
  fun d' hd' => h d' (.tail d hd')

theorem Validated.spec (h : Validated env author m) :
    ∃ validators, env.epochManager.getEpoch m.vote.round = some m.vote.epoch ∧
      env.valEpochMap.get m.vote.epoch = some validators ∧ author ∈ validators.members := by
  obtain ⟨hver, hval⟩ := h
  have hep : env.epochManager.getEpoch m.vote.round = some m.vote.epoch := by
    by_contra hne
    simp only [validateVote, verifyEpoch, if_neg hne] at hval
    cases hval
  simp only [verify, ProtocolMessage.getRound, hep] at hver
  split at hver
  · cases hver
  rename_i validators hset
  split at hver
  · rename_i hmem
    exact ⟨validators, hep, hset, by simpa [isMember] using hmem⟩
  · cases hver

/-- A vote out of the window changes nothing; any other goes to `ProcessVote` with the set and the keys of
its epoch, and a QC opens the round after it. -/
theorem handleVote_ok (hv : Validated (t.validatorEnv env) author m)
    (hset : env.valEpochMap.get m.vote.epoch = some validators) (h : t.handleVote env keys author m = .ok (t', out)) :
    ((m.vote.round < t.round ∨ t.round + futureVoteBound < m.vote.round) ∧ t' = t ∧ out = none) ∨
    (t.round ≤ m.vote.round ∧ m.vote.round ≤ t.round + futureVoteBound ∧
      out = (t.votes.processVoteWith (keys m.vote.epoch).new author m validators).2 ∧
      t' = t.after (t.votes.processVoteWith (keys m.vote.epoch).new author m validators).1 out) := by
  obtain ⟨-, hep, -⟩ := hv.spec
  unfold handleVote handleVoteWith at h
  split at h
  · rename_i hwin
    cases h
    exact .inl ⟨hwin, rfl, rfl⟩
  · rename_i hwin
    have hverified : t.verifiedSet env m.vote.round = .ok (m.vote.epoch, validators) := by
      unfold verifiedSet
      rw [show t.epochManager.getEpoch m.vote.round = some m.vote.epoch from hep]
      simp only [hset]
    rw [hverified, ok_bind] at h
    cases h
    exact .inr ⟨by omega, by omega, rfl, rfl⟩

theorem processVote_info {qc : QuorumCertificate} (h : (v.processVoteWith b.new author m validators).2 = some qc) :
    ∃ sc, qc = ⟨m.vote, sc⟩ ∧ ¬m.vote.round < v.earliestRound ∧ author ∉ (v.roundState m.vote.round).invalidVoters ∧
      (certify b.new validators (.vote m.vote)
        ((v.bucket m.vote).insert author m.sig) (v.roundState m.vote.round).invalidVoters).1 = some sc := by
  by_cases hskip : m.vote.round < v.earliestRound ∨ author ∈ (v.roundState m.vote.round).invalidVoters
  · rw [(processVote_skips hskip).1] at h
    cases h
  · obtain ⟨hearly, hbarred⟩ := not_or.mp hskip
    rw [(processVote_collects hearly hbarred).1] at h
    obtain ⟨sc, hsc, hqc⟩ := Option.map_eq_some_iff.mp h
    exact ⟨sc, hqc.symm, hearly, hbarred, hsc⟩

/-! ## Whole runs -/

def Delivered (log : List Delivery) (i : Collector.Input) : Prop := ∃ d ∈ log, i = .vote d.author d.m

theorem Delivered.cons {i : Collector.Input} (h : Delivered log i) : Delivered (d :: log) i := by
  obtain ⟨d', hd', rfl⟩ := h
  exact ⟨d', .tail d hd', rfl⟩

/-- What holds after every run: the votes of the current round are not too early, barred voters sent a
bad signature, the rounds of returned QCs are past, and the votes of voters who never sent a bad
signature are kept until their round is past. -/
structure Inv (env : ValidatorEnv) (keys : Nat → Signing K S) (log : List Delivery) (t : Tally) : Prop where
  early : t.votes.earliestRound ≤ t.round
  positive : 0 < t.round
  validated : ∀ d ∈ log, Validated (d.before.validatorEnv env) d.author d.m
  blamed : ∀ round, Collector.VotesBlamed (validAt keys) (Delivered log) round (t.votes.roundState round)
  returned : ∀ d ∈ log, ∀ qc, d.out = some qc → qc.getRound < t.round
  kept : ∀ d ∈ log, d.Counted → NeverBad keys log d.author d.m.vote.round → t.round ≤ d.m.vote.round →
    ∃ sg, (t.votes.bucket d.m.vote).get d.author = some sg ∧ validAt keys d.m.vote d.author sg = true

theorem inv_start (highRound : Nat) (em : EpochManager) :
    Inv env keys [] ⟨highRound + 1, new (highRound + 1), em⟩ where
  early := le_rfl
  positive := Nat.succ_pos _
  validated := by simp
  blamed round := by
    constructor <;> simp [new, roundState]
  returned := by simp
  kept := by simp

theorem Inv.qc (h : Inv env keys log t) (hround : t.round ≤ round) :
    Inv env keys log { t with round := round + 1, votes := t.votes.startNewRound (round + 1) } where
  early := le_rfl
  positive := Nat.succ_pos _
  validated := h.validated
  blamed := Collector.VotesBlamed.startNewRound h.blamed
  returned d hd qc hqc := by
    have hlt := h.returned d hd qc hqc
    show qc.getRound < round + 1
    omega
  kept d hd hcount hbad hle := by
    dsimp only at hle ⊢
    rw [bucket_startNewRound hle]
    exact h.kept d hd hcount hbad (by omega)

theorem Inv.tc (h : Inv env keys log t) (hround : t.round ≤ round) :
    Inv env keys log { t with round := round + 1 } where
  early := h.early.trans (by show t.round ≤ round + 1; omega)
  positive := Nat.succ_pos _
  validated := h.validated
  blamed := h.blamed
  returned d hd qc hqc := by
    have hlt := h.returned d hd qc hqc
    show qc.getRound < round + 1
    omega
  kept d hd hcount hbad hle := by
    dsimp only at hle
    exact h.kept d hd hcount hbad (by omega)

/-- A voter who never sent a bad signature for the round is not barred. -/
theorem Inv.not_barred (h : Inv env keys log t) (hbad : NeverBad keys log x round) :
    x ∉ (t.votes.roundState round).invalidVoters := by
  intro hin
  obtain ⟨m, ⟨d, hd, heq⟩, hround, hinv⟩ := (h.blamed round).barred x hin
  cases heq
  rw [hbad d hd rfl hround] at hinv
  cases hinv

/-- What `ProcessVote` keeps of a vote that was kept, or is added. -/
theorem bucket_keeps
    (h : (∃ sg, (v.bucket vote).get x = some sg ∧ b.valid (.vote vote) x sg = true) ∨ x = author ∧ vote = m.vote ∧
      ¬m.vote.round < v.earliestRound ∧ author ∉ (v.roundState m.vote.round).invalidVoters)
    (hbad : x = author → vote = m.vote → b.valid (.vote vote) x m.sig = true) :
    ∃ sg, ((v.processVoteWith b.new author m validators).1.bucket vote).get x = some sg ∧
      b.valid (.vote vote) x sg = true := by
  by_cases hvote : vote = m.vote
  · subst hvote
    by_cases hskip : m.vote.round < v.earliestRound ∨ author ∈ (v.roundState m.vote.round).invalidVoters
    · rw [(processVote_skips hskip).2.1]
      rcases h with h | ⟨-, -, hearly, hbarred⟩
      · exact h
      · exact absurd hskip (not_or.mpr ⟨hearly, hbarred⟩)
    · obtain ⟨hearly, hbarred⟩ := not_or.mp hskip
      rw [(processVote_collects hearly hbarred).2.1]
      by_cases hx : x = author
      · subst hx
        exact ⟨m.sig, certify_keeps b.new_blames (by simp) (hbad rfl rfl), hbad rfl rfl⟩
      · obtain ⟨sg, hget, hvalid⟩ := h.resolve_right fun h => hx h.1
        exact ⟨sg, certify_keeps b.new_blames (by rw [AMap.get_insert_ne _ _ hx, hget]) hvalid, hvalid⟩
  · rw [bucket_processVote_other hvote]
    exact h.resolve_right fun h => hvote h.2.1

theorem Inv.deliver (h : Inv env keys log t) (hv : Validated (t.validatorEnv env) author m)
    (hstep : t.handleVote env keys author m = .ok (t', out)) : Inv env keys (⟨t, author, m, out⟩ :: log) t' := by
  have hvalidated : ∀ d ∈ (⟨t, author, m, out⟩ :: log : List Delivery), Validated (d.before.validatorEnv env) d.author d.m := by
    exact forall_mem_cons.mpr ⟨hv, h.validated⟩
  have hmono := fun round => (h.blamed round).mono fun i hi => hi.cons (d := ⟨t, author, m, out⟩)
  obtain ⟨validators, -, hset, -⟩ := hv.spec
  rcases handleVote_ok hv hset hstep with ⟨hwin, rfl, rfl⟩ | ⟨hlo, hhi, hout, ht'⟩
  · -- the vote is dropped
    refine ⟨h.early, h.positive, hvalidated, hmono, ?_, ?_⟩
    · intro d hd qc hqc
      rcases mem_cons.mp hd with rfl | hd
      · cases hqc
      · exact h.returned d hd qc hqc
    · intro d hd hcount hbad hle
      rcases mem_cons.mp hd with rfl | hd
      · simp only [Delivery.Counted] at hcount
        omega
      · exact h.kept d hd hcount hbad.tail hle
  -- the votes after `ProcessVote`
  have hblamed : ∀ round, Collector.VotesBlamed (validAt keys) (Delivered (⟨t, author, m, out⟩ :: log)) round
      ((t.votes.processVoteWith (keys m.vote.epoch).new author m validators).1.roundState round) :=
    Collector.votesBlamed_process hmono ⟨_, .head _, rfl⟩ fun _ _ => rfl
  have hkept : ∀ d ∈ (⟨t, author, m, out⟩ :: log : List Delivery), d.Counted →
      NeverBad keys (⟨t, author, m, out⟩ :: log) d.author d.m.vote.round → t.round ≤ d.m.vote.round →
      ∃ sg, ((t.votes.processVoteWith (keys m.vote.epoch).new author m validators).1.bucket d.m.vote).get d.author = some sg ∧
        validAt keys d.m.vote d.author sg = true := by
    intro d hd hcount hbad hle
    by_cases hvote : d.m.vote = m.vote
    · have hsig : d.author = author → validAt keys m.vote d.author m.sig = true := by
        intro hx
        rw [hvote] at hbad
        exact hbad _ (.head _) hx.symm rfl
      rw [hvote]
      refine bucket_keeps ?_ fun hx _ => hsig hx
      rcases mem_cons.mp hd with rfl | hd
      · exact .inr ⟨rfl, rfl, by have := h.early; omega, h.not_barred hbad.tail⟩
      · have hk := h.kept d hd hcount hbad.tail hle
        rw [hvote] at hk
        exact .inl hk
    · rw [bucket_processVote_other hvote]
      rcases mem_cons.mp hd with rfl | hd
      · exact absurd rfl hvote
      · exact h.kept d hd hcount hbad.tail hle
  cases hres : (t.votes.processVoteWith (keys m.vote.epoch).new author m validators).2 with
  | none =>
    rw [hres] at hout
    subst hout
    subst ht'
    refine ⟨?_, h.positive, hvalidated, hblamed, ?_, hkept⟩
    · -- without a QC the earliest round stays
      by_cases hskip : m.vote.round < t.votes.earliestRound ∨ author ∈ (t.votes.roundState m.vote.round).invalidVoters
      · show (t.votes.processVoteWith (keys m.vote.epoch).new author m validators).1.earliestRound ≤ t.round
        rw [(processVote_skips hskip).2.2]
        exact h.early
      · obtain ⟨hearly, hbarred⟩ := not_or.mp hskip
        obtain ⟨hsome, -, hear⟩ := @processVote_collects (keys m.vote.epoch).new t.votes author m validators
          hearly hbarred
        rw [hres] at hsome
        rw [Option.map_eq_none_iff.mp hsome.symm] at hear
        show (t.votes.processVoteWith (keys m.vote.epoch).new author m validators).1.earliestRound ≤ t.round
        rw [hear]
        exact h.early
    · intro d hd qc hqc
      rcases mem_cons.mp hd with rfl | hd
      · cases hqc
      · exact h.returned d hd qc hqc
  | some qc =>
    rw [hres] at hout
    subst hout
    subst ht'
    obtain ⟨sc, rfl, -⟩ := processVote_info hres
    refine ⟨le_rfl, Nat.succ_pos _, hvalidated, Collector.VotesBlamed.startNewRound hblamed, ?_, ?_⟩
    · intro d hd qc' hqc'
      rcases mem_cons.mp hd with rfl | hd
      · cases hqc'
        exact Nat.lt_succ_self _
      · have hlt := h.returned d hd qc' hqc'
        show qc'.getRound < m.vote.round + 1
        omega
    · intro d hd hcount hbad hle
      have hpast : m.vote.round + 1 ≤ d.m.vote.round := hle
      show ∃ sg, AMap.get (bucket (startNewRound _ (m.vote.round + 1)) _) _ = _ ∧ _
      rw [bucket_startNewRound hpast]
      exact hkept d hd hcount hbad (by omega)

theorem inv_runs (h : Runs env keys ok log t) : Inv env keys log t := by
  induction h with
  | start highRound em => exact inv_start highRound em
  | vote _ hv _ hstep ih => exact ih.deliver hv hstep
  | qc _ hround ih => exact ih.qc hround
  | tc _ hround ih => exact ih.tc hround
  | epoch em _ ih => exact { ih with }

/-- A QC that is returned passes `VerifyQC`, with the keys of its epoch. -/
theorem returned_verifies (h : Inv env keys log t) (hv : Validated (t.validatorEnv env) author m)
    (hstep : t.handleVote env keys author m = .ok (t', out)) {qc : QuorumCertificate} (hqc : out = some qc)
    (hlen : ∀ vs, env.valEpochMap.get qc.getEpoch = some vs → vs.members.length ≤ MaxSignersLen) :
    (envAt (t.validatorEnv env) keys qc.getEpoch).verifyQC qc = .ok () := by
  obtain ⟨validators, hep, hget, -⟩ := hv.spec
  rcases handleVote_ok hv hget hstep with ⟨-, -, rfl⟩ | ⟨hlo, -, hout, -⟩
  · cases hqc
  rw [hqc] at hout
  obtain ⟨sc, rfl, -, -, hcert⟩ := processVote_info hout.symm
  obtain ⟨kept, hmem, rfl, hagg, hsuper⟩ := certify_sound hcert
  have hround : (⟨m.vote, SigCol.ofMap validators.members kept⟩ : QuorumCertificate).getRound ≠ GENESIS_ROUND := by
    have hpos := h.positive
    show m.vote.round ≠ 0
    omega
  have hepoch : (envAt (t.validatorEnv env) keys m.vote.epoch).epochToValidators m.vote.epoch m.vote.round =
      .ok (validators, env.getLeader m.vote.round validators) := by
    unfold epochToValidators
    simp only [envAt, hep, hget, ne_eq, not_true_eq_false, if_false]
    rfl
  have hsigs : (envAt (t.validatorEnv env) keys m.vote.epoch).verifySigs (SigCol.ofMap validators.members kept) validators
      (.vote m.vote) = .ok (validators.members.filter kept.contains) := by
    have hcol := (keys m.vote.epoch).verifyCol_ofMap members_nodup hmem hagg
    rw [if_neg (not_lt.mpr (hlen validators hget))] at hcol
    unfold verifySigs
    simp only [envAt, hcol]
  have hperm := Signing.signers_perm members_nodup hmem
  have hstake : validators.hasSuperMajorityVotes (validators.members.filter kept.contains) = .ok true :=
    hasThresholdVotes_congr (members_nodup.filter _) (fun x => hperm.mem_iff) hsuper
  exact verifyQC_of hround hepoch hsigs hstake

/-- The vote that completes a supermajority of voters who never sent a bad signature gives a QC, unless
the keys cancel. -/
theorem completes (h : Inv env keys log t) (hv : Validated (t.validatorEnv env) author m)
    (hcancel : NoCancel env keys t author m) (hstep : t.handleVote env keys author m = .ok (t', out))
    (hset : env.valEpochMap.get m.vote.epoch = some validators)
    (hsuper : validators.hasSuperMajorityVotes signers = .ok true) (hcount : (⟨t, author, m, out⟩ : Delivery).Counted)
    (hauthor : author ∈ signers) (hsigners : ∀ x ∈ signers, NeverBad keys (⟨t, author, m, out⟩ :: log) x m.vote.round ∧
      (x = author ∨ ∃ d ∈ log, d.author = x ∧ d.m.vote = m.vote ∧ d.Counted)) :
    ∃ qc, out = some qc ∧ qc.getRound = m.vote.round := by
  rcases handleVote_ok hv hset hstep with ⟨hwin, -⟩ | ⟨hlo, -, hout, -⟩
  · simp only [Delivery.Counted] at hcount
    omega
  have hearly : ¬m.vote.round < t.votes.earliestRound := by
    have := h.early
    omega
  have hbarred := h.not_barred (hsigners author hauthor).1.tail
  -- every signer has a valid signature in the bucket
  have hin : signers ⊆ validSigners (keys m.vote.epoch) m.vote ((t.votes.bucket m.vote).insert author m.sig) := by
    intro x hx
    obtain ⟨hbad, hx'⟩ := hsigners x hx
    by_cases hxa : x = author
    · subst hxa
      exact mem_validSigners (AMap.get_insert_self _ _ _) (hbad _ (.head _) rfl rfl)
    · obtain ⟨d, hd, rfl, hvote, hc⟩ := hx'.resolve_left hxa
      obtain ⟨sg, hget, hvalid⟩ := h.kept d hd hc (by rw [hvote]; exact hbad.tail) (by rw [hvote]; exact hlo)
      rw [hvote] at hget hvalid
      exact mem_validSigners (by rw [AMap.get_insert_ne _ _ hxa, hget]) hvalid
  -- and the bucket has votes of members only
  have hmember : ∀ d : Delivery, Validated (d.before.validatorEnv env) d.author d.m → d.m.vote = m.vote →
      d.author ∈ validators.members := by
    intro d hd hvote
    obtain ⟨vs, -, hvs, hmem⟩ := hd.spec
    rw [hvote] at hvs
    rw [show env.valEpochMap.get m.vote.epoch = some vs from hvs] at hset
    cases hset
    exact hmem
  have hmem : ∀ x ∈ ((t.votes.bucket m.vote).insert author m.sig).keys, x ∈ validators.members := by
    intro x hx
    obtain ⟨⟨y, sg⟩, hy, rfl⟩ := mem_map.mp hx
    rcases AMap.of_get_insert (AMap.get_eq_some.mpr hy) with hget | ⟨rfl, -⟩
    · obtain ⟨⟨d, hd, heq⟩, -⟩ := (h.blamed _).pending m.vote y sg hget
      obtain ⟨rfl, hm⟩ := Collector.Input.vote.inj heq
      exact hmember d (h.validated d hd) (by rw [← hm])
    · exact hmember ⟨t, y, m, out⟩ hv rfl
  have hvalid := hasThresholdVotes_mono validSigners_nodup hin hsuper
  obtain ⟨sc, hsc⟩ : ∃ sc, (certify (keys m.vote.epoch).new validators (.vote m.vote)
      ((t.votes.bucket m.vote).insert author m.sig) (t.votes.roundState m.vote.round).invalidVoters).1 = some sc :=
    certify_complete hmem hvalid (hcancel validators hset hvalid)
  refine ⟨⟨m.vote, sc⟩, ?_, rfl⟩
  rw [hout, (processVote_collects hearly hbarred).1, hsc]
  rfl

/-- Once a supermajority that never sent a bad signature for the round has delivered one vote in time, the
round has a QC. -/
theorem quorum_complete (h : Runs env keys (NoCancel env keys) log t)
    (hset : env.valEpochMap.get vote.epoch = some validators)
    (hsuper : validators.hasSuperMajorityVotes signers = .ok true)
    (hsigners : ∀ x ∈ signers, NeverBad keys log x vote.round ∧ ∃ d ∈ log, d.author = x ∧ d.m.vote = vote ∧ d.Counted) :
    ∃ d ∈ log, ∃ qc, d.out = some qc ∧ qc.getRound = vote.round := by
  induction h with
  | start highRound em =>
    obtain ⟨x, hx⟩ : ∃ x, x ∈ signers := by
      refine exists_mem_of_ne_nil _ fun hnil => ?_
      have hstake := (hasThresholdVotes_ok.mp hsuper).2
      simp [hnil, threshold] at hstake
    obtain ⟨-, d, hd, -⟩ := hsigners x hx
    cases hd
  | @vote log t t' author m out hrun hv hok hstep ih =>
    by_cases hold : ∀ x ∈ signers, ∃ d ∈ log, d.author = x ∧ d.m.vote = vote ∧ d.Counted
    · obtain ⟨d, hd, hqc⟩ := ih fun x hx => ⟨(hsigners x hx).1.tail, hold x hx⟩
      exact ⟨d, .tail _ hd, hqc⟩
    · -- the new vote is the last one
      push Not at hold
      obtain ⟨y, hy, hnew⟩ := hold
      have hlast : ∀ x ∈ signers, (∃ d ∈ log, d.author = x ∧ d.m.vote = vote ∧ d.Counted) ∨
          x = author ∧ vote = m.vote ∧ (⟨t, author, m, out⟩ : Delivery).Counted := by
        intro x hx
        obtain ⟨-, d, hd, hx', hvote, hc⟩ := hsigners x hx
        rcases mem_cons.mp hd with rfl | hd
        · exact .inr ⟨hx'.symm, hvote.symm, hc⟩
        · exact .inl ⟨d, hd, hx', hvote, hc⟩
      obtain ⟨rfl, rfl, hcount⟩ := (hlast y hy).resolve_left fun ⟨d, hd, hx, hvote, hc⟩ => hnew d hd hx hvote hc
      obtain ⟨qc, hqc, hround⟩ := completes (inv_runs hrun) hv hok hstep hset hsuper hcount hy fun x hx =>
        ⟨(hsigners x hx).1, (hlast x hx).elim .inr fun h => .inl h.1⟩
      exact ⟨_, .head _, qc, hqc, hround⟩
  | qc _ _ ih | tc _ _ ih | epoch em _ ih => exact ih hsigners

theorem returned_nodup (h : Runs env keys ok log t) : ((log.filterMap (·.out)).map (·.getRound)).Nodup := by
  induction h with
  | start => simp
  | @vote log t t' author m out hrun hv _ hstep ih =>
    cases hout : out with
    | none => simpa using ih
    | some qc =>
      show (qc.getRound :: (log.filterMap (·.out)).map (·.getRound)).Nodup
      rw [nodup_cons]
      refine ⟨fun hin => ?_, ih⟩
      obtain ⟨qc', hqc', heq⟩ := mem_map.mp hin
      obtain ⟨d, hd, hd'⟩ := mem_filterMap.mp hqc'
      have hlt := (inv_runs hrun).returned d hd qc' hd'
      -- a new QC is of the current round or a later one
      obtain ⟨validators, -, hset, -⟩ := hv.spec
      rcases handleVote_ok hv hset hstep with ⟨-, -, hnone⟩ | ⟨hlo, -, hres, -⟩
      · rw [hout] at hnone
        cases hnone
      · rw [hout] at hres
        obtain ⟨sc, rfl, -⟩ := processVote_info hres.symm
        have hround : (⟨m.vote, sc⟩ : QuorumCertificate).getRound = m.vote.round := rfl
        omega
  | qc _ _ ih | tc _ _ ih | epoch em _ ih => exact ih

theorem returned_verify (h : Runs env keys ok log t) (hd : d ∈ log) {qc : QuorumCertificate} (hqc : d.out = some qc)
    (hlen : ∀ vs, env.valEpochMap.get qc.getEpoch = some vs → vs.members.length ≤ MaxSignersLen) :
    (envAt (d.before.validatorEnv env) keys qc.getEpoch).verifyQC qc = .ok () := by
  induction h with
  | start => cases hd
  | vote hrun hv _ hstep ih =>
    rcases mem_cons.mp hd with rfl | hd
    · exact returned_verifies (inv_runs hrun) hv hstep hqc hlen
    · exact ih hd
  | qc _ _ ih | tc _ _ ih | epoch em _ ih => exact ih hd

/-- Over every sequence of validated votes, where the keys of the valid signers of a vote that hold a
supermajority do not cancel: a QC that is returned passes `VerifyQC`, no round has two, and a round
that a supermajority voted for in one way has one. -/
theorem quorum_formation (env : ValidatorEnv) (keys : Nat → Signing K S) {log : List Delivery} {t : Tally}
    (h : Runs env keys (NoCancel env keys) log t) : (∀ d ∈ log, ∀ qc, d.out = some qc →
      (∀ vs, env.valEpochMap.get qc.getEpoch = some vs → vs.members.length ≤ MaxSignersLen) →
      (envAt (d.before.validatorEnv env) keys qc.getEpoch).verifyQC qc = .ok ()) ∧
    ((log.filterMap (·.out)).map (·.getRound)).Nodup ∧
    ∀ (vote : Vote) (validators : ValidatorSet) (signers : List NodeId), env.valEpochMap.get vote.epoch = some validators →
      validators.hasSuperMajorityVotes signers = .ok true →
      (∀ x ∈ signers, NeverBad keys log x vote.round ∧ ∃ d ∈ log, d.author = x ∧ d.m.vote = vote ∧ d.Counted) →
      ∃ d ∈ log, ∃ qc, d.out = some qc ∧ qc.getRound = vote.round :=
  ⟨fun _ hd _ hqc hlen => returned_verify h hd hqc hlen, returned_nodup h,
    fun _ _ _ hset hsuper hsigners => quorum_complete h hset hsuper hsigners⟩

/-! ## Keys that cancel

The seven validators with unequal stakes. Number 6 holds little and chose its key so that it cancels
the keys of the five honest ones. Its vote comes first, and the honest votes find no certificate. -/

open Scenario

def unequal : ValidatorSet where
  vals := ⟨[(0, 10), (1, 10), (2, 10), (3, 10), (4, 10), (5, 14), (6, 1)], by decide⟩
  nonempty := by decide
  pos := by decide

def unequalEnv : ValidatorEnv := { sevenEnv with valEpochMap := ⟨[(1, unequal)], by decide⟩ }

def vote₁ : Vote := ⟨(headerOf 1 GenesisQC 1).getId, 1, 1⟩

/-- Deliver the votes of `voters` on the block of round 1, in order. -/
def deliver (env : ValidatorEnv) (t : Tally) (voters : List NodeId) : Except Panic (Tally × List (Option QuorumCertificate)) :=
  voters.foldlM (fun r x => do
    let (t', out) ← r.1.handleVote env (fun _ => signing) x (newVoteMessage vote₁ x)
    return (t', r.2 ++ [out])) (t, [])

/-- Every vote is valid, and five voters with a supermajority who signed nothing else get no QC. -/
theorem cancelling_votes_wedge : unequal.Bounded {5, 6} ∧ unequal.hasSuperMajorityVotes [0, 1, 2, 3, 4] = .ok true ∧
    (∀ x ∈ unequal.members, unequalEnv.verify x (.vote (newVoteMessage vote₁ x)) = .ok () ∧
      unequalEnv.validateVote (newVoteMessage vote₁ x) = .ok () ∧
      signing.valid (.vote vote₁) x (newVoteMessage vote₁ x).sig = true) ∧
    (deliver unequalEnv ⟨1, VoteState.new 1, Scenario.epochManager⟩ [6, 0, 1, 2, 3, 4]).map (fun r => (r.1.round, r.2)) =
      .ok (1, [none, none, none, none, none, none]) := by
  refine ⟨?_, by decide +kernel, by decide +kernel, by decide +kernel⟩
  unfold ValidatorSet.Bounded
  decide +kernel

/-! Four validators: 0 votes twice and 1 with the signature of 2, so that the third voter makes a supermajority
whose certificate fails. The fourth vote completes a QC. -/

/-- Round 1 after votes on its block. -/
def heard (sigs : AMap NodeId BlsSignature) (barred : List NodeId) : Tally :=
  ⟨1, ⟨AMap.empty.insert 1 ⟨AMap.empty.insert vote₁ sigs, barred⟩, 1⟩, Scenario.epochManager⟩

def sigOf (x : NodeId) : BlsSignature := (newVoteMessage vote₁ x).sig

def fourVotes : List Delivery :=
  [⟨heard ⟨[(0, sigOf 0), (2, sigOf 2)], by decide⟩ [1], 3, newVoteMessage vote₁ 3,
      some ⟨vote₁, signedBy [0, 2, 3] (.vote vote₁)⟩⟩,
   ⟨heard ⟨[(0, sigOf 0), (1, sigOf 2)], by decide⟩ [], 2, newVoteMessage vote₁ 2, none⟩,
   ⟨heard ⟨[(0, sigOf 0)], by decide⟩ [], 1, ⟨vote₁, sigOf 2⟩, none⟩,
   ⟨heard ⟨[(0, sigOf 0)], by decide⟩ [], 0, newVoteMessage vote₁ 0, none⟩,
   ⟨⟨1, VoteState.new 1, Scenario.epochManager⟩, 0, newVoteMessage vote₁ 0, none⟩]

/-- Round 2, when the QC is processed. -/
def heardFour : Tally := ⟨2, ⟨AMap.empty, 2⟩, Scenario.epochManager⟩

open Collector in
theorem quorum_formation_four : ∃ t, Runs fourEnv (fun _ => signing) (NoCancel fourEnv fun _ => signing) fourVotes t ∧
    ∃ d ∈ fourVotes, ∃ qc, d.out = some qc ∧ qc.getRound = 1 ∧
      (envAt (d.before.validatorEnv fourEnv) (fun _ => signing) 1).verifyQC qc = .ok () := by
  have hepoch : ∀ d ∈ fourVotes, d.m.vote.epoch = 1 := by decide +kernel
  have hcancel : ∀ d ∈ fourVotes, NoCancel fourEnv (fun _ => signing) d.before d.author d.m := by
    intro d hd validators hset
    rw [hepoch d hd] at hset
    cases hset
    revert d
    decide +kernel
  have hvalid : ∀ d ∈ fourVotes, Validated (d.before.validatorEnv fourEnv) d.author d.m := by
    unfold Validated
    decide +kernel
  have hsteps : ∀ p ∈ fourVotes.zip (heardFour :: fourVotes.map (·.before)),
      p.1.before.handleVote fourEnv (fun _ => signing) p.1.author p.1.m = .ok (p.2, p.1.out) := by decide +kernel
  have hrun : Runs fourEnv (fun _ => signing) (NoCancel fourEnv fun _ => signing) fourVotes heardFour := by
    have hnext : ∀ {d log t}, (d, t) ∈ fourVotes.zip (heardFour :: fourVotes.map (·.before)) →
        Runs fourEnv (fun _ => signing) (NoCancel fourEnv fun _ => signing) log d.before →
        Runs fourEnv (fun _ => signing) (NoCancel fourEnv fun _ => signing) (d :: log) t := by
      intro d log t hp hlog
      have hd := (List.of_mem_zip hp).1
      exact hlog.vote (hvalid d hd) (hcancel d hd) (hsteps _ hp)
    refine hnext ?_ (hnext ?_ (hnext ?_ (hnext ?_ (hnext ?_ (.start 0 Scenario.epochManager)))))
    all_goals simp [fourVotes]
  obtain ⟨hsound, -, hcomplete⟩ := quorum_formation fourEnv (fun _ => signing) hrun
  obtain ⟨d, hd, qc, hqc, hround⟩ := hcomplete vote₁ Scenario.validators [0, 2, 3] rfl (by decide +kernel) <| by
    unfold NeverBad Delivery.Counted
    decide +kernel
  have hqcEpoch : ∀ d ∈ fourVotes, ∀ qc, d.out = some qc → qc.getEpoch = 1 := by decide +kernel
  have hverify := hsound d hd qc hqc
  rw [hqcEpoch d hd qc hqc] at hverify
  refine ⟨heardFour, hrun, d, hd, qc, hqc, hround, hverify fun vs hvs => ?_⟩
  cases hvs
  decide

end Tally

/-! ## The tally of a state -/

namespace State

variable {env : Env} {s s' : State}

def tally (s : State) : Tally := ⟨s.currentRound, s.voteState, s.epochManager⟩

/-- Proposing changes neither the votes nor the round. -/
theorem tryPropose_keeps (h : s.tryPropose env = .ok s') : s'.voteState = s.voteState ∧ s'.pacemaker = s.pacemaker := by
  have hreq := (requestTipIfMissing_sameCore s).1
  simp only [tryPropose] at h
  split at h
  · cases h
  split at h
  · cases h
  split at h
  · cases h
    exact ⟨rfl, rfl⟩
  split at h
  · cases h
    exact ⟨hreq.voteState, hreq.pacemaker⟩
  split at h
  · -- a tip is proposed again
    unfold repropose at h
    obtain ⟨s₁, hs₁, h⟩ := bind_eq_ok.mp h
    have hcore := hreq.trans (tryUpdateCoherency_sameCore hs₁)
    split at h
    · split at h
      · cases h
        exact ⟨hcore.voteState, hcore.pacemaker⟩
      · obtain ⟨safety, -, h⟩ := bind_eq_ok.mp h
        cases h
        exact ⟨hcore.voteState, hcore.pacemaker⟩
    · obtain ⟨safety, -, h⟩ := bind_eq_ok.mp h
      split at h
      · cases h
      · cases h
        exact ⟨hcore.voteState, hcore.pacemaker⟩
  · -- or a QC is extended
    unfold proposeOn at h
    obtain ⟨s₁, hs₁, h⟩ := bind_eq_ok.mp h
    have hcore := hreq.trans (tryUpdateCoherency_sameCore hs₁)
    split at h
    · cases h
      exact ⟨hcore.voteState, hcore.pacemaker⟩
    split at h
    · cases h
    obtain ⟨expected, -, h⟩ := bind_eq_ok.mp h
    split at h
    · cases h
      exact ⟨hcore.voteState, hcore.pacemaker⟩
    · obtain ⟨safety, -, h⟩ := bind_eq_ok.mp h
      cases h
      exact ⟨hcore.voteState, hcore.pacemaker⟩

theorem requestBlocks_keeps (h : s.requestBlocksIfMissingAncestor = .ok s') :
    s'.voteState = s.voteState ∧ s'.pacemaker = s.pacemaker := by
  simp only [requestBlocksIfMissingAncestor] at h
  split at h
  · cases h
    exact ⟨rfl, rfl⟩
  split at h
  · cases h
  split at h
  · cases h
    exact ⟨rfl, rfl⟩
  · cases h
    exact ⟨rfl, rfl⟩

theorem enterRound_keeps {cert : RoundCertificate} (h : s.enterRound env cert = .ok s')
    (hround : s.currentRound ≤ cert.round) : s'.voteState = s.voteState ∧ s'.currentRound = cert.round + 1 := by
  obtain ⟨⟨p, safety, cmds⟩, hp, hret⟩ := bind_eq_ok.mp h
  cases hret
  refine ⟨rfl, ?_⟩
  obtain ⟨hle, -⟩ | ⟨-, epoch, -, rfl, -⟩ := Pacemaker.processCertificate_ok hp
  · have hcur : s.currentRound = s.pacemaker.highCertificate.round + 1 := rfl
    omega
  · rfl

/-- A QC of the current round or a later one opens the next round, for the votes too. -/
theorem processQC_tally {qc : QuorumCertificate} (h : s.processQC env qc = .ok s') (hround : s.currentRound ≤ qc.info.round) :
    s'.voteState = s.voteState.startNewRound (qc.info.round + 1) ∧ s'.currentRound = qc.info.round + 1 := by
  unfold processQC at h
  rw [if_neg (by omega)] at h
  obtain ⟨s₁, hs₁, h⟩ := bind_eq_ok.mp h
  obtain ⟨⟨⟩, -, h⟩ := bind_eq_ok.mp h
  obtain ⟨s₂, hs₂, h⟩ := bind_eq_ok.mp h
  obtain ⟨s₃, hs₃, h⟩ := bind_eq_ok.mp h
  have hcore : SameCore s (s₁.cancelObsolete env) :=
    ((commitVoted_sameCore qc s).trans (tryCommit_sameCore hs₁)).trans ⟨rfl, rfl, rfl, rfl, rfl⟩
  obtain ⟨hv₂, hr₂⟩ := enterRound_keeps hs₂ (by rw [hcore.currentRound]; exact hround)
  have hhead := updateProposedHead_sameCore s₂
  obtain ⟨hv₃, hp₃⟩ := requestBlocks_keeps hs₃
  obtain ⟨hv, hp⟩ := tryPropose_keeps h
  have hr₃ : s₃.currentRound = qc.info.round + 1 := by
    calc s₃.currentRound = s₂.updateProposedHead.currentRound := by rw [currentRound, hp₃]; rfl
      _ = s₂.currentRound := hhead.currentRound
      _ = qc.info.round + 1 := hr₂
  refine ⟨?_, ?_⟩
  · rw [hv]
    show s₃.voteState.startNewRound s₃.currentRound = _
    rw [hr₃, hv₃, hhead.voteState, hv₂, hcore.voteState]
  · rw [currentRound, hp]
    exact hr₃

theorem handleVoteMessage_ok {author : NodeId} {m : VoteMessage} (h : s.handleVoteMessage env author m = .ok s') :
    ∃ t out, s.tally.handleVoteWith (s.validatorEnv env) (fun _ => SigCol.new) author m = .ok (t, out) ∧
      s'.tally = { t with epochManager := s'.epochManager } := by
  unfold handleVoteMessage at h
  unfold Tally.handleVoteWith
  split at h
  · rename_i hwin
    cases h
    exact ⟨s.tally, none, if_pos hwin, rfl⟩
  rename_i hwin
  obtain ⟨validators, hset, h⟩ := bind_eq_ok.mp h
  obtain ⟨epoch, hep, hget⟩ := verifiedSet_ok hset
  have hverified : s.tally.verifiedSet (s.validatorEnv env) m.vote.round = .ok (epoch, validators) := by
    unfold Tally.verifiedSet
    rw [show s.tally.epochManager.getEpoch m.vote.round = some epoch from hep]
    simp only [validatorEnv, hget]
  rw [show s.currentRound = s.tally.round from rfl] at hwin
  rw [if_neg hwin, hverified]
  refine ⟨_, _, rfl, ?_⟩
  change (match (s.voteState.processVoteWith SigCol.new author m validators).2 with | none => _ | some qc => _) = _ at h
  show s'.tally = { Tally.after s.tally (s.voteState.processVoteWith SigCol.new author m validators).1
    (s.voteState.processVoteWith SigCol.new author m validators).2 with epochManager := s'.epochManager }
  split at h
  · rename_i hnone
    rw [hnone]
    cases h
    rfl
  · rename_i qc hsome
    rw [hsome]
    obtain ⟨s₁, hs₁, h⟩ := bind_eq_ok.mp h
    obtain ⟨s₂, hs₂, h⟩ := bind_eq_ok.mp h
    obtain ⟨hinfo, -⟩ := processVote_qc hsome
    obtain ⟨hv₁, hr₁⟩ := processQC_tally hs₁ (by rw [hinfo]; show s.tally.round ≤ _; omega)
    obtain ⟨hv₂, hp₂⟩ := tryPropose_keeps hs₂
    have htally : s'.voteState = s₂.voteState ∧ s'.currentRound = s₂.currentRound := by
      cases h
      split <;> exact ⟨rfl, rfl⟩
    have hr₂ : s₂.currentRound = qc.info.round + 1 := by
      rw [currentRound, hp₂]
      exact hr₁
    unfold tally Tally.after
    rw [htally.1, htally.2, hv₂, hv₁, hr₂]
    rfl

section Runs

variable {K S : Type} [AddCommGroup K] [AddCommGroup S] [DecidableEq K] [DecidableEq S]

/-- Votes that the state handles one after the other. Each is validated and meets `ok`, and aggregation with
the keys of its epoch answers what looking at each signature by itself does. -/
inductive HandlesVotes (env : Env) (ve : ValidatorEnv) (keys : Nat → Signing K S) (ok : Tally → NodeId → VoteMessage → Prop)
    (s : State) : List (NodeId × VoteMessage) → State → Prop
  | nil : HandlesVotes env ve keys ok s [] s
  | vote {votes : List (NodeId × VoteMessage)} {s₁ s₂ : State} {author : NodeId} {m : VoteMessage} :
      HandlesVotes env ve keys ok s votes s₁ → Tally.Validated (s₁.tally.validatorEnv ve) author m → ok s₁.tally author m →
      (∀ epoch validators, env.valEpochMap.get epoch = some validators → s₁.voteState.processVoteWith (keys epoch).new
        author m validators = s₁.voteState.processVote author m validators) →
      s₁.handleVoteMessage env author m = .ok s₂ → HandlesVotes env ve keys ok s ((author, m) :: votes) s₂

/-- `HandleVoteMessage` does to the tally of a state what `handleVoteWith` does, epochs apart. So a run of the
tally goes on with the votes that the state handles. -/
theorem handleVoteMessage_tally (env : Env) (keys : Nat → Signing K S) :
    (∀ (s s' : State) author m, s.handleVoteMessage env author m = .ok s' →
      ∃ t out, s.tally.handleVoteWith (s.validatorEnv env) (fun _ => SigCol.new) author m = .ok (t, out) ∧
        s'.tally = { t with epochManager := s'.epochManager }) ∧
    ∀ (ve : ValidatorEnv) ok log (s s' : State) votes, ve.valEpochMap = env.valEpochMap →
      Tally.Runs ve keys ok log s.tally → HandlesVotes env ve keys ok s votes s' →
      ∃ log', Tally.Runs ve keys ok (log' ++ log) s'.tally ∧ log'.map (fun d => (d.author, d.m)) = votes := by
  refine ⟨fun s s' author m => handleVoteMessage_ok, fun ve ok log s s' votes hve hrun hvotes => ?_⟩
  induction hvotes with
  | nil => exact ⟨[], hrun, rfl⟩
  | @vote votes s₁ s₂ author m _ hvalid hok hagree h ih =>
    obtain ⟨log', hrun', hvotes⟩ := ih
    obtain ⟨t, out, ht, htally⟩ := handleVoteMessage_ok h
    have hstep : s₁.tally.handleVote ve keys author m = .ok (t, out) := by
      rw [← ht]
      exact Tally.handleVoteWith_congr hve fun epoch validators hget => hagree epoch validators (hve ▸ hget)
    refine ⟨⟨s₁.tally, author, m, out⟩ :: log', ?_, by rw [List.map_cons, hvotes]⟩
    rw [htally]
    exact (hrun'.vote hvalid hok hstep).epoch _

end Runs

open Scenario Tally Collector

/-- A node among the four validators. -/
def fourNode : Env := { liveEnv with valEpochMap := fourEnv.valEpochMap }

/-- Three votes reach the state in round 1. The third completes a QC. -/
theorem handleVoteMessage_tally_three : ∃ (s' : State) (log : List Delivery), s'.currentRound = 2 ∧ log.length = 3 ∧
    Tally.Runs fourEnv (fun _ => signing) (fun _ _ _ => True) log s'.tally := by
  obtain ⟨s, s₁, s₂, s₃, -, h₁, h₂, h₃, t₀, t₁, t₂, hround⟩ : ∃ s s₁ s₂ s₃ : State,
      liveStart Scenario.epochManager = .ok s ∧ s.handleVoteMessage fourNode 0 (newVoteMessage vote₁ 0) = .ok s₁ ∧
      s₁.handleVoteMessage fourNode 2 (newVoteMessage vote₁ 2) = .ok s₂ ∧
      s₂.handleVoteMessage fourNode 3 (newVoteMessage vote₁ 3) = .ok s₃ ∧
      s.tally = ⟨1, VoteState.new 1, Scenario.epochManager⟩ ∧ s₁.tally = heard ⟨[(0, sigOf 0)], by decide⟩ [] ∧
      s₂.tally = heard ⟨[(0, sigOf 0), (2, sigOf 2)], by decide⟩ [] ∧ s₃.currentRound = 2 :=
    ⟨_, _, _, _, rfl, rfl, rfl, rfl, rfl, rfl, rfl, rfl⟩
  have hready : ∀ t ∈ [s.tally, s₁.tally, s₂.tally], ∀ x ∈ [0, 2, 3],
      Tally.Validated (t.validatorEnv fourEnv) x (newVoteMessage vote₁ x) ∧
      ∀ p ∈ fourEnv.valEpochMap.entries, t.votes.processVoteWith signing.new x (newVoteMessage vote₁ x) p.2 =
        t.votes.processVote x (newVoteMessage vote₁ x) p.2 := by
    rw [t₀, t₁, t₂]
    unfold Tally.Validated
    decide +kernel
  have hnext : ∀ {t : State} {x votes} {t' : State}, t.tally ∈ [s.tally, s₁.tally, s₂.tally] → x ∈ [0, 2, 3] →
      t.handleVoteMessage fourNode x (newVoteMessage vote₁ x) = .ok t' →
      HandlesVotes fourNode fourEnv (fun _ => signing) (fun _ _ _ => True) s votes t →
      HandlesVotes fourNode fourEnv (fun _ => signing) (fun _ _ _ => True) s ((x, newVoteMessage vote₁ x) :: votes) t' := by
    intro t x votes t' ht hx h hvotes
    obtain ⟨hvalid, hagree⟩ := hready _ ht x hx
    exact hvotes.vote hvalid trivial (fun epoch vs hget => hagree (epoch, vs) (AMap.get_eq_some.mp hget)) h
  have hvotes := hnext (by simp) (by simp) h₃ <| hnext (by simp) (by simp) h₂ <| hnext (by simp) (by simp) h₁ .nil
  obtain ⟨log, hlog, hlen⟩ := (handleVoteMessage_tally fourNode fun _ => signing).2 fourEnv _ [] s s₃ _ rfl
    (t₀ ▸ Tally.Runs.start 0 Scenario.epochManager) hvotes
  exact ⟨s₃, log, hround, by simpa using congrArg List.length hlen, by simpa using hlog⟩

end State

end MonadBft
