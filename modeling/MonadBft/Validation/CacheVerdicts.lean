/-
  MonadBft.Validation.CacheVerdicts — one certificate cache over a whole run.

  A node verifies certificates with one cache while epoch starts and validator sets are added.
  A validator set is never replaced, but a new epoch start may take a round that has passed out
  of its epoch, and an entry of the cache is not looked at again.

  - `verifyQC_extend`, `verifyTC_extend` and their like: an accepted certificate is accepted with
    more epoch data exactly when the rounds it names (`named`) are still in the epochs it names
    for them.
  - `apply_sound_iff`: so a step keeps the cache sound exactly when the start it adds moves no
    round that a cached certificate names (`Action.Keeps`).
  - `cached_verdicts_iff`: along a run every verdict is that of an empty cache exactly when every
    step does; the bound on the entries holds in any case.

  `stale_verdict` is a start that comes too late: the cache still accepts a certificate that is
  refused without it.
-/
import MonadBft.Lib.Steps
import MonadBft.Scenario
import MonadBft.Validation.CertificateCache

namespace MonadBft

open Lib Caching ValidatorEnv

/-! ## The rounds a certificate names -/

def QuorumCertificate.named (qc : QuorumCertificate) : List (Nat × Nat) := [(qc.getRound, qc.getEpoch)]

def NoEndorsementCertificate.named (nec : NoEndorsementCertificate) : List (Nat × Nat) :=
  [(nec.msg.round, nec.msg.epoch)]

def FreshProposalCertificate.named : FreshProposalCertificate → List (Nat × Nat)
  | .nec c => c.named
  | .noTip c => (c.round, c.epoch) :: c.highQc.named

def ConsensusTip.named (tip : ConsensusTip) : List (Nat × Nat) :=
  (tip.blockHeader.blockRound, tip.blockHeader.epoch) :: tip.blockHeader.qc.named ++
    (tip.freshCertificate.map FreshProposalCertificate.named).getD []

def HighExtend.named : HighExtend → List (Nat × Nat)
  | .tip t => t.named
  | .qc c => c.named

/-- The rounds a certificate names, with the epochs it puts them in. -/
def TimeoutCertificate.named (tc : TimeoutCertificate) : List (Nat × Nat) := (tc.round, tc.epoch) :: tc.highExtend.named

namespace ValidatorEnv

variable {env env' : ValidatorEnv} {nec : NoEndorsementCertificate} {p : ValidatorSet × NodeId} {l : List (Nat × Nat)}
  {qc : QuorumCertificate}

/-- The rounds are in these epochs. -/
def Places (env : ValidatorEnv) (l : List (Nat × Nat)) : Prop := ∀ p ∈ l, env.epochManager.getEpoch p.1 = some p.2

theorem places_cons {p : Nat × Nat} :
    env.Places (p :: l) ↔ env.epochManager.getEpoch p.1 = some p.2 ∧ env.Places l := List.forall_mem_cons

theorem places_append {l' : List (Nat × Nat)} : env.Places (l ++ l') ↔ env.Places l ∧ env.Places l' :=
  List.forall_mem_append

theorem places_singleton {epoch round : Nat} :
    env.Places [(round, epoch)] ↔ env.epochManager.getEpoch round = some epoch := List.forall_mem_singleton

theorem places_nil : env.Places [] := fun _ h => (List.not_mem_nil h).elim

structure Extends (env env' : ValidatorEnv) : Prop where
  sets : ∀ {epoch v}, env.valEpochMap.get epoch = some v → env'.valEpochMap.get epoch = some v
  leader : env'.getLeader = env.getLeader
  sigs : env'.verifySigCol = env.verifySigCol

theorem epochToValidators_epoch {epoch round : Nat}
    (h : env.epochToValidators epoch round = .ok p) : env.epochManager.getEpoch round = some epoch := by
  unfold epochToValidators at h
  by_cases he : env.epochManager.getEpoch round = some epoch
  · exact he
  · rw [if_pos he] at h
    cases h

theorem epochToValidators_extend (hx : Extends env env') {epoch round : Nat}
    (h : env.epochToValidators epoch round = .ok p) (hr : env'.epochManager.getEpoch round = some epoch) :
    env'.epochToValidators epoch round = .ok p := by
  have he := epochToValidators_epoch h
  unfold epochToValidators at h ⊢
  rw [if_neg (not_not.mpr he)] at h
  rw [if_neg (not_not.mpr hr)]
  split at h
  · cases h
  rename_i v hv
  rw [hx.sets hv, hx.leader]
  exact h

theorem epochToValidators_bind (hx : Extends env env') {epoch round : Nat} (h : env.epochToValidators epoch round = .ok p)
    {k : ValidatorSet × NodeId → Except ValidationError Unit} : (env'.epochToValidators epoch round >>= k) = .ok () ↔
      env'.epochManager.getEpoch round = some epoch ∧ k p = .ok () := by
  constructor
  · intro h'
    obtain ⟨q, hq, hk⟩ := bind_eq_ok.mp h'
    have hr := epochToValidators_epoch hq
    obtain rfl := Except.ok.inj (hq.symm.trans (epochToValidators_extend hx h hr))
    exact ⟨hr, hk⟩
  · rintro ⟨hr, hk⟩
    exact bind_eq_ok.mpr ⟨p, epochToValidators_extend hx h hr, hk⟩

theorem verifySigs_extend (hx : Extends env env') : env'.verifySigs = env.verifySigs := by
  funext sigs validators msg
  unfold verifySigs
  rw [hx.sigs]

theorem verifyTipRounds_extend (hx : Extends env env') (validators : ValidatorSet) (epoch round : Nat)
    (l : List HighTipRoundSigColTuple) (seen : List (Nat × Nat)) (nodeIds : List NodeId) (rank : HighExtendRank) :
    env'.verifyTipRounds validators epoch round l seen nodeIds rank =
      env.verifyTipRounds validators epoch round l seen nodeIds rank := by
  induction l generalizing seen nodeIds rank with
  | nil => rfl
  | cons t l ih =>
    unfold verifyTipRounds
    rw [verifySigs_extend hx]
    simp only [ih]

/-! ## Certificates with more epoch data -/

section

variable (hx : Extends env env') {tc : TimeoutCertificate}

include hx

theorem verifyQC_extend (h : env.verifyQC qc = .ok ()) : env'.verifyQC qc = .ok () ↔ env'.Places qc.named := by
  obtain ⟨p, he, hrest⟩ := bind_eq_ok.mp h
  refine (epochToValidators_bind hx he).trans ?_
  rw [verifySigs_extend hx, and_iff_left hrest]
  exact places_singleton.symm

theorem verifyNEC_extend (h : env.verifyNEC nec = .ok ()) : env'.verifyNEC nec = .ok () ↔ env'.Places nec.named := by
  obtain ⟨p, he, hrest⟩ := bind_eq_ok.mp h
  refine (epochToValidators_bind hx he).trans ?_
  rw [verifySigs_extend hx, and_iff_left hrest]
  exact places_singleton.symm

/-- What the evidence names and what the certificate itself names are placed separately. -/
theorem verifyTCWith_extend {f g : HighExtend → Except ValidationError Unit} (h : env.verifyTCWith f tc = .ok ())
    (hf : f tc.highExtend = .ok () → (g tc.highExtend = .ok () ↔ env'.Places l)) :
    env'.verifyTCWith g tc = .ok () ↔ env'.Places ((tc.round, tc.epoch) :: l) := by
  obtain ⟨⟨validators, leader⟩, he, h₁⟩ := bind_eq_ok.mp h
  obtain ⟨⟨⟩, hlen, h₂⟩ := bind_eq_ok.mp h₁
  obtain ⟨⟨nodeIds, rank⟩, ht, h₃⟩ := bind_eq_ok.mp h₂
  obtain ⟨⟨⟩, hm, h₄⟩ := bind_eq_ok.mp h₃
  obtain ⟨⟨⟩, hh, hr⟩ := bind_eq_ok.mp h₄
  rw [places_cons, ← hf hh]
  refine (epochToValidators_bind hx he).trans (and_congr_right fun _ => ?_)
  dsimp only
  rw [hlen, ok_bind, verifyTipRounds_extend hx, ht, ok_bind, hm, ok_bind]
  exact bind_eq_ok.trans ⟨fun h' => h'.choose_spec.1, fun hh' => ⟨(), hh', hr⟩⟩

theorem verifyFresh_extend {fc : Option FreshProposalCertificate} (h : env.verifyFresh fc = .ok ()) :
    env'.verifyFresh fc = .ok () ↔ env'.Places ((fc.map FreshProposalCertificate.named).getD []) := by
  rcases fc with _ | nec | noTip
  · exact iff_of_true rfl places_nil
  · exact verifyNEC_extend hx h
  · have htc : env.verifyNoTip noTip = .ok () := h
    exact verifyTCWith_extend (g := fun he => env'.verifyQC he.getQC) (l := noTip.highQc.named) hx htc
      fun hq => verifyQC_extend hx hq

theorem verifyTip_extend {tip : ConsensusTip} (h : env.verifyTip tip = .ok ()) :
    env'.verifyTip tip = .ok () ↔ env'.Places tip.named := by
  obtain ⟨⟨validators, leader⟩, he, h₁⟩ := bind_eq_ok.mp h
  obtain ⟨⟨⟩, hsig, h₂⟩ := bind_eq_ok.mp h₁
  obtain ⟨⟨⟩, hauthor, h₃⟩ := bind_eq_ok.mp h₂
  obtain ⟨⟨⟩, hwf, h₄⟩ := bind_eq_ok.mp h₃
  obtain ⟨⟨⟩, hqc, hfresh⟩ := bind_eq_ok.mp h₄
  unfold ConsensusTip.named
  rw [List.cons_append, places_cons, places_append, ← verifyQC_extend hx hqc, ← verifyFresh_extend hx hfresh]
  refine (epochToValidators_bind hx he).trans (and_congr_right fun _ => ?_)
  dsimp only
  rw [hsig, ok_bind, hauthor, ok_bind, hwf, ok_bind, bind_eq_ok]
  exact ⟨fun ⟨_, h'⟩ => h', fun h' => ⟨(), h'⟩⟩

theorem verifyHighExtend_extend {he : HighExtend} (h : env.verifyHighExtend he = .ok ()) :
    env'.verifyHighExtend he = .ok () ↔ env'.Places he.named := by
  cases he with
  | tip tip => exact verifyTip_extend hx h
  | qc qc => exact verifyQC_extend hx h

theorem verifyTC_extend (h : env.verifyTC tc = .ok ()) :
    env'.verifyTC tc = .ok () ↔ env'.Places tc.named :=
  verifyTCWith_extend hx h fun hh => verifyHighExtend_extend hx hh

end

end ValidatorEnv

/-! ## Calls -/

inductive Certificate where
  | qc (qc : QuorumCertificate)
  | tc (tc : TimeoutCertificate)
  | nec (nec : NoEndorsementCertificate)
  | tip (tip : ConsensusTip)
  | highExtend (he : HighExtend)

namespace Certificate

def verify (env : ValidatorEnv) : Certificate → Except ValidationError Unit
  | .qc c => env.verifyQC c
  | .tc c => env.verifyTC c
  | .nec c => env.verifyNEC c
  | .tip c => env.verifyTip c
  | .highExtend c => env.verifyHighExtend c

def verifyCached (env : ValidatorEnv) : Certificate → CachedCheck
  | .qc c => env.verifyQCCached c
  | .tc c => env.verifyTCCached c
  | .nec c => env.verifyNECCached c
  | .tip c => env.verifyTipCached c
  | .highExtend c => env.verifyHighExtendCached c

variable (env : ValidatorEnv) (c : Certificate)

theorem refines : Refines (CertificateCache.Sound env) (c.verifyCached env) (c.verify env) := by
  cases c with
  | qc c => exact env.verifyQC_refines c
  | tc c => exact env.verifyTC_refines c
  | nec c => exact env.verifyNEC_refines c
  | tip c => exact env.verifyTip_refines c
  | highExtend c => exact env.verifyHighExtend_refines c

theorem withinCapacity : Preserves CertificateCache.WithinCapacity (c.verifyCached env) := by
  cases c with
  | qc c => exact env.verifyQC_withinCapacity c
  | tc c => exact env.verifyTC_withinCapacity c
  | nec c => exact env.verifyNEC_withinCapacity c
  | tip c => exact env.verifyTip_withinCapacity c
  | highExtend c => exact env.verifyHighExtend_withinCapacity c

end Certificate

structure Checker where
  env : ValidatorEnv
  cache : CertificateCache

namespace Checker

/-- No epochs, no validator sets and an empty cache. -/
def new (epochLength epochStartDelay : Nat) (getLeader : Nat → ValidatorSet → NodeId)
    (verifySigCol : SigCol → List NodeId → SignedMsg → Except SigColErr (List NodeId)) : Checker where
  env := ⟨⟨epochLength, epochStartDelay, []⟩, AMap.empty, getLeader, verifySigCol⟩
  cache := .new

inductive Action where
  | verify (c : Certificate)
  | epochStart (epoch start : Nat)
  | validatorSet (epoch : Nat) (valSet : ValidatorSet)

def apply (s : Checker) : Action → Except Panic Checker
  | .verify c => .ok { s with cache := (c.verifyCached s.env s.cache).2 }
  | .epochStart epoch start => do
    let em ← s.env.epochManager.insertEpochStart epoch start
    return { s with env := { s.env with epochManager := em } }
  | .validatorSet epoch valSet => do
    let m ← s.env.valEpochMap.insertSet epoch valSet
    return { s with env := { s.env with valEpochMap := m } }

/-- Every call is accepted exactly when it would be with an empty cache. -/
def Agrees (s : Checker) : Prop :=
  ∀ c : Certificate, (c.verifyCached s.env s.cache).1 = .ok () ↔ (c.verifyCached s.env .new).1 = .ok ()

/-- A cached certificate names this round and its epoch. -/
def Names (c : CertificateCache) (p : Nat × Nat) : Prop :=
  (∃ qc, c.qcIsCachedValidated qc = true ∧ p ∈ qc.named) ∨ (∃ tc, c.tcIsCachedValidated tc = true ∧ p ∈ tc.named) ∨
    ∃ nec, c.necIsCachedValidated nec = true ∧ p ∈ nec.named

/-- A new epoch start moves no round that a cached certificate names. -/
def Keeps (s : Checker) : Action → Prop
  | .epochStart epoch start => s.env.epochManager.getEpochStart epoch = none →
      ∀ p, Names s.cache p → ¬s.env.epochManager.Moves epoch start p.1 p.2
  | _ => True

variable {s s' : Checker} {a : Action} {env env' : ValidatorEnv} {c : CertificateCache}

open CertificateCache (Sound)

theorem agrees_iff : s.Agrees ↔ Sound s.env s.cache := by
  have hempty : ∀ c : Certificate, (c.verifyCached s.env .new).1 = c.verify s.env :=
    fun c => (c.refines s.env .new (CertificateCache.new_sound s.env)).1
  constructor
  · intro h
    have haccept : ∀ c : Certificate, (c.verifyCached s.env s.cache).1 = .ok () → c.verify s.env = .ok () :=
      fun c hc => (hempty c).symm.trans ((h c).mp hc)
    constructor
    · intro qc hc
      exact haccept (.qc qc) (orCached_hit hc)
    · intro tc hc
      exact haccept (.tc tc) (orCached_hit hc)
    · intro nec hc
      exact haccept (.nec nec) (orCached_hit hc)
  · intro h c
    rw [(c.refines s.env s.cache h).1, hempty c]

theorem sound_places (h : Sound env c) {p : Nat × Nat} (hp : Names c p) : env.epochManager.getEpoch p.1 = some p.2 := by
  have hself : env.Extends env := ⟨id, rfl, rfl⟩
  rcases hp with ⟨qc, hc, hp⟩ | ⟨tc, hc, hp⟩ | ⟨nec, hc, hp⟩
  · exact (verifyQC_extend hself (h.qc qc hc)).mp (h.qc qc hc) p hp
  · exact (verifyTC_extend hself (h.tc tc hc)).mp (h.tc tc hc) p hp
  · exact (verifyNEC_extend hself (h.nec nec hc)).mp (h.nec nec hc) p hp

/-- A sound cache is sound with more epoch data when the rounds it names keep their epochs. -/
theorem sound_extend (hx : env.Extends env') (h : Sound env c) :
    Sound env' c ↔ ∀ p, Names c p → env'.epochManager.getEpoch p.1 = some p.2 := by
  refine ⟨fun h' p hp => sound_places h' hp, fun hp => ⟨?_, ?_, ?_⟩⟩
  · intro qc hc
    exact (verifyQC_extend hx (h.qc qc hc)).mpr fun p hm => hp p (.inl ⟨qc, hc, hm⟩)
  · intro tc hc
    exact (verifyTC_extend hx (h.tc tc hc)).mpr fun p hm => hp p (.inr (.inl ⟨tc, hc, hm⟩))
  · intro nec hc
    exact (verifyNEC_extend hx (h.nec nec hc)).mpr fun p hm => hp p (.inr (.inr ⟨nec, hc, hm⟩))

/-! ## Steps and runs -/

theorem apply_ascending (ha : s.env.epochManager.Ascending) (h : s.apply a = .ok s') : s'.env.epochManager.Ascending := by
  cases a with
  | verify c =>
    cases h
    exact ha
  | epochStart epoch start =>
    obtain ⟨em, hem, h⟩ := bind_eq_ok.mp h
    cases h
    exact EpochManager.insertEpochStart_ascending ha hem
  | validatorSet epoch valSet =>
    obtain ⟨m, -, h⟩ := bind_eq_ok.mp h
    cases h
    exact ha

theorem apply_sound_iff (ha : s.env.epochManager.Ascending) (hs : Sound s.env s.cache) (h : s.apply a = .ok s') :
    Sound s'.env s'.cache ↔ s.Keeps a := by
  cases a with
  | verify c =>
    cases h
    exact iff_of_true (c.refines s.env s.cache hs).2 trivial
  | epochStart epoch start =>
    obtain ⟨em, hem, h⟩ := bind_eq_ok.mp h
    cases h
    have hx : s.env.Extends { s.env with epochManager := em } := ⟨id, rfl, rfl⟩
    refine (sound_extend hx hs).trans ?_
    have hiff := fun p (hp : Names s.cache p) => EpochManager.insertEpochStart_getEpoch_iff ha hem (sound_places hs hp)
    constructor
    · intro h' hnone p hp
      exact (hiff p hp).mp (h' p hp) hnone
    · intro hk p hp
      exact (hiff p hp).mpr fun hnone => hk hnone p hp
  | validatorSet epoch valSet =>
    obtain ⟨m, hm, h⟩ := bind_eq_ok.mp h
    cases h
    have hx : s.env.Extends { s.env with valEpochMap := m } :=
      ⟨fun hv => ValidatorsEpochMapping.insertSet_get hm hv, rfl, rfl⟩
    refine iff_of_true ((sound_extend hx hs).mpr ?_) trivial
    intro p hp
    exact sound_places hs hp

theorem apply_withinCapacity (hs : s.cache.WithinCapacity) (h : s.apply a = .ok s') : s'.cache.WithinCapacity := by
  cases a with
  | verify c =>
    cases h
    exact c.withinCapacity s.env s.cache hs
  | epochStart epoch start =>
    obtain ⟨em, -, h⟩ := bind_eq_ok.mp h
    cases h
    exact hs
  | validatorSet epoch valSet =>
    obtain ⟨m, -, h⟩ := bind_eq_ok.mp h
    cases h
    exact hs

theorem run_agrees_iff {actions : List Action} (ha : s.env.epochManager.Ascending) (hs : Sound s.env s.cache) :
    (∀ done s', done <+: actions → runAll apply s done = .ok s' → s'.Agrees) ↔ Kept apply Keeps s actions := by
  -- that the epochs are listed in order holds along the run anyway
  rw [← prefix_invariant_iff (I := fun s => s.env.epochManager.Ascending ∧ Sound s.env s.cache) ?_ ⟨ha, hs⟩]
  · constructor
    · intro h done s' hd hr
      exact ⟨runAll_invariant (I := fun s => s.env.epochManager.Ascending) apply_ascending ha hr,
        agrees_iff.mp (h done s' hd hr)⟩
    · intro h done s' hd hr
      exact agrees_iff.mpr (h done s' hd hr).2
  · rintro a - s s' ⟨ha, hs⟩ h
    rw [← apply_sound_iff ha hs h]
    exact ⟨fun h' => h'.2, fun h' => ⟨apply_ascending ha h, h'⟩⟩

/-- From no epoch data and an empty cache, every verdict is that of an empty cache exactly along
the runs whose new epoch starts move no round that a cached certificate names. The caches stay
within their bounds. -/
theorem cached_verdicts_iff (epochLength epochStartDelay : Nat) (getLeader : Nat → ValidatorSet → NodeId)
    (verifySigCol : SigCol → List NodeId → SignedMsg → Except SigColErr (List NodeId)) (actions : List Action) :
    let start := new epochLength epochStartDelay getLeader verifySigCol
    ((∀ done s, done <+: actions → runAll apply start done = .ok s → s.Agrees) ↔ Kept apply Keeps start actions) ∧
      ∀ done s, done <+: actions → runAll apply start done = .ok s → s.cache.WithinCapacity := by
  intro start
  have hasc : start.env.epochManager.Ascending := List.Pairwise.nil
  refine ⟨run_agrees_iff hasc (CertificateCache.new_sound _), ?_⟩
  intro done s _ hrun
  exact runAll_invariant (I := fun s => s.cache.WithinCapacity) apply_withinCapacity
    CertificateCache.new_withinCapacity hrun

/-! ## A start that comes too late -/

section Late

open Scenario

def qc10 : QuorumCertificate := qcOf block1.header 10 [0, 1, 2]

/-- The certificate is verified before the start of epoch 2 in round 5 is known. -/
def lateStart : List Action :=
  [.epochStart 1 0, .validatorSet 1 validators, .verify (.qc qc10), .epochStart 2 5]

/-- The cache accepts the certificate again, and an empty cache refuses it. -/
theorem stale_verdict : ∃ s, runAll apply (new 1000 10 (fun round _ => round % 4) SigCol.verify) lateStart = .ok s ∧
    ((Certificate.qc qc10).verifyCached s.env s.cache).1 = .ok () ∧
    ((Certificate.qc qc10).verifyCached s.env .new).1 = .error .invalidEpoch :=
  ⟨_, rfl, by decide +kernel, by decide +kernel⟩

end Late

end Checker

end MonadBft
