/-
  MonadBft.Validation.CertificateCache — verification with a cache of verified certificates
  (`validation.CertificateCache` and the verifiers of `signing.go`).

  The source keys an entry by the encoding of the certificate, here by the certificate itself.
  A certificate enters the cache at the end of its own verification; a no-tip certificate
  enters as the timeout certificate it stands for, and the genesis certificate never does.

  Proved: while every entry still passes the check without a cache (`Sound`), each verifier
  gives the verdict of the check without a cache and leaves a sound cache behind
  (`verifyQC_refines`, `verifyTC_refines` and their like). The bound on the entries of each kind
  holds whatever is verified (`verifyTC_withinCapacity`).
-/
import MonadBft.Lib.Lru
import MonadBft.Lib.Memo
import MonadBft.Validation

namespace MonadBft

open Lib Caching

def qcCacheCapacity : Nat := 1000

def tcCacheCapacity : Nat := 1000

def necCacheCapacity : Nat := 1000

structure CertificateCache where
  qcLRU : Lru QuorumCertificate Unit
  tcLRU : Lru TimeoutCertificate Unit
  necLRU : Lru NoEndorsementCertificate Unit

namespace CertificateCache

def new : CertificateCache := ⟨.empty qcCacheCapacity, .empty tcCacheCapacity, .empty necCacheCapacity⟩

variable (c : CertificateCache)

def cacheValidatedQC (qc : QuorumCertificate) : CertificateCache :=
  { c with qcLRU := c.qcLRU.put qc () }

def qcIsCachedValidated (qc : QuorumCertificate) : Bool := (c.qcLRU.peek qc).isSome

def cacheValidatedTC (tc : TimeoutCertificate) : CertificateCache :=
  { c with tcLRU := c.tcLRU.put tc () }

def tcIsCachedValidated (tc : TimeoutCertificate) : Bool := (c.tcLRU.peek tc).isSome

def cacheValidatedNEC (nec : NoEndorsementCertificate) : CertificateCache :=
  { c with necLRU := c.necLRU.put nec () }

def necIsCachedValidated (nec : NoEndorsementCertificate) : Bool := (c.necLRU.peek nec).isSome

end CertificateCache

/-! ## The verifiers -/

abbrev CachedCheck : Type := Caching CertificateCache ValidationError Unit

/-- The timeout certificate a no-tip certificate stands for. -/
def NoTipCertificate.asTC (noTip : NoTipCertificate) : TimeoutCertificate :=
  ⟨noTip.epoch, noTip.round, noTip.tipRounds, .qc noTip.highQc⟩

namespace ValidatorEnv

section Verifiers

variable (env : ValidatorEnv)

def verifyQCCached (qc : QuorumCertificate) : CachedCheck :=
  orCached (·.qcIsCachedValidated qc) do
    let (validators, _) ← lift (env.epochToValidators qc.getEpoch qc.getRound)
    if qc.getRound = GENESIS_ROUND then lift (require (qc = GenesisQC) .invalidSignature)
    else
      let nodeIds ← lift (env.verifySigs qc.signatures validators (.vote qc.info))
      lift (checkSuperMajority validators nodeIds)
      remember (·.cacheValidatedQC qc)

def verifyNECCached (nec : NoEndorsementCertificate) : CachedCheck :=
  orCached (·.necIsCachedValidated nec) do
    let (validators, _) ← lift (env.epochToValidators nec.msg.epoch nec.msg.round)
    let nodeIds ← lift (env.verifySigs nec.signatures validators (.noEndorsement nec.msg))
    lift (checkSuperMajority validators nodeIds)
    remember (·.cacheValidatedNEC nec)

/-- `VerifyTC`, over the verifier of its evidence. -/
def verifyTCCachedWith (verifyHighExtend : HighExtend → CachedCheck) (tc : TimeoutCertificate) : CachedCheck :=
  orCached (·.tcIsCachedValidated tc) do
    let (validators, _) ← lift (env.epochToValidators tc.epoch tc.round)
    lift (require (¬tc.tipRounds.length > validators.members.length) .tooManyTcTipRound)
    let (nodeIds, highestRank) ←
      lift (env.verifyTipRounds validators tc.epoch tc.round tc.tipRounds [] [] (.qc GENESIS_ROUND))
    lift (checkSuperMajority validators nodeIds)
    verifyHighExtend tc.highExtend
    lift (require (tc.highExtend.rank.cmp highestRank = .eq) .notWellFormed)
    remember (·.cacheValidatedTC tc)

/-- The last check of `VerifyTip`; the evidence of a no-tip certificate is its QC. -/
def verifyFreshCached : Option FreshProposalCertificate → CachedCheck
  | none => lift (.ok ())
  | some (.nec nec) => env.verifyNECCached nec
  | some (.noTip noTip) => env.verifyTCCachedWith (fun he => env.verifyQCCached he.getQC) noTip.asTC

def verifyTipCached (tip : ConsensusTip) : CachedCheck := do
  let (_, leader) ← lift (env.epochToValidators tip.blockHeader.epoch tip.blockHeader.blockRound)
  lift (require tip.signatureAuthor.isSome .invalidSignature)
  lift (require (tip.signatureAuthor = some leader ∧ tip.signatureAuthor = some tip.blockHeader.author) .invalidAuthor)
  lift (require (wellFormedTip tip) .notWellFormed)
  env.verifyQCCached tip.blockHeader.qc
  env.verifyFreshCached tip.freshCertificate

def verifyHighExtendCached : HighExtend → CachedCheck
  | .tip tip => env.verifyTipCached tip
  | .qc qc => env.verifyQCCached qc

def verifyTCCached (tc : TimeoutCertificate) : CachedCheck := env.verifyTCCachedWith env.verifyHighExtendCached tc

end Verifiers

end ValidatorEnv

/-! ## Sound caches -/

variable {tc : TimeoutCertificate} {fc : HighExtend → CachedCheck} {κ : Type} (nec : NoEndorsementCertificate)
  (qc : QuorumCertificate) (tip : ConsensusTip)

namespace CertificateCache

variable {env : ValidatorEnv} {c : CertificateCache}

structure Sound (env : ValidatorEnv) (c : CertificateCache) : Prop where
  qc : ∀ qc, c.qcIsCachedValidated qc = true → env.verifyQC qc = .ok ()
  tc : ∀ tc, c.tcIsCachedValidated tc = true → env.verifyTC tc = .ok ()
  nec : ∀ nec, c.necIsCachedValidated nec = true → env.verifyNEC nec = .ok ()

theorem new_sound (env : ValidatorEnv) : Sound env new where
  qc := by
    intro qc h
    cases h
  tc := by
    intro tc h
    cases h
  nec := by
    intro nec h
    cases h

-- An entry is the one just made, or was there before.
theorem of_put [DecidableEq κ] {l : Lru κ Unit} {k k' : κ} (h : ((l.put k ()).peek k').isSome = true) :
    k' = k ∨ (l.peek k').isSome = true := by
  obtain ⟨a, ha⟩ := Option.isSome_iff_exists.mp h
  rcases Lru.of_peek_put ha with ⟨hk, -⟩ | ⟨-, hp⟩
  · exact .inl hk
  · exact .inr (Option.isSome_iff_exists.mpr ⟨a, hp⟩)

theorem Sound.cacheQC {qc : QuorumCertificate} (h : Sound env c) (hok : env.verifyQC qc = .ok ()) :
    Sound env (c.cacheValidatedQC qc) := by
  refine { h with qc := ?_ }
  intro qc' h'
  rcases of_put h' with rfl | hp
  · exact hok
  · exact h.qc qc' hp

theorem Sound.cacheTC (h : Sound env c) (hok : env.verifyTC tc = .ok ()) : Sound env (c.cacheValidatedTC tc) := by
  refine { h with tc := ?_ }
  intro tc' h'
  rcases of_put h' with rfl | hp
  · exact hok
  · exact h.tc tc' hp

theorem Sound.cacheNEC {nec : NoEndorsementCertificate} (h : Sound env c) (hok : env.verifyNEC nec = .ok ()) :
    Sound env (c.cacheValidatedNEC nec) := by
  refine { h with nec := ?_ }
  intro nec' h'
  rcases of_put h' with rfl | hp
  · exact hok
  · exact h.nec nec' hp

end CertificateCache

/-! ## The verifiers refine the checks without a cache -/

namespace ValidatorEnv

open CertificateCache (Sound)

variable (env : ValidatorEnv)

theorem verifyQC_refines : Refines (Sound env) (env.verifyQCCached qc) (env.verifyQC qc) := by
  refine Refines.orCached ?_ fun c hc => hc.qc qc
  unfold verifyQC
  refine (refines_lift _).bind ?_
  rintro ⟨validators, leader⟩ he
  dsimp only
  by_cases hg : qc.getRound = GENESIS_ROUND
  · rw [if_pos hg, if_pos hg]
    exact refines_lift _
  · rw [if_neg hg, if_neg hg]
    refine (refines_lift _).bind ?_
    intro nodeIds hs
    refine (refines_lift _).thenRemember ?_
    intro hm c hc
    refine hc.cacheQC ?_
    unfold verifyQC
    rw [he, ok_bind]
    dsimp only
    rw [if_neg hg, hs, ok_bind, hm]

theorem verifyNEC_refines : Refines (Sound env) (env.verifyNECCached nec) (env.verifyNEC nec) := by
  refine Refines.orCached ?_ fun c hc => hc.nec nec
  unfold verifyNEC
  refine (refines_lift _).bind ?_
  rintro ⟨validators, leader⟩ he
  refine (refines_lift _).bind ?_
  intro nodeIds hs
  refine (refines_lift _).thenRemember ?_
  intro hm c hc
  refine hc.cacheNEC ?_
  unfold verifyNEC
  rw [he, ok_bind]
  dsimp only
  rw [hs, ok_bind, hm]

/-- The verifier of the evidence is only asked about the certificate's own. -/
theorem verifyTCWith_congr {f g : HighExtend → Except ValidationError Unit}
    (h : f tc.highExtend = g tc.highExtend) : env.verifyTCWith f tc = env.verifyTCWith g tc := by
  unfold verifyTCWith
  rw [h]

theorem verifyTCWith_refines (hf : Refines (Sound env) (fc tc.highExtend) (env.verifyHighExtend tc.highExtend)) :
    Refines (Sound env) (env.verifyTCCachedWith fc tc) (env.verifyTC tc) := by
  refine Refines.orCached ?_ fun c hc => hc.tc tc
  unfold verifyTC verifyTCWith
  refine (refines_lift _).bind ?_
  rintro ⟨validators, leader⟩ he
  refine (refines_lift _).bind ?_
  intro _ hlen
  refine (refines_lift _).bind ?_
  rintro ⟨nodeIds, highestRank⟩ ht
  refine (refines_lift _).bind ?_
  intro _ hm
  refine hf.bind ?_
  intro _ hh
  refine (refines_lift _).thenRemember ?_
  intro hr c hc
  refine hc.cacheTC ?_
  unfold verifyTC verifyTCWith
  rw [he, ok_bind]
  dsimp only
  rw [hlen, ok_bind, ht, ok_bind]
  rw [hm, ok_bind, hh, ok_bind, hr]

theorem verifyFresh_refines (fc : Option FreshProposalCertificate) :
    Refines (Sound env) (env.verifyFreshCached fc) (env.verifyFresh fc) := by
  rcases fc with _ | nec | noTip
  · exact refines_lift _
  · exact env.verifyNEC_refines nec
  · have htc : env.verifyNoTip noTip = env.verifyTC noTip.asTC := env.verifyTCWith_congr rfl
    show Refines _ _ (env.verifyNoTip noTip)
    rw [htc]
    exact env.verifyTCWith_refines (env.verifyQC_refines noTip.highQc)

theorem verifyTip_refines : Refines (Sound env) (env.verifyTipCached tip) (env.verifyTip tip) := by
  unfold verifyTipCached verifyTip
  refine (refines_lift _).bind ?_
  rintro ⟨validators, leader⟩ -
  refine (refines_lift _).bind ?_
  intro _ _
  refine (refines_lift _).bind ?_
  intro _ _
  refine (refines_lift _).bind ?_
  intro _ _
  refine (env.verifyQC_refines tip.blockHeader.qc).bind ?_
  intro _ _
  exact env.verifyFresh_refines tip.freshCertificate

theorem verifyHighExtend_refines (he : HighExtend) :
    Refines (Sound env) (env.verifyHighExtendCached he) (env.verifyHighExtend he) := by
  cases he with
  | tip tip => exact env.verifyTip_refines tip
  | qc qc => exact env.verifyQC_refines qc

theorem verifyTC_refines (tc : TimeoutCertificate) : Refines (Sound env) (env.verifyTCCached tc) (env.verifyTC tc) :=
  env.verifyTCWith_refines (env.verifyHighExtend_refines tc.highExtend)

end ValidatorEnv

/-! ## The bound on the entries -/

/-- A cache of one kind within the constant of the source. -/
def Bounded {κ : Type} (capacity : Nat) (l : Lru κ Unit) : Prop := l.cap = capacity ∧ l.len ≤ capacity

theorem Bounded.put [DecidableEq κ] {capacity : Nat} {l : Lru κ Unit} (h : Bounded capacity l) (hpos : 0 < capacity)
    (k : κ) : Bounded capacity (l.put k ()) := by
  obtain ⟨rfl, hlen⟩ := h
  exact ⟨l.cap_put k (), Lru.len_put_le k () hpos hlen⟩

structure CertificateCache.WithinCapacity (c : CertificateCache) : Prop where
  qc : Bounded qcCacheCapacity c.qcLRU
  tc : Bounded tcCacheCapacity c.tcLRU
  nec : Bounded necCacheCapacity c.necLRU

theorem CertificateCache.new_withinCapacity : new.WithinCapacity :=
  ⟨⟨rfl, Nat.zero_le _⟩, ⟨rfl, Nat.zero_le _⟩, ⟨rfl, Nat.zero_le _⟩⟩

namespace ValidatorEnv

open CertificateCache (WithinCapacity)

variable (env : ValidatorEnv)

theorem verifyQC_withinCapacity : Preserves WithinCapacity (env.verifyQCCached qc) := by
  refine Preserves.orCached ((preserves_lift _).bind ?_)
  rintro ⟨validators, leader⟩
  dsimp only
  by_cases hg : qc.getRound = GENESIS_ROUND
  · rw [if_pos hg]
    exact preserves_lift _
  · rw [if_neg hg]
    refine (preserves_lift _).bind fun nodeIds => (preserves_lift _).bind fun _ => preserves_remember ?_
    intro c hc
    exact { hc with qc := hc.qc.put (by decide) qc }

theorem verifyNEC_withinCapacity : Preserves WithinCapacity (env.verifyNECCached nec) := by
  refine Preserves.orCached ((preserves_lift _).bind ?_)
  rintro ⟨validators, leader⟩
  refine (preserves_lift _).bind fun nodeIds => (preserves_lift _).bind fun _ => preserves_remember ?_
  intro c hc
  exact { hc with nec := hc.nec.put (by decide) nec }

theorem verifyTCWith_withinCapacity (hf : ∀ he, Preserves WithinCapacity (fc he))
    (tc : TimeoutCertificate) : Preserves WithinCapacity (env.verifyTCCachedWith fc tc) := by
  refine Preserves.orCached ((preserves_lift _).bind ?_)
  rintro ⟨validators, leader⟩
  refine (preserves_lift _).bind fun _ => (preserves_lift _).bind ?_
  rintro ⟨nodeIds, highestRank⟩
  refine (preserves_lift _).bind fun _ => (hf tc.highExtend).bind fun _ => ?_
  refine (preserves_lift _).bind fun _ => preserves_remember ?_
  intro c hc
  exact { hc with tc := hc.tc.put (by decide) tc }

theorem verifyTip_withinCapacity : Preserves WithinCapacity (env.verifyTipCached tip) := by
  refine (preserves_lift _).bind ?_
  rintro ⟨validators, leader⟩
  refine (preserves_lift _).bind fun _ => (preserves_lift _).bind fun _ => (preserves_lift _).bind fun _ => ?_
  refine (env.verifyQC_withinCapacity _).bind fun _ => ?_
  rcases tip.freshCertificate with _ | nec | noTip
  · exact preserves_lift _
  · exact env.verifyNEC_withinCapacity nec
  · exact env.verifyTCWith_withinCapacity (fun he => env.verifyQC_withinCapacity he.getQC) noTip.asTC

theorem verifyHighExtend_withinCapacity (he : HighExtend) :
    Preserves WithinCapacity (env.verifyHighExtendCached he) := by
  cases he with
  | tip tip => exact env.verifyTip_withinCapacity tip
  | qc qc => exact env.verifyQC_withinCapacity qc

theorem verifyTC_withinCapacity (tc : TimeoutCertificate) : Preserves WithinCapacity (env.verifyTCCached tc) :=
  env.verifyTCWith_withinCapacity env.verifyHighExtend_withinCapacity tc

end ValidatorEnv

end MonadBft
