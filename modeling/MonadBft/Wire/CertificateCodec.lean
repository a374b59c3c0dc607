/-
  MonadBft.Wire.CertificateCodec — the codec law of votes, certificates, blocks and timeouts.

  For each type, `Ok` says which values the decoder takes: every list within its limit, every
  signature one that its parser accepts. The law is proved field by field, for any reading
  and any execution protocol that satisfy it (`Reading.Lawful`, `Protocol.Encoder.Lawful`).
-/
import MonadBft.Wire.Readings

namespace MonadBft.Wire

open Rlp Rlp.Decoder Fields

variable {canon : Prop}

/-! ## The execution protocol -/

structure Protocol.Encoder.Lawful {ep : Protocol} (canon : Prop) (enc : ep.Encoder) : Prop where
  proposedHeader : Codes canon ep.decodeProposedHeader enc.proposedHeader fun _ => True
  body : Codes canon ep.decodeBody enc.body fun _ => True
  finalizedHeader : Codes canon ep.decodeFinalizedHeader enc.finalizedHeader fun _ => True

theorem codes_emptyHeader : Codes canon decodeEmptyHeader (fun _ => appendFields []) fun _ => True := by
  refine .list ⟨fun _ _ _ => run_done_ok.mpr ⟨rfl, rfl⟩, fun hr => ⟨trivial, trivial, fun _ => ?_⟩⟩
  obtain ⟨rfl, rfl⟩ := run_done_ok.mp hr
  exact ⟨rfl, rfl⟩

theorem mock_lawful : mockEncoder.Lawful canon where
  proposedHeader := codes_emptyHeader
  body := Codes.list <| any codes_bytes id fun data =>
    stop trivial fun x _ => by simp
  finalizedHeader := Codes.list <| any codes_uint64 id fun number =>
    stop trivial fun x _ => by simp

theorem evm_lawful : evmEncoder.Lawful canon where
  proposedHeader := codes_emptyHeader
  body := Codes.list (many codes_bytes (item_strict false) fun _ => by simp).done
  finalizedHeader := by
    refine .list ?_
    refine .any codes_uint64 EvmFinalizedHeader.number fun number => ?_
    refine .any codes_bytes EvmFinalizedHeader.appHash fun appHash => ?_
    exact .stop trivial fun x _ => by cases x; simp

/-! ## Votes and certificates -/

theorem Vote.codes : Codes canon Vote.decode Vote.encode fun _ => True := by
  refine .list ?_
  refine .any (codes_fixed 32) Vote.id fun id => ?_
  refine .any codes_uint64 Vote.round fun round => ?_
  refine .any codes_uint64 Vote.epoch fun epoch => ?_
  exact .stop trivial fun x _ => by cases x; simp [and_assoc]

theorem NoEndorsement.codes : Codes canon NoEndorsement.decode NoEndorsement.encode fun _ => True := by
  refine .list ?_
  refine .any codes_uint64 NoEndorsement.epoch fun epoch => ?_
  refine .any codes_uint64 NoEndorsement.round fun round => ?_
  refine .any codes_uint64 NoEndorsement.tipQcRound fun tipQcRound => ?_
  exact .stop trivial fun x _ => by cases x; simp [and_assoc]

theorem BlockRange.codes : Codes canon BlockRange.decode BlockRange.encode fun _ => True := by
  refine .list ?_
  refine .any (codes_fixed 32) BlockRange.lastBlockId fun lastBlockId => ?_
  refine .any codes_uint64 BlockRange.numBlocks fun numBlocks => ?_
  exact .stop trivial fun x _ => by cases x; simp

theorem TimeoutInfo.codes : Codes canon TimeoutInfo.decode TimeoutInfo.encode fun _ => True := by
  refine .list ?_
  refine .any codes_uint64 TimeoutInfo.epoch fun epoch => ?_
  refine .any codes_uint64 TimeoutInfo.round fun round => ?_
  refine .any codes_uint64 TimeoutInfo.highQcRound fun highQcRound => ?_
  refine .any codes_uint64 TimeoutInfo.highTipRound fun highTipRound => ?_
  exact .stop trivial fun x _ => by cases x; simp [and_assoc]

def QuorumCertificate.Ok (bls : Pairing) (q : QuorumCertificate) : Prop :=
  q.signatures.Ok bls

def NoEndorsementCertificate.Ok (bls : Pairing) (n : NoEndorsementCertificate) : Prop :=
  n.signatures.Ok bls

def HighTipRoundSigColTuple.Ok (bls : Pairing) (t : HighTipRoundSigColTuple) : Prop :=
  t.sigs.Ok bls

structure NoTipCertificate.Ok (bls : Pairing) (t : NoTipCertificate) : Prop where
  tipRounds : ∀ tr ∈ t.tipRounds, tr.Ok bls
  highQc : t.highQc.Ok bls

def FreshProposalCertificate.Ok (bls : Pairing) : FreshProposalCertificate → Prop
  | .nec c => c.Ok bls
  | .noTip c => c.Ok bls

section reading

variable {rd : Reading} (hrd : rd.Lawful canon)
include hrd

theorem QuorumCertificate.codes :
    Codes canon (QuorumCertificate.decodeWith rd) QuorumCertificate.encode (QuorumCertificate.Ok rd.bls) := by
  refine .list ?_
  refine .any Vote.codes QuorumCertificate.info fun info => ?_
  refine .field hrd.sigCol QuorumCertificate.signatures (fun _ hq => hq) fun signatures hs => ?_
  exact .stop hs fun x _ => by cases x; simp

theorem NoEndorsementCertificate.codes : Codes canon (NoEndorsementCertificate.decodeWith rd)
    NoEndorsementCertificate.encode (NoEndorsementCertificate.Ok rd.bls) := by
  refine .list ?_
  refine .any NoEndorsement.codes NoEndorsementCertificate.msg fun msg => ?_
  refine .field hrd.sigCol NoEndorsementCertificate.signatures (fun _ hn => hn) fun signatures hs => ?_
  exact .stop hs fun x _ => by cases x; simp

theorem HighTipRoundSigColTuple.codes : Codes canon (HighTipRoundSigColTuple.decodeWith rd)
    HighTipRoundSigColTuple.encode (HighTipRoundSigColTuple.Ok rd.bls) := by
  refine .list ?_
  refine .any codes_uint64 HighTipRoundSigColTuple.highQcRound fun highQcRound => ?_
  refine .any codes_uint64 HighTipRoundSigColTuple.highTipRound fun highTipRound => ?_
  refine .field hrd.sigCol HighTipRoundSigColTuple.sigs (fun _ ht => ht) fun sigs hs => ?_
  exact .stop hs fun x _ => by cases x; simp [and_assoc]

theorem codes_tipRounds : Codes canon (decodeTipRoundsWith rd) encodeTipRounds
    fun trs => ∀ tr ∈ trs, tr.Ok rd.bls :=
  Codes.list (many (HighTipRoundSigColTuple.codes hrd) (list_strict _) fun _ => Iff.rfl)

theorem NoTipCertificate.codes :
    Codes canon (NoTipCertificate.decodeWith rd) NoTipCertificate.encode (NoTipCertificate.Ok rd.bls) := by
  refine .list ?_
  refine .any codes_uint64 NoTipCertificate.epoch fun epoch => ?_
  refine .any codes_uint64 NoTipCertificate.round fun round => ?_
  refine .field (codes_tipRounds hrd) NoTipCertificate.tipRounds (fun _ ht => ht.tipRounds) fun tipRounds htr => ?_
  refine .field (QuorumCertificate.codes hrd) NoTipCertificate.highQc (fun _ ht => ht.highQc) fun highQc hq => ?_
  exact .stop ⟨htr, hq⟩ fun x _ => by cases x; simp [and_assoc]

theorem FreshProposalCertificate.codes : Codes canon (FreshProposalCertificate.decodeWith rd)
    FreshProposalCertificate.encode (FreshProposalCertificate.Ok rd.bls) := by
  refine .list (tagged FreshProposalCertificate.tag fun t => ?_)
  split
  all_goals first
    | exact .unknown fun x hx => by subst hx; cases x <;> contradiction
    | refine .case ?_ ‹_› fun x => by cases x <;> simp!
  · exact NoEndorsementCertificate.codes hrd
  · exact NoTipCertificate.codes hrd

end reading

/-! ## Blocks and tips -/

section blocks

variable {ep : Protocol} (bls : Pairing)

structure ConsensusBlockHeader.Ok (h : ConsensusBlockHeader ep) : Prop where
  qc : h.qc.Ok bls
  roundSignature : h.roundSignature.Ok bls
  results : h.delayedExecutionResults.length ≤ MaxDelayedResults

structure ConsensusTip.Ok (t : ConsensusTip ep) : Prop where
  blockHeader : t.blockHeader.Ok bls
  signature : SecpSignature.Ok t.signature
  freshCertificate : ∀ c, t.freshCertificate = some c → c.Ok bls

def HighExtend.Ok : HighExtend ep → Prop
  | .tip t => t.Ok bls
  | .qc q => q.Ok bls

def HighExtendVote.Ok : HighExtendVote ep → Prop
  | .tip t voteSig => t.Ok bls ∧ ∀ s, voteSig = some s → s.Ok bls
  | .qc q => q.Ok bls

structure TimeoutCertificate.Ok (t : TimeoutCertificate ep) : Prop where
  tipRounds : ∀ tr ∈ t.tipRounds, tr.Ok bls
  limit : t.tipRounds.length ≤ MaxValidatorSetSize
  highExtend : t.highExtend.Ok bls

def RoundCertificate.Ok : RoundCertificate ep → Prop
  | .qc q => q.Ok bls
  | .tc t => t.Ok bls

structure Timeout.Ok (t : Timeout ep) : Prop where
  timeoutSignature : t.timeoutSignature.Ok bls
  highExtend : t.highExtend.Ok bls
  lastRoundCertificate : ∀ c, t.lastRoundCertificate = some c → c.Ok bls

end blocks

section blockCodes

variable {ep : Protocol} {enc : ep.Encoder} (henc : enc.Lawful canon) {rd : Reading} (hrd : rd.Lawful canon)

include henc in
theorem ConsensusBlockBody.codes : Codes canon (ConsensusBlockBody.decode ep) (ConsensusBlockBody.encode enc) fun _ => True := by
  refine .list ?_
  refine .any henc.body ConsensusBlockBody.executionBody fun executionBody => ?_
  exact .stop trivial fun x _ => by cases x; simp

include henc hrd

theorem ConsensusBlockHeader.codes : Codes canon (ConsensusBlockHeader.decodeWith rd ep) (ConsensusBlockHeader.encode rd.bls enc)
    (ConsensusBlockHeader.Ok rd.bls) := by
  refine .list ?_
  refine .any codes_uint64 blockRound fun blockRound => ?_
  refine .any codes_uint64 epoch fun epoch => ?_
  refine .field (QuorumCertificate.codes hrd) qc (fun _ h => h.qc) fun qc hqc => ?_
  refine .any (codes_fixed 33) author fun author => ?_
  refine .any codes_uint64 seqNum fun seqNum => ?_
  refine .any codes_uint128 timestampNs fun timestampNs => ?_
  refine .field (codes_blsSignature hrd.bls) roundSignature (fun _ h => h.roundSignature) fun roundSignature hsig => ?_
  refine .field (Codes.list (many henc.finalizedHeader ep.finalizedHeader_strict fun _ => Iff.rfl))
    delayedExecutionResults (fun _ _ _ _ => trivial) fun results _ => ?_
  refine .check (fun x hx hseen => hseen.2 ▸ hx.results) fun hlen => ?_
  refine .any henc.proposedHeader executionInputs fun executionInputs => ?_
  refine .any (codes_fixed 32) blockBodyId fun blockBodyId => ?_
  refine .any codes_uint64 baseFee fun baseFee => ?_
  refine .any codes_uint64 baseFeeTrend fun baseFeeTrend => ?_
  refine .any codes_uint64 baseFeeMoment fun baseFeeMoment => ?_
  exact .stop ⟨hqc, hsig, hlen⟩ fun x _ => by cases x; simp [and_assoc]

theorem ConsensusTip.codes : Codes canon (ConsensusTip.decodeWith rd ep) (ConsensusTip.encode rd.bls enc)
    (ConsensusTip.Ok rd.bls) := by
  refine .list ?_
  refine .field (ConsensusBlockHeader.codes henc hrd) blockHeader (fun _ h => h.blockHeader) fun blockHeader hh => ?_
  refine .field codes_secpSignature signature (fun _ h => h.signature) fun signature hs => ?_
  refine .trailing (FreshProposalCertificate.codes hrd) (list_strict _) freshCertificate
    (fun _ h => h.freshCertificate) fun freshCertificate hc => ?_
  exact .stop ⟨hh, hs, hc⟩ fun x _ => by cases x; simp [and_assoc]

/-! ## Timeouts -/

theorem HighExtend.codes : Codes canon (HighExtend.decodeWith rd ep) (HighExtend.encode rd.bls enc)
    (HighExtend.Ok rd.bls) := by
  refine .list (tagged tag fun t => ?_)
  split
  all_goals first
    | exact .unknown fun x hx => by subst hx; cases x <;> contradiction
    | refine .case ?_ ‹_› fun x => by cases x <;> simp!
  · exact ConsensusTip.codes henc hrd
  · exact QuorumCertificate.codes hrd

theorem TimeoutCertificate.codes : Codes canon (TimeoutCertificate.decodeWith rd ep) (TimeoutCertificate.encode rd.bls enc)
    (TimeoutCertificate.Ok rd.bls) := by
  refine .list ?_
  refine .any codes_uint64 epoch fun epoch => ?_
  refine .any codes_uint64 round fun round => ?_
  refine .field (codes_tipRounds hrd) tipRounds (fun _ ht => ht.tipRounds) fun tipRounds htr => ?_
  refine .check (fun x hx hseen => hseen.2 ▸ hx.limit) fun hlen => ?_
  refine .field (HighExtend.codes henc hrd) highExtend (fun _ ht => ht.highExtend) fun highExtend hhe => ?_
  exact .stop ⟨htr, hlen, hhe⟩ fun x _ => by cases x; simp [and_assoc]

theorem RoundCertificate.codes : Codes canon (RoundCertificate.decodeWith rd ep) (RoundCertificate.encode rd.bls enc)
    (RoundCertificate.Ok rd.bls) := by
  refine .list (tagged tag fun t => ?_)
  split
  all_goals first
    | exact .unknown fun x hx => by subst hx; cases x <;> contradiction
    | refine .case ?_ ‹_› fun x => by cases x <;> simp!
  · exact QuorumCertificate.codes hrd
  · exact TimeoutCertificate.codes henc hrd

/-- A tip and the signature that may follow it. -/
def decodeTipVote (rd : Reading) (ep : Protocol) : Decoder (ConsensusTip ep × Option BlsSignature) := do
  let tip ← ConsensusTip.decodeWith rd ep
  let voteSig ← trailing (decodeBlsSignature rd.bls)
  done
  pure (tip, voteSig)

theorem fields_tipVote : Fields canon
    (fun x => x.1.Ok rd.bls ∧ ∀ s, x.2 = some s → s.Ok rd.bls) (fun _ => True)
    (decodeTipVote rd ep) fun x => [x.1.encode rd.bls enc, optional (BlsSignature.encode rd.bls) x.2].flatten := by
  refine .field (ConsensusTip.codes henc hrd) Prod.fst (fun _ hx => hx.1) fun tip ht => ?_
  refine .trailing (codes_blsSignature hrd.bls) (blsSignature_strict _) Prod.snd
    (fun _ hx => hx.2) fun voteSig hs => ?_
  exact .stop ⟨ht, hs⟩ fun x _ => by cases x; simp

theorem HighExtendVote.codes : Codes canon (HighExtendVote.decodeWith rd ep) (HighExtendVote.encode rd.bls enc)
    (HighExtendVote.Ok rd.bls) := by
  refine .list (tagged tag fun t => ?_)
  split
  · rename_i ht
    refine .inject ht (fun x => tip x.1 x.2) (fields_tipVote henc hrd) ?_ ?_ ?_ ?_
    · intro a s x r
      unfold decodeTipVote
      simp only [run_bind_ok, run_done_ok, run_pure_ok]
      constructor
      · intro h
        obtain ⟨m, t, ⟨tip, t', htip, sig, t'', hsig, rfl, rfl⟩, u, t₃, hdone, rfl, rfl⟩ := h
        exact ⟨(tip, sig), ⟨tip, t', htip, sig, t, hsig, u, r, hdone, rfl, rfl⟩, rfl⟩
      · intro h
        obtain ⟨y, ⟨tip, t', htip, sig, t, hsig, u, t₃, hdone, rfl, rfl⟩, rfl⟩ := h
        exact ⟨_, t, ⟨tip, t', htip, sig, t, hsig, rfl, rfl⟩, u, r, hdone, rfl, rfl⟩
    · intro x
      cases x <;> simp [tag]
    · intro x
      exact Iff.rfl
    · intro x
      rfl
  · exact .case (QuorumCertificate.codes hrd) ‹_› fun x => by cases x <;> simp!
  · exact .unknown fun x hx => by subst hx; cases x <;> contradiction

theorem Timeout.codes : Codes canon (Timeout.decodeWith rd ep) (Timeout.encode rd.bls enc) (Timeout.Ok rd.bls) := by
  refine .list ?_
  refine .any TimeoutInfo.codes tmInfo fun tmInfo => ?_
  refine .field (codes_blsSignature hrd.bls) timeoutSignature (fun _ ht => ht.timeoutSignature) fun timeoutSignature hs => ?_
  refine .field (HighExtendVote.codes henc hrd) highExtend (fun _ ht => ht.highExtend) fun highExtend hhe => ?_
  refine .trailing (RoundCertificate.codes henc hrd) (list_strict _) lastRoundCertificate
    (fun _ ht => ht.lastRoundCertificate) fun lastRoundCertificate hc => ?_
  exact .stop ⟨hs, hhe, hc⟩ fun x _ => by cases x; simp [and_assoc]

end blockCodes

end MonadBft.Wire
