/-
  MonadBft.Wire.MessageCodec — the codec law of the messages nodes exchange.

  As in `MonadBft.Wire.CertificateCodec`: for each message which values its decoder takes, and
  that it reads them back.
-/
import MonadBft.Wire.CertificateCodec

namespace MonadBft.Wire

open Rlp Rlp.Decoder

variable {canon : Prop} {ep : Protocol} {bls : Pairing}

/-! ## What the decoders take -/

section ok

variable (bls : Pairing)

structure ProposalMessage.Ok (m : ProposalMessage ep) : Prop where
  tip : m.tip.Ok bls
  lastRoundTC : ∀ tc, m.lastRoundTC = some tc → tc.Ok bls

def ProtocolMessage.Ok : ProtocolMessage ep → Prop
  | .proposal m => m.Ok bls
  | .vote m => m.sig.Ok bls
  | .timeout m => m.Ok bls
  | .roundRecovery m => m.tc.Ok bls
  | .noEndorsement m => m.signature.Ok bls
  | .advanceRound m => m.lastRoundCertificate.Ok bls

structure Unverified.Ok (u : Unverified ep) : Prop where
  message : u.obj.message.Ok bls
  authorSignature : SecpSignature.Ok u.authorSignature

def HeadersResponse.Ok : HeadersResponse ep → Prop
  | .found _ hdrs => (∀ h ∈ hdrs, h.Ok bls) ∧ hdrs.length ≤ MaxNumHeaders
  | .notAvailable _ => True

def ResponseMessage.Ok : ResponseMessage ep → Prop
  | .headers r => r.Ok bls
  | .payload _ => True

end ok

/-! ## Consensus messages -/

theorem VoteMessage.codes (hbls : bls.Canonical) :
    Codes canon (VoteMessage.decode bls) (VoteMessage.encode bls) fun m => m.sig.Ok bls := by
  refine .list ?_
  refine .any Vote.codes vote fun vote => ?_
  refine .field (codes_blsSignature hbls) sig (fun _ hm => hm) fun sig hs => ?_
  exact .stop hs fun x _ => by cases x; simp

theorem NoEndorsementMessage.codes (hbls : bls.Canonical) : Codes canon (NoEndorsementMessage.decode bls)
    (NoEndorsementMessage.encode bls) fun m => m.signature.Ok bls := by
  refine .list ?_
  refine .any NoEndorsement.codes msg fun msg => ?_
  refine .field (codes_blsSignature hbls) signature (fun _ hm => hm) fun signature hs => ?_
  exact .stop hs fun x _ => by cases x; simp

section consensus

variable {enc : ep.Encoder} (henc : enc.Lawful canon) {rd : Reading} (hrd : rd.Lawful canon)
include henc hrd

theorem ProposalMessage.codes : Codes canon (ProposalMessage.decodeWith rd ep) (ProposalMessage.encode rd.bls enc)
    (ProposalMessage.Ok rd.bls) := by
  refine .list ?_
  refine .any codes_uint64 proposalRound fun proposalRound => ?_
  refine .any codes_uint64 proposalEpoch fun proposalEpoch => ?_
  refine .field (ConsensusTip.codes henc hrd) tip (fun _ hm => hm.tip) fun tip ht => ?_
  refine .any (ConsensusBlockBody.codes henc) blockBody fun blockBody => ?_
  refine .trailing (TimeoutCertificate.codes henc hrd) (list_strict _) lastRoundTC
    (fun _ hm => hm.lastRoundTC) fun lastRoundTC htc => ?_
  exact .stop ⟨ht, htc⟩ fun x _ => by cases x; simp [and_assoc]

theorem AdvanceRoundMessage.codes : Codes canon (AdvanceRoundMessage.decodeWith rd ep) (AdvanceRoundMessage.encode rd.bls enc)
    fun m => m.lastRoundCertificate.Ok rd.bls := by
  refine .list ?_
  refine .field (RoundCertificate.codes henc hrd) lastRoundCertificate (fun _ hm => hm) fun cert hc => ?_
  exact .stop hc fun x _ => by cases x; simp

theorem RoundRecoveryMessage.codes : Codes canon (RoundRecoveryMessage.decodeWith rd ep) (RoundRecoveryMessage.encode rd.bls enc)
    fun m => m.tc.Ok rd.bls := by
  refine .list ?_
  refine .any codes_uint64 round fun round => ?_
  refine .any codes_uint64 epoch fun epoch => ?_
  refine .field (TimeoutCertificate.codes henc hrd) tc (fun _ hm => hm) fun tc htc => ?_
  exact .stop htc fun x _ => by cases x; simp [and_assoc]

theorem ProtocolMessage.codes : Codes canon (ProtocolMessage.decodeWith rd ep) (ProtocolMessage.encode rd.bls enc)
    (ProtocolMessage.Ok rd.bls) := by
  refine .list (fields_named _ (Fields.tagged tag fun t => ?_))
  split
  all_goals first
    | exact .unknown fun x hx => by subst hx; cases x <;> contradiction
    | refine .case ?_ ‹_› fun x => by cases x <;> simp!
  · exact ProposalMessage.codes henc hrd
  · exact VoteMessage.codes hrd.bls
  · exact Timeout.codes henc hrd
  · exact RoundRecoveryMessage.codes henc hrd
  · exact NoEndorsementMessage.codes hrd.bls
  · exact AdvanceRoundMessage.codes henc hrd

theorem ConsensusMessage.codes : Codes canon (ConsensusMessage.decodeWith rd ep) (ConsensusMessage.encode rd.bls enc)
    fun m => m.message.Ok rd.bls := by
  refine .list ?_
  refine .any hrd.version version fun version => ?_
  refine .field (ProtocolMessage.codes henc hrd) message (fun _ hm => hm) fun message hm => ?_
  exact .stop hm fun x _ => by cases x; simp

theorem Unverified.codes : Codes canon (Unverified.decodeWith rd ep) (Unverified.encode rd.bls enc)
    (Unverified.Ok rd.bls) := by
  refine .list ?_
  refine .field (ConsensusMessage.codes henc hrd) obj (fun _ hu => hu.message) fun obj ho => ?_
  refine .field codes_secpSignature authorSignature (fun _ hu => hu.authorSignature) fun authorSignature hs => ?_
  exact .stop ⟨ho, hs⟩ fun x _ => by cases x; simp

end consensus

/-! ## Block sync -/

theorem RequestMessage.codes : Codes canon RequestMessage.decode RequestMessage.encode fun _ => True := by
  refine .list (fields_named _ (Fields.tagged tag fun t => ?_))
  split
  all_goals first
    | exact .unknown fun x hx => by subst hx; cases x <;> contradiction
    | refine .case ?_ ‹_› fun x => by cases x <;> simp!
  · exact BlockRange.codes
  · exact codes_fixed 32

theorem BodyResponse.codes {enc : ep.Encoder} (henc : enc.Lawful canon) :
    Codes canon (BodyResponse.decode ep) (BodyResponse.encode enc) fun _ => True := by
  refine .list (fields_named _ (Fields.tagged tag fun t => ?_))
  split
  all_goals first
    | exact .unknown fun x hx => by subst hx; cases x <;> contradiction
    | refine .case ?_ ‹_› fun x => by cases x <;> simp!
  · exact ConsensusBlockBody.codes henc
  · exact codes_fixed 32

theorem header_strict (bls : Pairing) (ep : Protocol) :
    (ConsensusBlockHeader.decode bls ep).Strict := list_strict _

/-- The range and the headers of a response that found them. -/
def decodeFoundHeaders (bls : Pairing) (ep : Protocol) :
    Decoder (BlockRange × List (ConsensusBlockHeader ep)) := do
  let range ← BlockRange.decode
  let headers ← list do
    let hdrs ← many (ConsensusBlockHeader.decode bls ep) (header_strict bls ep)
    done
    pure hdrs
  check (headers.length ≤ MaxNumHeaders) .custom
  done
  pure (range, headers)

section headers

variable {enc : ep.Encoder} (henc : enc.Lawful False) (hbls : bls.Canonical)
include henc hbls

theorem fields_foundHeaders : Fields False
    (fun x => (∀ h ∈ x.2, h.Ok bls) ∧ x.2.length ≤ MaxNumHeaders) (fun _ => True)
    (decodeFoundHeaders bls ep) fun x =>
      [x.1.encode, appendList (x.2.flatMap (ConsensusBlockHeader.encode bls enc))].flatten := by
  have hheader := ConsensusBlockHeader.codes henc (Reading.go_lawful hbls)
  refine .any BlockRange.codes Prod.fst fun range => ?_
  refine .field (Codes.list (Fields.many hheader (list_strict _) fun _ => Iff.rfl).done) Prod.snd
    (fun _ hx => hx.1) fun headers hh => ?_
  refine .check (fun x hx hseen => hseen.2 ▸ hx.2) fun hlen => ?_
  exact .stop ⟨hh, hlen⟩ fun x _ => by cases x; simp

theorem HeadersResponse.codes : Codes False (HeadersResponse.decode bls ep) (HeadersResponse.encode bls enc)
    (HeadersResponse.Ok bls) := by
  refine .list (fields_named _ (Fields.tagged tag fun t => ?_))
  split
  · rename_i ht
    refine .inject ht (fun x => found x.1 x.2) (fields_foundHeaders henc hbls) ?_ ?_ ?_ ?_
    · intro a s x r
      unfold decodeFoundHeaders
      simp only [run_bind_ok, run_check_ok, run_done_ok, run_pure_ok]
      constructor
      · intro h
        obtain ⟨m, t, ⟨range, t', hr, hdrs, t'', hh, u, t₃, hlen, rfl, rfl⟩, u', t₄, hdone, rfl, rfl⟩ := h
        exact ⟨(range, hdrs), ⟨range, t', hr, hdrs, t'', hh, u, t, hlen, u', r, hdone, rfl, rfl⟩, rfl⟩
      · intro h
        obtain ⟨y, ⟨range, t', hr, hdrs, t'', hh, u, t, hlen, u', t₄, hdone, rfl, rfl⟩, rfl⟩ := h
        exact ⟨_, t, ⟨range, t', hr, hdrs, t'', hh, u, t, hlen, rfl, rfl⟩, u', r, hdone, rfl, rfl⟩
    · intro x
      cases x <;> simp [tag]
    · intro x
      exact Iff.rfl
    · intro x
      rfl
  · exact .case BlockRange.codes ‹_› fun x => by cases x <;> simp!
  · exact .unknown fun x hx => by subst hx; cases x <;> contradiction

theorem ResponseMessage.codes : Codes False (ResponseMessage.decode bls ep) (ResponseMessage.encode bls enc)
    (ResponseMessage.Ok bls) := by
  refine .list (fields_named _ (Fields.tagged tag fun t => ?_))
  split
  all_goals first
    | exact .unknown fun x hx => by subst hx; cases x <;> contradiction
    | refine .case ?_ ‹_› fun x => by cases x <;> simp!
  · exact HeadersResponse.codes henc hbls
  · exact BodyResponse.codes henc

end headers

end MonadBft.Wire
