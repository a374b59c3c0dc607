/-
  MonadBft.Wire.Encode — the `EncodeRLP` methods of the wire types (sigcol, cstypes, messages,
  blocksync).

  A field that is nil is left out at the end of its list. A union is its tag and then its
  value. The encoders of the execution protocol's types are a parameter
  (`Protocol.Encoder`), as its decoders are.
-/
import MonadBft.Rlp.Encoder
import MonadBft.Wire.Messages

namespace MonadBft.Wire

open Rlp

def encodeFixed {n : Nat} (b : Fixed n) : Bytes := appendString b.val

def BlsSignature.encode (bls : Pairing) (s : BlsSignature) : Bytes := encodeFixed (bls.compress s)

/-! ## Signature collections -/

/-- The packed bits: for each `j` below `numBits` with `Bits[numBits-1-j]`, the step
`buf[numBytes-1-j/8] |= 1 << (j%8)`. -/
def packSigners (bits : List Bool) : Bytes :=
  let numBytes := (bits.length + 7) / 8
  (List.range bits.length).foldl (fun buf j =>
    if bits.getD (bits.length - 1 - j) false then
      buf.modify (numBytes - 1 - j / 8) (· ||| (1 <<< UInt8.ofNat (j % 8)))
    else buf) (List.replicate numBytes 0)

def SignerMap.encode (m : SignerMap) : Bytes :=
  appendFields [appendUint64 (UInt32.ofNat m.bits.length).toUInt64, appendString (packSigners m.bits)]

def SigCol.encode (c : SigCol) : Bytes := appendFields [c.signers.encode, encodeFixed c.rawSig]

/-! ## The execution protocol -/

structure Protocol.Encoder (ep : Protocol) where
  proposedHeader : ep.ProposedHeader → Bytes
  body : ep.Body → Bytes
  finalizedHeader : ep.FinalizedHeader → Bytes

def mockEncoder : mock.Encoder where
  proposedHeader _ := appendFields []
  body data := appendFields [appendString data]
  finalizedHeader number := appendFields [appendUint64 number]

def evmEncoder : evm.Encoder where
  proposedHeader _ := appendFields []
  body txs := appendList (txs.flatMap appendString)
  finalizedHeader h := appendFields [appendUint64 h.number, appendString h.appHash]

/-! ## Votes and certificates -/

def Vote.encode (v : Vote) : Bytes := appendFields [encodeFixed v.id, appendUint64 v.round, appendUint64 v.epoch]

def QuorumCertificate.encode (q : QuorumCertificate) : Bytes := appendFields [q.info.encode, q.signatures.encode]

def NoEndorsement.encode (n : NoEndorsement) : Bytes :=
  appendFields [appendUint64 n.epoch, appendUint64 n.round, appendUint64 n.tipQcRound]

def NoEndorsementCertificate.encode (n : NoEndorsementCertificate) : Bytes :=
  appendFields [n.msg.encode, n.signatures.encode]

def HighTipRoundSigColTuple.encode (t : HighTipRoundSigColTuple) : Bytes :=
  appendFields [appendUint64 t.highQcRound, appendUint64 t.highTipRound, t.sigs.encode]

def encodeTipRounds (trs : List HighTipRoundSigColTuple) : Bytes :=
  appendList (trs.flatMap HighTipRoundSigColTuple.encode)

def NoTipCertificate.encode (t : NoTipCertificate) : Bytes :=
  appendFields [appendUint64 t.epoch, appendUint64 t.round, encodeTipRounds t.tipRounds, t.highQc.encode]

def FreshProposalCertificate.tag : FreshProposalCertificate → UInt64
  | .nec _ => 1
  | .noTip _ => 2

def FreshProposalCertificate.body : FreshProposalCertificate → Bytes
  | .nec c => c.encode
  | .noTip c => c.encode

def FreshProposalCertificate.encode (f : FreshProposalCertificate) : Bytes :=
  appendFields [appendUint64 f.tag, f.body]

/-! ## Blocks and tips -/

section blocks

variable {ep : Protocol} (bls : Pairing) (enc : ep.Encoder)

def ConsensusBlockHeader.encode (h : ConsensusBlockHeader ep) : Bytes :=
  appendFields [
    appendUint64 h.blockRound, appendUint64 h.epoch, h.qc.encode, encodeFixed h.author, appendUint64 h.seqNum,
    appendUint128 h.timestampNs, h.roundSignature.encode bls,
    appendList (h.delayedExecutionResults.flatMap enc.finalizedHeader), enc.proposedHeader h.executionInputs,
    encodeFixed h.blockBodyId, appendUint64 h.baseFee, appendUint64 h.baseFeeTrend, appendUint64 h.baseFeeMoment]

def ConsensusBlockBody.encode (b : ConsensusBlockBody ep) : Bytes := appendFields [enc.body b.executionBody]

def BlockRange.encode (r : BlockRange) : Bytes := appendFields [encodeFixed r.lastBlockId, appendUint64 r.numBlocks]

def ConsensusTip.encode (t : ConsensusTip ep) : Bytes :=
  appendFields [t.blockHeader.encode bls enc, encodeFixed t.signature,
    optional FreshProposalCertificate.encode t.freshCertificate]

/-! ## Timeouts -/

def HighExtend.tag : HighExtend ep → UInt64
  | .tip _ => 1
  | .qc _ => 2

def HighExtend.body : HighExtend ep → Bytes
  | .tip t => t.encode bls enc
  | .qc q => q.encode

def HighExtend.encode (h : HighExtend ep) : Bytes := appendFields [appendUint64 h.tag, h.body bls enc]

def HighExtendVote.tag : HighExtendVote ep → UInt64
  | .tip _ _ => 1
  | .qc _ => 2

def HighExtendVote.body : HighExtendVote ep → Bytes
  | .tip t voteSig => [t.encode bls enc, optional (BlsSignature.encode bls) voteSig].flatten
  | .qc q => q.encode

def HighExtendVote.encode (h : HighExtendVote ep) : Bytes := appendFields [appendUint64 h.tag, h.body bls enc]

def TimeoutCertificate.encode (t : TimeoutCertificate ep) : Bytes :=
  appendFields [appendUint64 t.epoch, appendUint64 t.round, encodeTipRounds t.tipRounds, t.highExtend.encode bls enc]

def RoundCertificate.tag : RoundCertificate ep → UInt64
  | .qc _ => 1
  | .tc _ => 2

def RoundCertificate.body : RoundCertificate ep → Bytes
  | .qc q => q.encode
  | .tc t => t.encode bls enc

def RoundCertificate.encode (r : RoundCertificate ep) : Bytes := appendFields [appendUint64 r.tag, r.body bls enc]

def TimeoutInfo.encode (t : TimeoutInfo) : Bytes :=
  appendFields [appendUint64 t.epoch, appendUint64 t.round, appendUint64 t.highQcRound, appendUint64 t.highTipRound]

def Timeout.encode (t : Timeout ep) : Bytes :=
  appendFields [t.tmInfo.encode, t.timeoutSignature.encode bls, t.highExtend.encode bls enc,
    optional (RoundCertificate.encode bls enc) t.lastRoundCertificate]

/-! ## Consensus messages -/

def VoteMessage.encode (m : VoteMessage) : Bytes := appendFields [m.vote.encode, m.sig.encode bls]

def ProposalMessage.encode (m : ProposalMessage ep) : Bytes :=
  appendFields [appendUint64 m.proposalRound, appendUint64 m.proposalEpoch, m.tip.encode bls enc, m.blockBody.encode enc,
    optional (TimeoutCertificate.encode bls enc) m.lastRoundTC]

def AdvanceRoundMessage.encode (m : AdvanceRoundMessage ep) : Bytes :=
  appendFields [m.lastRoundCertificate.encode bls enc]

def RoundRecoveryMessage.encode (m : RoundRecoveryMessage ep) : Bytes :=
  appendFields [appendUint64 m.round, appendUint64 m.epoch, m.tc.encode bls enc]

def NoEndorsementMessage.encode (m : NoEndorsementMessage) : Bytes := appendFields [m.msg.encode, m.signature.encode bls]

def ProtocolMessage.tag : ProtocolMessage ep → UInt64
  | .proposal _ => 1
  | .vote _ => 2
  | .timeout _ => 3
  | .roundRecovery _ => 4
  | .noEndorsement _ => 5
  | .advanceRound _ => 6

def ProtocolMessage.body : ProtocolMessage ep → Bytes
  | .proposal m => m.encode bls enc
  | .vote m => m.encode bls
  | .timeout m => m.encode bls enc
  | .roundRecovery m => m.encode bls enc
  | .noEndorsement m => m.encode bls
  | .advanceRound m => m.encode bls enc

def ProtocolMessage.encode (m : ProtocolMessage ep) : Bytes :=
  appendFields [appendString (ascii "ProtocolMessage"), appendUint64 m.tag, m.body bls enc]

def ConsensusMessage.encode (m : ConsensusMessage ep) : Bytes :=
  appendFields [appendUint64 m.version.toUInt64, m.message.encode bls enc]

def Unverified.encode (u : Unverified ep) : Bytes := appendFields [u.obj.encode bls enc, encodeFixed u.authorSignature]

/-! ## Block sync -/

def RequestMessage.tag : RequestMessage → UInt64
  | .headers _ => 1
  | .payload _ => 2

def RequestMessage.body : RequestMessage → Bytes
  | .headers r => r.encode
  | .payload id => encodeFixed id

def RequestMessage.encode (m : RequestMessage) : Bytes :=
  appendFields [appendString (ascii "BlockSyncRequestMessage"), appendUint64 m.tag, m.body]

def HeadersResponse.tag : HeadersResponse ep → UInt64
  | .found _ _ => 1
  | .notAvailable _ => 2

def HeadersResponse.body : HeadersResponse ep → Bytes
  | .found r hdrs => [r.encode, appendList (hdrs.flatMap (ConsensusBlockHeader.encode bls enc))].flatten
  | .notAvailable r => r.encode

def HeadersResponse.encode (r : HeadersResponse ep) : Bytes :=
  appendFields [appendString (ascii "BlockSyncHeadersResponse"), appendUint64 r.tag, r.body bls enc]

def BodyResponse.tag : BodyResponse ep → UInt64
  | .found _ => 1
  | .notAvailable _ => 2

def BodyResponse.body : BodyResponse ep → Bytes
  | .found b => b.encode enc
  | .notAvailable id => encodeFixed id

def BodyResponse.encode (r : BodyResponse ep) : Bytes :=
  appendFields [appendString (ascii "BlockSyncBodyResponse"), appendUint64 r.tag, r.body enc]

def ResponseMessage.tag : ResponseMessage ep → UInt64
  | .headers _ => 1
  | .payload _ => 2

def ResponseMessage.body : ResponseMessage ep → Bytes
  | .headers r => r.encode bls enc
  | .payload r => r.encode enc

def ResponseMessage.encode (m : ResponseMessage ep) : Bytes :=
  appendFields [appendString (ascii "BlockSyncResponseMessage"), appendUint64 m.tag, m.body bls enc]

end blocks

end MonadBft.Wire
