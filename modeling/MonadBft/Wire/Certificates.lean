/-
  MonadBft.Wire.Certificates — the wire form of votes, certificates, tips and blocks.

  The types hold what the decoders produce: machine integers and byte arrays, and
  signatures as the bytes that passed their parser. The decoders follow the `DecodeRLP`
  methods of cstypes, sigcol, types and exec read by read. Parsing a BLS point is the
  pairing library's: it is a parameter (`Pairing`), as is the execution
  protocol (`Protocol`), of which the mock one and the EVM one are given here.
-/
import MonadBft.Rlp.Decoder

namespace MonadBft.Wire

open Rlp Rlp.Decoder

/-! ## Keys and signatures -/

abbrev BlockId := Fixed 32
abbrev BodyId := Fixed 32
abbrev NodeId := Fixed 33

/-- A `crypto.BlsSignature`: a point, of which there are no more than strings of 96 bytes. -/
structure BlsSignature where
  point : Fixed 96
  deriving DecidableEq, Repr

/-- The two forms of a point in the pairing library. -/
structure Pairing where
  uncompress : Fixed 96 → Option BlsSignature
  compress : BlsSignature → Fixed 96

/-- Assumed of the library: a point has one compressed form. -/
def Pairing.Canonical (bls : Pairing) : Prop := ∀ b s, bls.uncompress b = some s → bls.compress s = b

abbrev SecpSignature := Fixed 65

def secpSignatureFromBytes (b : Bytes) : Except Err SecpSignature :=
  if h : b.length = 65 then
    if 3 < (b.get ⟨64, by omega⟩).toNat then .error .secpRecoveryId else .ok ⟨b, h⟩
  else .error .secpSignatureLength

section

variable (bls : Pairing)

def blsSignatureUncompress (b : Bytes) : Except Err BlsSignature :=
  if h : b.length = 96 then
    match bls.uncompress ⟨b, h⟩ with
    | some s => .ok s
    | none => .error .blsBadEncoding
  else .error .blsBadEncoding

def decodeBlsSignature : Decoder BlsSignature := do
  let b ← fixedBytes 96
  lift (blsSignatureUncompress bls b.val)

end

def decodeSecpSignature : Decoder SecpSignature := do
  let b ← fixedBytes 65
  lift (secpSignatureFromBytes b.val)

def decodeBlockId : Decoder BlockId := fixedBytes 32
def decodeBodyId : Decoder BodyId := fixedBytes 32
def decodeNodeId : Decoder NodeId := fixedBytes 33

/-! ## Signature collections -/

def MaxSignersLen : Nat := 1024 * 16

structure SignerMap where
  bits : List Bool
  deriving DecidableEq, Repr

/-- The bit of each validator: bit `i` is bit `k % 8` of byte `numBytes - 1 - k / 8`, where
`k = numBits - 1 - i`. -/
def unpackSigners (numBits : Nat) (decoded : Fixed ((numBits + 7) / 8)) : List Bool :=
  List.ofFn fun i : Fin numBits =>
    let k := numBits - 1 - i.val
    let byte := decoded.val.get ⟨(numBits + 7) / 8 - 1 - k / 8, by
      have := decoded.property
      have := i.isLt
      omega⟩
    byte.toNat.testBit (k % 8)

def SignerMap.decode : Decoder SignerMap := list do
  let numBits64 ← uint64
  check (numBits64.toNat ≤ MaxSignersLen) .custom
  let numBits := numBits64.toNat
  let decoded ← bytes
  let packed ← lift (asFixed ((numBits + 7) / 8) decoded)
  done
  pure ⟨unpackSigners numBits packed⟩

/-- `sigcol.BlsSignatureCollection`: the raw bytes are kept, and the point if they are one. -/
structure SigCol where
  signers : SignerMap
  rawSig : Fixed 96
  sig : Option BlsSignature
  deriving DecidableEq, Repr

/-- `exec.Protocol`: the decoders of the execution layer's three types. A finalized header is
read in a loop, so reading one must take something off the stream. -/
structure Protocol where
  ProposedHeader : Type
  Body : Type
  FinalizedHeader : Type
  decodeProposedHeader : Decoder ProposedHeader
  decodeBody : Decoder Body
  decodeFinalizedHeader : Decoder FinalizedHeader
  finalizedHeader_strict : decodeFinalizedHeader.Strict

/-- The empty list both protocols use as a proposed header. -/
def decodeEmptyHeader : Decoder Unit := list done

def mock : Protocol where
  ProposedHeader := Unit
  Body := Bytes
  FinalizedHeader := UInt64
  decodeProposedHeader := decodeEmptyHeader
  decodeBody := list do
    let data ← bytes
    done
    pure data
  decodeFinalizedHeader := list do
    let number ← uint64
    done
    pure number
  finalizedHeader_strict := list_strict _

/-- Every string of 96 bytes is a point. -/
def mockPairing : Pairing := ⟨fun b => some ⟨b⟩, BlsSignature.point⟩

theorem mockPairing_canonical : mockPairing.Canonical := by
  rintro b s ⟨⟩
  rfl

structure EvmFinalizedHeader where
  number : UInt64
  appHash : Bytes
  deriving DecidableEq, Repr

def evm : Protocol where
  ProposedHeader := Unit
  Body := List Bytes
  FinalizedHeader := EvmFinalizedHeader
  decodeProposedHeader := decodeEmptyHeader
  decodeBody := list do
    let txs ← many bytes (item_strict false)
    done
    pure txs
  decodeFinalizedHeader := list do
    let number ← uint64
    let appHash ← bytes
    done
    pure ⟨number, appHash⟩
  finalizedHeader_strict := list_strict _

section certificates

variable (bls : Pairing)

def SigCol.decode : Decoder SigCol := list do
  let signers ← SignerMap.decode
  let sigBytes ← fixedBytes 96
  done
  pure ⟨signers, sigBytes, (blsSignatureUncompress bls sigBytes.val).toOption⟩

/-- How the fields are read that have a second spelling or that the pairing library parses. Every
decoder below is written for any reading (`decodeWith`) and is the code's for `Reading.go`. -/
structure Reading where
  bls : Pairing
  sigCol : Decoder SigCol
  version : Decoder UInt32

/-- The code's reading. The version of a consensus message is cut down to 32 bits without a check. -/
def Reading.go : Reading := ⟨bls, SigCol.decode bls, UInt64.toUInt32 <$> uint64⟩

variable (rd : Reading)

/-! ## Votes and certificates -/

structure Vote where
  id : BlockId
  round : UInt64
  epoch : UInt64
  deriving DecidableEq, Repr

def Vote.decode : Decoder Vote := list do
  let id ← decodeBlockId
  let round ← uint64
  let epoch ← uint64
  done
  pure ⟨id, round, epoch⟩

structure QuorumCertificate where
  info : Vote
  signatures : SigCol
  deriving DecidableEq, Repr

def QuorumCertificate.decodeWith : Decoder QuorumCertificate := list do
  let info ← Vote.decode
  let signatures ← rd.sigCol
  done
  pure ⟨info, signatures⟩

def QuorumCertificate.decode : Decoder QuorumCertificate := QuorumCertificate.decodeWith (.go bls)

structure NoEndorsement where
  epoch : UInt64
  round : UInt64
  tipQcRound : UInt64
  deriving DecidableEq, Repr

def NoEndorsement.decode : Decoder NoEndorsement := list do
  let epoch ← uint64
  let round ← uint64
  let tipQcRound ← uint64
  done
  pure ⟨epoch, round, tipQcRound⟩

structure NoEndorsementCertificate where
  msg : NoEndorsement
  signatures : SigCol
  deriving DecidableEq, Repr

def NoEndorsementCertificate.decodeWith : Decoder NoEndorsementCertificate := list do
  let msg ← NoEndorsement.decode
  let signatures ← rd.sigCol
  done
  pure ⟨msg, signatures⟩

def NoEndorsementCertificate.decode : Decoder NoEndorsementCertificate := NoEndorsementCertificate.decodeWith (.go bls)

structure HighTipRoundSigColTuple where
  highQcRound : UInt64
  highTipRound : UInt64
  sigs : SigCol
  deriving DecidableEq, Repr

def HighTipRoundSigColTuple.decodeWith : Decoder HighTipRoundSigColTuple := list do
  let highQcRound ← uint64
  let highTipRound ← uint64
  let sigs ← rd.sigCol
  done
  pure ⟨highQcRound, highTipRound, sigs⟩

def HighTipRoundSigColTuple.decode : Decoder HighTipRoundSigColTuple := HighTipRoundSigColTuple.decodeWith (.go bls)

/-- The list of tuples in a timeout or no-tip certificate. -/
def decodeTipRoundsWith : Decoder (List HighTipRoundSigColTuple) :=
  list (many (HighTipRoundSigColTuple.decodeWith rd) (list_strict _))

def decodeTipRounds : Decoder (List HighTipRoundSigColTuple) := decodeTipRoundsWith (.go bls)

structure NoTipCertificate where
  epoch : UInt64
  round : UInt64
  tipRounds : List HighTipRoundSigColTuple
  highQc : QuorumCertificate
  deriving DecidableEq, Repr

def NoTipCertificate.decodeWith : Decoder NoTipCertificate := list do
  let epoch ← uint64
  let round ← uint64
  let tipRounds ← decodeTipRoundsWith rd
  let highQc ← QuorumCertificate.decodeWith rd
  done
  pure ⟨epoch, round, tipRounds, highQc⟩

def NoTipCertificate.decode : Decoder NoTipCertificate := NoTipCertificate.decodeWith (.go bls)

inductive FreshProposalCertificate where
  | nec (nec : NoEndorsementCertificate)
  | noTip (noTip : NoTipCertificate)
  deriving DecidableEq, Repr

def FreshProposalCertificate.decodeWith : Decoder FreshProposalCertificate := list do
  let tag ← uint64
  let cert ← (match tag.toNat with
    | 1 => FreshProposalCertificate.nec <$> NoEndorsementCertificate.decodeWith rd
    | 2 => FreshProposalCertificate.noTip <$> NoTipCertificate.decodeWith rd
    | _ => fail .custom)
  done
  pure cert

def FreshProposalCertificate.decode : Decoder FreshProposalCertificate := FreshProposalCertificate.decodeWith (.go bls)

/-! ## Blocks and tips -/

variable (ep : Protocol)

def MaxDelayedResults : Nat := 4

structure ConsensusBlockHeader where
  blockRound : UInt64
  epoch : UInt64
  qc : QuorumCertificate
  author : NodeId
  seqNum : UInt64
  timestampNs : UInt64 × UInt64
  roundSignature : BlsSignature
  delayedExecutionResults : List ep.FinalizedHeader
  executionInputs : ep.ProposedHeader
  blockBodyId : BodyId
  baseFee : UInt64
  baseFeeTrend : UInt64
  baseFeeMoment : UInt64

def ConsensusBlockHeader.decodeWith : Decoder (ConsensusBlockHeader ep) := list do
  let blockRound ← uint64
  let epoch ← uint64
  let qc ← QuorumCertificate.decodeWith rd
  let author ← decodeNodeId
  let seqNum ← uint64
  let timestampNs ← uint128
  let roundSignature ← decodeBlsSignature rd.bls
  let delayedExecutionResults ← list (many ep.decodeFinalizedHeader ep.finalizedHeader_strict)
  check (delayedExecutionResults.length ≤ MaxDelayedResults) .unexpectedLength
  let executionInputs ← ep.decodeProposedHeader
  let blockBodyId ← decodeBodyId
  let baseFee ← uint64
  let baseFeeTrend ← uint64
  let baseFeeMoment ← uint64
  done
  pure ⟨blockRound, epoch, qc, author, seqNum, timestampNs, roundSignature,
    delayedExecutionResults, executionInputs, blockBodyId, baseFee, baseFeeTrend, baseFeeMoment⟩

def ConsensusBlockHeader.decode : Decoder (ConsensusBlockHeader ep) := ConsensusBlockHeader.decodeWith (.go bls) ep

structure ConsensusBlockBody where
  executionBody : ep.Body

def ConsensusBlockBody.decode : Decoder (ConsensusBlockBody ep) := list do
  let executionBody ← ep.decodeBody
  done
  pure ⟨executionBody⟩

structure BlockRange where
  lastBlockId : BlockId
  numBlocks : UInt64
  deriving DecidableEq, Repr

def BlockRange.decode : Decoder BlockRange := list do
  let lastBlockId ← decodeBlockId
  let numBlocks ← uint64
  done
  pure ⟨lastBlockId, numBlocks⟩

structure ConsensusTip where
  blockHeader : ConsensusBlockHeader ep
  signature : SecpSignature
  freshCertificate : Option FreshProposalCertificate

def ConsensusTip.decodeWith : Decoder (ConsensusTip ep) := list do
  let blockHeader ← ConsensusBlockHeader.decodeWith rd ep
  let signature ← decodeSecpSignature
  let freshCertificate ← trailing (FreshProposalCertificate.decodeWith rd)
  done
  pure ⟨blockHeader, signature, freshCertificate⟩

def ConsensusTip.decode : Decoder (ConsensusTip ep) := ConsensusTip.decodeWith (.go bls) ep

/-! ## Timeouts -/

inductive HighExtend where
  | tip (tip : ConsensusTip ep)
  | qc (qc : QuorumCertificate)

def HighExtend.decodeWith : Decoder (HighExtend ep) := list do
  let tag ← uint64
  let he ← (match tag.toNat with
    | 1 => HighExtend.tip <$> ConsensusTip.decodeWith rd ep
    | 2 => HighExtend.qc <$> QuorumCertificate.decodeWith rd
    | _ => fail .custom)
  done
  pure he

def HighExtend.decode : Decoder (HighExtend ep) := HighExtend.decodeWith (.go bls) ep

inductive HighExtendVote where
  | tip (tip : ConsensusTip ep) (voteSig : Option BlsSignature)
  | qc (qc : QuorumCertificate)

def HighExtendVote.decodeWith : Decoder (HighExtendVote ep) := list do
  let tag ← uint64
  let he ← (match tag.toNat with
    | 1 => do
      let tip ← ConsensusTip.decodeWith rd ep
      let voteSig ← trailing (decodeBlsSignature rd.bls)
      pure (HighExtendVote.tip tip voteSig)
    | 2 => HighExtendVote.qc <$> QuorumCertificate.decodeWith rd
    | _ => fail .custom)
  done
  pure he

def HighExtendVote.decode : Decoder (HighExtendVote ep) := HighExtendVote.decodeWith (.go bls) ep

def MaxValidatorSetSize : Nat := 300

structure TimeoutCertificate where
  epoch : UInt64
  round : UInt64
  tipRounds : List HighTipRoundSigColTuple
  highExtend : HighExtend ep

def TimeoutCertificate.decodeWith : Decoder (TimeoutCertificate ep) := list do
  let epoch ← uint64
  let round ← uint64
  let tipRounds ← decodeTipRoundsWith rd
  check (tipRounds.length ≤ MaxValidatorSetSize) .unexpectedLength
  let highExtend ← HighExtend.decodeWith rd ep
  done
  pure ⟨epoch, round, tipRounds, highExtend⟩

def TimeoutCertificate.decode : Decoder (TimeoutCertificate ep) := TimeoutCertificate.decodeWith (.go bls) ep

inductive RoundCertificate where
  | qc (qc : QuorumCertificate)
  | tc (tc : TimeoutCertificate ep)

def RoundCertificate.decodeWith : Decoder (RoundCertificate ep) := list do
  let tag ← uint64
  let cert ← (match tag.toNat with
    | 1 => RoundCertificate.qc <$> QuorumCertificate.decodeWith rd
    | 2 => RoundCertificate.tc <$> TimeoutCertificate.decodeWith rd ep
    | _ => fail .custom)
  done
  pure cert

def RoundCertificate.decode : Decoder (RoundCertificate ep) := RoundCertificate.decodeWith (.go bls) ep

structure TimeoutInfo where
  epoch : UInt64
  round : UInt64
  highQcRound : UInt64
  highTipRound : UInt64
  deriving DecidableEq, Repr

def TimeoutInfo.decode : Decoder TimeoutInfo := list do
  let epoch ← uint64
  let round ← uint64
  let highQcRound ← uint64
  let highTipRound ← uint64
  done
  pure ⟨epoch, round, highQcRound, highTipRound⟩

structure Timeout where
  tmInfo : TimeoutInfo
  timeoutSignature : BlsSignature
  highExtend : HighExtendVote ep
  lastRoundCertificate : Option (RoundCertificate ep)

def Timeout.decodeWith : Decoder (Timeout ep) := list do
  let tmInfo ← TimeoutInfo.decode
  let timeoutSignature ← decodeBlsSignature rd.bls
  let highExtend ← HighExtendVote.decodeWith rd ep
  let lastRoundCertificate ← trailing (RoundCertificate.decodeWith rd ep)
  done
  pure ⟨tmInfo, timeoutSignature, highExtend, lastRoundCertificate⟩

def Timeout.decode : Decoder (Timeout ep) := Timeout.decodeWith (.go bls) ep

end certificates

end MonadBft.Wire
