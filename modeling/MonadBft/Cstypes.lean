/-
  MonadBft.Cstypes — the consensus data types (`types`, `sigcol`, `cstypes`).

  Rounds, epochs, sequence numbers and stakes are natural numbers. A node is named
  by its key, and the two keys a node holds (secp256k1 for messages and tips, BLS for
  certificates) go by that name. Signatures are symbolic: a BLS signature is the key
  that made it together with what it signs, an aggregate is the list of the
  signatures added into it. What a key signs is an element of `SignedMsg`, one
  constructor for each signing domain, so that signatures of different domains
  differ.

  `blake3` is taken to be collision-free: a block id is a serialisation of the header
  it is the hash of (`ConsensusBlockHeader.getId`), and the all-zero genesis id is the
  hash of no header. `getId_injective` and `getId_ne_genesis` are what the rest of the
  development uses.
-/
import MonadBft.Lib.PrefixCode
import Mathlib.Algebra.Group.Nat.Defs

namespace MonadBft

abbrev NodeId := Nat

def GENESIS_SEQ_NUM : Nat := 0
def GENESIS_ROUND : Nat := 0
def GENESIS_EPOCH : Nat := 1

/-- `types.BlockId`: the digest is the serialised preimage. -/
structure BlockId where
  bytes : List Nat
  deriving DecidableEq, Repr

def GENESIS_BLOCK_ID : BlockId := ⟨[]⟩

/-! ## What is signed -/

structure Vote where
  id : BlockId
  round : Nat
  epoch : Nat
  deriving DecidableEq, Repr

structure TimeoutInfo where
  epoch : Nat
  round : Nat
  highQcRound : Nat
  highTipRound : Nat
  deriving DecidableEq, Repr

structure NoEndorsement where
  epoch : Nat
  round : Nat
  tipQcRound : Nat
  deriving DecidableEq, Repr

/-- What a BLS key signs, by domain (`DomainVote`, `DomainTimeout`,
`DomainNoEndorsement`, `DomainRoundSignature`). -/
inductive SignedMsg where
  | vote (v : Vote)
  | timeout (t : TimeoutInfo)
  | noEndorsement (n : NoEndorsement)
  | round (r : Nat)
  deriving DecidableEq, Repr

/-- `crypto.BlsSignature`: who signed what. -/
structure BlsSignature where
  key : NodeId
  msg : SignedMsg
  deriving DecidableEq, Repr

def blsSign (key : NodeId) (msg : SignedMsg) : BlsSignature := ⟨key, msg⟩

def BlsSignature.verify (s : BlsSignature) (msg : SignedMsg) (key : NodeId) : Bool :=
  s = blsSign key msg

/-- `sigcol.BlsSignatureCollection`: the signer map over validator indices and the
aggregate of the signatures added. -/
structure SigCol where
  signers : List Bool
  sig : List BlsSignature
  deriving DecidableEq, Repr

/-- `sigcol.Empty`: no signers, the signature at infinity. -/
def SigCol.empty : SigCol := ⟨[], []⟩

/-! ## Certificates, headers and tips -/

structure QuorumCertificate where
  info : Vote
  signatures : SigCol
  deriving DecidableEq, Repr

namespace QuorumCertificate

def getRound (q : QuorumCertificate) : Nat := q.info.round
def getEpoch (q : QuorumCertificate) : Nat := q.info.epoch
def getBlockId (q : QuorumCertificate) : BlockId := q.info.id

end QuorumCertificate

def GenesisQC : QuorumCertificate where
  info := ⟨GENESIS_BLOCK_ID, GENESIS_ROUND, GENESIS_EPOCH⟩
  signatures := SigCol.empty

/-- `cstypes.ConsensusBlockBodyId`: as for block ids, the digest is the preimage. -/
structure BodyId where
  bytes : List Nat
  deriving DecidableEq, Repr

/-- `cstypes.ConsensusBlockBody`; the execution body is an opaque list of
transactions. -/
structure ConsensusBlockBody where
  txs : List Nat
  deriving DecidableEq, Repr

def ConsensusBlockBody.getId (b : ConsensusBlockBody) : BodyId := ⟨b.txs⟩

/-- `exec.FinalizedHeader`: the block whose execution result it is, and the result. -/
structure FinalizedHeader where
  number : Nat
  appHash : Nat
  deriving DecidableEq, Repr

/-- `cstypes.ConsensusBlockHeader`. The proposed execution header is an opaque number. -/
structure ConsensusBlockHeader where
  blockRound : Nat
  epoch : Nat
  qc : QuorumCertificate
  author : NodeId
  seqNum : Nat
  timestampNs : Nat
  roundSignature : BlsSignature
  delayedExecutionResults : List FinalizedHeader
  executionInputs : Nat
  blockBodyId : BodyId
  baseFee : Nat
  baseFeeTrend : Nat
  baseFeeMoment : Nat
  deriving DecidableEq, Repr

def ConsensusBlockHeader.getParentId (h : ConsensusBlockHeader) : BlockId := h.qc.getBlockId

/-! ## The header hash

`EncodeRLP` of a header, with one number for each integer field and a length before
each list. -/

namespace Encode

open Lib

def nat (n : Nat) : List Nat := [n]

def nats (l : List Nat) : List Nat := l.length :: l.flatMap nat

def blockId (b : BlockId) : List Nat := nats b.bytes

def vote (v : Vote) : List Nat := blockId v.id ++ (nat v.round ++ nat v.epoch)

def signedMsg : SignedMsg → List Nat
  | .vote v => 0 :: vote v
  | .timeout t => 1 :: nats [t.epoch, t.round, t.highQcRound, t.highTipRound]
  | .noEndorsement n => 2 :: nats [n.epoch, n.round, n.tipQcRound]
  | .round r => 3 :: nat r

def blsSignature (s : BlsSignature) : List Nat := nat s.key ++ signedMsg s.msg

def signerMap (bits : List Bool) : List Nat := bits.length :: bits.flatMap fun b => [b.toNat]

def sigCol (c : SigCol) : List Nat :=
  signerMap c.signers ++ (c.sig.length :: c.sig.flatMap blsSignature)

def quorumCertificate (q : QuorumCertificate) : List Nat := vote q.info ++ sigCol q.signatures

def finalizedHeader (f : FinalizedHeader) : List Nat := nat f.number ++ nat f.appHash

def finalizedHeaders (l : List FinalizedHeader) : List Nat := l.length :: l.flatMap finalizedHeader

def header (h : ConsensusBlockHeader) : List Nat :=
  nat h.blockRound ++ (nat h.epoch ++ (quorumCertificate h.qc ++ (nat h.author ++ (nat h.seqNum ++
    (nat h.timestampNs ++ (blsSignature h.roundSignature ++ (finalizedHeaders h.delayedExecutionResults ++
    (nat h.executionInputs ++ (nats h.blockBodyId.bytes ++ (nat h.baseFee ++ (nat h.baseFeeTrend ++
    nat h.baseFeeMoment)))))))))))

theorem nat_code : IsPrefixCode nat := IsPrefixCode.single

theorem nats_code : IsPrefixCode nats := nat_code.list

theorem blockId_code : IsPrefixCode blockId :=
  nats_code.comap fun ⟨_⟩ ⟨_⟩ h => congrArg BlockId.mk h

theorem vote_code : IsPrefixCode vote := by
  refine (blockId_code.pair (nat_code.pair nat_code)).comap
    (g := fun v : Vote => (v.id, v.round, v.epoch)) ?_
  rintro ⟨⟩ ⟨⟩ h
  simpa using h

theorem signedMsg_code : IsPrefixCode signedMsg := by
  intro a b r s h
  -- different domains differ in the tag
  cases a <;> cases b <;> simp [signedMsg] at h
  case vote.vote v w =>
    obtain ⟨rfl, hrs⟩ := vote_code _ _ _ _ h
    exact ⟨rfl, hrs⟩
  case timeout.timeout t u =>
    obtain ⟨htu, hrs⟩ := nats_code _ _ _ _ h
    cases t; cases u
    simp_all
  case noEndorsement.noEndorsement n m =>
    obtain ⟨hnm, hrs⟩ := nats_code _ _ _ _ h
    cases n; cases m
    simp_all
  case round.round p q =>
    obtain ⟨rfl, hrs⟩ := nat_code _ _ _ _ h
    exact ⟨rfl, hrs⟩

theorem blsSignature_code : IsPrefixCode blsSignature := by
  refine (nat_code.pair signedMsg_code).comap (g := fun s : BlsSignature => (s.key, s.msg)) ?_
  rintro ⟨⟩ ⟨⟩ h
  simpa using h

theorem signerMap_code : IsPrefixCode signerMap :=
  (IsPrefixCode.single.comap (g := Bool.toNat) fun a b h => by revert a b; decide).list

theorem sigCol_code : IsPrefixCode sigCol := by
  refine (signerMap_code.pair blsSignature_code.list).comap
    (g := fun c : SigCol => (c.signers, c.sig)) ?_
  rintro ⟨⟩ ⟨⟩ h
  simpa using h

theorem quorumCertificate_code : IsPrefixCode quorumCertificate := by
  refine (vote_code.pair sigCol_code).comap
    (g := fun q : QuorumCertificate => (q.info, q.signatures)) ?_
  rintro ⟨⟩ ⟨⟩ h
  simpa using h

theorem finalizedHeaders_code : IsPrefixCode finalizedHeaders := by
  refine IsPrefixCode.list ((nat_code.pair nat_code).comap
    (g := fun f : FinalizedHeader => (f.number, f.appHash)) ?_)
  rintro ⟨⟩ ⟨⟩ h
  simpa using h

theorem header_code : IsPrefixCode header := by
  refine (nat_code.pair (nat_code.pair (quorumCertificate_code.pair (nat_code.pair (nat_code.pair
    (nat_code.pair (blsSignature_code.pair (finalizedHeaders_code.pair (nat_code.pair (nats_code.pair
    (nat_code.pair (nat_code.pair nat_code)))))))))))).comap
    (g := fun h : ConsensusBlockHeader => (h.blockRound, h.epoch, h.qc, h.author, h.seqNum,
      h.timestampNs, h.roundSignature, h.delayedExecutionResults, h.executionInputs,
      h.blockBodyId.bytes, h.baseFee, h.baseFeeTrend, h.baseFeeMoment)) ?_
  rintro ⟨_, _, _, _, _, _, _, _, _, ⟨_⟩, _, _, _⟩ ⟨_, _, _, _, _, _, _, _, _, ⟨_⟩, _, _, _⟩ h
  simpa using h

end Encode

def ConsensusBlockHeader.getId (h : ConsensusBlockHeader) : BlockId := ⟨Encode.header h⟩

theorem getId_injective : Function.Injective ConsensusBlockHeader.getId := by
  intro a b h
  exact Encode.header_code.injective (congrArg BlockId.bytes h)

theorem getId_ne_genesis (h : ConsensusBlockHeader) : h.getId ≠ GENESIS_BLOCK_ID := by
  intro hg
  simp [ConsensusBlockHeader.getId, GENESIS_BLOCK_ID, Encode.header, Encode.nat] at hg

/-- A header's id contains that of its parent, so no chain of parents comes back to its start. -/
theorem getParentId_length_lt (h : ConsensusBlockHeader) : h.getParentId.bytes.length < h.getId.bytes.length := by
  simp only [ConsensusBlockHeader.getId, ConsensusBlockHeader.getParentId,
    QuorumCertificate.getBlockId, Encode.header, Encode.quorumCertificate, Encode.vote,
    Encode.blockId, Encode.nats, Encode.nat, List.length_append, List.length_cons,
    List.length_flatMap, List.map_const', List.sum_replicate_nat]
  simp only [List.length_nil]
  omega

/-! ## Blocks, ranges and checkpoints -/

/-- `cstypes.ConsensusFullBlock`: the body is the one the header names, which `NewFullBlock`
checks. -/
structure ConsensusFullBlock where
  header : ConsensusBlockHeader
  body : ConsensusBlockBody
  bodyId : body.getId = header.blockBodyId
  deriving DecidableEq, Repr

/-- `cstypes.NewFullBlock`; `none` is the error `header payload mismatch`. -/
def newFullBlock (h : ConsensusBlockHeader) (b : ConsensusBlockBody) : Option ConsensusFullBlock :=
  if hb : b.getId = h.blockBodyId then some ⟨h, b, hb⟩ else none

namespace ConsensusFullBlock

def getId (b : ConsensusFullBlock) : BlockId := b.header.getId
def getParentId (b : ConsensusFullBlock) : BlockId := b.header.getParentId
def getSeqNum (b : ConsensusFullBlock) : Nat := b.header.seqNum
def getBlockRound (b : ConsensusFullBlock) : Nat := b.header.blockRound

/-- A block is determined by its id: the header is, and the header names the body. -/
theorem eq_of_getId {a b : ConsensusFullBlock} (h : a.getId = b.getId) : a = b := by
  have hh := getId_injective h
  have hb : a.body.getId = b.body.getId := by rw [a.bodyId, b.bodyId, hh]
  obtain ⟨ha, ⟨ta⟩, pa⟩ := a
  obtain ⟨hb', ⟨tb⟩, pb⟩ := b
  obtain rfl : ha = hb' := hh
  obtain rfl : ta = tb := congrArg BodyId.bytes hb
  rfl

end ConsensusFullBlock

/-- `cstypes.BlockRange`; the number of blocks is a `uint64`. -/
@[ext]
structure BlockRange where
  lastBlockId : BlockId
  numBlocks : Nat
  bound : numBlocks < 2 ^ 64
  deriving DecidableEq, Repr

theorem BlockRange.bound_one : 1 < 2 ^ 64 := by decide

/-- `QuorumCertificate.GetCommittableIdForHeader`: the 2-chain rule, over the header of
the block the certificate is on. `none` is the panic `qc doesn't point to parent block`. -/
def QuorumCertificate.getCommittableIdForHeader (q : QuorumCertificate) (qcParent : ConsensusBlockHeader) :
    Option (Option BlockId) :=
  if q.getBlockId ≠ qcParent.getId then none
  else if q.info.round = qcParent.qc.info.round + 1 then some (some qcParent.qc.getBlockId)
  else some none

/-! ## Timeouts and fresh-proposal certificates -/

inductive HighExtendRank where
  | qc (qcRound : Nat)
  | tip (tipRound qcRound : Nat)
  deriving DecidableEq, Repr

/-- `HighExtendRank.Cmp`: a QC and a tip are compared on the QC's and the tip's round,
and the QC takes precedence when these are equal. -/
def HighExtendRank.cmp : HighExtendRank → HighExtendRank → Ordering
  | .qc q, .qc q' => compare q q'
  | .tip t q, .tip t' q' => if t ≠ t' then compare t t' else compare q q'
  | .qc q, .tip t _ => if q = t then .gt else compare q t
  | .tip t _, .qc q => if t = q then .lt else compare t q

def TimeoutInfo.rank (t : TimeoutInfo) : HighExtendRank :=
  if t.highTipRound = GENESIS_ROUND then .qc t.highQcRound else .tip t.highTipRound t.highQcRound

structure HighTipRoundSigColTuple where
  highQcRound : Nat
  highTipRound : Nat
  sigs : SigCol
  deriving DecidableEq, Repr

def HighTipRoundSigColTuple.rank (t : HighTipRoundSigColTuple) : HighExtendRank :=
  if t.highTipRound = GENESIS_ROUND then .qc t.highQcRound else .tip t.highTipRound t.highQcRound

structure NoEndorsementCertificate where
  msg : NoEndorsement
  signatures : SigCol
  deriving DecidableEq, Repr

structure NoTipCertificate where
  epoch : Nat
  round : Nat
  tipRounds : List HighTipRoundSigColTuple
  highQc : QuorumCertificate
  deriving DecidableEq, Repr

inductive FreshProposalCertificate where
  | nec (c : NoEndorsementCertificate)
  | noTip (c : NoTipCertificate)
  deriving DecidableEq, Repr

/-- `crypto.SecpSignature` over the tip domain: who signed which header. -/
structure TipSignature where
  key : NodeId
  header : BlockId
  deriving DecidableEq, Repr

structure ConsensusTip where
  blockHeader : ConsensusBlockHeader
  signature : TipSignature
  freshCertificate : Option FreshProposalCertificate
  deriving DecidableEq, Repr

def newConsensusTip (key : NodeId) (header : ConsensusBlockHeader) (fresh : Option FreshProposalCertificate) :
    ConsensusTip :=
  ⟨header, ⟨key, header.getId⟩, fresh⟩

/-- `ConsensusTip.SignatureAuthor`: the key recovered from the signature, if it is one
over this header. -/
def ConsensusTip.signatureAuthor (t : ConsensusTip) : Option NodeId :=
  if t.signature.header = t.blockHeader.getId then some t.signature.key else none

inductive HighExtend where
  | tip (t : ConsensusTip)
  | qc (q : QuorumCertificate)
  deriving DecidableEq, Repr

namespace HighExtend

def rank : HighExtend → HighExtendRank
  | .tip t => .tip t.blockHeader.blockRound t.blockHeader.qc.getRound
  | .qc q => .qc q.getRound

def getQC : HighExtend → QuorumCertificate
  | .tip t => t.blockHeader.qc
  | .qc q => q

def isTip : HighExtend → Bool
  | .tip _ => true
  | .qc _ => false

end HighExtend

/-- `cstypes.HighExtendVote`: the evidence of a timeout, with the vote for the tip when
it is safe to include one. -/
inductive HighExtendVote where
  | tip (t : ConsensusTip) (voteSig : Option BlsSignature)
  | qc (q : QuorumCertificate)
  deriving DecidableEq, Repr

def HighExtendVote.asHighExtend : HighExtendVote → HighExtend
  | .tip t _ => .tip t
  | .qc q => .qc q

structure TimeoutCertificate where
  epoch : Nat
  round : Nat
  tipRounds : List HighTipRoundSigColTuple
  highExtend : HighExtend
  deriving DecidableEq, Repr

inductive RoundCertificate where
  | qc (q : QuorumCertificate)
  | tc (t : TimeoutCertificate)
  deriving DecidableEq, Repr

namespace RoundCertificate

def round : RoundCertificate → Nat
  | .qc q => q.info.round
  | .tc t => t.round

/-- The certificate itself, or the one inside the timeout certificate's evidence. -/
def getQC : RoundCertificate → QuorumCertificate
  | .qc q => q
  | .tc t => t.highExtend.getQC

def getTC : RoundCertificate → Option TimeoutCertificate
  | .qc _ => none
  | .tc t => some t

end RoundCertificate

structure Timeout where
  tmInfo : TimeoutInfo
  timeoutSignature : BlsSignature
  highExtend : HighExtendVote
  lastRoundCertificate : Option RoundCertificate
  deriving DecidableEq, Repr

def newTimeout (certKey : NodeId) (tinfo : TimeoutInfo) (highExtend : HighExtend) (safeToVote : Bool)
    (lastRoundCert : Option RoundCertificate) : Timeout where
  tmInfo := tinfo
  timeoutSignature := blsSign certKey (.timeout tinfo)
  highExtend :=
    match highExtend with
    | .tip t =>
      .tip t (if safeToVote then
        some (blsSign certKey (.vote ⟨t.blockHeader.getId, tinfo.round, tinfo.epoch⟩)) else none)
    | .qc q => .qc q
  lastRoundCertificate := lastRoundCert

structure LockedEpoch where
  epoch : Nat
  round : Nat
  deriving DecidableEq, Repr

structure Checkpoint where
  root : BlockId
  highCertificate : RoundCertificate
  validatorSets : List LockedEpoch
  deriving DecidableEq, Repr

end MonadBft
