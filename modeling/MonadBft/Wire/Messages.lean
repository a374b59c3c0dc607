/-
  MonadBft.Wire.Messages — the wire form of the messages nodes exchange: consensus messages
  (messages), block-sync requests and responses (blocksync) and state-sync messages (glue).
  Each decoder follows its `DecodeRLP` read by read.
-/
import MonadBft.Wire.Certificates

namespace MonadBft.Wire

open Rlp Rlp.Decoder

def ascii (s : String) : Bytes := s.toList.map fun c => UInt8.ofNat c.toNat

/-- A self-describing message starts with its name. -/
def decodeName (name : String) : Decoder Unit := do
  let b ← bytes
  check (b = ascii name) .custom

section consensus

variable (bls : Pairing) (rd : Reading) (ep : Protocol)

/-! ## Consensus messages -/

structure VoteMessage where
  vote : Vote
  sig : BlsSignature
  deriving DecidableEq, Repr

def VoteMessage.decode : Decoder VoteMessage := list do
  let vote ← Vote.decode
  let sig ← decodeBlsSignature bls
  done
  pure ⟨vote, sig⟩

structure ProposalMessage where
  proposalRound : UInt64
  proposalEpoch : UInt64
  tip : ConsensusTip ep
  blockBody : ConsensusBlockBody ep
  lastRoundTC : Option (TimeoutCertificate ep)

def ProposalMessage.decodeWith : Decoder (ProposalMessage ep) := list do
  let proposalRound ← uint64
  let proposalEpoch ← uint64
  let tip ← ConsensusTip.decodeWith rd ep
  let blockBody ← ConsensusBlockBody.decode ep
  let lastRoundTC ← trailing (TimeoutCertificate.decodeWith rd ep)
  done
  pure ⟨proposalRound, proposalEpoch, tip, blockBody, lastRoundTC⟩

def ProposalMessage.decode : Decoder (ProposalMessage ep) := ProposalMessage.decodeWith (.go bls) ep

structure AdvanceRoundMessage where
  lastRoundCertificate : RoundCertificate ep

def AdvanceRoundMessage.decodeWith : Decoder (AdvanceRoundMessage ep) := list do
  let lastRoundCertificate ← RoundCertificate.decodeWith rd ep
  done
  pure ⟨lastRoundCertificate⟩

def AdvanceRoundMessage.decode : Decoder (AdvanceRoundMessage ep) := AdvanceRoundMessage.decodeWith (.go bls) ep

structure RoundRecoveryMessage where
  round : UInt64
  epoch : UInt64
  tc : TimeoutCertificate ep

def RoundRecoveryMessage.decodeWith : Decoder (RoundRecoveryMessage ep) := list do
  let round ← uint64
  let epoch ← uint64
  let tc ← TimeoutCertificate.decodeWith rd ep
  done
  pure ⟨round, epoch, tc⟩

def RoundRecoveryMessage.decode : Decoder (RoundRecoveryMessage ep) := RoundRecoveryMessage.decodeWith (.go bls) ep

structure NoEndorsementMessage where
  msg : NoEndorsement
  signature : BlsSignature
  deriving DecidableEq, Repr

def NoEndorsementMessage.decode : Decoder NoEndorsementMessage := list do
  let msg ← NoEndorsement.decode
  let signature ← decodeBlsSignature bls
  done
  pure ⟨msg, signature⟩

/-- `messages.ProtocolMessage`; a timeout message is its timeout. -/
inductive ProtocolMessage where
  | proposal (m : ProposalMessage ep)
  | vote (m : VoteMessage)
  | timeout (m : Timeout ep)
  | roundRecovery (m : RoundRecoveryMessage ep)
  | noEndorsement (m : NoEndorsementMessage)
  | advanceRound (m : AdvanceRoundMessage ep)

def ProtocolMessage.decodeWith : Decoder (ProtocolMessage ep) := list do
  decodeName "ProtocolMessage"
  let tag ← uint64
  let m ← (match tag.toNat with
    | 1 => ProtocolMessage.proposal <$> ProposalMessage.decodeWith rd ep
    | 2 => ProtocolMessage.vote <$> VoteMessage.decode rd.bls
    | 3 => ProtocolMessage.timeout <$> Timeout.decodeWith rd ep
    | 4 => ProtocolMessage.roundRecovery <$> RoundRecoveryMessage.decodeWith rd ep
    | 5 => ProtocolMessage.noEndorsement <$> NoEndorsementMessage.decode rd.bls
    | 6 => ProtocolMessage.advanceRound <$> AdvanceRoundMessage.decodeWith rd ep
    | _ => fail .custom)
  done
  pure m

def ProtocolMessage.decode : Decoder (ProtocolMessage ep) := ProtocolMessage.decodeWith (.go bls) ep

structure ConsensusMessage where
  version : UInt32
  message : ProtocolMessage ep

def ConsensusMessage.decodeWith : Decoder (ConsensusMessage ep) := list do
  let version ← rd.version
  let message ← ProtocolMessage.decodeWith rd ep
  done
  pure ⟨version, message⟩

def ConsensusMessage.decode : Decoder (ConsensusMessage ep) := ConsensusMessage.decodeWith (.go bls) ep

structure Unverified where
  obj : ConsensusMessage ep
  authorSignature : SecpSignature

def Unverified.decodeWith : Decoder (Unverified ep) := list do
  let obj ← ConsensusMessage.decodeWith rd ep
  let authorSignature ← decodeSecpSignature
  done
  pure ⟨obj, authorSignature⟩

def Unverified.decode : Decoder (Unverified ep) := Unverified.decodeWith (.go bls) ep

/-! ## Block sync -/

def MaxNumHeaders : Nat := 800

inductive RequestMessage where
  | headers (range : BlockRange)
  | payload (id : BodyId)
  deriving DecidableEq, Repr

def RequestMessage.decode : Decoder RequestMessage := list do
  decodeName "BlockSyncRequestMessage"
  let tag ← uint64
  let m ← (match tag.toNat with
    | 1 => RequestMessage.headers <$> BlockRange.decode
    | 2 => RequestMessage.payload <$> decodeBodyId
    | _ => fail .custom)
  done
  pure m

inductive HeadersResponse where
  | found (range : BlockRange) (headers : List (ConsensusBlockHeader ep))
  | notAvailable (range : BlockRange)

def HeadersResponse.decode : Decoder (HeadersResponse ep) := list do
  decodeName "BlockSyncHeadersResponse"
  let tag ← uint64
  let r ← (match tag.toNat with
    | 1 => do
      let range ← BlockRange.decode
      let headers ← list do
        let hdrs ← many (ConsensusBlockHeader.decode bls ep) (list_strict _)
        done
        pure hdrs
      check (headers.length ≤ MaxNumHeaders) .custom
      pure (HeadersResponse.found range headers)
    | 2 => HeadersResponse.notAvailable <$> BlockRange.decode
    | _ => fail .custom)
  done
  pure r

inductive BodyResponse where
  | found (body : ConsensusBlockBody ep)
  | notAvailable (id : BodyId)

def BodyResponse.decode : Decoder (BodyResponse ep) := list do
  decodeName "BlockSyncBodyResponse"
  let tag ← uint64
  let r ← (match tag.toNat with
    | 1 => BodyResponse.found <$> ConsensusBlockBody.decode ep
    | 2 => BodyResponse.notAvailable <$> decodeBodyId
    | _ => fail .custom)
  done
  pure r

inductive ResponseMessage where
  | headers (r : HeadersResponse ep)
  | payload (r : BodyResponse ep)

def ResponseMessage.decode : Decoder (ResponseMessage ep) := list do
  decodeName "BlockSyncResponseMessage"
  let tag ← uint64
  let m ← (match tag.toNat with
    | 1 => ResponseMessage.headers <$> HeadersResponse.decode bls ep
    | 2 => ResponseMessage.payload <$> BodyResponse.decode ep
    | _ => fail .custom)
  done
  pure m

end consensus

/-! ## State sync -/

structure StateSyncVersion where
  major : UInt16
  minor : UInt16
  deriving DecidableEq, Repr

def StateSyncVersion.decode : Decoder StateSyncVersion := list do
  let major ← uint64
  let minor ← uint64
  done
  pure ⟨major.toUInt16, minor.toUInt16⟩

def StateSyncVersion.less (v o : StateSyncVersion) : Bool :=
  if v.major ≠ o.major then v.major < o.major else v.minor < o.minor

def stateSyncVersionSelf : StateSyncVersion := ⟨1, 2⟩
def stateSyncVersionMin : StateSyncVersion := ⟨1, 2⟩

def StateSyncVersion.isCompatible (v : StateSyncVersion) : Bool :=
  !v.less stateSyncVersionMin && !stateSyncVersionSelf.less v

structure StateSyncRequest where
  version : StateSyncVersion
  pfx : UInt64
  pfxBytes : UInt8
  target : UInt64
  fromBlock : UInt64
  untilBlock : UInt64
  oldTarget : UInt64
  deriving DecidableEq, Repr

/-- The fields after the version are read only if the version is compatible. -/
def StateSyncRequest.decode : Decoder StateSyncRequest := list do
  let version ← StateSyncVersion.decode
  let req ← (if version.isCompatible then do
      let pfx ← uint64
      let pb ← uint64
      let target ← uint64
      let fromBlock ← uint64
      let untilBlock ← uint64
      let oldTarget ← uint64
      pure (StateSyncRequest.mk version pfx pb.toUInt8 target fromBlock untilBlock oldTarget)
    else pure ⟨version, 0, 0, 0, 0, 0, 0⟩)
  done
  pure req

inductive UpsertType where
  | code
  | account
  | storage
  | accountDelete
  | storageDelete
  | header
  deriving DecidableEq, Repr

def UpsertType.ofTag : Nat → Except Err UpsertType
  | 1 => .ok .code
  | 2 => .ok .account
  | 3 => .ok .storage
  | 4 => .ok .accountDelete
  | 5 => .ok .storageDelete
  | 6 => .ok .header
  | _ => .error .custom

def UpsertType.decode : Decoder UpsertType := list do
  let v ← uint64
  done
  lift (UpsertType.ofTag v.toNat)

structure Upsert where
  type : UpsertType
  data : Bytes
  deriving DecidableEq, Repr

def Upsert.decode : Decoder Upsert := list do
  let type ← UpsertType.decode
  let data ← bytes
  done
  pure ⟨type, data⟩

structure BadVersion where
  minVersion : StateSyncVersion
  maxVersion : StateSyncVersion
  deriving DecidableEq, Repr

def BadVersion.decode : Decoder BadVersion := list do
  let minVersion ← StateSyncVersion.decode
  let maxVersion ← StateSyncVersion.decode
  done
  pure ⟨minVersion, maxVersion⟩

def MaxUpsertsPerResponse : Nat := 20000

structure StateSyncResponse where
  version : StateSyncVersion
  nonce : UInt64
  responseIndex : UInt32
  request : StateSyncRequest
  response : List Upsert
  responseN : UInt64
  deriving DecidableEq, Repr

def StateSyncResponse.decode : Decoder StateSyncResponse := list do
  let version ← StateSyncVersion.decode
  let nonce ← uint64
  let ri ← uint64
  let request ← StateSyncRequest.decode
  let response ← list do
    let ups ← many Upsert.decode (list_strict _)
    done
    pure ups
  check (response.length ≤ MaxUpsertsPerResponse) .custom
  let responseN ← uint64
  done
  pure ⟨version, nonce, ri.toUInt32, request, response, responseN⟩

def decodeSessionId : Decoder UInt64 := list do
  let v ← uint64
  done
  pure v

inductive StateSyncNetworkMessage where
  | request (r : StateSyncRequest)
  | response (r : StateSyncResponse)
  | badVersion (b : BadVersion)
  | completion (session : UInt64)
  | notWhitelisted
  deriving DecidableEq, Repr

def StateSyncNetworkMessage.decode : Decoder StateSyncNetworkMessage := list do
  decodeName "StateSyncNetworkMessage"
  let tag ← uint64
  let m ← (match tag.toNat with
    | 1 => StateSyncNetworkMessage.request <$> StateSyncRequest.decode
    | 2 => StateSyncNetworkMessage.response <$> StateSyncResponse.decode
    | 3 => StateSyncNetworkMessage.badVersion <$> BadVersion.decode
    | 4 => StateSyncNetworkMessage.completion <$> decodeSessionId
    | 5 => pure StateSyncNetworkMessage.notWhitelisted
    | _ => fail .custom)
  done
  pure m

end MonadBft.Wire
