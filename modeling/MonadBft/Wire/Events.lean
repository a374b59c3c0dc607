/-
  MonadBft.Wire.Events — the events of the write-ahead log (glue/event_rlp.go).

  The sixteen kinds of event that `IsWalLogged` selects, with the encoder and the decoder of
  each, and the frame around a logged event: a time stamp and the event. The other events
  are never logged; their tags are not modelled.
-/
import MonadBft.Wire.Storage
import MonadBft.Wire.MessageCodec
import MonadBft.RaptorCast.Types

namespace MonadBft.Wire

open Rlp Rlp.Decoder
open WireAuth (littleEndian littleEndian_length)
open RaptorCast (ofLittleEndian)

def decodePair {α β : Type} (d : Decoder α) (d' : Decoder β) : Decoder (α × β) := do
  let x ← d
  let y ← d'
  pure (x, y)

/-! ## Validator sets -/

abbrev Stake := Fixed 32

def leftPadStake (b : Bytes) : Except Err Stake :=
  if h : 32 < b.length then .error .custom
  else if b.head? = some 0 then .error .leadingZero
  else .ok ⟨List.replicate (32 - b.length) 0 ++ b, by rw [List.length_append, List.length_replicate]; omega⟩

def Stake.decode : Decoder Stake := bytesAs leftPadStake

def Stake.encode (s : Stake) : Bytes := appendString (stripped s.val)

structure ValidatorData where
  nodeId : NodeId
  stake : Stake
  certPubKey : Fixed 48
  deriving DecidableEq, Repr

def ValidatorData.decode : Decoder ValidatorData := list do
  let nodeId ← decodeNodeId
  let stake ← Stake.decode
  let certPubKey ← fixedBytes 48
  done
  pure ⟨nodeId, stake, certPubKey⟩

def ValidatorData.encode (v : ValidatorData) : Bytes :=
  appendFields [encodeFixed v.nodeId, Stake.encode v.stake, encodeFixed v.certPubKey]

def decodeList {α : Type} (d : Decoder α) (hd : d.Strict) : Decoder (List α) := list do
  let xs ← many d hd
  done
  pure xs

def encodeList {α : Type} (enc : α → Bytes) (xs : List α) : Bytes := appendList (xs.flatMap enc)

structure ValidatorSetDataWithEpoch where
  epoch : UInt64
  validators : List ValidatorData
  deriving DecidableEq, Repr

/-- `ValidatorSetData` is a list of its own around the list of the validators. -/
def decodeValidatorSetData : Decoder (List ValidatorData) := list do
  let validators ← decodeList ValidatorData.decode (list_strict _)
  done
  pure validators

def encodeValidatorSetData (vs : List ValidatorData) : Bytes := appendFields [encodeList ValidatorData.encode vs]

def ValidatorSetDataWithEpoch.decode : Decoder ValidatorSetDataWithEpoch := list do
  let epoch ← uint64
  let validators ← decodeValidatorSetData
  done
  pure ⟨epoch, validators⟩

def ValidatorSetDataWithEpoch.encode (v : ValidatorSetDataWithEpoch) : Bytes :=
  appendFields [appendUint64 v.epoch, encodeValidatorSetData v.validators]

/-! ## Optional fields and requesters -/

/-- `[1]` for none and `[2, value]` for some. -/
def decodeOpt {α : Type} (d : Decoder α) : Decoder (Option α) := list do
  let tag ← uint64
  let x ← (match tag.toNat with
    | 1 => pure none
    | 2 => some <$> d
    | _ => fail .custom)
  done
  pure x

def optTag {α : Type} : Option α → UInt64
  | none => 1
  | some _ => 2

def encodeOpt {α : Type} (enc : α → Bytes) (x : Option α) : Bytes := appendFields [appendUint64 (optTag x), optional enc x]

inductive SelfRequester where
  | consensus
  | stateSync
  deriving DecidableEq, Repr

def SelfRequester.tag : SelfRequester → UInt64
  | .consensus => 1
  | .stateSync => 2

def SelfRequester.ofTag : Nat → Except Err SelfRequester
  | 1 => .ok .consensus
  | 2 => .ok .stateSync
  | _ => .error .custom

def SelfRequester.decode : Decoder SelfRequester := do
  let v ← list do
    let v ← uint64
    done
    pure v
  lift (SelfRequester.ofTag v.toNat)

def SelfRequester.encode (r : SelfRequester) : Bytes := appendFields [appendUint64 r.tag]

/-! ## Events -/

section events

variable (ep : Protocol)

inductive ConsensusEvent where
  | message (sender : NodeId) (unverifiedMessage : Unverified ep)
  | timeout (round : UInt64)
  | blockSync (range : BlockRange) (fullBlocks : List (ConsensusFullBlock ep))
  | sendVote (round : UInt64)

inductive BlockSyncEvent where
  | request (sender : NodeId) (request : RequestMessage)
  | timeout (request : RequestMessage)
  | selfRequest (requester : SelfRequester) (range : BlockRange)
  | selfCancelRequest (requester : SelfRequester) (range : BlockRange)
  | response (sender : NodeId) (response : ResponseMessage ep)
  | selfResponse (response : ResponseMessage ep)

structure ProposalEvent where
  epoch : UInt64
  round : UInt64
  seqNum : UInt64
  highQC : QuorumCertificate
  timestampNs : UInt64 × UInt64
  roundSignature : BlsSignature
  baseFee : UInt64
  baseFeeTrend : UInt64
  baseFeeMoment : UInt64
  delayedExecutionResults : List ep.FinalizedHeader
  proposedExecutionInputs : ep.ProposedHeader × ep.Body
  lastRoundTC : Option (TimeoutCertificate ep)
  freshProposalCertificate : Option FreshProposalCertificate

inductive StateSyncEvent where
  | doneSync (seqNum : UInt64)
  | blockSync (range : BlockRange) (fullBlocks : List (ConsensusFullBlock ep))
  | requestSync (root : ConsensusBlockHeader ep) (highQC : QuorumCertificate)

inductive MonadEvent where
  | consensus (e : ConsensusEvent ep)
  | blockSync (e : BlockSyncEvent ep)
  | updateValidators (v : ValidatorSetDataWithEpoch)
  | proposal (e : ProposalEvent ep)
  | timestampUpdate (timestamp : UInt64 × UInt64)
  | stateSync (e : StateSyncEvent ep)

end events

/-! ## Encoders -/

section encode

variable {ep : Protocol} (bls : Pairing) (enc : ep.Encoder)

def encodeRangeBlocks (range : BlockRange) (blocks : List (ConsensusFullBlock ep)) : Bytes :=
  range.encode ++ encodeList (ConsensusFullBlock.encode bls enc) blocks

def ConsensusEvent.tag : ConsensusEvent ep → UInt64
  | .message _ _ => 1
  | .timeout _ => 2
  | .blockSync _ _ => 3
  | .sendVote _ => 4

def ConsensusEvent.body : ConsensusEvent ep → Bytes
  | .message sender m => encodeFixed sender ++ m.encode bls enc
  | .timeout round => appendUint64 round
  | .blockSync range blocks => encodeRangeBlocks bls enc range blocks
  | .sendVote round => appendUint64 round

def ConsensusEvent.encode (e : ConsensusEvent ep) : Bytes := appendFields [appendUint64 e.tag, e.body bls enc]

def BlockSyncEvent.tag : BlockSyncEvent ep → UInt64
  | .request _ _ => 1
  | .timeout _ => 2
  | .selfRequest _ _ => 3
  | .selfCancelRequest _ _ => 4
  | .response _ _ => 5
  | .selfResponse _ => 6

def BlockSyncEvent.body : BlockSyncEvent ep → Bytes
  | .request sender req => encodeFixed sender ++ req.encode
  | .timeout req => req.encode
  | .selfRequest requester range => requester.encode ++ range.encode
  | .selfCancelRequest requester range => requester.encode ++ range.encode
  | .response sender resp => encodeFixed sender ++ resp.encode bls enc
  | .selfResponse resp => resp.encode bls enc

def BlockSyncEvent.encode (e : BlockSyncEvent ep) : Bytes := appendFields [appendUint64 e.tag, e.body bls enc]

def encodeValidatorEvent (v : ValidatorSetDataWithEpoch) : Bytes := appendFields [appendUint64 1, v.encode]

def encodeExecutionInputs (p : ep.ProposedHeader × ep.Body) : Bytes :=
  appendFields [enc.proposedHeader p.1, enc.body p.2]

def ProposalEvent.encode (e : ProposalEvent ep) : Bytes :=
  appendFields [
    appendUint64 1, appendUint64 e.epoch, appendUint64 e.round, appendUint64 e.seqNum, e.highQC.encode,
    appendUint128 e.timestampNs, e.roundSignature.encode bls, appendUint64 e.baseFee, appendUint64 e.baseFeeTrend,
    appendUint64 e.baseFeeMoment, encodeList enc.finalizedHeader e.delayedExecutionResults,
    encodeExecutionInputs enc e.proposedExecutionInputs, encodeOpt (TimeoutCertificate.encode bls enc) e.lastRoundTC,
    encodeOpt FreshProposalCertificate.encode e.freshProposalCertificate]

def StateSyncEvent.tag : StateSyncEvent ep → UInt64
  | .doneSync _ => 3
  | .blockSync _ _ => 4
  | .requestSync _ _ => 5

def StateSyncEvent.body : StateSyncEvent ep → Bytes
  | .doneSync seqNum => appendUint64 seqNum
  | .blockSync range blocks => encodeRangeBlocks bls enc range blocks
  | .requestSync root highQC => root.encode bls enc ++ highQC.encode

def StateSyncEvent.encode (e : StateSyncEvent ep) : Bytes := appendFields [appendUint64 e.tag, e.body bls enc]

def MonadEvent.tag : MonadEvent ep → UInt64
  | .consensus _ => 1
  | .blockSync _ => 2
  | .updateValidators _ => 3
  | .proposal _ => 4
  | .timestampUpdate _ => 6
  | .stateSync _ => 7

def MonadEvent.body : MonadEvent ep → Bytes
  | .consensus e => e.encode bls enc
  | .blockSync e => e.encode bls enc
  | .updateValidators v => encodeValidatorEvent v
  | .proposal e => e.encode bls enc
  | .timestampUpdate t => appendUint128 t
  | .stateSync e => e.encode bls enc

/-- `EncodeMonadEvent`: it has an encoding for every event of the log. -/
def MonadEvent.encode (e : MonadEvent ep) : Bytes := appendFields [appendUint64 e.tag, e.body bls enc]

end encode

/-! ## Decoders -/

section decode

variable (bls : Pairing) (ep : Protocol)

def decodeRangeBlocks : Decoder (BlockRange × List (ConsensusFullBlock ep)) :=
  decodePair BlockRange.decode (decodeList (ConsensusFullBlock.decode bls ep) (list_strict _))

def ConsensusEvent.decode : Decoder (ConsensusEvent ep) := list do
  let tag ← uint64
  let e ← (match tag.toNat with
    | 1 => (fun p => ConsensusEvent.message p.1 p.2) <$> decodePair decodeNodeId (Unverified.decode bls ep)
    | 2 => ConsensusEvent.timeout <$> uint64
    | 3 => (fun p => ConsensusEvent.blockSync p.1 p.2) <$> decodeRangeBlocks bls ep
    | 4 => ConsensusEvent.sendVote <$> uint64
    | _ => fail .custom)
  done
  pure e

def BlockSyncEvent.decode : Decoder (BlockSyncEvent ep) := list do
  let tag ← uint64
  let e ← (match tag.toNat with
    | 1 => (fun p => BlockSyncEvent.request p.1 p.2) <$> decodePair decodeNodeId RequestMessage.decode
    | 2 => BlockSyncEvent.timeout <$> RequestMessage.decode
    | 3 => (fun p => BlockSyncEvent.selfRequest p.1 p.2) <$> decodePair SelfRequester.decode BlockRange.decode
    | 4 => (fun p => BlockSyncEvent.selfCancelRequest p.1 p.2) <$> decodePair SelfRequester.decode BlockRange.decode
    | 5 => (fun p => BlockSyncEvent.response p.1 p.2) <$>
        decodePair decodeNodeId (ResponseMessage.decode bls ep)
    | 6 => BlockSyncEvent.selfResponse <$> ResponseMessage.decode bls ep
    | _ => fail .custom)
  done
  pure e

/-- `decodeValidatorEvent`, which has one tag. -/
def decodeValidatorEvent : Decoder ValidatorSetDataWithEpoch := list do
  let tag ← uint64
  check (tag = 1) .custom
  let v ← ValidatorSetDataWithEpoch.decode
  done
  pure v

def decodeExecutionInputs : Decoder (ep.ProposedHeader × ep.Body) := list do
  let header ← ep.decodeProposedHeader
  let body ← ep.decodeBody
  done
  pure (header, body)

/-- The proposal case of `decodeMempoolEvent`. -/
def ProposalEvent.decode : Decoder (ProposalEvent ep) := list do
  let tag ← uint64
  check (tag = 1) .custom
  let epoch ← uint64
  let round ← uint64
  let seqNum ← uint64
  let highQC ← QuorumCertificate.decode bls
  let timestampNs ← uint128
  let roundSignature ← decodeBlsSignature bls
  let baseFee ← uint64
  let baseFeeTrend ← uint64
  let baseFeeMoment ← uint64
  let delayedExecutionResults ← decodeList ep.decodeFinalizedHeader ep.finalizedHeader_strict
  let proposedExecutionInputs ← decodeExecutionInputs ep
  let lastRoundTC ← decodeOpt (TimeoutCertificate.decode bls ep)
  let freshProposalCertificate ← decodeOpt (FreshProposalCertificate.decode bls)
  done
  pure ⟨epoch, round, seqNum, highQC, timestampNs, roundSignature, baseFee, baseFeeTrend, baseFeeMoment,
    delayedExecutionResults, proposedExecutionInputs, lastRoundTC, freshProposalCertificate⟩

def StateSyncEvent.decode : Decoder (StateSyncEvent ep) := list do
  let tag ← uint64
  let e ← (match tag.toNat with
    | 3 => StateSyncEvent.doneSync <$> uint64
    | 4 => (fun p => StateSyncEvent.blockSync p.1 p.2) <$> decodeRangeBlocks bls ep
    | 5 => (fun p => StateSyncEvent.requestSync p.1 p.2) <$>
        decodePair (ConsensusBlockHeader.decode bls ep) (QuorumCertificate.decode bls)
    | _ => fail .custom)
  done
  pure e

/-- The outer list of an event. -/
def MonadEvent.decodePayload : Decoder (MonadEvent ep) := list do
  let tag ← uint64
  let e ← (match tag.toNat with
    | 1 => MonadEvent.consensus <$> ConsensusEvent.decode bls ep
    | 2 => MonadEvent.blockSync <$> BlockSyncEvent.decode bls ep
    | 3 => MonadEvent.updateValidators <$> decodeValidatorEvent
    | 4 => MonadEvent.proposal <$> ProposalEvent.decode bls ep
    | 6 => MonadEvent.timestampUpdate <$> uint128
    | 7 => MonadEvent.stateSync <$> StateSyncEvent.decode bls ep
    | _ => fail .custom)
  done
  pure e

/-- `DecodeMonadEvent`: nothing may follow the list. -/
def MonadEvent.decode : Decoder (MonadEvent ep) := do
  let e ← MonadEvent.decodePayload bls ep
  done
  pure e

end decode

/-! ## The log's frame -/

/-- A `time.Time` in UTC: the seconds since the epoch and the nanoseconds within the second. -/
structure Instant where
  secs : Int64
  nanos : Nat
  nanos_lt : nanos < 10 ^ 9
  deriving DecidableEq, Repr

/-- `time.Unix`: whole seconds are carried over. -/
def Instant.unix (secs : Int64) (nsec : Nat) : Instant :=
  ⟨secs + Int64.ofNat (nsec / 10 ^ 9), nsec % 10 ^ 9, Nat.mod_lt _ (by decide)⟩

def logFriendlyTsLen : Nat := 12

structure LogFriendlyMonadEvent (ep : Protocol) where
  timestamp : Instant
  event : MonadEvent ep

def Instant.bytes (t : Instant) : Bytes := littleEndian 8 t.secs.toUInt64.toNat ++ littleEndian 4 t.nanos

def LogFriendlyMonadEvent.serialize {ep : Protocol} (bls : Pairing) (enc : ep.Encoder) (l : LogFriendlyMonadEvent ep) :
    Bytes :=
  littleEndian 4 logFriendlyTsLen ++ l.timestamp.bytes ++ l.event.encode bls enc

inductive LogErr where
  | shortEvent
  | shortTimestamp
  | decode (f : Fault)
  deriving DecidableEq, Repr

def deserializeTimestamp (data : Bytes) : Except LogErr Instant :=
  if data.length < 4 then .error .shortEvent
  else
    let tsLen := ofLittleEndian (RaptorCast.slice data 0 4)
    if data.length < 4 + tsLen ∨ tsLen < logFriendlyTsLen then .error .shortTimestamp
    else .ok (Instant.unix (UInt64.ofNat (ofLittleEndian (RaptorCast.slice data 4 8))).toInt64 (ofLittleEndian (RaptorCast.slice data 12 4)))

def LogFriendlyMonadEvent.deserialize (bls : Pairing) (ep : Protocol) (data : Bytes) :
    Except LogErr (LogFriendlyMonadEvent ep) :=
  if data.length < 4 then .error .shortEvent
  else
    let tsLen := ofLittleEndian (RaptorCast.slice data 0 4)
    if data.length < 4 + tsLen then .error .shortTimestamp
    else do
      let timestamp ← deserializeTimestamp (data.take (4 + tsLen))
      match (MonadEvent.decode bls ep).run .go (data.drop (4 + tsLen)) with
      | .error f => .error (.decode f)
      | .ok (event, _) => .ok ⟨timestamp, event⟩

end MonadBft.Wire
