/-
  MonadBft.RaptorCast.Parse — packets and their validation (`net/raptorcast/parse.go`,
  `net/raptorcast/sigverify.go`, the proof check of `net/raptorcast/merkle.go`).

  Layout of a packet: signature (65), version (2), broadcast bits and tree depth (1), group (8),
  time (8), message hash (20), message length (4), the proof (20 for each level below the root),
  the chunk header (20 + 1 + 1 + 2) and the symbol. Numbers are little-endian.

  The rate limiter is its answer: `allow`. Time is an argument.
-/
import MonadBft.Lib.Lru
import MonadBft.RaptorCast.Types

namespace MonadBft.RaptorCast

open Lib Rlp

inductive ParseError where
  | tooShort
  | invalidTreeDepth
  | invalidBroadcastBits
  | unknownVersion
  | invalidTimestamp
  | invalidSignature
  | invalidChunkID
  | invalidChunkLen
  | invalidAppMessageLen
  | invalidMerkleProof
  | rateLimited
  | loopback
  deriving DecidableEq, Repr

/-! ## Parsing -/

structure ParsedPacket where
  broadcastTreeDepth : UInt8
  groupIDRaw : Nat
  unixTsMs : Nat
  appMessageHash : Bytes
  appMessageLen : Nat
  merkleProof : List Bytes
  recipientHash : Bytes
  merkleLeafIdx : Nat
  chunkID : Nat
  chunkHeaderAndPayload : Bytes
  payloadOffset : Nat
  deriving DecidableEq, Repr

/-- The first `n` hashes of `b`. -/
def splitHashes : Nat → Bytes → List Bytes
  | 0, _ => []
  | n + 1, b => b.take merkleHashLen :: splitHashes n (b.drop merkleHashLen)

/-- `parsePacketV0`, on what follows the version. -/
def parsePacketV0 (rest : Bytes) : Except ParseError ParsedPacket :=
  if rest.length < 41 then .error .tooShort
  else
    let broadcastTreeDepth := rest.headD 0
    let depth := (broadcastTreeDepth &&& 0x0f).toNat
    if depth < minMerkleTreeDepth ∨ maxMerkleTreeDepth < depth then .error .invalidTreeDepth
    else
      let proofLen := (depth - 1) * merkleHashLen
      let body := rest.drop 41
      if body.length < proofLen + chunkHeaderLenV0 then .error .tooShort
      else
        let chunk := body.drop proofLen
        if chunk.length ≤ chunkHeaderLenV0 then .error .tooShort
        else
          .ok {
            broadcastTreeDepth := broadcastTreeDepth
            groupIDRaw := ofLittleEndian (slice rest 1 8)
            unixTsMs := ofLittleEndian (slice rest 9 8)
            appMessageHash := slice rest 17 20
            appMessageLen := ofLittleEndian (slice rest 37 4)
            merkleProof := splitHashes (depth - 1) body
            recipientHash := slice chunk 0 20
            merkleLeafIdx := ofLittleEndian (slice chunk 20 1)
            chunkID := ofLittleEndian (slice chunk 22 2)
            chunkHeaderAndPayload := chunk
            payloadOffset := signatureSize + 2 + 41 + proofLen + chunkHeaderLenV0 }

def parsePacket (data : Bytes) : Except ParseError ParsedPacket :=
  if data.length < signatureSize + 2 then .error .tooShort
  else if ofLittleEndian (slice data signatureSize 2) = 0 then parsePacketV0 (data.drop (signatureSize + 2))
  else .error .unknownVersion

namespace ParsedPacket

def broadcastMode (p : ParsedPacket) : Except ParseError BroadcastMode :=
  let primary := p.broadcastTreeDepth &&& 0x80 ≠ 0
  let secondary := p.broadcastTreeDepth &&& 0x40 ≠ 0
  if primary ∧ ¬ secondary then .ok .primary
  else if secondary ∧ ¬ primary then .ok .secondary
  else if ¬ primary ∧ ¬ secondary then .ok .unspecified
  else .error .invalidBroadcastBits

def groupID (p : ParsedPacket) (mode : BroadcastMode) : GroupId :=
  if mode = .secondary then secondaryGroup p.groupIDRaw else primaryGroup p.groupIDRaw

end ParsedPacket

/-! ## The proof -/

/-- The walk of `merkleProofComputeRoot` from the leaf up. -/
def merkleWalk (H : Hashing) (cur : Bytes) (idx : Nat) : List Bytes → Option Bytes
  | [] => some cur
  | sib :: rest =>
    let up := if idx % 2 = 1 then H.node cur sib else H.node sib cur
    if idx = 0 then none else merkleWalk H up ((idx - 1) / 2) rest

def merkleMaxDepth : Nat := 15

/-- `merkleProofComputeRoot`; the siblings are listed from the root on. -/
def merkleProofComputeRoot (H : Hashing) (leafHash : Bytes) (siblings : List Bytes) (leafIdx : Nat) : Option Bytes :=
  if merkleMaxDepth ≤ siblings.length then none
  else
    let numLeaves := 2 ^ siblings.length
    if numLeaves ≤ leafIdx then none
    else merkleWalk H (Hashing.hashToMerkle leafHash) (2 * numLeaves - 1 - numLeaves + leafIdx) siblings.reverse

/-! ## The signature -/

/-- `signatureVerifier` without its limiter: the authors of verified signatures, if it has a
cache. -/
structure Verifier where
  cache : Option (Lru Bytes NodeId)

namespace Verifier

def cacheKey (sig signed : Bytes) : Bytes := sig ++ (124 :: signed)

def verifyChunkSignature (S : Signing) (v : Verifier) (sig signed : Bytes) (bypass allow : Bool) :
    Except ParseError NodeId × Verifier :=
  let key := cacheKey sig signed
  match v.cache.bind (·.peek key) with
  | some author => (.ok author, ⟨v.cache.map (·.touch key)⟩)
  | none =>
    if ¬ bypass ∧ ¬ allow then (.error .rateLimited, v)
    else
      match S.recover sig signed with
      | none => (.error .invalidSignature, v)
      | some author => (.ok author, ⟨v.cache.map (·.put key author)⟩)

end Verifier

/-! ## Validation -/

structure ValidatedChunk where
  chunk : Bytes
  author : NodeId
  groupID : GroupId
  unixTsMs : Nat
  appMessageHash : Option Bytes
  merkleRoot : Bytes
  appMessageLen : Nat
  broadcastMode : BroadcastMode
  recipientHash : Option Bytes
  chunkID : Nat
  numSourceSymbols : Nat
  encodedSymbolCapacity : Nat
  payloadOffset : Nat
  deriving DecidableEq, Repr

def ValidatedChunk.symbolData (c : ValidatedChunk) : Bytes := c.chunk.drop c.payloadOffset

/-- The distance of two times. -/
def age (now ts : Nat) : Nat := if ts < now then now - ts else ts - now

/-- The chunk ids a receiver allows for a number of source symbols. -/
def chunkIDCap (mode : BroadcastMode) (numSourceSymbols : Nat) : Option Nat :=
  (scale maxRedundancy numSourceSymbols).map fun cap => if mode = .primary then cap + maxValidatorSetSize else cap

structure ChunkMeta where
  mode : BroadcastMode
  numSourceSymbols : Nat
  cap : Nat
  merkleRoot : Bytes
  deriving DecidableEq, Repr

/-- The checks of `validateChunk` before the signature. -/
def checkMeta (H : Hashing) (p : ParsedPacket) (message : Bytes) (now maxAgeMs : Nat) : Except ParseError ChunkMeta :=
  let symbolLen := message.length - p.payloadOffset
  let numSourceSymbols := (p.appMessageLen + symbolLen - 1) / symbolLen
  if maxAgeMs < age now p.unixTsMs then .error .invalidTimestamp
  else if p.appMessageLen ≤ 0 ∨ maxMessageSize < p.appMessageLen then .error .invalidAppMessageLen
  else if symbolLen < minChunkLength ∧ symbolLen ≠ p.appMessageLen then .error .invalidChunkLen
  else if numSourceSymbols < sourceSymbolsMin ∨ sourceSymbolsMax < numSourceSymbols then
    .error .invalidAppMessageLen
  else
    match p.broadcastMode with
    | .error e => .error e
    | .ok mode =>
      match chunkIDCap mode numSourceSymbols with
      | none => .error .invalidChunkID
      | some cap =>
        if cap ≤ p.chunkID then .error .invalidChunkID
        else
          match merkleProofComputeRoot H (H.sum256 p.chunkHeaderAndPayload) p.merkleProof p.merkleLeafIdx with
          | none => .error .invalidMerkleProof
          | some root => .ok ⟨mode, numSourceSymbols, cap, root⟩

def signedOverData (message merkleRoot : Bytes) : Bytes :=
  slice message signatureSize (packetHeaderLenV0 - signatureSize) ++ merkleRoot

/-- `validateChunk`. `bypass` says for which epochs the sender is a validator. -/
def validateChunk (H : Hashing) (S : Signing) (p : ParsedPacket) (message : Bytes) (v : Verifier)
    (now maxAgeMs : Nat) (bypass : Nat → Bool) (allow : Bool) (selfID : NodeId) :
    Except ParseError ValidatedChunk × Verifier :=
  match checkMeta H p message now maxAgeMs with
  | .error e => (.error e, v)
  | .ok m =>
    let groupID := p.groupID m.mode
    let epochBypass := !groupID.isSecondary && bypass groupID.n
    match v.verifyChunkSignature S (message.take signatureSize) (signedOverData message m.merkleRoot) epochBypass allow with
    | (.error e, v') => (.error e, v')
    | (.ok author, v') =>
      if author = selfID then (.error .loopback, v')
      else if 2 ^ p.merkleProof.length ≤ p.merkleLeafIdx then (.error .invalidMerkleProof, v')
      else
        (.ok {
          chunk := message
          author := author
          groupID := groupID
          unixTsMs := p.unixTsMs
          appMessageHash := some p.appMessageHash
          merkleRoot := m.merkleRoot
          appMessageLen := p.appMessageLen
          broadcastMode := m.mode
          recipientHash := some p.recipientHash
          chunkID := p.chunkID
          numSourceSymbols := m.numSourceSymbols
          encodedSymbolCapacity := m.cap
          payloadOffset := p.payloadOffset }, v')

/-- A chunk that some packet was validated to. -/
def Validated (H : Hashing) (S : Signing) (c : ValidatedChunk) : Prop :=
  ∃ message p v now maxAgeMs bypass allow selfID v', parsePacket message = .ok p ∧
    validateChunk H S p message v now maxAgeMs bypass allow selfID = (.ok c, v')

section Accepted

variable {H : Hashing} {S : Signing} {p : ParsedPacket} {message : Bytes} {now maxAgeMs : Nat} {m : ChunkMeta}
  {c : ValidatedChunk}

theorem checkMeta_numSourceSymbols (h : checkMeta H p message now maxAgeMs = .ok m) :
    m.numSourceSymbols = (p.appMessageLen + (message.length - p.payloadOffset) - 1) / (message.length - p.payloadOffset) ∧
      1 ≤ m.numSourceSymbols := by
  unfold checkMeta at h
  dsimp only at h
  split_ifs at h with hage hlen hchunk hnum
  split at h
  · cases h
  · split at h
    · cases h
    · split_ifs at h
      split at h
      · cases h
      · cases h
        simp only [sourceSymbolsMin, not_or, not_lt] at hnum
        exact ⟨rfl, hnum.1⟩

/-- What decoding relies on: the message hash is there, and the source symbols hold the message. -/
theorem Validated.spec (h : Validated H S c) : c.appMessageHash.isSome ∧ 0 < c.symbolData.length ∧
    c.numSourceSymbols = (c.appMessageLen + c.symbolData.length - 1) / c.symbolData.length := by
  obtain ⟨message, p, v, now, maxAgeMs, bypass, allow, selfID, v', -, h⟩ := h
  unfold validateChunk at h
  split at h
  · cases h
  · rename_i m hmeta
    dsimp only at h
    split at h
    · cases h
    · have hok := congrArg Prod.fst h
      split_ifs at hok
      obtain rfl := Except.ok.inj hok
      obtain ⟨hnum, hpos⟩ := checkMeta_numSourceSymbols hmeta
      have hlen : (message.drop p.payloadOffset).length = message.length - p.payloadOffset := List.length_drop
      refine ⟨rfl, ?_, ?_⟩
      · show 0 < (message.drop p.payloadOffset).length
        by_contra hzero
        rw [hlen] at hzero
        have : message.length - p.payloadOffset = 0 := by omega
        rw [this, Nat.div_zero] at hnum
        omega
      · show m.numSourceSymbols = _
        rw [hnum, ValidatedChunk.symbolData, hlen]

/-- The symbols of a message cover it. -/
theorem le_ceil_mul {len symbolLen : Nat} (h : 0 < symbolLen) : len ≤ (len + symbolLen - 1) / symbolLen * symbolLen := by
  have hdiv := Nat.div_add_mod (len + symbolLen - 1) symbolLen
  have hmod := Nat.mod_lt (len + symbolLen - 1) h
  rw [mul_comm] at hdiv
  omega

end Accepted

end MonadBft.RaptorCast
