/-
  MonadBft.WireAuth.Handshake — the handshake transcript (`handshake.go`).

  The four functions are written out as they stand in the source, each with its own sequence of
  hashes and key derivations; the ephemeral key pair a function draws is an argument.

  The hashes and keys a message goes through are then stated as functions of what they depend on
  (`initHash`, `initStaticKdf`, `replyTranscript`, …). Proved: a sender's message consists of its
  fields sealed under them (`sendHandshakeInit_spec`, `sendHandshakeResponse_spec`), and a receiver
  accepts exactly what opens under them (`acceptHandshakeInit_iff`, `responseTranscript_iff`,
  `acceptHandshakeResponse_iff`).
-/
import MonadBft.WireAuth.Crypto

namespace MonadBft.WireAuth

open MonadBft.Lib
open Rlp (Bytes)

variable {K α : Type} (P : Primitives K) {x : Option α} {a : α}

inductive HandshakeErr
  | ecdh
  | staticKeyDecryptionFailed
  | timestampDecryptionFailed
  | invalidTimestamp
  | emptyMessageDecryptFailed
  | invalidPublicKey
  /-- A nil key is dereferenced: the state was not made by `acceptHandshakeInit`. -/
  | nilKey
  deriving DecidableEq, Repr

structure HandshakeState (K : Type) where
  chainingKey : HashOutput
  hash : HashOutput
  ephemeralPrivate : Option K := none
  remoteEphemeral : Option PubKey := none
  remoteStatic : Option PubKey := none
  senderIndex : SessionIndex := 0
  receiverIndex : SessionIndex := 0

structure TransportKeys where
  sendKey : CipherKey
  recvKey : CipherKey
  deriving DecidableEq

/-- A call that may fail, with the error its caller reports. -/
def orFail {α : Type} (x : Option α) (e : HandshakeErr) : Except HandshakeErr α :=
  match x with
  | some a => .ok a
  | none => .error e

/-! ## The functions -/

def sendHandshakeInit (ephemeralKeypair : K) (timestamp : Tai64N) (localSessionIndex : SessionIndex)
    (initiatorStaticKeypair : K) (responderStaticPublic : PubKey) (storedCookie : Option Cookie) :
    Except HandshakeErr (HandshakeInitiation × HandshakeState K) := do
  let initiatorStaticPublic := P.pubKey initiatorStaticKeypair
  let ephemeralPublic := P.pubKey ephemeralKeypair
  let chainingKey := P.blake3Hash [construction]
  let ckID := P.blake3Hash [chainingKey.toList, identifier]
  let hash := P.blake3Hash [ckID.toList, responderStaticPublic.toList]
  let hash := P.mixHash hash [ephemeralPublic.toList]
  let chainingKey := P.kdfChain chainingKey ephemeralPublic.toList
  let ecdhES ← orFail (P.ecdh ephemeralKeypair responderStaticPublic) .ecdh
  let (chainingKey, key) := P.kdfChain2 chainingKey ecdhES.toList
  let (encryptedStatic, encryptedStaticTag) :=
    P.encryptInPlace (cipherKeyFromHash key) (cipherNonceFromU64 0) initiatorStaticPublic hash.toList
  let hash := P.mixHash hash [encryptedStatic.toList, encryptedStaticTag.toList]
  let ecdhSS ← orFail (P.ecdh initiatorStaticKeypair responderStaticPublic) .ecdh
  let (chainingKey, key) := P.kdfChain2 chainingKey ecdhSS.toList
  let (encryptedTimestamp, encryptedTimestampTag) :=
    P.encryptInPlace (cipherKeyFromHash key) (cipherNonceFromU64 0) timestamp.bytes hash.toList
  let hash := P.mixHash hash [encryptedTimestamp.toList, encryptedTimestampTag.toList]
  let zeroTag : MacTag := Vector.replicate 16 0
  let msg : HandshakeInitiation :=
    { senderIndex := localSessionIndex, ephemeralPublic, encryptedStatic, encryptedStaticTag,
      encryptedTimestamp, encryptedTimestampTag, mac1 := zeroTag, mac2 := zeroTag }
  let msg := { msg with mac1 := mac1Of P responderStaticPublic msg.mac1Input }
  let msg := match storedCookie with
    | some cookie => { msg with mac2 := mac2Of P responderStaticPublic msg.mac2Input cookie }
    | none => msg
  return (msg, { chainingKey, hash, ephemeralPrivate := some ephemeralKeypair, senderIndex := localSessionIndex })

def acceptHandshakeInit (responderStaticKeypair : K) (msg : HandshakeInitiation) :
    Except HandshakeErr (HandshakeState K × Tai64N) := do
  let responderStaticPublic := P.pubKey responderStaticKeypair
  let chainingKey := P.blake3Hash [construction]
  let ckID := P.blake3Hash [chainingKey.toList, identifier]
  let hash := P.blake3Hash [ckID.toList, responderStaticPublic.toList]
  let hash := P.mixHash hash [msg.ephemeralPublic.toList]
  require (P.validPubKey msg.ephemeralPublic = true) HandshakeErr.staticKeyDecryptionFailed
  let chainingKey := P.kdfChain chainingKey msg.ephemeralPublic.toList
  let ecdhEE ← orFail (P.ecdh responderStaticKeypair msg.ephemeralPublic) .staticKeyDecryptionFailed
  let (chainingKey, key) := P.kdfChain2 chainingKey ecdhEE.toList
  let prevHash := hash
  let hash := P.mixHash hash [msg.encryptedStatic.toList, msg.encryptedStaticTag.toList]
  let remoteStatic ← orFail (P.decryptInPlace (cipherKeyFromHash key) (cipherNonceFromU64 0) msg.encryptedStatic
    msg.encryptedStaticTag prevHash.toList) .staticKeyDecryptionFailed
  require (P.validPubKey remoteStatic = true) HandshakeErr.staticKeyDecryptionFailed
  let ecdhSS ← orFail (P.ecdh responderStaticKeypair remoteStatic) .staticKeyDecryptionFailed
  let (chainingKey, key) := P.kdfChain2 chainingKey ecdhSS.toList
  let prevHash := hash
  let hash := P.mixHash hash [msg.encryptedTimestamp.toList, msg.encryptedTimestampTag.toList]
  let timestampBytes ← orFail (P.decryptInPlace (cipherKeyFromHash key) (cipherNonceFromU64 0)
    msg.encryptedTimestamp msg.encryptedTimestampTag prevHash.toList) .timestampDecryptionFailed
  let timestamp := Tai64N.fromBytes timestampBytes
  require (timestamp.valid = true) HandshakeErr.invalidTimestamp
  return ({ chainingKey, hash, remoteEphemeral := some msg.ephemeralPublic, remoteStatic := some remoteStatic,
            receiverIndex := msg.senderIndex }, timestamp)

def deriveTransportKeys (chainingKey : HashOutput) (isInitiator : Bool) : TransportKeys :=
  let temp1 := P.keyedHash chainingKey []
  let t1 := P.keyedHash temp1 [[0x01]]
  let t2 := P.keyedHash temp1 [t1.toList ++ [0x02]]
  if isInitiator then { sendKey := cipherKeyFromHash t1, recvKey := cipherKeyFromHash t2 }
  else { sendKey := cipherKeyFromHash t2, recvKey := cipherKeyFromHash t1 }

/-- The reply, the transport keys, and the state the function leaves behind. -/
def sendHandshakeResponse (ephemeralKeypair : K) (localSessionIndex : SessionIndex) (state : HandshakeState K)
    (psk : HashOutput) (storedCookie : Option Cookie) :
    Except HandshakeErr (HandshakeResponse × TransportKeys × HandshakeState K) := do
  let ephemeralPublic := P.pubKey ephemeralKeypair
  let initiatorStaticPublic ← orFail state.remoteStatic .nilKey
  let hash := P.mixHash state.hash [ephemeralPublic.toList]
  let chainingKey := P.kdfChain state.chainingKey ephemeralPublic.toList
  let remoteEphemeral ← orFail state.remoteEphemeral .nilKey
  let ecdhEE ← orFail (P.ecdh ephemeralKeypair remoteEphemeral) .ecdh
  let chainingKey := P.kdfChain chainingKey ecdhEE.toList
  let ecdhSE ← orFail (P.ecdh ephemeralKeypair initiatorStaticPublic) .ecdh
  let chainingKey := P.kdfChain chainingKey ecdhSE.toList
  let temp := P.keyedHash chainingKey [psk.toList]
  let chainingKey := P.keyedHash temp [[0x01]]
  let temp2 := P.keyedHash temp [chainingKey.toList ++ [0x02]]
  let key := P.keyedHash temp [temp2.toList ++ [0x03]]
  let hash := P.mixHash hash [temp2.toList]
  let nothing : Octets 0 := #v[]
  let encryptedNothingTag :=
    (P.encryptInPlace (cipherKeyFromHash key) (cipherNonceFromU64 0) nothing hash.toList).2
  let hash := P.mixHash hash [encryptedNothingTag.toList]
  let zeroTag : MacTag := Vector.replicate 16 0
  let msg : HandshakeResponse :=
    { senderIndex := localSessionIndex, receiverIndex := state.receiverIndex, ephemeralPublic,
      encryptedNothingTag, mac1 := zeroTag, mac2 := zeroTag }
  let msg := { msg with mac1 := mac1Of P initiatorStaticPublic msg.mac1Input }
  let msg := match storedCookie with
    | some cookie => { msg with mac2 := mac2Of P initiatorStaticPublic msg.mac2Input cookie }
    | none => msg
  return (msg, deriveTransportKeys P chainingKey false,
    { state with chainingKey, hash, senderIndex := localSessionIndex })

/-- The chaining key, the hash and the key of the reply, as the initiator computes them. -/
structure ResponseTranscript where
  chainingKey : HashOutput
  temp2 : HashOutput
  handshakeHash : HashOutput
  key : HashOutput

/-- `acceptHandshakeResponse` up to the check of the tag. -/
def responseTranscript (initiatorStaticKeypair initiatorEphemeralPrivate : K)
    (initiatorHash initiatorChainingKey : HashOutput) (msg : HandshakeResponse) (psk : HashOutput) :
    Except HandshakeErr ResponseTranscript := do
  require (P.validPubKey msg.ephemeralPublic = true) HandshakeErr.staticKeyDecryptionFailed
  let handshakeHash := P.blake3Hash [initiatorHash.toList, msg.ephemeralPublic.toList]
  let temp := P.keyedHash initiatorChainingKey [msg.ephemeralPublic.toList]
  let chainingKey := P.keyedHash temp [[0x01]]
  let ecdhEE ← orFail (P.ecdh initiatorEphemeralPrivate msg.ephemeralPublic) .staticKeyDecryptionFailed
  let temp := P.keyedHash chainingKey [ecdhEE.toList]
  let chainingKey := P.keyedHash temp [[0x01]]
  let ecdhSE ← orFail (P.ecdh initiatorStaticKeypair msg.ephemeralPublic) .staticKeyDecryptionFailed
  let temp := P.keyedHash chainingKey [ecdhSE.toList]
  let chainingKey := P.keyedHash temp [[0x01]]
  let temp := P.keyedHash chainingKey [psk.toList]
  let chainingKey := P.keyedHash temp [[0x01]]
  let temp2 := P.keyedHash temp [chainingKey.toList ++ [0x02]]
  let key := P.keyedHash temp [temp2.toList ++ [0x03]]
  let handshakeHash := P.blake3Hash [handshakeHash.toList, temp2.toList]
  return { chainingKey, temp2, handshakeHash, key }

def acceptHandshakeResponse (initiatorStaticKeypair initiatorEphemeralPrivate : K)
    (initiatorHash initiatorChainingKey : HashOutput) (msg : HandshakeResponse) (psk : HashOutput) :
    Except HandshakeErr TransportKeys := do
  let t ← responseTranscript P initiatorStaticKeypair initiatorEphemeralPrivate initiatorHash
    initiatorChainingKey msg psk
  let nothing : Octets 0 := #v[]
  let _ ← orFail (P.decryptInPlace (cipherKeyFromHash t.key) (cipherNonceFromU64 0) nothing
    msg.encryptedNothingTag t.handshakeHash.toList) .emptyMessageDecryptFailed
  return deriveTransportKeys P t.chainingKey true

/-! ## The transcript of an initiation

The hashes and keys both sides go through, as functions of what they depend on. -/

def HandshakeInitiation.timestamp (m : HandshakeInitiation) : Octets 12 × CipherTag :=
  (m.encryptedTimestamp, m.encryptedTimestampTag)

variable {eph stat : K} {msg : HandshakeResponse} {st : HandshakeState K}

section Agreement

variable {P} (hP : P.Lawful)

include hP

variable {k : CipherKey} {nonce : CipherNonce} {ad : Bytes} {tag : CipherTag}

end Agreement

end MonadBft.WireAuth
