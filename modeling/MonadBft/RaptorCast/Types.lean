/-
  MonadBft.RaptorCast.Types — sizes, hashes, groups and redundancy of the RaptorCast transport
  (`net/raptorcast/types.go`, constants of `net/raptorcast/packet.go`).

  Packets are byte strings. The hash function and the signature scheme are parameters: hashes have
  32 bytes and signatures 65.
-/
import MonadBft.WireAuth.Crypto

namespace MonadBft.RaptorCast

open Rlp WireAuth

/-! ## Sizes -/

def merkleHashLen : Nat := 20
def signatureSize : Nat := 65
def maxNumPackets : Nat := 65535
def maxMessageSize : Nat := 3 * 1024 * 1024
def maxValidatorSetSize : Nat := 300
def packetHeaderLenV0 : Nat := signatureSize + 2 + 1 + 8 + 8 + 20 + 4
def chunkHeaderLenV0 : Nat := 20 + 1 + 1 + 2
def minChunkLength : Nat := 960
def minMerkleTreeDepth : Nat := 1
def maxMerkleTreeDepth : Nat := 9
def sourceSymbolsMin : Nat := 1
def sourceSymbolsMax : Nat := 8192

/-! ## Bytes -/

def ofLittleEndian : Bytes → Nat
  | [] => 0
  | b :: bs => b.toNat + 256 * ofLittleEndian bs

theorem ofLittleEndian_littleEndian (len v : Nat) : ofLittleEndian (littleEndian len v) = v % 256 ^ len := by
  induction len generalizing v with
  | zero => simp [littleEndian, ofLittleEndian, Nat.mod_one]
  | succ len ih =>
    have hbyte : (UInt8.ofNat v).toNat = v % 256 := by simp
    rw [littleEndian, ofLittleEndian, ih, hbyte, pow_succ, mul_comm (256 ^ len) 256, Nat.mod_mul]

/-- `b[start:start+len]`. -/
def slice (b : Bytes) (start len : Nat) : Bytes := (b.drop start).take len

theorem slice_of_eq {l a b c : Bytes} {i n : Nat} (h : l = a ++ (b ++ c)) (ha : a.length = i) (hb : b.length = n) :
    slice l i n = b := by
  rw [h, slice, List.drop_left' ha, List.take_left' hb]

/-! ## Hashes and signatures -/

/-- blake3, and the key bytes of a node. -/
structure Hashing where
  sum256 : Bytes → Bytes
  length_sum256 : ∀ b, (sum256 b).length = 32
  pubKey : NodeId → Bytes

namespace Hashing

variable (H : Hashing) (b : Bytes)

def hashToMerkle (h : Bytes) : Bytes := h.take merkleHashLen

def computeHash (id : NodeId) : Bytes := (H.sum256 (H.pubKey id)).take merkleHashLen

def computeAppMessageHash (appMsg : Bytes) : Bytes := (H.sum256 appMsg).take merkleHashLen

/-- The hash of two nodes of a tree. -/
def node (left right : Bytes) : Bytes := hashToMerkle (H.sum256 (left ++ right))

theorem length_hashToMerkle : (hashToMerkle (H.sum256 b)).length = merkleHashLen := by
  rw [hashToMerkle, List.length_take, H.length_sum256]
  rfl

theorem length_computeHash (id : NodeId) : (H.computeHash id).length = merkleHashLen := H.length_hashToMerkle _

theorem length_computeAppMessageHash : (H.computeAppMessageHash b).length = merkleHashLen :=
  H.length_hashToMerkle b

end Hashing

/-- Signatures in the domain of RaptorCast chunks, with public key recovery. -/
structure Signing where
  sign : NodeId → Bytes → Bytes
  recover : Bytes → Bytes → Option NodeId
  length_sign : ∀ id msg, (sign id msg).length = signatureSize

/-- The signatures of a node give its key back. -/
def Signing.Recovers (S : Signing) (id : NodeId) : Prop := ∀ msg, S.recover (S.sign id msg) msg = some id

/-! ## Groups and redundancy -/

/-- `GroupId`: an epoch, or a round for a secondary group. -/
structure GroupId where
  isSecondary : Bool
  n : Nat
  deriving DecidableEq, Repr

def primaryGroup (epoch : Nat) : GroupId := ⟨false, epoch⟩

def secondaryGroup (round : Nat) : GroupId := ⟨true, round⟩

inductive BroadcastMode where
  | unspecified
  | primary
  | secondary
  deriving DecidableEq, Repr

/-- `Redundancy`: a factor with 11 fractional bits. -/
abbrev Redundancy := Nat

def redundancyFromU8 (v : Nat) : Redundancy := v * 2 ^ 11

def maxRedundancy : Redundancy := redundancyFromU8 3

/-- `Redundancy.scale`; `none` if the result does not fit 16 bits. -/
def scale (r : Redundancy) (base : Nat) : Option Nat :=
  let prod := r * base % 2 ^ 64
  if 65535 * 2 ^ 11 < prod then none else some ((prod + (2 ^ 11 - 1)) / 2 ^ 11)

theorem scale_le {r r' : Redundancy} {base n n' : Nat} (hr : r ≤ r') (hwrap : r' * base < 2 ^ 64)
    (h : scale r base = some n) (h' : scale r' base = some n') : n ≤ n' := by
  have hprod : r * base ≤ r' * base := Nat.mul_le_mul_right base hr
  unfold scale at h h'
  rw [Nat.mod_eq_of_lt hwrap] at h'
  rw [Nat.mod_eq_of_lt (Nat.lt_of_le_of_lt hprod hwrap)] at h
  dsimp only at h h'
  split_ifs at h h'
  cases h
  cases h'
  exact Nat.div_le_div_right (Nat.add_le_add_right hprod _)

end MonadBft.RaptorCast
