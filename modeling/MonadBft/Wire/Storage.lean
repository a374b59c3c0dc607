/-
  MonadBft.Wire.Storage — the wire form of what a node keeps on disk: full blocks, checkpoints
  (cstypes) and the snapshot of the safety state (consensus/safety.go).

  Decoders, encoders and the codec law of each, as in `MonadBft.Wire.CertificateCodec`.
-/
import MonadBft.Wire.CertificateCodec

namespace MonadBft.Wire

open Rlp Rlp.Decoder

variable (bls : Pairing) {ep : Protocol} (enc : ep.Encoder) {canon : Prop}

/-! ## Full blocks -/

structure ConsensusFullBlock (ep : Protocol) where
  header : ConsensusBlockHeader ep
  body : ConsensusBlockBody ep

def ConsensusFullBlock.decode (ep : Protocol) : Decoder (ConsensusFullBlock ep) := list do
  let header ← ConsensusBlockHeader.decode bls ep
  let body ← ConsensusBlockBody.decode ep
  done
  pure ⟨header, body⟩

def ConsensusFullBlock.encode (b : ConsensusFullBlock ep) : Bytes := appendFields [b.header.encode bls enc, b.body.encode enc]

/-! ## Checkpoints -/

structure LockedEpoch where
  epoch : UInt64
  round : UInt64
  deriving DecidableEq, Repr

def LockedEpoch.decode : Decoder LockedEpoch := list do
  let epoch ← uint64
  let round ← uint64
  done
  pure ⟨epoch, round⟩

def LockedEpoch.encode (l : LockedEpoch) : Bytes := appendFields [appendUint64 l.epoch, appendUint64 l.round]

def MaxValidatorSets : Nat := 4

structure Checkpoint (ep : Protocol) where
  root : BlockId
  highCertificate : RoundCertificate ep
  validatorSets : List LockedEpoch

def Checkpoint.decode (ep : Protocol) : Decoder (Checkpoint ep) := list do
  let root ← decodeBlockId
  let highCertificate ← RoundCertificate.decode bls ep
  let validatorSets ← list (many LockedEpoch.decode (list_strict _))
  check (validatorSets.length ≤ MaxValidatorSets) .unexpectedLength
  done
  pure ⟨root, highCertificate, validatorSets⟩

def Checkpoint.encode (c : Checkpoint ep) : Bytes :=
  appendFields [encodeFixed c.root, c.highCertificate.encode bls enc, appendList (c.validatorSets.flatMap LockedEpoch.encode)]

/-! ## The safety state -/

structure SafetySnapshot (ep : Protocol) where
  maybeHighTip : Option (ConsensusTip ep)
  highCertificateQcRound : UInt64
  highestVote : UInt64
  highestNoEndorseRound : UInt64
  highestNoEndorseTip : BlockId
  highestPropose : UInt64
  highestRecoveryRequest : UInt64

/-- An optional value as a list of its own: empty if there is none. -/
def decodeOption {α : Type} (d : Decoder α) : Decoder (Option α) := list do
  let x ← trailing d
  done
  pure x

def SafetySnapshot.decode (ep : Protocol) : Decoder (SafetySnapshot ep) := list do
  let maybeHighTip ← decodeOption (ConsensusTip.decode bls ep)
  let highCertificateQcRound ← uint64
  let highestVote ← uint64
  let highestNoEndorseRound ← uint64
  let highestNoEndorseTip ← decodeBlockId
  let highestPropose ← uint64
  let highestRecoveryRequest ← uint64
  done
  pure ⟨maybeHighTip, highCertificateQcRound, highestVote, highestNoEndorseRound, highestNoEndorseTip,
    highestPropose, highestRecoveryRequest⟩

def encodeOption {α : Type} (enc : α → Bytes) (x : Option α) : Bytes := appendFields [optional enc x]

def SafetySnapshot.encode (s : SafetySnapshot ep) : Bytes :=
  appendFields [
    encodeOption (ConsensusTip.encode bls enc) s.maybeHighTip, appendUint64 s.highCertificateQcRound,
    appendUint64 s.highestVote, appendUint64 s.highestNoEndorseRound, encodeFixed s.highestNoEndorseTip,
    appendUint64 s.highestPropose, appendUint64 s.highestRecoveryRequest]

/-! ## The codec laws -/

def ConsensusFullBlock.Ok (b : ConsensusFullBlock ep) : Prop := b.header.Ok bls

structure Checkpoint.Ok (c : Checkpoint ep) : Prop where
  highCertificate : c.highCertificate.Ok bls
  validatorSets : c.validatorSets.length ≤ MaxValidatorSets

def SafetySnapshot.Ok (s : SafetySnapshot ep) : Prop := ∀ t, s.maybeHighTip = some t → t.Ok bls

theorem LockedEpoch.codes : Codes canon LockedEpoch.decode LockedEpoch.encode fun _ => True := by
  refine .list ?_
  refine .any codes_uint64 epoch fun epoch => ?_
  refine .any codes_uint64 round fun round => ?_
  exact .stop trivial fun x _ => by cases x; simp

theorem codes_option {α : Type} {d : Decoder α} {e : α → Bytes} {ok : α → Prop} (h : Codes canon d e ok)
    (hd : d.Strict) : Codes canon (decodeOption d) (encodeOption e) fun o => ∀ x, o = some x → ok x := by
  refine .list ?_
  refine .trailing h hd id (fun _ ho => ho) fun o ho => ?_
  exact .stop ho fun x _ => by simp

section laws

variable {bls enc} (hbls : bls.Canonical) (henc : enc.Lawful False)
include hbls henc

theorem ConsensusFullBlock.codes : Codes False (ConsensusFullBlock.decode bls ep) (ConsensusFullBlock.encode bls enc)
    (ConsensusFullBlock.Ok bls) := by
  refine .list ?_
  refine .field (ConsensusBlockHeader.codes henc (Reading.go_lawful hbls)) header
    (fun _ hb => hb) fun header hh => ?_
  refine .any (ConsensusBlockBody.codes henc) body fun body => ?_
  exact .stop hh fun x _ => by cases x; simp

theorem Checkpoint.codes : Codes False (Checkpoint.decode bls ep) (Checkpoint.encode bls enc)
    (Checkpoint.Ok bls) := by
  refine .list ?_
  refine .any (codes_fixed 32) root fun root => ?_
  refine .field (RoundCertificate.codes henc (Reading.go_lawful hbls)) highCertificate
    (fun _ hc => hc.highCertificate) fun highCertificate hh => ?_
  refine .field (Codes.list (Fields.many LockedEpoch.codes (list_strict _) fun _ => Iff.rfl)) validatorSets
    (fun _ _ _ _ => trivial) fun validatorSets _ => ?_
  refine .check (fun x hx hseen => hseen.2 ▸ hx.validatorSets) fun hlen => ?_
  exact .stop ⟨hh, hlen⟩ fun x _ => by cases x; simp [and_assoc]

theorem SafetySnapshot.codes : Codes False (SafetySnapshot.decode bls ep) (SafetySnapshot.encode bls enc)
    (SafetySnapshot.Ok bls) := by
  refine .list ?_
  refine .field (codes_option (ConsensusTip.codes henc (Reading.go_lawful hbls)) (list_strict _))
    maybeHighTip (fun _ hs => hs) fun maybeHighTip ht => ?_
  refine .any codes_uint64 highCertificateQcRound fun highCertificateQcRound => ?_
  refine .any codes_uint64 highestVote fun highestVote => ?_
  refine .any codes_uint64 highestNoEndorseRound fun highestNoEndorseRound => ?_
  refine .any (codes_fixed 32) highestNoEndorseTip fun highestNoEndorseTip => ?_
  refine .any codes_uint64 highestPropose fun highestPropose => ?_
  refine .any codes_uint64 highestRecoveryRequest fun highestRecoveryRequest => ?_
  exact .stop ht fun x _ => by cases x; simp [and_assoc]

end laws

end MonadBft.Wire
