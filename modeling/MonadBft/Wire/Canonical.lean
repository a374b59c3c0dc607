/-
  MonadBft.Wire.Canonical — when a received consensus message is the encoding of what was decoded.

  `glue.DecodeMonadMessage` reads the sender's version and drops it, and does not look at what
  follows the outer list; the signer maps and the version of the consensus message have
  second spellings of their own (`MonadBft.Wire.Readings`). The plain decoders refuse all of
  them.

  Proved:
  - `reencoding_iff`: the decoded message encodes to the received bytes exactly if the plain
    decoder accepts them, for the envelope and for the message in it; so two such byte
    strings never decode to the same message.
  - `reencoding_differs`: a wide version, a padding bit, a byte after the envelope and another
    sender version, each accepted and encoded differently.
-/
import MonadBft.Wire.Envelope
import MonadBft.Wire.RoundTrip
import Mathlib.Data.UInt

namespace MonadBft.Wire

open Rlp Rlp.Decoder

/-! ## The envelope -/

def MonadVersion.version : MonadVersion := ⟨1, 0, 1, 1, 1⟩

def MonadVersion.encode (v : MonadVersion) : Bytes :=
  appendFields [appendUint64 v.protocolVersion.toUInt64, appendUint64 v.clientVersionMaj.toUInt64,
    appendUint64 v.clientVersionMin.toUInt64, appendUint64 v.hashVersion.toUInt64,
    appendUint64 v.serializeVersion.toUInt64]

def encodeConsensus {ep : Protocol} (bls : Pairing) (enc : ep.Encoder) (m : Unverified ep) : Bytes :=
  appendFields [MonadVersion.version.encode, appendUint64 1, m.encode bls enc]

/-- The five numbers of a version. -/
abbrev VersionNumbers := UInt64 × UInt64 × UInt64 × UInt64 × UInt64

def decodeVersionNumbers : Decoder VersionNumbers := list do
  let pv ← uint64
  let maj ← uint64
  let min ← uint64
  let hv ← uint64
  let sv ← uint64
  done
  pure (pv, maj, min, hv, sv)

variable (bls : Pairing) {b r : Bytes} {α : Type}

/-- An envelope from a node of this version around a plain consensus message. -/
def decodePlainEnvelope (ep : Protocol) : Decoder (Unverified ep) := list do
  let numbers ← decodeVersionNumbers
  check (numbers = (1, 0, 1, 1, 1)) .custom
  let tag ← uint64
  check (tag = 1) .custom
  let m ← Unverified.decodeWith (.plain bls) ep
  done
  pure m

/-- The plain decoder takes all of `b`. -/
def PlainMessage (ep : Protocol) (b : Bytes) : Prop :=
  ∃ m, (Unverified.decodeWith (.plain bls) ep).run .go b = .ok (m, [])

def PlainEnvelope (ep : Protocol) (b : Bytes) : Prop :=
  ∃ m, (decodePlainEnvelope bls ep).run .go b = .ok (m, [])

/-! ## Two readings of one type -/

/-- A decoder and a stricter one with the same encoder: what the first accepts is the encoding of
its value exactly if the second accepts it. -/
theorem encode_eq_iff {d d' : Decoder α} {e : α → Bytes} {ok : α → Prop} (h : Codes False d e ok)
    (h' : Codes True d' e ok) {x : α} (hb : b.length < 2 ^ 63) (hrun : d.run .go b = .ok (x, r)) :
    e x = b ↔ ∃ y, d'.run .go b = .ok (y, []) := by
  have hok : ok x := (h.yields (run_exact_of_go hb hrun)).1
  constructor
  · intro he
    have hw := h'.writes (a := .go) (r := []) hok (by rwa [List.append_nil, he])
    rw [List.append_nil, he] at hw
    exact ⟨x, hw⟩
  · intro hy
    obtain ⟨y, hy⟩ := hy
    obtain ⟨hoky, hcanon⟩ := h'.yields (run_exact_of_go hb hy)
    have hbe : b = e y := by simpa using hcanon trivial
    have hw := h.writes (a := .go) (r := []) hoky (by rwa [List.append_nil, ← hbe])
    rw [List.append_nil, ← hbe, hrun] at hw
    rw [(Prod.mk.inj (Except.ok.inj hw)).1, ← hbe]

/-! ## The codec law of the envelope -/

section envelope

variable {canon : Prop} {bls : Pairing} (hbls : bls.Canonical) {ep : Protocol} {enc : ep.Encoder} {a : Arith}

theorem codes_versionNumbers : Codes canon decodeVersionNumbers (fun v =>
    appendFields [appendUint64 v.1, appendUint64 v.2.1, appendUint64 v.2.2.1, appendUint64 v.2.2.2.1,
      appendUint64 v.2.2.2.2]) fun _ => True := by
  refine .list ?_
  refine .any codes_uint64 (fun v : VersionNumbers => v.1) fun pv => ?_
  refine .any codes_uint64 (fun v : VersionNumbers => v.2.1) fun maj => ?_
  refine .any codes_uint64 (fun v : VersionNumbers => v.2.2.1) fun min => ?_
  refine .any codes_uint64 (fun v : VersionNumbers => v.2.2.2.1) fun hv => ?_
  refine .any codes_uint64 (fun v : VersionNumbers => v.2.2.2.2) fun sv => ?_
  refine .stop trivial fun x _ => ?_
  obtain ⟨a, b, c, d, e⟩ := x
  simp [and_assoc]

include hbls in
theorem codes_plainEnvelope (henc : enc.Lawful True) : Codes True (decodePlainEnvelope bls ep)
    (encodeConsensus bls enc) (Unverified.Ok bls) := by
  refine .list ?_
  refine .any codes_versionNumbers (fun _ => (1, 0, 1, 1, 1)) fun numbers => ?_
  refine .check (fun x _ hseen => hseen.2.symm) fun hnumbers => ?_
  refine .any codes_uint64 (fun _ => 1) fun tag => ?_
  refine .check (fun x _ hseen => hseen.2.symm) fun htag => ?_
  refine .field (Unverified.codes henc (Reading.plain_lawful hbls)) id (fun _ hm => hm) fun m hm => ?_
  exact .stop hm fun x _ => by simp [hnumbers, htag]

theorem run_version (hlen : (MonadVersion.version.encode ++ r).length < 2 ^ 63) :
    MonadVersion.decode.run a (MonadVersion.version.encode ++ r) = .ok (.version, r) := by
  refine run_list_ok.mpr ⟨[0x01, 0x80, 0x01, 0x01, 0x01], [], readItem_append true hlen, ?_⟩
  cases a <;> rfl

def decodeConsensusEnvelope (bls : Pairing) (ep : Protocol) : Decoder (Unverified ep) := list do
  let _ ← MonadVersion.decode
  let tag ← uint64
  check (tag = 1) .custom
  let m ← Unverified.decode bls ep
  done
  pure m

theorem run_consensusEnvelope {s : Bytes} {m : Unverified ep} :
    (decodeMonadMessage bls ep).run a s = .ok (.consensus m, r) ↔
      (decodeConsensusEnvelope bls ep).run a s = .ok (m, r) := by
  unfold decodeMonadMessage decodeConsensusEnvelope
  simp only [run_list_ok, run_bind_ok, run_check_ok, run_done_ok, run_pure_ok]
  constructor
  · intro h
    obtain ⟨p, q, hp, v, t, hv, tag, t', htag, mm, t'', hm, u, t₃, hdone, rfl, rfl⟩ := h
    split at hm
    · -- the tag of a consensus message
      rename_i hone
      obtain ⟨m', hm', heq⟩ := run_map_ok.mp hm
      obtain rfl := MonadMessage.consensus.inj heq
      exact ⟨p, q, hp, v, t, hv, tag, t', htag, (), t', ⟨UInt64.toNat_inj.mp hone, rfl⟩, m, t'', hm', u, q, hdone, rfl, rfl⟩
    iterate 4
      · obtain ⟨m', -, heq⟩ := run_map_ok.mp hm
        cases heq
    · cases hm
  · intro h
    obtain ⟨p, q, hp, v, t, hv, tag, t', htag, u', t₄, ⟨rfl, rfl⟩, m', t'', hm, u, t₃, hdone, rfl, rfl⟩ := h
    exact ⟨p, q, hp, v, t, hv, 1, t₄, htag, _, t'', run_map_ok.mpr ⟨m, hm, rfl⟩, u, q, hdone, rfl, rfl⟩

/-- The version is dropped: only the node's own is read back as it was written. -/
theorem fields_versioned {ok : α → Prop} {k : Decoder α} {es : α → List Bytes}
    (hk : Fields False ok (fun _ => True) k fun x => (es x).flatten) :
    Fields False ok (fun _ => True) (do let _ ← MonadVersion.decode; k) fun x =>
      (MonadVersion.version.encode :: es x).flatten where
  writes {a x} hx _ hlen := by
    rw [List.flatten_cons] at hlen ⊢
    refine run_bind_ok.mpr ⟨_, _, run_version hlen, hk.writes hx trivial ?_⟩
    rw [List.length_append] at hlen
    omega
  yields {s x r} hr := by
    obtain ⟨v, t, -, hx⟩ := run_bind_ok.mp hr
    exact ⟨(hk.yields hx).1, trivial, False.elim⟩

include hbls in
theorem codes_consensusEnvelope (henc : enc.Lawful False) : Codes False (decodeConsensusEnvelope bls ep)
    (encodeConsensus bls enc) (Unverified.Ok bls) := by
  refine .list (fields_versioned ?_)
  refine .any codes_uint64 (fun _ => 1) fun tag => ?_
  refine .check (fun x _ hseen => hseen.2.symm) fun htag => ?_
  refine .field (Unverified.codes henc (Reading.go_lawful hbls)) id (fun _ hm => hm) fun m hm => ?_
  exact .stop hm fun x _ => by simp [htag]

end envelope

/-! ## Received bytes -/

theorem Protocol.Encoder.Lawful.weaken {ep : Protocol} {enc : ep.Encoder} (h : enc.Lawful True) : enc.Lawful False :=
  ⟨h.proposedHeader.weaken False.elim, h.body.weaken False.elim, h.finalizedHeader.weaken False.elim⟩

/-- A decoded consensus message encodes to the bytes it was decoded from exactly if they are plain,
and plain bytes are the only ones of their message. -/
theorem reencoding_iff {bls : Pairing} (hbls : bls.Canonical) {ep : Protocol} {enc : ep.Encoder}
    (henc : enc.Lawful True) :
    (∀ b : Input, ∀ m r, (decodeMonadMessage bls ep).run .go b.val = .ok (.consensus m, r) →
      (encodeConsensus bls enc m = b.val ↔ PlainEnvelope bls ep b.val)) ∧
    (∀ b : Input, ∀ m, (Unverified.decode bls ep).run .go b.val = .ok (m, []) →
      (m.encode bls enc = b.val ↔ PlainMessage bls ep b.val)) ∧
    (∀ b b' : Input, ∀ m, (Unverified.decode bls ep).run .go b.val = .ok (m, []) →
      (Unverified.decode bls ep).run .go b'.val = .ok (m, []) →
      PlainMessage bls ep b.val → PlainMessage bls ep b'.val → b = b') := by
  have hmessage : ∀ b : Input, ∀ m, (Unverified.decode bls ep).run .go b.val = .ok (m, []) →
      (m.encode bls enc = b.val ↔ PlainMessage bls ep b.val) := by
    intro b m hm
    have hplain : Codes True (Unverified.decodeWith (.plain bls) ep) (Unverified.encode bls enc)
        (Unverified.Ok bls) := Unverified.codes henc (Reading.plain_lawful hbls)
    exact encode_eq_iff (Unverified.codes henc.weaken (Reading.go_lawful hbls)) hplain b.property hm
  refine ⟨?_, hmessage, ?_⟩
  · intro b m r hm
    exact encode_eq_iff (codes_consensusEnvelope hbls henc.weaken) (codes_plainEnvelope hbls henc) b.property
      (run_consensusEnvelope.mp hm)
  · intro b b' m hm hm' hplain hplain'
    refine Subtype.ext ?_
    rw [← (hmessage b m hm).mpr hplain, ← (hmessage b' m hm').mpr hplain']

theorem reencoding_timeout :
    PlainMessage mockPairing mock (timeoutMessage.encode mockPairing mockEncoder) := by
  have hlen : (timeoutMessage.encode mockPairing mockEncoder).length < 2 ^ 63 := by decide +kernel
  have hrun : (Unverified.decode mockPairing mock).run .go (timeoutMessage.encode mockPairing mockEncoder) =
      .ok (timeoutMessage, []) :=
    run_encode (Unverified.codes mock_lawful (Reading.go_lawful mockPairing_canonical)) timeoutMessage_ok hlen
  exact ((reencoding_iff mockPairing_canonical mock_lawful).2.1 ⟨_, hlen⟩ timeoutMessage hrun).mp rfl

/-! ## Second spellings -/

/-- A vote whose consensus message announces version `2 ^ 32 + 1`. -/
def wideVersion : Bytes :=
  appendFields [
    appendFields [appendUint64 (2 ^ 32 + 1), (voteWith 3).obj.message.encode mockPairing mockEncoder],
    encodeFixed (voteWith 3).authorSignature]

/-- A certificate of one signer, with the highest bit of its one byte set. -/
def paddedSigners : Bytes :=
  let sigCol := appendFields [appendFields [appendUint64 1, appendString [0x81]], appendString (List.replicate 96 0)]
  let qc := appendFields [Vote.encode ⟨⟨List.replicate 32 0, List.length_replicate⟩, 3, 1⟩, sigCol]
  let advanceRound := appendFields [appendFields [appendUint64 1, qc]]
  appendFields [
    appendFields [appendUint64 1, appendFields [appendString (ascii "ProtocolMessage"), appendUint64 6, advanceRound]],
    encodeFixed (voteWith 3).authorSignature]

/-- The envelope of a vote from a node of another version. -/
def otherVersion : Bytes :=
  appendFields [MonadVersion.encode ⟨2, 0, 1, 1, 1⟩, appendUint64 1, (voteWith 3).encode mockPairing mockEncoder]

/-- The decoder takes all of `b`, and its value has another encoding. -/
def respelt (b : Bytes) : Bool :=
  match (Unverified.decode mockPairing mock).run .go b with
  | .ok (m, r) => r.isEmpty && m.encode mockPairing mockEncoder != b
  | .error _ => false

def envelopeRespelt (b : Bytes) : Bool :=
  match (decodeMonadMessage mockPairing mock).run .go b with
  | .ok (.consensus m, _) => encodeConsensus mockPairing mockEncoder m != b
  | _ => false

theorem of_respelt (h : respelt b = true) :
    ∃ m, (Unverified.decode mockPairing mock).run .go b = .ok (m, []) ∧ m.encode mockPairing mockEncoder ≠ b := by
  unfold respelt at h
  split at h
  · rename_i m r hrun
    rw [Bool.and_eq_true, List.isEmpty_iff, bne_iff_ne] at h
    obtain ⟨rfl, hne⟩ := h
    exact ⟨m, hrun, hne⟩
  · cases h

theorem of_envelopeRespelt (h : envelopeRespelt b = true) :
    ∃ m r, (decodeMonadMessage mockPairing mock).run .go b = .ok (.consensus m, r) ∧
      encodeConsensus mockPairing mockEncoder m ≠ b := by
  unfold envelopeRespelt at h
  split at h
  · rename_i m r hrun
    exact ⟨m, r, hrun, bne_iff_ne.mp h⟩
  · cases h

/-- Four accepted byte strings that are not the encoding of their message: a version of more than 32
bits, a set padding bit, a byte after the envelope, and an envelope of another version. -/
theorem reencoding_differs : (∃ m, (Unverified.decode mockPairing mock).run .go wideVersion = .ok (m, []) ∧
      m.encode mockPairing mockEncoder ≠ wideVersion) ∧
    (∃ m, (Unverified.decode mockPairing mock).run .go paddedSigners = .ok (m, []) ∧
      m.encode mockPairing mockEncoder ≠ paddedSigners) ∧
    (∃ m r, (decodeMonadMessage mockPairing mock).run .go (encodeConsensus mockPairing mockEncoder (voteWith 3) ++ [0]) =
        .ok (.consensus m, r) ∧
      encodeConsensus mockPairing mockEncoder m ≠ encodeConsensus mockPairing mockEncoder (voteWith 3) ++ [0]) ∧
    (∃ m r, (decodeMonadMessage mockPairing mock).run .go otherVersion = .ok (.consensus m, r) ∧
      encodeConsensus mockPairing mockEncoder m ≠ otherVersion) := by
  refine ⟨of_respelt ?_, of_respelt ?_, of_envelopeRespelt ?_, of_envelopeRespelt ?_⟩ <;> decide +kernel

end MonadBft.Wire
