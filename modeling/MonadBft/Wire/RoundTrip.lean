/-
  MonadBft.Wire.RoundTrip — what is encoded is decoded again.

  For the messages of consensus and block sync and for what is kept on disk. Assumed of the
  libraries: the execution protocol's own encodings are read back (`RoundTrips`), a point has
  one compressed form (`Pairing.Canonical`), and it is uncompressed again (`BlsSignature.Ok`).

  Proved:
  - `decode_encode`: a value within the decoders' limits is read back, up to the last byte, if
    its secp256k1 signatures have a recovery id and its signature collections hold the point
    their raw bytes stand for;
  - `recovery_id_refused`: without a recovery id the decoder refuses what was encoded.
-/
import MonadBft.Wire.MessageCodec
import MonadBft.Wire.Storage

namespace MonadBft.Wire

open Rlp Rlp.Decoder

/-- The execution protocol reads back what it wrote, whatever follows. -/
structure Protocol.Encoder.RoundTrips {ep : Protocol} (enc : ep.Encoder) : Prop where
  proposedHeader : ∀ x r, (enc.proposedHeader x ++ r).length < 2 ^ 63 →
    ep.decodeProposedHeader.run .go (enc.proposedHeader x ++ r) = .ok (x, r)
  body : ∀ x r, (enc.body x ++ r).length < 2 ^ 63 → ep.decodeBody.run .go (enc.body x ++ r) = .ok (x, r)
  finalizedHeader : ∀ x r, (enc.finalizedHeader x ++ r).length < 2 ^ 63 →
    ep.decodeFinalizedHeader.run .go (enc.finalizedHeader x ++ r) = .ok (x, r)

/-- A round trip of the machine is one of the exact arithmetic too. -/
theorem codes_of_roundTrip {α : Type} {d : Decoder α} {e : α → Bytes}
    (h : ∀ x r, (e x ++ r).length < 2 ^ 63 → d.run .go (e x ++ r) = .ok (x, r)) : Codes False d e fun _ => True where
  writes {a x r} _ hlen := by
    cases a with
    | go => exact h x r hlen
    | exact => exact run_exact_of_go hlen (h x r hlen)
  yields _ := ⟨trivial, False.elim⟩

theorem Protocol.Encoder.RoundTrips.lawful {ep : Protocol} {enc : ep.Encoder} (h : enc.RoundTrips) : enc.Lawful False :=
  ⟨codes_of_roundTrip h.proposedHeader, codes_of_roundTrip h.body, codes_of_roundTrip h.finalizedHeader⟩

theorem run_encode {α : Type} {d : Decoder α} {e : α → Bytes} {ok : α → Prop} (h : Codes False d e ok) {x : α}
    (hx : ok x) (hlen : (e x).length < 2 ^ 63) : d.run .go (e x) = .ok (x, []) := by
  have hrun := h.writes (a := .go) (r := []) hx (by rwa [List.append_nil])
  rwa [List.append_nil] at hrun

/-- Every value that its decoder takes is read back from its encoding, and nothing is left. -/
theorem decode_encode {bls : Pairing} (hbls : bls.Canonical) {ep : Protocol} {enc : ep.Encoder}
    (henc : enc.RoundTrips) :
    (∀ m : Unverified ep, m.Ok bls → (m.encode bls enc).length < 2 ^ 63 →
      (Unverified.decode bls ep).run .go (m.encode bls enc) = .ok (m, [])) ∧
    (∀ c : Checkpoint ep, c.Ok bls → (c.encode bls enc).length < 2 ^ 63 →
      (Checkpoint.decode bls ep).run .go (c.encode bls enc) = .ok (c, [])) ∧
    (∀ s : SafetySnapshot ep, s.Ok bls → (s.encode bls enc).length < 2 ^ 63 →
      (SafetySnapshot.decode bls ep).run .go (s.encode bls enc) = .ok (s, [])) ∧
    (∀ m : RequestMessage, m.encode.length < 2 ^ 63 → RequestMessage.decode.run .go m.encode = .ok (m, [])) ∧
    (∀ m : ResponseMessage ep, m.Ok bls → (m.encode bls enc).length < 2 ^ 63 →
      (ResponseMessage.decode bls ep).run .go (m.encode bls enc) = .ok (m, [])) := by
  refine ⟨?_, ?_, ?_, ?_, ?_⟩
  · intro m hm hlen
    exact run_encode (Unverified.codes henc.lawful (Reading.go_lawful hbls)) hm hlen
  · intro c hc hlen
    exact run_encode (Checkpoint.codes hbls henc.lawful) hc hlen
  · intro s hs hlen
    exact run_encode (SafetySnapshot.codes hbls henc.lawful) hs hlen
  · intro m hlen
    exact run_encode RequestMessage.codes trivial hlen
  · intro m hm hlen
    exact run_encode (ResponseMessage.codes henc.lawful hbls) hm hlen

theorem mock_roundTrips : mockEncoder.RoundTrips where
  proposedHeader _ _ hlen := (mock_lawful : mockEncoder.Lawful False).proposedHeader.writes trivial hlen
  body _ _ hlen := (mock_lawful : mockEncoder.Lawful False).body.writes trivial hlen
  finalizedHeader _ _ hlen := (mock_lawful : mockEncoder.Lawful False).finalizedHeader.writes trivial hlen

/-- A vote for round 3 under a signature that ends in `recoveryId`. -/
def voteWith (recoveryId : UInt8) : Unverified mock :=
  ⟨⟨1, .vote ⟨⟨⟨List.replicate 32 0, rfl⟩, 3, 1⟩, ⟨⟨List.replicate 96 0, rfl⟩⟩⟩⟩,
    ⟨List.replicate 64 0 ++ [recoveryId], rfl⟩⟩

/-- Signed by the first and the third of three validators. -/
def twoOfThree : SigCol := ⟨⟨[true, false, true]⟩, ⟨List.replicate 96 0, rfl⟩, some ⟨⟨List.replicate 96 0, rfl⟩⟩⟩

def someQC : QuorumCertificate := ⟨⟨⟨List.replicate 32 0, rfl⟩, 3, 1⟩, twoOfThree⟩

/-- The header of a block in round 5, proposed on a no-tip certificate. -/
def someTip : ConsensusTip mock where
  blockHeader := ⟨5, 1, someQC, ⟨List.replicate 33 2, rfl⟩, 4, (0, 9), ⟨⟨List.replicate 96 0, rfl⟩⟩,
    [(1 : UInt64), (2 : UInt64)], (), ⟨List.replicate 32 0, rfl⟩, 7, 0, 0⟩
  signature := (voteWith 3).authorSignature
  freshCertificate := some (.noTip ⟨1, 4, [⟨3, 0, twoOfThree⟩], someQC⟩)

def someTC : TimeoutCertificate mock := ⟨1, 6, [⟨3, 5, twoOfThree⟩], .tip someTip⟩

/-- A timeout of round 7 with a tip and a vote for it, after a round that timed out. -/
def timeoutMessage : Unverified mock :=
  ⟨⟨1, .timeout ⟨⟨1, 7, 3, 5⟩, ⟨⟨List.replicate 96 0, rfl⟩⟩, .tip someTip (some ⟨⟨List.replicate 96 0, rfl⟩⟩),
    some (.tc someTC)⟩⟩, (voteWith 3).authorSignature⟩

theorem timeoutMessage_ok : timeoutMessage.Ok mockPairing := by
  have hsecp : SecpSignature.Ok (voteWith 3).authorSignature := by
    unfold SecpSignature.Ok
    decide
  have hsigs : twoOfThree.Ok mockPairing := ⟨by unfold SignerMap.Ok; decide, rfl⟩
  have hfresh : ∀ c, someTip.freshCertificate = some c → c.Ok mockPairing := by
    rintro _ ⟨⟩
    exact ⟨by simpa [HighTipRoundSigColTuple.Ok] using hsigs, hsigs⟩
  have htip : someTip.Ok mockPairing := ⟨⟨hsigs, rfl, by decide⟩, hsecp, hfresh⟩
  have htc : someTC.Ok mockPairing := ⟨by simpa [someTC, HighTipRoundSigColTuple.Ok] using hsigs, by decide, htip⟩
  refine ⟨⟨rfl, ⟨htip, ?_⟩, ?_⟩, hsecp⟩
  · rintro _ ⟨⟩
    rfl
  · rintro _ ⟨⟩
    exact htc

theorem decode_encode_timeout : (Unverified.decode mockPairing mock).run .go
    (timeoutMessage.encode mockPairing mockEncoder) = .ok (timeoutMessage, []) :=
  (decode_encode mockPairing_canonical mock_roundTrips).1 timeoutMessage timeoutMessage_ok (by decide +kernel)

/-- Within all the limits, but the last byte of the author's signature is no recovery id. -/
theorem recovery_id_refused : (Unverified.decode mockPairing mock).run .go ((voteWith 4).encode mockPairing mockEncoder) =
    .error (.err .secpRecoveryId) := by
  have hcheck : (match (Unverified.decode mockPairing mock).run .go ((voteWith 4).encode mockPairing mockEncoder) with
      | .error f => decide (f = .err .secpRecoveryId)
      | .ok _ => false) = true := by decide +kernel
  cases hrun : (Unverified.decode mockPairing mock).run .go ((voteWith 4).encode mockPairing mockEncoder) with
  | error f =>
    rw [hrun] at hcheck
    rw [of_decide_eq_true hcheck]
  | ok v =>
    rw [hrun] at hcheck
    cases hcheck

end MonadBft.Wire
