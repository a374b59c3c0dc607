/-
  MonadBft.Wire.EventCodec — a logged event is read back as it was written.

  The codec law of every event the write-ahead log holds, put together from those of the
  certificates and messages they carry, and the frame with the time stamp around it.

  Proved:
  - `logged_event_read_back`: an event within the decoders' limits is read back from its
    encoding, and with its time stamp from its log entry, if its secp256k1 signatures have a
    recovery id and its signature collections hold the point their raw bytes stand for;
  - `logged_vote_refused`: a logged message without a recovery id is refused on replay.
-/
import MonadBft.Wire.Events
import MonadBft.Wire.RoundTrip

namespace MonadBft.Wire

open Rlp Rlp.Decoder
open WireAuth (littleEndian littleEndian_length)
open RaptorCast (ofLittleEndian ofLittleEndian_littleEndian slice_of_eq)

/-! ## Pairs, lists and options -/

section general

variable {α β : Type} {canon : Prop} {d : Decoder α} {e : α → Bytes} {ok : α → Prop}
  {d' : Decoder β} {e' : β → Bytes} {ok' : β → Prop}

theorem codes_pair (h : Codes canon d e ok) (h' : Codes canon d' e' ok') :
    Codes canon (decodePair d d') (fun p => e p.1 ++ e' p.2) fun p => ok p.1 ∧ ok' p.2 where
  writes {a p r} hp hlen := by
    rw [List.append_assoc] at hlen ⊢
    have hsnd := hlen
    rw [List.length_append] at hsnd
    refine run_bind_ok.mpr ⟨p.1, e' p.2 ++ r, h.writes hp.1 hlen, ?_⟩
    exact run_bind_ok.mpr ⟨p.2, r, h'.writes hp.2 (by omega), run_pure_ok.mpr ⟨rfl, rfl⟩⟩
  yields {s p r} hr := by
    obtain ⟨x, t, hx, hrest⟩ := run_bind_ok.mp hr
    obtain ⟨y, t', hy, hpure⟩ := run_bind_ok.mp hrest
    obtain ⟨rfl, rfl⟩ := run_pure_ok.mp hpure
    obtain ⟨hokx, hcx⟩ := h.yields hx
    obtain ⟨hoky, hcy⟩ := h'.yields hy
    refine ⟨⟨hokx, hoky⟩, fun hc => ?_⟩
    rw [hcx hc, hcy hc, List.append_assoc]

theorem codes_snd (h : Codes canon d e fun _ => True) (h' : Codes canon d' e' ok') :
    Codes canon (decodePair d d') (fun p => e p.1 ++ e' p.2) fun p => ok' p.2 := by
  simpa only [true_and] using codes_pair h h'

theorem codes_list (h : Codes canon d e ok) (hd : d.Strict) :
    Codes canon (decodeList d hd) (encodeList e) fun xs => ∀ x ∈ xs, ok x :=
  Codes.list (Fields.done (Fields.many h hd fun _ => Iff.rfl))

theorem codes_opt (h : Codes canon d e ok) :
    Codes canon (decodeOpt d) (encodeOpt e) fun o => ∀ x, o = some x → ok x := by
  refine .list (Fields.tagged optTag fun t => ?_)
  split
  · rename_i ht
    have hnil : Fields canon (fun _ : Unit => True) (fun _ => True) (do done; pure ()) fun _ => [].flatten :=
      Fields.stop trivial fun _ _ => by simp
    refine .inject ht (fun _ => none) hnil ?_ ?_ ?_ ?_
    · intro a s x r
      simp only [run_bind_ok, run_done_ok, run_pure_ok]
      grind
    · intro x
      cases x <;> simp [optTag]
    · simp
    · intro _
      rfl
  · refine .case ?_ ‹_› fun x => by cases x <;> simp!
    simpa [Rlp.optional] using h
  · exact .unknown fun x hx => by subst hx; cases x <;> contradiction

end general

/-! ## Validator sets and requesters -/

section validators

variable {canon : Prop}

theorem leftPadStake_iff {b : Bytes} {x : Stake} : leftPadStake b = .ok x ↔ b = stripped x.val := by
  unfold leftPadStake
  constructor
  · intro h
    split_ifs at h with hlen hhead
    obtain rfl := Except.ok.inj h
    refine (stripped_of_beNat hhead ?_ ?_).symm
    · rw [List.length_append, List.length_replicate]
      omega
    · rw [beNat_append, beNat_replicate_zero]
      simp
  · intro h
    have hle := stripped_length_le x.val
    have hpad := padded_of_beNat hle (beNat_stripped _)
    have hhead := stripped_head x.val
    rw [← h, x.property] at hle hpad
    rw [← h] at hhead
    rw [dif_neg (by omega), if_neg hhead]
    exact congrArg _ (Subtype.ext hpad)

theorem Stake.codes : Codes canon Stake.decode Stake.encode fun _ => True :=
  Codes.bytesAs fun b x => by rw [leftPadStake_iff, true_and]

theorem ValidatorData.codes : Codes canon ValidatorData.decode ValidatorData.encode fun _ => True := by
  refine .list ?_
  refine .any (codes_fixed 33) nodeId fun nodeId => ?_
  refine .any Stake.codes stake fun stake => ?_
  refine .any (codes_fixed 48) certPubKey fun certPubKey => ?_
  exact .stop trivial fun x _ => by cases x; simp [and_assoc]

theorem codes_validatorSetData : Codes canon decodeValidatorSetData encodeValidatorSetData fun _ => True := by
  have h : Codes canon (decodeList ValidatorData.decode (list_strict _)) (encodeList ValidatorData.encode) fun _ => True := by
    simpa using codes_list ValidatorData.codes (list_strict _)
  refine .list ?_
  simpa [encodeValidatorSetData] using Fields.one h

theorem ValidatorSetDataWithEpoch.codes :
    Codes canon ValidatorSetDataWithEpoch.decode ValidatorSetDataWithEpoch.encode fun _ => True := by
  refine .list ?_
  refine .any codes_uint64 epoch fun epoch => ?_
  refine .any codes_validatorSetData validators fun validators => ?_
  exact .stop trivial fun x _ => by cases x; simp

theorem SelfRequester.ofTag_iff {v : UInt64} {r : SelfRequester} : ofTag v.toNat = .ok r ↔ v = r.tag := by
  rw [← UInt64.toNat_inj]
  unfold ofTag
  split <;> cases r <;> simp_all [tag]

theorem SelfRequester.codes : Codes canon SelfRequester.decode SelfRequester.encode fun _ => True := by
  have h : Codes canon (list do let v ← uint64; done; pure v) (fun v => appendFields [appendUint64 v]) fun _ => True := by
    refine .list ?_
    simpa using Fields.one codes_uint64
  exact h.lift tag (fun v r _ => by rw [ofTag_iff, true_and]) fun _ _ => trivial

end validators

/-! ## Events -/

section events

variable {ep : Protocol} (bls : Pairing)

def ConsensusEvent.Ok : ConsensusEvent ep → Prop
  | .message _ m => m.Ok bls
  | .blockSync _ blocks => ∀ b ∈ blocks, b.Ok bls
  | .timeout _ | .sendVote _ => True

def BlockSyncEvent.Ok : BlockSyncEvent ep → Prop
  | .response _ resp | .selfResponse resp => resp.Ok bls
  | .request _ _ | .timeout _ | .selfRequest _ _ | .selfCancelRequest _ _ => True

structure ProposalEvent.Ok (e : ProposalEvent ep) : Prop where
  highQC : e.highQC.Ok bls
  roundSignature : e.roundSignature.Ok bls
  lastRoundTC : ∀ tc, e.lastRoundTC = some tc → tc.Ok bls
  freshProposalCertificate : ∀ c, e.freshProposalCertificate = some c → c.Ok bls

def StateSyncEvent.Ok : StateSyncEvent ep → Prop
  | .doneSync _ => True
  | .blockSync _ blocks => ∀ b ∈ blocks, b.Ok bls
  | .requestSync root highQC => root.Ok bls ∧ highQC.Ok bls

/-- What the decoder asks of an event's contents. -/
def MonadEvent.Ok : MonadEvent ep → Prop
  | .consensus e => e.Ok bls
  | .blockSync e => e.Ok bls
  | .proposal e => e.Ok bls
  | .stateSync e => e.Ok bls
  | .updateValidators _ | .timestampUpdate _ => True

theorem codes_validatorEvent : Codes False decodeValidatorEvent encodeValidatorEvent fun _ => True := by
  refine .list ?_
  refine .any codes_uint64 (fun _ => 1) fun tag => ?_
  refine .check (fun _ _ hseen => hseen.2.symm) fun htag => ?_
  refine .any ValidatorSetDataWithEpoch.codes id fun v => ?_
  exact .stop trivial fun x _ => by simp [htag]

variable {bls} (hbls : bls.Canonical) {enc : ep.Encoder} (henc : enc.Lawful False)

include henc in
theorem codes_executionInputs : Codes False (decodeExecutionInputs ep) (encodeExecutionInputs enc) fun _ => True := by
  refine .list ?_
  refine .any henc.proposedHeader Prod.fst fun header => ?_
  refine .any henc.body Prod.snd fun body => ?_
  exact .stop trivial fun x _ => by cases x; simp

include hbls henc

theorem codes_rangeBlocks : Codes False (decodeRangeBlocks bls ep)
    (fun p => encodeRangeBlocks bls enc p.1 p.2) fun p => ∀ b ∈ p.2, b.Ok bls :=
  codes_snd BlockRange.codes (codes_list (ConsensusFullBlock.codes hbls henc) (list_strict _))

theorem ConsensusEvent.codes : Codes False (ConsensusEvent.decode bls ep) (ConsensusEvent.encode bls enc)
    (ConsensusEvent.Ok bls) := by
  have hmsg : Codes False (Unverified.decode bls ep) (Unverified.encode bls enc) (Unverified.Ok bls) :=
    Unverified.codes henc (Reading.go_lawful hbls)
  refine .list (Fields.tagged ConsensusEvent.tag fun t => ?_)
  split
  all_goals first
    | exact .unknown fun x hx => by subst hx; cases x <;> contradiction
    | refine .case ?_ ‹_› fun x => by cases x <;> simp!
  · exact codes_snd (codes_fixed 33) hmsg
  · exact codes_uint64
  · exact codes_rangeBlocks hbls henc
  · exact codes_uint64

theorem BlockSyncEvent.codes : Codes False (BlockSyncEvent.decode bls ep) (BlockSyncEvent.encode bls enc)
    (BlockSyncEvent.Ok bls) := by
  have hresp := ResponseMessage.codes henc hbls
  refine .list (Fields.tagged BlockSyncEvent.tag fun t => ?_)
  split
  all_goals first
    | exact .unknown fun x hx => by subst hx; cases x <;> contradiction
    | refine .case ?_ ‹_› fun x => by cases x <;> simp!
  · exact codes_snd (codes_fixed 33) RequestMessage.codes
  · exact RequestMessage.codes
  · exact codes_snd SelfRequester.codes BlockRange.codes
  · exact codes_snd SelfRequester.codes BlockRange.codes
  · exact codes_snd (codes_fixed 33) hresp
  · exact hresp

theorem ProposalEvent.codes : Codes False (ProposalEvent.decode bls ep) (ProposalEvent.encode bls enc)
    (ProposalEvent.Ok bls) := by
  have hrd := Reading.go_lawful hbls
  refine .list ?_
  refine .any codes_uint64 (fun _ => 1) fun tag => ?_
  refine .check (fun _ _ hseen => hseen.2.symm) fun htag => ?_
  refine .any codes_uint64 epoch fun epoch => ?_
  refine .any codes_uint64 round fun round => ?_
  refine .any codes_uint64 seqNum fun seqNum => ?_
  refine .field (QuorumCertificate.codes hrd) highQC (fun _ h => h.highQC) fun highQC hqc => ?_
  refine .any codes_uint128 timestampNs fun timestampNs => ?_
  refine .field (codes_blsSignature hbls) roundSignature (fun _ h => h.roundSignature)
    fun roundSignature hsig => ?_
  refine .any codes_uint64 baseFee fun baseFee => ?_
  refine .any codes_uint64 baseFeeTrend fun baseFeeTrend => ?_
  refine .any codes_uint64 baseFeeMoment fun baseFeeMoment => ?_
  refine .field (codes_list henc.finalizedHeader ep.finalizedHeader_strict) delayedExecutionResults
    (fun _ _ _ _ => trivial) fun delayedExecutionResults _ => ?_
  refine .field (codes_executionInputs henc) proposedExecutionInputs (fun _ _ => trivial)
    fun proposedExecutionInputs _ => ?_
  refine .field (codes_opt (TimeoutCertificate.codes henc hrd)) lastRoundTC (fun _ h => h.lastRoundTC)
    fun lastRoundTC htc => ?_
  refine .field (codes_opt (FreshProposalCertificate.codes hrd)) freshProposalCertificate
    (fun _ h => h.freshProposalCertificate) fun freshProposalCertificate hfpc => ?_
  exact .stop ⟨hqc, hsig, htc, hfpc⟩ fun x _ => by cases x; simp [htag, and_assoc]

theorem StateSyncEvent.codes : Codes False (StateSyncEvent.decode bls ep) (StateSyncEvent.encode bls enc)
    (StateSyncEvent.Ok bls) := by
  have hrd := Reading.go_lawful hbls
  refine .list (Fields.tagged StateSyncEvent.tag fun t => ?_)
  split
  all_goals first
    | exact .unknown fun x hx => by subst hx; cases x <;> contradiction
    | refine .case ?_ ‹_› fun x => by cases x <;> simp!
  · exact codes_uint64
  · exact codes_rangeBlocks hbls henc
  · exact codes_pair (ConsensusBlockHeader.codes henc hrd) (QuorumCertificate.codes hrd)

theorem MonadEvent.codes : Codes False (MonadEvent.decodePayload bls ep) (MonadEvent.encode bls enc)
    (MonadEvent.Ok bls) := by
  refine .list (Fields.tagged MonadEvent.tag fun t => ?_)
  split
  all_goals first
    | exact .unknown fun x hx => by subst hx; cases x <;> contradiction
    | refine .case ?_ ‹_› fun x => by cases x <;> simp!
  · exact ConsensusEvent.codes hbls henc
  · exact BlockSyncEvent.codes hbls henc
  · exact codes_validatorEvent
  · exact ProposalEvent.codes hbls henc
  · exact codes_uint128
  · exact StateSyncEvent.codes hbls henc

theorem MonadEvent.run_encode {e : MonadEvent ep} (he : e.Ok bls) (hlen : (e.encode bls enc).length < 2 ^ 63) :
    (MonadEvent.decode bls ep).run .go (e.encode bls enc) = .ok (e, []) :=
  run_done_pure.mpr ⟨Wire.run_encode (MonadEvent.codes hbls henc) he hlen, rfl⟩

end events

/-! ## The log's frame -/

theorem ofLittleEndian_of_lt {len v : Nat} (h : v < 256 ^ len) : ofLittleEndian (littleEndian len v) = v := by
  rw [ofLittleEndian_littleEndian, Nat.mod_eq_of_lt h]

variable (t : Instant)

theorem Instant.bytes_length : t.bytes.length = logFriendlyTsLen := by
  simp [bytes, littleEndian_length, logFriendlyTsLen]

/-- A second has fewer nanoseconds than `time.Unix` would carry over. -/
theorem Instant.unix_self : unix t.secs t.nanos = t := by
  obtain ⟨secs, nanos, hlt⟩ := t
  have hdiv : nanos / 10 ^ 9 = 0 := Nat.div_eq_of_lt hlt
  have hzero : secs + Int64.ofNat 0 = secs := by simp
  simp only [unix, hdiv, hzero, Nat.mod_eq_of_lt hlt]

theorem deserializeTimestamp_bytes : deserializeTimestamp (littleEndian 4 logFriendlyTsLen ++ t.bytes) = .ok t := by
  have hts := t.bytes_length
  have hlen : (littleEndian 4 logFriendlyTsLen ++ t.bytes).length = 16 := by
    rw [List.length_append, littleEndian_length, hts, logFriendlyTsLen]
  have hsecs : t.secs.toUInt64.toNat < 256 ^ 8 := t.secs.toUInt64.toNat_lt
  have hnanos : t.nanos < 256 ^ 4 := by
    have := t.nanos_lt
    omega
  have h0 : RaptorCast.slice (littleEndian 4 logFriendlyTsLen ++ t.bytes) 0 4 = littleEndian 4 logFriendlyTsLen :=
    slice_of_eq (a := []) rfl rfl (littleEndian_length 4 _)
  have h4 : RaptorCast.slice (littleEndian 4 logFriendlyTsLen ++ t.bytes) 4 8 = littleEndian 8 t.secs.toUInt64.toNat :=
    slice_of_eq rfl (littleEndian_length 4 _) (littleEndian_length 8 _)
  have h12 : RaptorCast.slice (littleEndian 4 logFriendlyTsLen ++ t.bytes) 12 4 = littleEndian 4 t.nanos := by
    refine slice_of_eq (a := littleEndian 4 logFriendlyTsLen ++ littleEndian 8 t.secs.toUInt64.toNat) (c := []) ?_ ?_
      (littleEndian_length 4 _)
    · rw [Instant.bytes, List.append_nil, List.append_assoc]
    · rw [List.length_append, littleEndian_length, littleEndian_length]
  have htsLen : ofLittleEndian (littleEndian 4 logFriendlyTsLen) = logFriendlyTsLen := ofLittleEndian_of_lt (by decide)
  unfold deserializeTimestamp
  rw [if_neg (by omega)]
  rw [h0, htsLen, if_neg (by rw [hlen, logFriendlyTsLen]; omega), h4, h12, ofLittleEndian_of_lt hsecs,
    ofLittleEndian_of_lt hnanos, UInt64.ofNat_toNat, Int64.toInt64_toUInt64, Instant.unix_self]

section log

variable {bls : Pairing} {ep : Protocol} {enc : ep.Encoder}

theorem LogFriendlyMonadEvent.deserialize_serialize {l : LogFriendlyMonadEvent ep}
    (h : (MonadEvent.decode bls ep).run .go (l.event.encode bls enc) = .ok (l.event, [])) :
    deserialize bls ep (l.serialize bls enc) = .ok l := by
  have hhead : (littleEndian 4 logFriendlyTsLen ++ l.timestamp.bytes).length = 4 + logFriendlyTsLen := by
    rw [List.length_append, littleEndian_length, l.timestamp.bytes_length]
  have hlen : (l.serialize bls enc).length = 4 + logFriendlyTsLen + (l.event.encode bls enc).length := by
    rw [serialize, List.length_append, hhead]
  have h0 : RaptorCast.slice (l.serialize bls enc) 0 4 = littleEndian 4 logFriendlyTsLen := by
    refine slice_of_eq (a := []) (c := l.timestamp.bytes ++ l.event.encode bls enc) ?_ rfl (littleEndian_length 4 _)
    rw [serialize, List.append_assoc, List.nil_append]
  have htsLen : ofLittleEndian (littleEndian 4 logFriendlyTsLen) = logFriendlyTsLen := ofLittleEndian_of_lt (by decide)
  unfold deserialize
  rw [if_neg (by omega)]
  rw [h0, htsLen, if_neg (by omega), serialize, List.take_left' hhead, List.drop_left' hhead,
    deserializeTimestamp_bytes, h]
  rfl

/-- A logged event comes back from its encoding, and with its time stamp from its log entry. -/
theorem logged_event_read_back (hbls : bls.Canonical) (henc : enc.RoundTrips) (e : MonadEvent ep) (he : e.Ok bls)
    (hlen : (e.encode bls enc).length < 2 ^ 63) (t : Instant) :
    (MonadEvent.decode bls ep).run .go (e.encode bls enc) = .ok (e, []) ∧
    LogFriendlyMonadEvent.deserialize bls ep (LogFriendlyMonadEvent.serialize bls enc ⟨t, e⟩) = .ok ⟨t, e⟩ := by
  have hrun := MonadEvent.run_encode hbls henc.lawful he hlen
  exact ⟨hrun, LogFriendlyMonadEvent.deserialize_serialize hrun⟩

/-- A message of the author of `someTip` as the node logs it when it arrives. -/
def logged (m : Unverified mock) : MonadEvent mock := .consensus (.message someTip.blockHeader.author m)

theorem logged_timeout_read_back : LogFriendlyMonadEvent.deserialize mockPairing mock
      (LogFriendlyMonadEvent.serialize mockPairing mockEncoder ⟨⟨-1, 5, by decide⟩, logged timeoutMessage⟩) =
        .ok ⟨⟨-1, 5, by decide⟩, logged timeoutMessage⟩ :=
  (logged_event_read_back mockPairing_canonical mock_roundTrips (logged timeoutMessage) timeoutMessage_ok
    (by decide +kernel) _).2

/-- The entry is written, but its last signature byte is no recovery id. -/
theorem logged_vote_refused : (MonadEvent.decode mockPairing mock).run .go ((logged (voteWith 4)).encode mockPairing mockEncoder) =
      .error (.err .secpRecoveryId) := by
  have hcheck : (match (MonadEvent.decode mockPairing mock).run .go ((logged (voteWith 4)).encode mockPairing mockEncoder) with
      | .error f => decide (f = .err .secpRecoveryId)
      | .ok _ => false) = true := by decide +kernel
  cases hrun : (MonadEvent.decode mockPairing mock).run .go ((logged (voteWith 4)).encode mockPairing mockEncoder) with
  | error f =>
    rw [hrun] at hcheck
    rw [of_decide_eq_true hcheck]
  | ok v =>
    rw [hrun] at hcheck
    cases hcheck

end log

end MonadBft.Wire
