/-
  MonadBft.RaptorCast.Accepted — packets are accepted where they are sent.

  The sender bounds the chunk ids by its own redundancy and the rounding for each validator, the
  receiver by the largest redundancy and the largest validator set; the sender cuts the packet
  from the layout, the receiver from the tree depth in the header and the packet's length.
  `buildInto` leaves some of the receiver's bounds to its caller: the redundancy, the length of the
  message and of a symbol, the tree depth and the size of the group.

  Proved (`built_packets_accepted`): within these bounds, every packet is parsed and validated at
  its recipient and at every node it is rebroadcast to, with the fields the sender gave it. With a
  redundancy of four, a packet is built that its recipient rejects (`high_redundancy_rejected`).
-/
import MonadBft.RaptorCast.Shares
import MonadBft.RaptorCast.Delivery

namespace MonadBft.RaptorCast

open Lib Rlp WireAuth List

/-! ## Parsing what was built -/

variable {hashes : List Bytes}

theorem splitHashes_flatten (h : ∀ x ∈ hashes, x.length = merkleHashLen) (tail : Bytes) :
    splitHashes hashes.length (hashes.flatten ++ tail) = hashes := by
  induction hashes with
  | nil => rfl
  | cons x hashes ih =>
    have hx := h x (.head _)
    rw [length_cons, splitHashes, flatten_cons, append_assoc, take_left' hx, drop_left' hx,
      ih fun y hy => h y (.tail x hy)]

theorem length_flatten_hashes (h : ∀ x ∈ hashes, x.length = merkleHashLen) :
    hashes.flatten.length = hashes.length * merkleHashLen := by
  induction hashes with
  | nil => simp
  | cons x hashes ih =>
    rw [flatten_cons, length_append, h x (.head _), ih fun y hy => h y (.tail x hy),
      length_cons, Nat.add_mul, Nat.one_mul, Nat.add_comm]

structure HeaderFields where
  flags : UInt8
  group : Nat
  unixTsMs : Nat
  appMessageHash : Bytes
  appMessageLen : Nat
  hash_len : appMessageHash.length = merkleHashLen

def HeaderFields.bytes (f : HeaderFields) : Bytes :=
  littleEndian 2 0 ++ f.flags :: littleEndian 8 f.group ++ littleEndian 8 f.unixTsMs ++ f.appMessageHash ++
    littleEndian 4 f.appMessageLen

structure BodyFields where
  recipientHash : Bytes
  leafIdx : Nat
  chunkID : Nat
  symbol : Bytes
  hash_len : recipientHash.length = merkleHashLen

def BodyFields.bytes (f : BodyFields) : Bytes :=
  f.recipientHash ++ UInt8.ofNat f.leafIdx :: 0 :: littleEndian 2 f.chunkID ++ f.symbol

def packetBytes (sig : Bytes) (h : HeaderFields) (proof : List Bytes) (b : BodyFields) : Bytes :=
  sig ++ h.bytes ++ proof.flatten ++ b.bytes

variable {sig : Bytes} {h : HeaderFields} {proof : List Bytes} {b : BodyFields} {selfID author : NodeId}
  {bypass : Nat → Bool} {v : Verifier} {allow : Bool} {R : Shuffle}

theorem HeaderFields.length_bytes (f : HeaderFields) : f.bytes.length = 43 := by
  simp [HeaderFields.bytes, littleEndian_length, f.hash_len, merkleHashLen]

theorem BodyFields.length_bytes (f : BodyFields) : f.bytes.length = chunkHeaderLenV0 + f.symbol.length := by
  simp [BodyFields.bytes, littleEndian_length, f.hash_len, merkleHashLen, chunkHeaderLenV0]
  omega

def afterVersion (h : HeaderFields) (proof : List Bytes) (b : BodyFields) : Bytes :=
  h.flags :: littleEndian 8 h.group ++ littleEndian 8 h.unixTsMs ++ h.appMessageHash ++ littleEndian 4 h.appMessageLen ++
    proof.flatten ++ b.bytes

theorem packetBytes_eq (sig : Bytes) (h : HeaderFields) (proof : List Bytes) (b : BodyFields) :
    packetBytes sig h proof b = sig ++ (littleEndian 2 0 ++ afterVersion h proof b) := by
  simp [packetBytes, HeaderFields.bytes, afterVersion]

def parsedOf (h : HeaderFields) (proof : List Bytes) (b : BodyFields) : ParsedPacket where
  broadcastTreeDepth := h.flags
  groupIDRaw := h.group % 2 ^ 64
  unixTsMs := h.unixTsMs % 2 ^ 64
  appMessageHash := h.appMessageHash
  appMessageLen := h.appMessageLen % 2 ^ 32
  merkleProof := proof
  recipientHash := b.recipientHash
  merkleLeafIdx := b.leafIdx % 256
  chunkID := b.chunkID % 2 ^ 16
  chunkHeaderAndPayload := b.bytes
  payloadOffset := packetHeaderLenV0 + proof.length * merkleHashLen + chunkHeaderLenV0

theorem parsePacketV0_afterVersion (hdepth : (h.flags &&& 0x0f).toNat = proof.length + 1)
    (hmax : proof.length + 1 ≤ maxMerkleTreeDepth) (hproof : ∀ x ∈ proof, x.length = merkleHashLen)
    (hsym : b.symbol ≠ []) : parsePacketV0 (afterVersion h proof b) = .ok (parsedOf h proof b) := by
  have hflat := length_flatten_hashes hproof
  have hbody := b.length_bytes
  have hsympos : 0 < b.symbol.length := length_pos_iff.mpr hsym
  have hhash := h.hash_len
  have hrecip := b.hash_len
  have hlen : (afterVersion h proof b).length = 41 + proof.length * merkleHashLen + (chunkHeaderLenV0 + b.symbol.length) := by
    simp only [afterVersion, length_append, length_cons, littleEndian_length, hflat, hbody, hhash, merkleHashLen]
  have hdrop : (afterVersion h proof b).drop 41 = proof.flatten ++ b.bytes := by
    have heq : afterVersion h proof b = (h.flags :: littleEndian 8 h.group ++ littleEndian 8 h.unixTsMs ++
        h.appMessageHash ++ littleEndian 4 h.appMessageLen) ++ (proof.flatten ++ b.bytes) := by
      simp [afterVersion]
    rw [heq, drop_left']
    simp [littleEndian_length, hhash, merkleHashLen]
  have hchunk : (proof.flatten ++ b.bytes).drop (proof.length * merkleHashLen) = b.bytes := drop_left' hflat
  have hgroup : slice (afterVersion h proof b) 1 8 = littleEndian 8 h.group := by
    refine slice_of_eq (a := [h.flags]) (c := littleEndian 8 h.unixTsMs ++ (h.appMessageHash ++
      (littleEndian 4 h.appMessageLen ++ (proof.flatten ++ b.bytes)))) ?_ rfl (littleEndian_length 8 _)
    simp [afterVersion]
  have hts : slice (afterVersion h proof b) 9 8 = littleEndian 8 h.unixTsMs := by
    refine slice_of_eq (a := h.flags :: littleEndian 8 h.group) (c := h.appMessageHash ++
      (littleEndian 4 h.appMessageLen ++ (proof.flatten ++ b.bytes))) ?_ ?_ (littleEndian_length 8 _)
    · simp [afterVersion]
    · simp [littleEndian_length]
  have happ : slice (afterVersion h proof b) 17 20 = h.appMessageHash := by
    refine slice_of_eq (a := h.flags :: littleEndian 8 h.group ++ littleEndian 8 h.unixTsMs)
      (c := littleEndian 4 h.appMessageLen ++ (proof.flatten ++ b.bytes)) ?_ ?_ hhash
    · simp [afterVersion]
    · simp [littleEndian_length]
  have hmsgLen : slice (afterVersion h proof b) 37 4 = littleEndian 4 h.appMessageLen := by
    refine slice_of_eq (a := h.flags :: littleEndian 8 h.group ++ littleEndian 8 h.unixTsMs ++ h.appMessageHash)
      (c := proof.flatten ++ b.bytes) ?_ ?_ (littleEndian_length 4 _)
    · simp [afterVersion]
    · simp [littleEndian_length, hhash, merkleHashLen]
  have hrec : slice b.bytes 0 20 = b.recipientHash :=
    slice_of_eq (a := []) (c := UInt8.ofNat b.leafIdx :: 0 :: littleEndian 2 b.chunkID ++ b.symbol)
      (by simp [BodyFields.bytes]) rfl hrecip
  have hleaf : slice b.bytes 20 1 = [UInt8.ofNat b.leafIdx] :=
    slice_of_eq (a := b.recipientHash) (c := 0 :: littleEndian 2 b.chunkID ++ b.symbol)
      (by simp [BodyFields.bytes]) hrecip rfl
  have hid : slice b.bytes 22 2 = littleEndian 2 b.chunkID :=
    slice_of_eq (a := b.recipientHash ++ [UInt8.ofNat b.leafIdx, 0]) (c := b.symbol)
      (by simp [BodyFields.bytes]) (by simp [hrecip, merkleHashLen]) (littleEndian_length 2 _)
  have hhead : (afterVersion h proof b).headD 0 = h.flags := rfl
  rw [parsePacketV0, if_neg (by omega)]
  dsimp only
  rw [hhead, hdepth, if_neg (by simp only [minMerkleTreeDepth]; omega), hdrop, Nat.add_sub_cancel, hchunk]
  rw [if_neg (by rw [length_append, hflat, hbody]; omega), if_neg (by rw [hbody]; omega)]
  rw [hgroup, hts, happ, hmsgLen, hrec, hleaf, hid, splitHashes_flatten hproof]
  simp only [ofLittleEndian_littleEndian, ofLittleEndian]
  rfl

theorem parsePacket_packetBytes (hsig : sig.length = signatureSize)
    (hdepth : (h.flags &&& 0x0f).toNat = proof.length + 1) (hmax : proof.length + 1 ≤ maxMerkleTreeDepth)
    (hproof : ∀ x ∈ proof, x.length = merkleHashLen) (hsym : b.symbol ≠ []) :
    parsePacket (packetBytes sig h proof b) = .ok (parsedOf h proof b) := by
  have hversion : slice (packetBytes sig h proof b) signatureSize 2 = littleEndian 2 0 :=
    slice_of_eq (packetBytes_eq sig h proof b) hsig (littleEndian_length 2 0)
  have hrest : (packetBytes sig h proof b).drop (signatureSize + 2) = afterVersion h proof b := by
    rw [packetBytes_eq, ← append_assoc, drop_left']
    rw [length_append, hsig, littleEndian_length]
  have hlen : signatureSize + 2 ≤ (packetBytes sig h proof b).length := by
    rw [packetBytes_eq, length_append, length_append, hsig, littleEndian_length]
    omega
  have hzero : ofLittleEndian (littleEndian 2 0) = 0 := rfl
  rw [parsePacket, if_neg (by omega), hversion, if_pos hzero, hrest]
  exact parsePacketV0_afterVersion hdepth hmax hproof hsym

/-! ## The signature -/

namespace Verifier

variable {S : Signing} {v : Verifier} {signed : Bytes} {bypass allow : Bool} {author : NodeId}

/-- What is cached for a signature is what it recovers to. -/
def Sound (S : Signing) (v : Verifier) : Prop :=
  ∀ l, v.cache = some l → ∀ sig signed author, sig.length = signatureSize →
    l.peek (cacheKey sig signed) = some author → S.recover sig signed = some author

theorem sound_new (cap : Nat) : Sound S ⟨some (Lru.empty cap)⟩ := by
  intro l hl sig signed author _ hpeek
  cases hl
  cases hpeek

theorem cacheKey_inj {sig' signed' : Bytes} (hlen : sig.length = sig'.length)
    (h : cacheKey sig signed = cacheKey sig' signed') : sig = sig' ∧ signed = signed' := by
  obtain ⟨hsig, hrest⟩ := append_inj h hlen
  exact ⟨hsig, (cons.inj hrest).2⟩

theorem verifyChunkSignature_sound (hv : v.Sound S) (hsig : sig.length = signatureSize) :
    (v.verifyChunkSignature S sig signed bypass allow).2.Sound S := by
  unfold verifyChunkSignature
  dsimp only
  split
  · intro l hl sig' signed' author hlen hpeek
    obtain ⟨l₀, hl₀, rfl⟩ := Option.map_eq_some_iff.mp hl
    rw [Lru.peek_touch] at hpeek
    exact hv l₀ hl₀ sig' signed' author hlen hpeek
  · split_ifs
    · exact hv
    · split
      · exact hv
      · rename_i author hrec
        intro l hl sig' signed' author' hlen hpeek
        obtain ⟨l₀, hl₀, rfl⟩ := Option.map_eq_some_iff.mp hl
        rcases Lru.of_peek_put hpeek with ⟨hkey, rfl⟩ | ⟨-, hold⟩
        · obtain ⟨rfl, rfl⟩ := cacheKey_inj (hlen.trans hsig.symm) hkey
          exact hrec
        · exact hv l₀ hl₀ sig' signed' author' hlen hold

theorem verifyChunkSignature_ok (hv : v.Sound S) (hsig : sig.length = signatureSize)
    (hrec : S.recover sig signed = some author) (hallow : bypass = true ∨ allow = true) :
    (v.verifyChunkSignature S sig signed bypass allow).1 = .ok author := by
  unfold verifyChunkSignature
  dsimp only
  split
  · rename_i author' hcached
    obtain ⟨l, hl, hpeek⟩ := Option.bind_eq_some_iff.mp hcached
    have := hv l hl sig signed author' hsig hpeek
    rw [hrec] at this
    cases this
    rfl
  · rw [if_neg (by rcases hallow with h | h <;> simp [h]), hrec]

end Verifier

/-- Validation keeps the cache sound: this is what a verifier that started empty has. -/
theorem validateChunk_sound {H : Hashing} {S : Signing} {p : ParsedPacket} {message : Bytes} {now maxAgeMs : Nat}
    (hv : v.Sound S) (hlen : signatureSize ≤ message.length) :
    (validateChunk H S p message v now maxAgeMs bypass allow selfID).2.Sound S := by
  have hsig : (message.take signatureSize).length = signatureSize := length_take_of_le hlen
  unfold validateChunk
  split
  · exact hv
  · rename_i m _
    have hsound : (v.verifyChunkSignature S (message.take signatureSize) (signedOverData message m.merkleRoot)
        (!(p.groupID m.mode).isSecondary && bypass (p.groupID m.mode).n) allow).2.Sound S :=
      Verifier.verifyChunkSignature_sound hv hsig
    dsimp only
    split
    · rename_i heq
      rw [heq] at hsound
      exact hsound
    · rename_i heq
      rw [heq] at hsound
      split_ifs <;> exact hsound

/-! ## Validating what was built -/

section Validating

variable {H : Hashing} {S : Signing} {mode : BroadcastMode} {cap : Nat} {root : Bytes} {now maxAgeMs : Nat}

structure InBounds (h : HeaderFields) (b : BodyFields) (mode : BroadcastMode) (cap : Nat) : Prop where
  group : h.group < 2 ^ 64
  unixTsMs : h.unixTsMs < 2 ^ 64
  appMessageLen : 0 < h.appMessageLen ∧ h.appMessageLen ≤ maxMessageSize
  symbol : b.symbol ≠ []
  symbolLen : minChunkLength ≤ b.symbol.length ∨ b.symbol.length = h.appMessageLen
  numSourceSymbols : (h.appMessageLen + b.symbol.length - 1) / b.symbol.length ≤ sourceSymbolsMax
  cap_eq : chunkIDCap mode ((h.appMessageLen + b.symbol.length - 1) / b.symbol.length) = some cap
  chunkID : b.chunkID < cap ∧ b.chunkID < 2 ^ 16
  leafIdx : b.leafIdx < 256

def chunkOf (sig : Bytes) (h : HeaderFields) (proof : List Bytes) (b : BodyFields) (mode : BroadcastMode) (cap : Nat)
    (root : Bytes) (author : NodeId) : ValidatedChunk where
  chunk := packetBytes sig h proof b
  author := author
  groupID := primaryGroup h.group
  unixTsMs := h.unixTsMs
  appMessageHash := some h.appMessageHash
  merkleRoot := root
  appMessageLen := h.appMessageLen
  broadcastMode := mode
  recipientHash := some b.recipientHash
  chunkID := b.chunkID
  numSourceSymbols := (h.appMessageLen + b.symbol.length - 1) / b.symbol.length
  encodedSymbolCapacity := cap
  payloadOffset := packetHeaderLenV0 + proof.length * merkleHashLen + chunkHeaderLenV0

theorem parsedOf_groupID (hgroup : h.group < 2 ^ 64) (hmode : mode ≠ .secondary) :
    (parsedOf h proof b).groupID mode = primaryGroup h.group := by
  rw [ParsedPacket.groupID, if_neg hmode]
  exact congrArg primaryGroup (Nat.mod_eq_of_lt hgroup)

section

variable (hsig : sig.length = signatureSize)

include hsig

theorem length_packetBytes (hproof : ∀ x ∈ proof, x.length = merkleHashLen) : (packetBytes sig h proof b).length =
      packetHeaderLenV0 + proof.length * merkleHashLen + chunkHeaderLenV0 + b.symbol.length := by
  rw [packetBytes, length_append, length_append, length_append, hsig, h.length_bytes, b.length_bytes,
    length_flatten_hashes hproof]
  simp only [packetHeaderLenV0, signatureSize]
  omega

theorem checkMeta_packetBytes (hproof : ∀ x ∈ proof, x.length = merkleHashLen)
    (hin : InBounds h b mode cap) (hmode : (parsedOf h proof b).broadcastMode = .ok mode)
    (hroot : merkleProofComputeRoot H (H.sum256 b.bytes) proof b.leafIdx = some root)
    (hage : age now h.unixTsMs ≤ maxAgeMs) : checkMeta H (parsedOf h proof b) (packetBytes sig h proof b) now maxAgeMs =
      .ok ⟨mode, (h.appMessageLen + b.symbol.length - 1) / b.symbol.length, cap, root⟩ := by
  have hsympos : 0 < b.symbol.length := length_pos_iff.mpr hin.symbol
  obtain ⟨hpos, hmax⟩ := hin.appMessageLen
  have hsymbolLen : (packetBytes sig h proof b).length - (parsedOf h proof b).payloadOffset = b.symbol.length := by
    rw [length_packetBytes hsig hproof]
    exact Nat.add_sub_cancel_left _ _
  have hmsgLen : (parsedOf h proof b).appMessageLen = h.appMessageLen := by
    refine Nat.mod_eq_of_lt (Nat.lt_of_le_of_lt hmax ?_)
    decide
  have hts : (parsedOf h proof b).unixTsMs = h.unixTsMs := Nat.mod_eq_of_lt hin.unixTsMs
  have hid : (parsedOf h proof b).chunkID = b.chunkID := Nat.mod_eq_of_lt hin.chunkID.2
  have hleaf : (parsedOf h proof b).merkleLeafIdx = b.leafIdx := Nat.mod_eq_of_lt hin.leafIdx
  have hnum : 1 ≤ (h.appMessageLen + b.symbol.length - 1) / b.symbol.length :=
    (Nat.one_le_div_iff hsympos).mpr (by omega)
  have hchunkLen : ¬ (b.symbol.length < minChunkLength ∧ b.symbol.length ≠ h.appMessageLen) := by
    rcases hin.symbolLen with hs | hs <;> omega
  have hsource : ¬ ((h.appMessageLen + b.symbol.length - 1) / b.symbol.length < sourceSymbolsMin ∨
      sourceSymbolsMax < (h.appMessageLen + b.symbol.length - 1) / b.symbol.length) := by
    have := hin.numSourceSymbols
    simp only [sourceSymbolsMin]
    omega
  unfold checkMeta
  rw [hsymbolLen, hmsgLen, hts, hid, hleaf, hmode]
  dsimp only
  rw [if_neg (by omega), if_neg (by omega), if_neg hchunkLen, if_neg hsource, hin.cap_eq]
  dsimp only
  rw [if_neg (Nat.not_le.mpr hin.chunkID.1)]
  have hroot' : merkleProofComputeRoot H (H.sum256 (parsedOf h proof b).chunkHeaderAndPayload)
      (parsedOf h proof b).merkleProof b.leafIdx = some root := hroot
  rw [hroot']

theorem length_symbolData_chunkOf (hproof : ∀ x ∈ proof, x.length = merkleHashLen) :
    (chunkOf sig h proof b mode cap root author).symbolData.length = b.symbol.length := by
  show ((packetBytes sig h proof b).drop (packetHeaderLenV0 + proof.length * merkleHashLen + chunkHeaderLenV0)).length = _
  rw [length_drop, length_packetBytes hsig hproof, Nat.add_sub_cancel_left]

theorem validateChunk_packetBytes (hproof : ∀ x ∈ proof, x.length = merkleHashLen) (hin : InBounds h b mode cap)
    (hmode : (parsedOf h proof b).broadcastMode = .ok mode)
    (hroot : merkleProofComputeRoot H (H.sum256 b.bytes) proof b.leafIdx = some root)
    (hage : age now h.unixTsMs ≤ maxAgeMs) (hv : v.Sound S) (hrec : S.recover sig (h.bytes ++ root) = some author)
    (hallow : bypass h.group = true ∨ allow = true) (hmode' : mode ≠ .secondary) (hself : author ≠ selfID) :
    (validateChunk H S (parsedOf h proof b) (packetBytes sig h proof b) v now maxAgeMs bypass allow selfID).1 =
      .ok (chunkOf sig h proof b mode cap root author) := by
  have htake : (packetBytes sig h proof b).take signatureSize = sig := by
    rw [packetBytes_eq, take_left' hsig]
  have hover : signedOverData (packetBytes sig h proof b) root = h.bytes ++ root := by
    have hslice : slice (packetBytes sig h proof b) signatureSize (packetHeaderLenV0 - signatureSize) = h.bytes :=
      slice_of_eq (c := proof.flatten ++ b.bytes) (by simp [packetBytes]) hsig h.length_bytes
    rw [signedOverData, hslice]
  have hok : (v.verifyChunkSignature S sig (h.bytes ++ root)
      (!((parsedOf h proof b).groupID mode).isSecondary && bypass ((parsedOf h proof b).groupID mode).n) allow).1 =
      .ok author := by
    refine Verifier.verifyChunkSignature_ok hv hsig hrec ?_
    rw [parsedOf_groupID hin.group hmode']
    exact hallow
  have hleaf : ¬ 2 ^ (parsedOf h proof b).merkleProof.length ≤ (parsedOf h proof b).merkleLeafIdx := by
    have hle : (parsedOf h proof b).merkleLeafIdx = b.leafIdx := Nat.mod_eq_of_lt hin.leafIdx
    intro hge
    rw [hle] at hge
    unfold merkleProofComputeRoot at hroot
    dsimp only at hroot
    split_ifs at hroot with _ hlt
    exact hlt hge
  unfold validateChunk
  rw [checkMeta_packetBytes hsig hproof hin hmode hroot hage]
  dsimp only
  rw [htake, hover]
  rcases hr : v.verifyChunkSignature S sig (h.bytes ++ root)
    (!((parsedOf h proof b).groupID mode).isSecondary && bypass ((parsedOf h proof b).groupID mode).n) allow with ⟨r, v'⟩
  rw [hr] at hok
  obtain rfl : r = .ok author := hok
  dsimp only
  rw [if_neg hself, if_neg hleaf]
  have hts : (parsedOf h proof b).unixTsMs = h.unixTsMs := Nat.mod_eq_of_lt hin.unixTsMs
  have hid : (parsedOf h proof b).chunkID = b.chunkID := Nat.mod_eq_of_lt hin.chunkID.2
  have hmsgLen : (parsedOf h proof b).appMessageLen = h.appMessageLen := by
    refine Nat.mod_eq_of_lt (Nat.lt_of_le_of_lt hin.appMessageLen.2 ?_)
    decide
  rw [hts, hid, hmsgLen, parsedOf_groupID hin.group hmode']
  rfl

end

end Validating

/-! ## The chunks of a target -/

section Chunks

variable {redundancy : Redundancy} {numBaseSymbols n : Nat} {chunks : List Chunk} {c : Chunk} {a : ChunkAssignment}

theorem materialize_ok (hm : materialize a = .ok chunks) (hc : c ∈ chunks) :
    c.chunkID < a.length ∧ c.recipient ∈ a ∧ a.length ≤ maxTriples := by
  unfold materialize at hm
  split_ifs at hm with hlen
  cases hm
  obtain ⟨e, he, rfl⟩ := List.mem_map.mp hc
  have hget := List.mem_zipIdx_iff_getElem?.mp he
  exact ⟨(List.getElem?_eq_some_iff.mp hget).1, List.mem_of_getElem? hget, Nat.not_lt.mp hlen⟩

theorem unicast_ok {recipient : NodeId} (hm : materialize (unicastAssignment recipient n) = .ok chunks) (hc : c ∈ chunks) :
    c.chunkID < n ∧ c.recipient = recipient := by
  obtain ⟨hid, hrec, -⟩ := materialize_ok hm hc
  rw [unicastAssignment, length_replicate] at hid
  exact ⟨hid, eq_of_mem_replicate hrec⟩

theorem numSymbols_ok (hn : numSymbols redundancy numBaseSymbols = .ok n) : scale redundancy numBaseSymbols = some n := by
  unfold numSymbols at hn
  split at hn
  · cases hn
  · split_ifs at hn
    cases hn
    assumption

theorem assignRoundRobin_ok {p : StakePartition} (ha : assignRoundRobin p numBaseSymbols redundancy = some a) :
    (∃ numScaled, scale redundancy numBaseSymbols = some numScaled ∧ a.length ≤ numScaled + p.validators.length ∧
      (numScaled = 0 → a = [])) ∧ ∀ id ∈ a, id ∈ p.validators.map (·.1) := by
  obtain ⟨numScaled, hscale, -⟩ := Option.bind_eq_some_iff.mp ha
  have hcount := assignRoundRobin_countP ha hscale
  refine ⟨⟨numScaled, hscale, (assignRoundRobin_deal ha hscale).1.2, fun hzero => ?_⟩, fun id hid => ?_⟩
  · have hshare : ∀ stake, share p.totalStake 0 stake = 0 := by
      intro stake
      rw [share, Nat.mul_zero, Nat.zero_add]
      exact Nat.div_eq_zero_iff.mpr (by omega)
    have hnone := hcount fun _ => true
    rw [hzero, due_true] at hnone
    simpa [StakePartition.shares, hshare, Function.comp_def] using hnone
  · by_contra hno
    have hnone := hcount (· == id)
    rw [due_eq_zero] at hnone
    · exact countP_eq_zero.mp hnone id hid (beq_self_eq_true id)
    · intro e he
      obtain ⟨v, hv, rfl⟩ := mem_map.mp he
      exact beq_false_of_ne fun h => hno (mem_map.mpr ⟨v, hv, h⟩)

theorem scale_maxRedundancy (hn : numBaseSymbols ≤ sourceSymbolsMax) :
    scale maxRedundancy numBaseSymbols = some (3 * numBaseSymbols) := by
  have hwrap : maxRedundancy * numBaseSymbols % 2 ^ 64 = 6144 * numBaseSymbols := by
    refine Nat.mod_eq_of_lt ?_
    simp only [maxRedundancy, redundancyFromU8, sourceSymbolsMax] at hn ⊢
    omega
  unfold scale
  rw [hwrap]
  simp only [sourceSymbolsMax] at hn
  rw [if_neg (by omega)]
  have hdiv : (6144 * numBaseSymbols + 2047) / 2048 = 3 * numBaseSymbols := by omega
  exact congrArg some hdiv

/-- A redundancy within the receiver's gives at most three chunks for each source symbol. -/
theorem scale_le_three (hr : redundancy ≤ maxRedundancy) (hn : numBaseSymbols ≤ sourceSymbolsMax)
    (hs : scale redundancy numBaseSymbols = some n) : n ≤ 3 * numBaseSymbols := by
  refine scale_le hr ?_ hs (scale_maxRedundancy hn)
  show 6144 * numBaseSymbols < 2 ^ 64
  simp only [sourceSymbolsMax] at hn
  omega

/-- The sender of a primary broadcast is the author of its group, which has no more validators
than a receiver counts on. -/
def GroupOk (selfID : NodeId) (target : BuildTarget) : Prop :=
  target.mode = .primary → ∀ g, target.group = some g →
    g.author = selfID ∧ (g.members.filter (· ≠ g.author)).length ≤ maxValidatorSetSize

theorem targetChunks_ok {appHash : Bytes} {target : BuildTarget} (hr : redundancy ≤ maxRedundancy)
    (hn : numBaseSymbols ≤ sourceSymbolsMax) (hgroup : GroupOk selfID target)
    (ht : targetChunks R selfID appHash redundancy numBaseSymbols target = .ok chunks) (hc : c ∈ chunks) :
    0 < numBaseSymbols ∧ target.mode ≠ .secondary ∧ c.recipient ≠ selfID ∧ c.chunkID < 2 ^ 16 ∧
      ∃ cap, chunkIDCap target.mode numBaseSymbols = some cap ∧ c.chunkID < cap := by
  unfold targetChunks at ht
  split at ht
  · rename_i hmode
    have hcap : chunkIDCap target.mode numBaseSymbols = some (3 * numBaseSymbols) := by
      rw [chunkIDCap, hmode, scale_maxRedundancy hn]
      rfl
    have hsmall : ∀ {recipient : NodeId} {k : Nat} {cs : List Chunk}, scale redundancy numBaseSymbols = some k →
        materialize (unicastAssignment recipient k) = .ok cs → c ∈ cs →
        c.recipient = recipient ∧ c.chunkID < 2 ^ 16 ∧ c.chunkID < 3 * numBaseSymbols := by
      intro recipient k cs hk hm hmem
      obtain ⟨hid, hrec⟩ := unicast_ok hm hmem
      have hle := scale_le_three hr hn hk
      simp only [sourceSymbolsMax] at hn
      exact ⟨hrec, by omega, by omega⟩
    split_ifs at ht with hone hself
    · cases ht
      cases hc
    · obtain ⟨k, hk, hm⟩ := bind_eq_ok.mp ht
      obtain ⟨recipient, hrecipient⟩ := Option.isSome_iff_exists.mp hone.2
      obtain ⟨hrec, hid, hlt⟩ := hsmall (numSymbols_ok hk) hm hc
      refine ⟨by omega, by rw [hmode]; decide, ?_, hid, _, hcap, hlt⟩
      intro heq
      refine hself ?_
      rw [hrecipient, ← heq, hrec, hrecipient]
      rfl
    · obtain ⟨k, hk, hm⟩ := bind_eq_ok.mp ht
      split at hm
      · cases hm
      · rename_i g _
        obtain ⟨lists, hlists, hflat⟩ := bind_eq_ok.mp hm
        cases hflat
        obtain ⟨cs, hcs, hmem⟩ := mem_flatten.mp hc
        obtain ⟨m, hm', hcs'⟩ := mem_of_mapM_eq_ok hlists hcs
        obtain ⟨hrec, hid, hlt⟩ := hsmall (numSymbols_ok hk) hcs' hmem
        refine ⟨by omega, by rw [hmode]; decide, ?_, hid, _, hcap, hlt⟩
        rw [hrec]
        exact of_decide_eq_true (mem_filter.mp hm').2
  · cases ht
  · rename_i g hmode hg
    obtain ⟨hauthor, hsize⟩ := hgroup hmode g hg
    have hcap : chunkIDCap target.mode numBaseSymbols = some (3 * numBaseSymbols + maxValidatorSetSize) := by
      rw [chunkIDCap, hmode, scale_maxRedundancy hn]
      rfl
    obtain ⟨a, ha, hm⟩ := bind_eq_ok.mp ht
    obtain ⟨hid, hrec, -⟩ := materialize_ok hm hc
    have hperm := R.perm appHash (stakePartitionFromGroup g).validators
    unfold StakePartition.assign at ha
    split_ifs at ha
    · cases ha
      cases hrec
    · split at ha
      · cases ha
      · rename_i hassign
        cases ha
        obtain ⟨⟨k, hk, hlen, hzero⟩, hids⟩ := assignRoundRobin_ok hassign
        have hle := scale_le_three hr hn hk
        have hcount : (R.shuffle appHash (stakePartitionFromGroup g).validators).length ≤ maxValidatorSetSize := by
          rw [hperm.length_eq]
          simpa [stakePartitionFromGroup] using hsize
        dsimp only at hlen
        simp only [sourceSymbolsMax, maxValidatorSetSize] at hn hcount
        have hbase : 0 < numBaseSymbols := by
          by_contra hnone
          rw [hzero (by omega)] at hrec
          cases hrec
        refine ⟨hbase, by rw [hmode]; decide, ?_, by omega, _, hcap, by simp only [maxValidatorSetSize]; omega⟩
        have hmem := hids c.recipient hrec
        obtain ⟨e, he, heq⟩ := mem_map.mp hmem
        have he' := hperm.mem_iff.mp he
        obtain ⟨m, hmem', rfl⟩ := mem_map.mp he'
        rw [← heq, ← hauthor]
        exact of_decide_eq_true (mem_filter.mp hmem').2
  · cases ht
    cases hc

end Chunks

/-! ## The packets of a target -/

section Packets

variable {H : Hashing} {S : Signing} {E : ErasureEncoder} {key : NodeId} {layout : PacketLayout} {header appMessage : Bytes}
  {messages : List UdpMessage} {m : UdpMessage} {chunks : List Chunk}

theorem mem_batches {α : Type} {n fuel : Nat} {l batch : List α} (hb : batch ∈ batches n fuel l) :
    batch.length ≤ n ∧ ∀ x ∈ batch, x ∈ l := by
  induction fuel generalizing l with
  | zero => cases hb
  | succ fuel ih =>
    unfold batches at hb
    split_ifs at hb
    · cases hb
    · rcases mem_cons.mp hb with rfl | hb
      · exact ⟨length_take_le n l, fun x hx => mem_of_mem_take hx⟩
      · obtain ⟨hlen, hmem⟩ := ih hb
        exact ⟨hlen, fun x hx => mem_of_mem_drop (hmem x hx)⟩

def batchPacket (H : Hashing) (S : Signing) (key : NodeId) (layout : PacketLayout) (header : Bytes) (bodies : List Bytes)
    (i : Nat) (body : Bytes) : Bytes :=
  let tree := newMerkleTreeWithDepth (bodies.map H.sum256) layout.merkleTreeDepth
  S.sign key (header ++ tree.root H layout.merkleTreeDepth) ++ header ++
    (tree.proof H layout.merkleTreeDepth i).flatten ++ body

/-- A packet of a batch: its chunk, at its place among the bytes that the tree is over. -/
theorem assembleBatch_ok {batch : List (Chunk × Bytes)} (hb : assembleBatch H S key layout header batch = .ok messages)
    (hm : m ∈ messages) : ∃ i c body bodies, batch[i]? = some c ∧ bodies[i]? = some body ∧ chunkBytes H c i = .ok body ∧
      m.recipient = c.1.recipient ∧ m.payload = batchPacket H S key layout header bodies i body := by
  obtain ⟨bodies, hbodies, hret⟩ := bind_eq_ok.mp hb
  cases hret
  obtain ⟨e, he, rfl⟩ := mem_map.mp hm
  have hzip := mem_zipIdx_iff_getElem?.mp he
  obtain ⟨hc, hbody⟩ := List.getElem?_zip_eq_some.mp hzip
  obtain ⟨hlen, hall⟩ := List.forall₂_iff_get.mp (mapM_eq_ok hbodies)
  refine ⟨e.2, e.1.1, e.1.2, bodies, hc, hbody, ?_, rfl, rfl⟩
  obtain ⟨hi, hget⟩ := List.getElem?_eq_some_iff.mp hc
  obtain ⟨hi', hget'⟩ := List.getElem?_eq_some_iff.mp hbody
  have hat := hall e.2 (by simpa using hi) hi'
  simp only [List.get_eq_getElem, List.getElem_zipIdx, Nat.zero_add, hget, hget'] at hat
  exact hat

theorem encodeSymbols_ok {encoded : List (Chunk × Bytes)} {c : Chunk × Bytes}
    (he : encodeSymbols E appMessage chunks layout = .ok encoded) (hc : c ∈ encoded) :
    c.1 ∈ chunks ∧ c.2.length = layout.symbolLen ∧ layout.numBaseSymbols appMessage.length ≤ sourceSymbolsMax := by
  unfold encodeSymbols at he
  split_ifs at he with hacc
  obtain ⟨c₀, hc₀, hc'⟩ := mem_of_mapM_eq_ok he hc
  split_ifs at hc'
  split at hc'
  · cases hc'
  · rename_i symbol hsym
    cases hc'
    simp only [Bool.not_eq_true', Bool.not_eq_false] at hacc
    exact ⟨hc₀, E.length_encodeSymbol hsym, E.accepts_le hacc⟩

theorem assemble_ok (ha : assemble H S E chunks key layout appMessage header = .ok messages)
    (hm : m ∈ messages) : ∃ i c body bodies, c.1 ∈ chunks ∧ c.2.length = layout.symbolLen ∧
      layout.numBaseSymbols appMessage.length ≤ sourceSymbolsMax ∧ i < 2 ^ (layout.merkleTreeDepth - 1) ∧
      bodies[i]? = some body ∧ chunkBytes H c i = .ok body ∧ m.recipient = c.1.recipient ∧
      m.payload = batchPacket H S key layout header bodies i body := by
  obtain ⟨encoded, hencoded, ha⟩ := bind_eq_ok.mp ha
  split at ha
  · cases ha
  · rename_i n hn
    unfold PacketLayout.merkleBatchLen at hn
    split_ifs at hn
    cases hn
    obtain ⟨lists, hlists, hflat⟩ := bind_eq_ok.mp ha
    cases hflat
    obtain ⟨ms, hms, hmem⟩ := mem_flatten.mp hm
    obtain ⟨batch, hbatch, hms'⟩ := mem_of_mapM_eq_ok hlists hms
    obtain ⟨hlen, hsub⟩ := mem_batches hbatch
    obtain ⟨i, c, body, bodies, hc, hbody, hbytes, hrec, hpayload⟩ := assembleBatch_ok hms' hmem
    obtain ⟨hchunk, hsym, hbase⟩ := encodeSymbols_ok hencoded (hsub c (List.mem_of_getElem? hc))
    have hi := (List.getElem?_eq_some_iff.mp hc).1
    exact ⟨i, c, body, bodies, hchunk, hsym, hbase, by omega, hbody, hbytes, hrec, hpayload⟩

end Packets

/-! ## Acceptance -/

section Acceptance

variable {H : Hashing} {S : Signing} {mode : BroadcastMode} {depth i : Nat} {layout : PacketLayout} {unixTsMs : UInt64}
  {appMessage : Bytes}

/-- The broadcast bits and the tree depth in one byte. -/
def flagsOf (mode : BroadcastMode) (depth : Nat) : UInt8 :=
  (match mode with
    | .primary => 0x80
    | .secondary => 0x40
    | .unspecified => 0) ||| UInt8.ofNat (depth % 16)

theorem flagsOf_depth (hdepth : depth < 16) : (flagsOf mode depth &&& 0x0f).toNat = depth := by
  have hall : ∀ d < 16, (flagsOf mode d &&& 0x0f).toNat = d := by
    cases mode <;> decide
  exact hall depth hdepth

theorem flagsOf_bits (hdepth : depth < 16) : (flagsOf mode depth &&& 0x80 ≠ 0 ↔ mode = .primary) ∧
    (flagsOf mode depth &&& 0x40 ≠ 0 ↔ mode = .secondary) := by
  have hall : ∀ d < 16, (flagsOf mode d &&& 0x80 ≠ 0 ↔ mode = .primary) ∧
      (flagsOf mode d &&& 0x40 ≠ 0 ↔ mode = .secondary) := by
    cases mode <;> decide
  exact hall depth hdepth

theorem flagsOf_mode (hdepth : depth < 16) (hflags : h.flags = flagsOf mode depth) :
    (parsedOf h proof b).broadcastMode = .ok mode := by
  obtain ⟨hprimary, hsecondary⟩ := (flagsOf_bits hdepth : (flagsOf mode depth &&& 0x80 ≠ 0 ↔ mode = .primary) ∧
    (flagsOf mode depth &&& 0x40 ≠ 0 ↔ mode = .secondary))
  have hparsed : (parsedOf h proof b).broadcastTreeDepth = flagsOf mode depth := hflags
  unfold ParsedPacket.broadcastMode
  rw [hparsed]
  simp only [hprimary, hsecondary]
  cases mode <;> rfl

def headerOf (H : Hashing) (layout : PacketLayout) (unixTsMs : UInt64) (appMessage : Bytes) (target : BuildTarget) :
    HeaderFields where
  flags := flagsOf target.mode layout.merkleTreeDepth
  group := target.epoch.toNat
  unixTsMs := unixTsMs.toNat
  appMessageHash := H.computeAppMessageHash appMessage
  appMessageLen := appMessage.length
  hash_len := H.length_computeAppMessageHash appMessage

theorem buildHeaderV0_ok {header : Bytes} {target : BuildTarget}
    (hh : buildHeaderV0 target.mode layout.merkleTreeDepth (primaryGroup target.epoch.toNat) unixTsMs
      (H.computeAppMessageHash appMessage) appMessage.length = .ok header) :
    header = (headerOf H layout unixTsMs appMessage target).bytes := by
  unfold buildHeaderV0 at hh
  split_ifs at hh
  cases hh
  rfl

/-- What `buildInto` leaves to its caller: the redundancy, the length of the message, that of a
symbol, the depth of the tree, and the group. -/
structure SendBounds (key : NodeId) (layout : PacketLayout) (redundancy : Redundancy) (appMessage : Bytes)
    (target : BuildTarget) : Prop where
  redundancy_le : redundancy ≤ maxRedundancy
  appMessage_le : appMessage.length ≤ maxMessageSize
  symbolLen : minChunkLength ≤ layout.symbolLen ∨ layout.symbolLen = appMessage.length
  depth_le : layout.merkleTreeDepth ≤ maxMerkleTreeDepth
  group : GroupOk key target

structure Consistent (H : Hashing) (key : NodeId) (layout : PacketLayout) (unixTsMs : UInt64) (appMessage : Bytes)
    (target : BuildTarget) (recipient : NodeId) (c : ValidatedChunk) : Prop where
  author : c.author = key
  groupID : c.groupID = primaryGroup target.epoch.toNat
  mode : c.broadcastMode = target.mode
  unixTsMs : c.unixTsMs = unixTsMs.toNat
  appMessageHash : c.appMessageHash = some (H.computeAppMessageHash appMessage)
  appMessageLen : c.appMessageLen = appMessage.length
  recipientHash : c.recipientHash = some (H.computeHash recipient)
  symbolLen : c.symbolData.length = layout.symbolLen
  numSourceSymbols : c.numSourceSymbols = layout.numBaseSymbols appMessage.length
  chunkID : c.chunkID < c.encodedSymbolCapacity

structure PacketParts (H : Hashing) (S : Signing) (key : NodeId) (layout : PacketLayout) (hd : HeaderFields)
    (mode : BroadcastMode) (m : UdpMessage) (proof : List Bytes) (bd : BodyFields) (cap : Nat) (root : Bytes) : Prop where
  payload : m.payload = packetBytes (S.sign key (hd.bytes ++ root)) hd proof bd
  depth : proof.length + 1 = layout.merkleTreeDepth
  hashes : ∀ x ∈ proof, x.length = merkleHashLen
  inBounds : InBounds hd bd mode cap
  root_eq : merkleProofComputeRoot H (H.sum256 bd.bytes) proof bd.leafIdx = some root
  recipientHash : bd.recipientHash = H.computeHash m.recipient
  symbol : bd.symbol.length = layout.symbolLen
  mode_ne : mode ≠ .secondary
  recipient_ne : m.recipient ≠ key

theorem numBaseSymbols_pos {len : Nat} (hpos : 0 < layout.numBaseSymbols len) : 0 < len := by
  by_contra hzero
  have hempty : len = 0 := by omega
  have hsym := layout.symbolLen_pos
  rw [PacketLayout.numBaseSymbols, hempty, Nat.zero_add, Nat.div_eq_of_lt (by omega)] at hpos
  omega

/-- A place in a batch fits one byte, as long as the depth does not exceed a receiver's. -/
theorem place_lt (hdepth : depth ≤ maxMerkleTreeDepth) (hi : i < 2 ^ (depth - 1)) : i < 256 := by
  have hpow : 2 ^ (depth - 1) ≤ 2 ^ 8 := by
    refine Nat.pow_le_pow_right (by decide) ?_
    simp only [maxMerkleTreeDepth] at hdepth
    omega
  omega

theorem batch_hashes {bodies : List Bytes} {x : Bytes}
    (hx : x ∈ (newMerkleTreeWithDepth (bodies.map H.sum256) depth).proof H depth i) : x.length = merkleHashLen := by
  refine MerkleTree.length_mem_siblings (fun l hl => ?_) (mem_reverse.mp hx)
  obtain ⟨y, hy, rfl⟩ := mem_map.mp hl
  obtain ⟨z, -, rfl⟩ := mem_map.mp hy
  exact H.length_hashToMerkle z

theorem buildInto_parts {E : ErasureEncoder} {key : NodeId} {redundancy : Redundancy} {target : BuildTarget}
    {messages : List UdpMessage} {m : UdpMessage} (hbounds : SendBounds key layout redundancy appMessage target)
    (hbuild : buildInto H S E R key layout redundancy unixTsMs appMessage target = .ok messages) (hm : m ∈ messages) :
    ∃ proof bd cap root,
      PacketParts H S key layout (headerOf H layout unixTsMs appMessage target) target.mode m proof bd cap root := by
  obtain ⟨chunks, hchunks, hbuild⟩ := bind_eq_ok.mp hbuild
  split_ifs at hbuild
  · cases hbuild
    cases hm
  obtain ⟨header, hheader, hassemble⟩ := bind_eq_ok.mp hbuild
  obtain rfl := buildHeaderV0_ok hheader
  obtain ⟨i, c, body, bodies, hc, hsym, hbase, hi, hbody, hbytes, hrecipient, hpayload⟩ := assemble_ok hassemble hm
  obtain ⟨hpos, hmode, hrec, hid16, cap, hcap, hid⟩ :=
    targetChunks_ok hbounds.redundancy_le hbase hbounds.group hchunks hc
  have hdepth := hbounds.depth_le
  have hdepthpos := layout.depth_pos
  let bd : BodyFields := ⟨H.computeHash c.1.recipient, i, c.1.chunkID, c.2, H.length_computeHash _⟩
  obtain rfl : body = bd.bytes := by
    unfold chunkBytes at hbytes
    split_ifs at hbytes
    cases hbytes
    rfl
  have hsymbol : bd.symbol ≠ [] := by
    intro hnil
    have hzero : c.2.length = 0 := congrArg length hnil
    have := layout.symbolLen_pos
    omega
  have hnum : (appMessage.length + bd.symbol.length - 1) / bd.symbol.length = layout.numBaseSymbols appMessage.length := by
    show (appMessage.length + c.2.length - 1) / c.2.length = _
    rw [hsym]
    rfl
  refine ⟨_, bd, cap, (newMerkleTreeWithDepth (bodies.map H.sum256) layout.merkleTreeDepth).root H layout.merkleTreeDepth,
    hpayload, ?_, fun x hx => batch_hashes hx, ?_, ?_, ?_, hsym, hmode, ?_⟩
  · rw [MerkleTree.length_proof]
    omega
  · refine ⟨UInt64.toNat_lt _, UInt64.toNat_lt _, ⟨numBaseSymbols_pos hpos, hbounds.appMessage_le⟩, hsymbol, ?_, ?_, ?_,
      ⟨hid, hid16⟩, place_lt hdepth hi⟩
    · show minChunkLength ≤ c.2.length ∨ c.2.length = appMessage.length
      rw [hsym]
      exact hbounds.symbolLen
    · exact hnum.trans_le hbase
    · exact (congrArg (chunkIDCap target.mode) hnum).trans hcap
  · refine computeRoot_proof ?_ ?_ hi hdepthpos
    · simp only [maxMerkleTreeDepth] at hdepth
      simp only [merkleMaxDepth]
      omega
    · rw [getElem?_map, hbody]
      rfl
  · rw [hrecipient]
  · rw [hrecipient]
    exact hrec

theorem ne_of_mem_tryRebroadcast {vs : ValidatorSet} {id : NodeId} {firstHop : Bool}
    (hid : id ∈ tryRebroadcast vs author selfID firstHop) : id ≠ author := by
  unfold tryRebroadcast at hid
  split_ifs at hid
  · cases hid
  · exact (of_decide_eq_true (mem_filter.mp hid).2).2

/-- Every packet that `buildInto` builds within the bounds is parsed and validated at its recipient
and wherever that rebroadcasts it, and says there what the sender put in. -/
theorem built_packets_accepted (H : Hashing) (S : Signing) (E : ErasureEncoder) (R : Shuffle) (key : NodeId)
    (layout : PacketLayout) (redundancy : Redundancy) (unixTsMs : UInt64) (appMessage : Bytes) (target : BuildTarget)
    (messages : List UdpMessage) (hkey : S.Recovers key) (hbounds : SendBounds key layout redundancy appMessage target)
    (hbuild : buildInto H S E R key layout redundancy unixTsMs appMessage target = .ok messages)
    (m : UdpMessage) (hm : m ∈ messages) (selfID : NodeId)
    (hself : selfID = m.recipient ∨ ∃ vs firstHop, selfID ∈ tryRebroadcast vs key m.recipient firstHop)
    (v : Verifier) (hv : v.Sound S) (now maxAgeMs : Nat) (hage : age now unixTsMs.toNat ≤ maxAgeMs)
    (bypass : Nat → Bool) (allow : Bool) (hallow : bypass target.epoch.toNat = true ∨ allow = true) :
    ∃ p c v', parsePacket m.payload = .ok p ∧
      validateChunk H S p m.payload v now maxAgeMs bypass allow selfID = (.ok c, v') ∧
      Consistent H key layout unixTsMs appMessage target m.recipient c := by
  obtain ⟨proof, bd, cap, root, parts⟩ := buildInto_parts hbounds hbuild hm
  have hdepth := hbounds.depth_le
  have hdepth16 : layout.merkleTreeDepth < 16 := by
    simp only [maxMerkleTreeDepth] at hdepth
    omega
  have hsig := S.length_sign key ((headerOf H layout unixTsMs appMessage target).bytes ++ root)
  have hflags : ((headerOf H layout unixTsMs appMessage target).flags &&& 0x0f).toNat = proof.length + 1 :=
    (flagsOf_depth hdepth16).trans parts.depth.symm
  have hother : key ≠ selfID := by
    rcases hself with hself | ⟨vs, firstHop, hself⟩
    · rw [hself]
      exact parts.recipient_ne.symm
    · exact (ne_of_mem_tryRebroadcast hself).symm
  have hok := validateChunk_packetBytes hsig parts.hashes parts.inBounds (flagsOf_mode hdepth16 rfl) parts.root_eq hage hv
    (hkey _) hallow parts.mode_ne hother
  rw [parts.payload]
  rcases hr : validateChunk H S (parsedOf (headerOf H layout unixTsMs appMessage target) proof bd) (packetBytes
    (S.sign key ((headerOf H layout unixTsMs appMessage target).bytes ++ root)) (headerOf H layout unixTsMs appMessage target)
    proof bd) v now maxAgeMs bypass allow selfID with ⟨r, v'⟩
  rw [hr] at hok
  obtain rfl : r = _ := hok
  refine ⟨_, _, v', parsePacket_packetBytes hsig hflags (parts.depth.trans_le hdepth) parts.hashes parts.inBounds.symbol, hr, ?_⟩
  refine ⟨rfl, rfl, rfl, rfl, rfl, rfl, ?_, ?_, ?_, parts.inBounds.chunkID.1⟩
  · exact congrArg some parts.recipientHash
  · rw [length_symbolData_chunkOf hsig parts.hashes]
    exact parts.symbol
  · show (appMessage.length + bd.symbol.length - 1) / bd.symbol.length = layout.numBaseSymbols appMessage.length
    rw [parts.symbol]
    rfl

end Acceptance

/-! ## A message of one byte -/

namespace Sample

/-- An encoder for one source symbol, which is every symbol. -/
def encoder : ErasureEncoder where
  accepts src symbolLen := decide ((src.length + symbolLen - 1) / symbolLen ≤ sourceSymbolsMax)
  encodeSymbol src symbolLen _ := some ((src ++ List.replicate symbolLen 0).take symbolLen)
  accepts_le h := of_decide_eq_true h
  length_encodeSymbol h := by
    cases h
    simp

def noShuffle : Shuffle := ⟨fun _ l => l, fun _ l => List.Perm.refl l⟩

/-- A tree for each chunk, and symbols of one byte. -/
def layout : PacketLayout := ⟨133, 1, le_rfl, by decide⟩

/-- To node 1, in epoch 1. -/
def target : BuildTarget := ⟨.unspecified, some 1, 1, none⟩

/-- Trees of two chunks. -/
def treeLayout : PacketLayout := ⟨153, 2, by decide, by decide⟩

/-- To the nodes 1 and 3 of a group of equal stakes. -/
def broadcast : BuildTarget := ⟨.primary, none, 1, some ⟨2, [1, 2, 3], fun _ => 1⟩⟩

def packets (n : Nat) : List UdpMessage := (List.range n).map fun id => ⟨1, 133,
  signing.sign 2 [] ++ [0, 0, 1] ++ littleEndian 8 1 ++ littleEndian 8 5 ++ hashing.computeAppMessageHash [7] ++
    littleEndian 4 1 ++ hashing.computeHash 1 ++ [0, 0] ++ littleEndian 2 id ++ [7]⟩

theorem built :
    buildInto hashing signing encoder noShuffle 2 layout (redundancyFromU8 4) 5 [7] target = .ok (packets 4) := by
  decide +kernel

theorem built_broadcast : ∃ messages,
    buildInto hashing signing encoder noShuffle 2 treeLayout (redundancyFromU8 3) 5 [7] broadcast = .ok messages ∧
      messages.map (·.recipient) = [1, 3, 1, 3] := by
  have h : (buildInto hashing signing encoder noShuffle 2 treeLayout (redundancyFromU8 3) 5 [7] broadcast).toOption.map
      (·.map (·.recipient)) = some [1, 3, 1, 3] := by decide +kernel
  obtain ⟨messages, hbuild, hto⟩ := Option.map_eq_some_iff.mp h
  exact ⟨messages, toOption_eq_some.mp hbuild, hto⟩

end Sample

open Sample in
/-- A message to the two validators of a group, in trees of two chunks: all packets are accepted. -/
theorem built_packets_accepted_group : ∃ messages,
    buildInto hashing signing encoder noShuffle 2 treeLayout (redundancyFromU8 3) 5 [7] broadcast = .ok messages ∧
    messages.map (·.recipient) = [1, 3, 1, 3] ∧ ∀ m ∈ messages, ∃ p c v', parsePacket m.payload = .ok p ∧
      validateChunk hashing signing p m.payload ⟨none⟩ 5 0 (fun _ => false) true m.recipient = (.ok c, v') ∧
      Consistent hashing 2 treeLayout 5 [7] broadcast m.recipient c := by
  obtain ⟨messages, hbuild, hto⟩ := Sample.built_broadcast
  refine ⟨messages, hbuild, hto, fun m hm => ?_⟩
  exact built_packets_accepted hashing signing encoder noShuffle 2 treeLayout (redundancyFromU8 3) 5 [7] broadcast
    messages (fun msg => rfl) ⟨le_rfl, by decide, .inr rfl, by decide, fun _ g hg => by
      cases hg
      decide⟩ hbuild m hm m.recipient
    (.inl rfl) ⟨none⟩ (fun l h => by cases h) 5 0 (by decide) (fun _ => false) true (.inr rfl)

open Sample in
/-- A packet whose author is recovered and cached; when it comes again, with no signature checks left, it
is accepted from the cache. -/
theorem validateChunk_sound_cached : ∃ m ∈ packets 3, ∃ p c v v', parsePacket m.payload = .ok p ∧
    validateChunk hashing signing p m.payload ⟨some (.empty 4)⟩ 5 0 (fun _ => false) true 1 = (.ok c, v) ∧
    validateChunk hashing signing p m.payload v 5 0 (fun _ => false) false 1 = (.ok c, v') ∧
    v.Sound signing ∧ v'.Sound signing := by
  have hsome : (packets 3).any (fun m => match parsePacket m.payload with
      | .ok p =>
        let r := validateChunk hashing signing p m.payload ⟨some (.empty 4)⟩ 5 0 (fun _ => false) true 1
        r.1.toOption.isSome && decide ((validateChunk hashing signing p m.payload r.2 5 0 (fun _ => false) false 1).1.toOption =
          r.1.toOption)
      | .error _ => false) = true := by
    decide +kernel
  obtain ⟨m, hm, h⟩ := List.any_eq_true.mp hsome
  have hlen : signatureSize ≤ m.payload.length := by
    obtain ⟨id, -, rfl⟩ := List.mem_map.mp hm
    simp [signing, signatureSize]
  split at h
  · rename_i p hp
    rw [Bool.and_eq_true, decide_eq_true_eq] at h
    obtain ⟨c, hc⟩ := Option.isSome_iff_exists.mp h.1
    rw [hc] at h
    exact ⟨m, hm, p, c, _, _, hp, Prod.ext (toOption_eq_some.mp hc) rfl, Prod.ext (toOption_eq_some.mp h.2) rfl,
      validateChunk_sound (Verifier.sound_new 4) hlen, validateChunk_sound (validateChunk_sound (Verifier.sound_new 4) hlen) hlen⟩
  · cases h

open Sample in
/-- With a redundancy of four the fourth chunk of a source symbol is built and not accepted. -/
theorem high_redundancy_rejected : ∃ messages m p,
    buildInto hashing signing encoder noShuffle 2 layout (redundancyFromU8 4) 5 [7] target = .ok messages ∧
    m ∈ messages ∧ m.recipient = 1 ∧ parsePacket m.payload = .ok p ∧
    ∀ v bypass allow, validateChunk hashing signing p m.payload v 5 0 bypass allow 1 = (.error .invalidChunkID, v) := by
  have hlast : (packets 4).any (fun m => m.recipient = 1 && match parsePacket m.payload with
      | .ok p => decide (checkMeta hashing p m.payload 5 0 = .error .invalidChunkID)
      | .error _ => false) = true := by
    decide +kernel
  obtain ⟨m, hm, hrejected⟩ := List.any_eq_true.mp hlast
  rw [Bool.and_eq_true, decide_eq_true_eq] at hrejected
  obtain ⟨hrecipient, hrejected⟩ := hrejected
  split at hrejected
  · rename_i p hp
    refine ⟨packets 4, m, p, built, hm, hrecipient, hp, fun v bypass allow => ?_⟩
    unfold validateChunk
    rw [of_decide_eq_true hrejected]
  · cases hrejected

end MonadBft.RaptorCast
