/-
  MonadBft.RaptorCast.Delivery — what the receive side hands to the application
  (`net/raptorcast/udpstate.go`, groups of `net/raptorcast/groups.go`).

  A chunk for this node alone, or one of a primary broadcast, goes to the decoder cache. A message
  that is decoded is delivered if its hash is the one in the chunk, and its key is tainted
  otherwise. Validator sets, the sender and the times differ from call to call.

  Proved (`delivery_integrity`), over every sequence of validated chunks and with any erasure
  decoder: a delivered message has the hash and the length that all chunks it was decoded from
  carry; a key is not delivered again while it is remembered; a key whose message had a wrong hash
  is tainted, stays so while it is remembered, and is not delivered.
-/
import MonadBft.RaptorCast.DecoderCache

namespace MonadBft.RaptorCast

open Lib Rlp

variable {δ : Type}

/-! ## Handlers -/

structure Arrival where
  chunk : ValidatedChunk
  sender : Option NodeId
  epochValidators : Nat → Option ValidatorSet
  env : CallEnv

structure UdpState (δ : Type) where
  selfID : NodeId
  decoderCache : DecoderCache δ

def primaryGroupOfEpoch (epoch : Nat) (author : NodeId) (groups : Nat → Option ValidatorSet) : Option ValidatorSet :=
  (groups epoch).filter (·.isMember author)

def tryRebroadcast (group : ValidatorSet) (author selfID : NodeId) (isFirstHop : Bool) : List NodeId :=
  if !group.isMember selfID || !isFirstHop then []
  else group.members.filter fun m => m ≠ selfID ∧ m ≠ author

/-- What a handler answers: the result, the targets of a rebroadcast, and (a history) whether the
message that came out had another hash than its chunks. -/
structure Handled where
  result : Option DecodedResult
  rebroadcast : List NodeId
  wrongHash : Bool

namespace UdpState

variable (D : ErasureDecoder δ)

/-- The part of the two handlers that decodes: a message with a wrong hash taints its key. -/
def decode (H : Hashing) (s : UdpState δ) (x : Arrival) (vs : Option ValidatorSet)
    (rebroadcast : List NodeId) : Handled × UdpState δ :=
  match s.decoderCache.tryDecode D H x.env x.chunk vs with
  | (.error _, c) => (⟨none, [], false⟩, { s with decoderCache := c })
  | (.ok (.decoded author appMessage chunks), c) =>
    if x.chunk.appMessageHash.any (H.computeAppMessageHash appMessage ≠ ·) then
      (⟨none, [], true⟩, { s with decoderCache := c.markTainted H x.chunk })
    else (⟨some (.decoded author appMessage chunks), rebroadcast, false⟩, { s with decoderCache := c })
  | (.ok r, c) => (⟨some r, rebroadcast, false⟩, { s with decoderCache := c })

def handleUnicast (H : Hashing) (s : UdpState δ) (x : Arrival) : Handled × UdpState δ :=
  if x.chunk.recipientHash ≠ some (H.computeHash s.selfID) then (⟨none, [], false⟩, s)
  else
    let vs := if x.chunk.groupID.isSecondary then none else x.epochValidators x.chunk.groupID.n
    s.decode D H x vs []

def handleRaptorcast (H : Hashing) (s : UdpState δ) (x : Arrival) : Handled × UdpState δ :=
  if x.chunk.groupID.isSecondary then (⟨none, [], false⟩, s)
  else
    match primaryGroupOfEpoch x.chunk.groupID.n x.chunk.author x.epochValidators with
    | none => (⟨none, [], false⟩, s)
    | some group =>
      if x.sender.any (!group.isMember ·) then (⟨none, [], false⟩, s)
      else
        let isFirstHop := x.chunk.recipientHash = some (H.computeHash s.selfID)
        s.decode D H x (some group) (tryRebroadcast group x.chunk.author s.selfID isFirstHop)

/-- The dispatch of `handleMessage` on a validated chunk. -/
def handleChunk (H : Hashing) (s : UdpState δ) (x : Arrival) : Handled × UdpState δ :=
  match x.chunk.broadcastMode with
  | .unspecified => s.handleUnicast D H x
  | .primary => s.handleRaptorcast D H x
  | .secondary => (⟨none, [], false⟩, s)

def run (H : Hashing) (s : UdpState δ) (xs : List Arrival) : UdpState δ :=
  xs.foldl (fun s x => (s.handleChunk D H x).2) s

def Remembers (s : UdpState δ) (key : CacheKey) : Prop := (s.decoderCache.recentlyDecoded.peek key).isSome

def Tainted (s : UdpState δ) (key : CacheKey) : Prop :=
  ∃ r, s.decoderCache.recentlyDecoded.peek key = some r ∧ r.tainted = true

/-- `handleMessage` appends the message of a chunk to what it returns. -/
def Delivers (H : Hashing) (s : UdpState δ) (x : Arrival) (author : NodeId) (appMessage : Bytes)
    (chunks : List ValidatedChunk) : Prop :=
  (s.handleChunk D H x).1.result = some (.decoded author appMessage chunks)

section Step

variable {D : ErasureDecoder δ} {H : Hashing} {S : Signing} {s : UdpState δ} {x : Arrival} {key : CacheKey}
  {author : NodeId} {appMessage : Bytes} {chunks : List ValidatedChunk}

theorem handleChunk_eq (s : UdpState δ) (x : Arrival) : s.handleChunk D H x = (⟨none, [], false⟩, s) ∨
    ∃ vs rebroadcast, s.handleChunk D H x = s.decode D H x vs rebroadcast := by
  unfold handleChunk
  split
  · unfold handleUnicast
    by_cases hself : x.chunk.recipientHash ≠ some (H.computeHash s.selfID)
    · exact .inl (if_pos hself)
    · exact .inr ⟨_, _, if_neg hself⟩
  · unfold handleRaptorcast
    split_ifs
    · exact .inl rfl
    · split
      · exact .inl rfl
      · split_ifs
        · exact .inl rfl
        · exact .inr ⟨_, _, rfl⟩
  · exact .inl rfl

/-! ## One chunk -/

theorem markTainted_peek (c : DecoderCache δ) (msg : ValidatedChunk) (k : CacheKey) :
    (c.markTainted H msg).recentlyDecoded.peek k = if k = cacheKeyFromMessage H msg then
        (c.recentlyDecoded.peek k).map fun r => { r with tainted := true }
      else c.recentlyDecoded.peek k := by
  unfold DecoderCache.markTainted
  rw [Lru.peek_update, Lru.peek_touch, Lru.peek_touch]
  by_cases hk : k = cacheKeyFromMessage H msg
  · rw [if_pos hk, if_pos hk, hk]
  · rw [if_neg hk, if_neg hk]

/-- What decoding a chunk does to what is remembered, and when a message comes out. -/
structure Steps (H : Hashing) (S : Signing) (x : Arrival) (s : UdpState δ) (r : Handled × UdpState δ) : Prop where
  integrity : ∀ author appMessage chunks, r.1.result = some (.decoded author appMessage chunks) →
    DecodedFrom H S x.chunk author appMessage chunks ∧
      x.chunk.appMessageHash = some (H.computeAppMessageHash appMessage)
  first : ∀ author appMessage chunks, r.1.result = some (.decoded author appMessage chunks) →
    ¬ s.Remembers (cacheKeyFromMessage H x.chunk) ∧ r.2.Remembers (cacheKeyFromMessage H x.chunk)
  wrong : r.1.wrongHash = true → r.2.Tainted (cacheKeyFromMessage H x.chunk)
  taint : ∀ key, s.Tainted key → r.2.Remembers key → r.2.Tainted key

theorem Steps.ignored (x : Arrival) (s : UdpState δ) : Steps H S x s (⟨none, [], false⟩, s) :=
  ⟨fun _ _ _ h => (by cases h), fun _ _ _ h => (by cases h), fun h => (by cases h), fun _ h _ => h⟩

/-- A key keeps its taint through `tryDecode`: it would have to be decoded to lose it. -/
theorem tainted_of_recalls {c c' : DecoderCache δ} {decoded : Prop}
    (h : DecoderCache.Recalls (cacheKeyFromMessage H x.chunk) decoded c.recentlyDecoded c'.recentlyDecoded)
    {r r' : RecentlyDecoded} (hr : c.recentlyDecoded.peek key = some r) (ht : r.tainted = true)
    (hr' : c'.recentlyDecoded.peek key = some r') : r'.tainted = true := by
  rcases h.kept key r' hr' with ⟨r₀, hr₀, heq⟩ | ⟨hd, rfl⟩
  · rw [hr] at hr₀
    cases hr₀
    exact heq.trans ht
  · rw [(h.fresh hd).1] at hr
    cases hr

theorem decode_steps (hc : s.decoderCache.Sorted D H S) (hv : Validated H S x.chunk) (vs : Option ValidatorSet)
    (rebroadcast : List NodeId) :
    (s.decode D H x vs rebroadcast).2.decoderCache.Sorted D H S ∧ Steps H S x s (s.decode D H x vs rebroadcast) := by
  obtain ⟨hsorted, hdec⟩ := DecoderCache.tryDecode_sorted hc hv x.env vs
  have hrec : DecoderCache.Recalls (cacheKeyFromMessage H x.chunk)
      (DecoderCache.Decodes (s.decoderCache.tryDecode D H x.env x.chunk vs)) s.decoderCache.recentlyDecoded
      (s.decoderCache.tryDecode D H x.env x.chunk vs).2.recentlyDecoded := DecoderCache.tryDecode_recalls x.env vs
  have hsome := hv.spec.1
  unfold decode
  generalize s.decoderCache.tryDecode D H x.env x.chunk vs = r at hsorted hdec hrec ⊢
  -- only a decoded message can be delivered, and nothing else is new in the cache
  have hkeep : ∀ key, s.Tainted key → UdpState.Remembers { s with decoderCache := r.2 } key →
      UdpState.Tainted { s with decoderCache := r.2 } key := by
    intro key htainted hrem
    obtain ⟨rd, hrd, ht⟩ := htainted
    obtain ⟨rd', hrd'⟩ := Option.isSome_iff_exists.mp hrem
    exact ⟨rd', hrd', tainted_of_recalls hrec hrd ht hrd'⟩
  split
  · exact ⟨hsorted, fun _ _ _ h => (by cases h), fun _ _ _ h => (by cases h), fun h => (by cases h), hkeep⟩
  · rename_i author appMessage chunks c
    obtain ⟨hnone, hnew⟩ := hrec.fresh ⟨author, appMessage, chunks, rfl⟩
    split_ifs with hash
    · refine ⟨hsorted, fun _ _ _ h => (by cases h), fun _ _ _ h => (by cases h), fun _ => ?_, fun key htainted hrem => ?_⟩
      · obtain ⟨rd, hrd⟩ := Option.isSome_iff_exists.mp hnew
        refine ⟨{ rd with tainted := true }, ?_, rfl⟩
        rw [markTainted_peek, if_pos rfl, hrd]
        rfl
      · obtain ⟨rd', hrd'⟩ := Option.isSome_iff_exists.mp hrem
        refine ⟨rd', hrd', ?_⟩
        rw [markTainted_peek] at hrd'
        by_cases hk : key = cacheKeyFromMessage H x.chunk
        · rw [if_pos hk] at hrd'
          obtain ⟨rd, -, rfl⟩ := Option.map_eq_some_iff.mp hrd'
          rfl
        · rw [if_neg hk] at hrd'
          obtain ⟨rd, hrd, ht⟩ := htainted
          exact tainted_of_recalls hrec hrd ht hrd'
    · refine ⟨hsorted, fun a m ch h => ?_, fun a m ch _ => ⟨?_, hnew⟩, fun h => (by cases h), hkeep⟩
      · cases h
        obtain ⟨h', hh'⟩ := Option.isSome_iff_exists.mp hsome
        refine ⟨hdec _ _ _ rfl, ?_⟩
        rw [hh'] at hash ⊢
        simp only [Option.any_some, decide_eq_true_eq, ne_eq, not_not] at hash
        rw [hash]
      · intro hrem
        rw [Remembers, hnone] at hrem
        cases hrem
  · rename_i hne
    refine ⟨hsorted, fun a m ch h => ?_, fun a m ch h => ?_, fun h => (by cases h), hkeep⟩
    · exact absurd (Option.some.inj h) (hne a m ch)
    · exact absurd (Option.some.inj h) (hne a m ch)

theorem handleChunk_steps (hc : s.decoderCache.Sorted D H S) (hv : Validated H S x.chunk) :
    (s.handleChunk D H x).2.decoderCache.Sorted D H S ∧ Steps H S x s (s.handleChunk D H x) := by
  rcases handleChunk_eq (D := D) (H := H) s x with h | ⟨vs, rebroadcast, h⟩
  · rw [h]
    exact ⟨hc, .ignored x s⟩
  · rw [h]
    exact decode_steps hc hv vs rebroadcast

/-! ## Sequences of chunks -/

theorem run_sorted {xs : List Arrival} (hc : s.decoderCache.Sorted D H S) (hv : ∀ x ∈ xs, Validated H S x.chunk) :
    (s.run D H xs).decoderCache.Sorted D H S := by
  induction xs generalizing s with
  | nil => exact hc
  | cons x xs ih =>
    have hx := hv x (.head _)
    exact ih (handleChunk_steps hc hx).1 fun y hy => hv y (.tail x hy)

end Step

/-- A node that has handled the first `i` of some chunks. -/
def after (D : ErasureDecoder δ) (H : Hashing) (cfg : DecoderCacheConfig) (selfID : NodeId) (xs : List Arrival) (i : Nat) :
    UdpState δ :=
  run D H ⟨selfID, DecoderCache.new cfg⟩ (xs.take i)

section After

variable {D : ErasureDecoder δ} {H : Hashing} {S : Signing} {cfg : DecoderCacheConfig} {selfID : NodeId}
  {xs : List Arrival} {i : Nat} {x : Arrival}

theorem after_succ (hx : xs[i]? = some x) :
    after D H cfg selfID xs (i + 1) = ((after D H cfg selfID xs i).handleChunk D H x).2 := by
  simp [after, run, List.take_add_one, hx]

theorem after_steps (hv : ∀ x ∈ xs, Validated H S x.chunk) (hx : xs[i]? = some x) :
    Steps H S x (after D H cfg selfID xs i) ((after D H cfg selfID xs i).handleChunk D H x) := by
  have hstart : (DecoderCache.new cfg : DecoderCache δ).Sorted D H S := fun t key en h => by cases h
  have hc : (after D H cfg selfID xs i).decoderCache.Sorted D H S :=
    run_sorted hstart fun y hy => hv y (List.take_subset i xs hy)
  exact (handleChunk_steps hc (hv x (List.mem_of_getElem? hx))).2

theorem after_tainted (hv : ∀ x ∈ xs, Validated H S x.chunk) {key : CacheKey} {j : Nat} (hij : i ≤ j)
    (htainted : (after D H cfg selfID xs i).Tainted key)
    (hrem : ∀ m, i < m → m ≤ j → (after D H cfg selfID xs m).Remembers key) :
    (after D H cfg selfID xs j).Tainted key := by
  induction j, hij using Nat.le_induction with
  | base => exact htainted
  | succ j hij ih =>
    have hprev := ih fun m hm hmj => hrem m hm (by omega)
    have hnow := hrem (j + 1) (by omega) le_rfl
    cases hx : xs[j]? with
    | none =>
      -- no chunk is left: the state is the same
      have hlen := List.getElem?_eq_none_iff.mp hx
      have hsame : after D H cfg selfID xs (j + 1) = after D H cfg selfID xs j := by
        rw [after, after, List.take_of_length_le (by omega), List.take_of_length_le hlen]
      rw [hsame]
      exact hprev
    | some x =>
      rw [after_succ hx] at hnow ⊢
      exact (after_steps hv hx).taint key hprev hnow

end After

def DeliversAny (D : ErasureDecoder δ) (H : Hashing) (s : UdpState δ) (x : Arrival) : Prop :=
  ∃ author appMessage chunks, s.Delivers D H x author appMessage chunks

/-- A message with another hash came out for a chunk. -/
def WrongHash (D : ErasureDecoder δ) (H : Hashing) (s : UdpState δ) (x : Arrival) : Prop :=
  (s.handleChunk D H x).1.wrongHash = true

end UdpState

open UdpState in
/-- Every delivered message has the hash and the length its chunks carry. A key that was delivered
is remembered, and is not delivered again while it is. A key whose message had a wrong hash is
tainted as long as it is remembered, and is not delivered while it is tainted. -/
theorem delivery_integrity (D : ErasureDecoder δ) (H : Hashing) (S : Signing) (cfg : DecoderCacheConfig)
    (selfID : NodeId) (xs : List Arrival) (hv : ∀ x ∈ xs, Validated H S x.chunk) :
    (∀ i x, xs[i]? = some x → ∀ author appMessage chunks,
      (after D H cfg selfID xs i).Delivers D H x author appMessage chunks → author = x.chunk.author ∧ x.chunk ∈ chunks ∧
        ∀ c ∈ chunks, cacheKeyFromMessage H c = cacheKeyFromMessage H x.chunk ∧
          c.appMessageHash = some (H.computeAppMessageHash appMessage) ∧ c.appMessageLen = appMessage.length) ∧
    (∀ i x, xs[i]? = some x → (after D H cfg selfID xs i).DeliversAny D H x →
      (after D H cfg selfID xs (i + 1)).Remembers (cacheKeyFromMessage H x.chunk) ∧
      ∀ j y, i < j → xs[j]? = some y → cacheKeyFromMessage H y.chunk = cacheKeyFromMessage H x.chunk →
        (∀ m, i < m → m ≤ j → (after D H cfg selfID xs m).Remembers (cacheKeyFromMessage H x.chunk)) →
        ¬ (after D H cfg selfID xs j).DeliversAny D H y) ∧
    (∀ i x, xs[i]? = some x → (after D H cfg selfID xs i).WrongHash D H x →
      (after D H cfg selfID xs (i + 1)).Tainted (cacheKeyFromMessage H x.chunk) ∧ ∀ j, i < j →
        (∀ m, i < m → m ≤ j → (after D H cfg selfID xs m).Remembers (cacheKeyFromMessage H x.chunk)) →
        (after D H cfg selfID xs j).Tainted (cacheKeyFromMessage H x.chunk)) ∧
    (∀ i x, xs[i]? = some x → (after D H cfg selfID xs i).Tainted (cacheKeyFromMessage H x.chunk) →
      ¬ (after D H cfg selfID xs i).DeliversAny D H x) := by
  have hsteps : ∀ i x, xs[i]? = some x → Steps H S x (after D H cfg selfID xs i)
      ((after D H cfg selfID xs i).handleChunk D H x) := fun i x hx => after_steps hv hx
  have honce : ∀ i x, xs[i]? = some x → (after D H cfg selfID xs i).Remembers (cacheKeyFromMessage H x.chunk) →
      ¬ (after D H cfg selfID xs i).DeliversAny D H x := by
    intro i x hx hrem hd
    obtain ⟨author, appMessage, chunks, hd⟩ := hd
    exact ((hsteps i x hx).first author appMessage chunks hd).1 hrem
  refine ⟨fun i x hx author appMessage chunks hd => ?_, fun i x hx hd => ⟨?_, fun j y hij hy hkey hrem => ?_⟩,
    fun i x hx hwrong => ?_, fun i x hx htainted => ?_⟩
  · obtain ⟨hfrom, hash⟩ := (hsteps i x hx).integrity author appMessage chunks hd
    refine ⟨hfrom.author_eq, hfrom.mem, fun c hc => ?_⟩
    obtain ⟨hkey, hlen, hval⟩ := hfrom.chunks c hc
    refine ⟨hkey, ?_, hlen.trans hfrom.length.symm⟩
    -- equal keys have equal message hashes, since validated chunks all carry one
    obtain ⟨h', hh'⟩ := Option.isSome_iff_exists.mp hval.spec.1
    have hid := congrArg CacheKey.messageID hkey
    simp only [cacheKeyFromMessage, hh', hash, Option.getD_some] at hid
    rw [hh', hid]
  · obtain ⟨author, appMessage, chunks, hd⟩ := hd
    rw [after_succ hx]
    exact ((hsteps i x hx).first author appMessage chunks hd).2
  · refine honce j y hy ?_
    rw [hkey]
    exact hrem j hij le_rfl
  · have htainted : (after D H cfg selfID xs (i + 1)).Tainted (cacheKeyFromMessage H x.chunk) := by
      rw [after_succ hx]
      exact (hsteps i x hx).wrong hwrong
    exact ⟨htainted, fun j hij hrem => after_tainted hv hij htainted fun m hm hmj => hrem m (by omega) hmj⟩
  · refine honce i x hx ?_
    obtain ⟨r, hr, -⟩ := htainted
    rw [Remembers, hr]
    rfl

/-! ## A message of one byte -/

namespace Sample

/-- A hash that is the beginning of its input. -/
def hashing : Hashing where
  sum256 b := (b ++ List.replicate 32 0).take 32
  length_sum256 b := by simp
  pubKey id := [UInt8.ofNat id]

/-- A signature that names its key. -/
def signing : Signing where
  sign id _ := List.replicate 65 (UInt8.ofNat id)
  recover sig _ := sig.head?.map (·.toNat)
  length_sign id msg := by simp [signatureSize]

/-- A decoder for one source symbol, which is any symbol received. -/
def decoder : ErasureDecoder (Nat × Nat × Bytes) where
  new k _ len := some (k, len, [])
  received d b _ := (d.1, d.2.1, b)
  tryDecode d := (d, true)
  reconstruct d := if d.2.2.length = d.1 * d.2.1 then some d.2.2 else none
  shape d := (d.1, d.2.1)
  shape_new h := by
    cases h
    rfl
  shape_received _ _ _ := rfl
  shape_tryDecode _ := rfl
  length_reconstruct h := by
    split_ifs at h with hlen
    cases h
    exact hlen

/-- The packet with the message `[7]` from node 2 to node 1. -/
def packet : Bytes :=
  signing.sign 2 [] ++ [0, 0, 1] ++ WireAuth.littleEndian 8 1 ++ WireAuth.littleEndian 8 5 ++
    hashing.computeAppMessageHash [7] ++ WireAuth.littleEndian 4 1 ++ hashing.computeHash 1 ++ [0, 0, 0, 0] ++ [7]

def parsed : ParsedPacket :=
  ⟨1, 1, 5, hashing.computeAppMessageHash [7], 1, [], hashing.computeHash 1, 0, 0,
    hashing.computeHash 1 ++ [0, 0, 0, 0] ++ [7], 132⟩

def chunk : ValidatedChunk where
  chunk := packet
  author := 2
  groupID := primaryGroup 1
  unixTsMs := 5
  appMessageHash := some (hashing.computeAppMessageHash [7])
  merkleRoot := Hashing.hashToMerkle (hashing.sum256 (hashing.computeHash 1 ++ [0, 0, 0, 0] ++ [7]))
  appMessageLen := 1
  broadcastMode := .unspecified
  recipientHash := some (hashing.computeHash 1)
  chunkID := 0
  numSourceSymbols := 1
  encodedSymbolCapacity := 3
  payloadOffset := 132

theorem chunk_validated : Validated hashing signing chunk := by
  have hok : (validateChunk hashing signing parsed packet ⟨none⟩ 5 0 (fun _ => false) true 1).1 = .ok chunk := by
    decide +kernel
  rcases hr : validateChunk hashing signing parsed packet ⟨none⟩ 5 0 (fun _ => false) true 1 with ⟨r, v'⟩
  rw [hr] at hok
  obtain rfl : r = .ok chunk := hok
  exact ⟨packet, parsed, ⟨none⟩, 5, 0, fun _ => false, true, 1, v', by decide +kernel, hr⟩

def arrival : Arrival := ⟨chunk, none, fun _ => none, ⟨5, 0, id⟩⟩

end Sample

open UdpState Sample in
/-- The packet arrives twice, and its message is delivered once. -/
theorem delivery_integrity_once :
    (after decoder hashing defaultDecoderCacheConfig 1 [arrival, arrival] 0).Delivers decoder hashing arrival 2 [7] [chunk] ∧
      ¬ (after decoder hashing defaultDecoderCacheConfig 1 [arrival, arrival] 1).DeliversAny decoder hashing arrival := by
  have hfirst : (after decoder hashing defaultDecoderCacheConfig 1 [arrival, arrival] 0).Delivers decoder hashing arrival
      2 [7] [chunk] := by
    show Handled.result _ = _
    decide +kernel
  obtain ⟨-, honce, -, -⟩ := delivery_integrity decoder hashing signing defaultDecoderCacheConfig 1 [arrival, arrival]
    (fun x hx => by
      obtain rfl : x = arrival := by simpa using hx
      exact chunk_validated)
  obtain ⟨hrem, hno⟩ := honce 0 arrival rfl ⟨_, _, _, hfirst⟩
  refine ⟨hfirst, hno 1 arrival Nat.zero_lt_one rfl rfl fun m hm hmj => ?_⟩
  obtain rfl : m = 1 := by omega
  exact hrem

end MonadBft.RaptorCast
