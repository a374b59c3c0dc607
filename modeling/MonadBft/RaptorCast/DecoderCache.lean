/-
  MonadBft.RaptorCast.DecoderCache — messages in decoding (`net/raptorcast/decoding.go`).

  A message is decoded under a key: the author's hash, the message hash and the time. Decoders in
  progress are kept in three tiers with quotas for each author; a tier that is full drops an
  author's oldest messages, then expired ones, then those not used for longest. Decoded messages
  are remembered in a bounded map, and marked as tainted if their hash was wrong.

  The erasure decoder is a parameter, of which only the size of its output is known. Where the
  source ranges over a map, the order is an argument. `chunks` is a history: the chunks a decoder
  was given.
-/
import MonadBft.RaptorCast.Parse

namespace MonadBft.RaptorCast

open Lib Rlp

/-- `raptor.ManagedDecoder` with states `δ`; `shape` is the number of source symbols and the length
of a symbol. -/
structure ErasureDecoder (δ : Type) where
  new : Nat → Nat → Nat → Option δ
  received : δ → Bytes → Nat → δ
  tryDecode : δ → δ × Bool
  reconstruct : δ → Option Bytes
  shape : δ → Nat × Nat
  shape_new : ∀ {k cap len d}, new k cap len = some d → shape d = (k, len)
  shape_received : ∀ d b esi, shape (received d b esi) = shape d
  shape_tryDecode : ∀ d, shape (tryDecode d).1 = shape d
  length_reconstruct : ∀ {d b}, reconstruct d = some b → b.length = (shape d).1 * (shape d).2

/-! ## Keys and symbols -/

structure CacheKey where
  authorHash : Bytes
  messageID : Bytes
  unixTsMs : Nat
  deriving DecidableEq, Repr

def cacheKeyFromMessage (H : Hashing) (m : ValidatedChunk) : CacheKey :=
  ⟨H.computeHash m.author, m.appMessageHash.getD m.merkleRoot, m.unixTsMs⟩

inductive DecodeError where
  | invalidSymbolLen
  | invalidSymbolID
  | invalidAppMsgLenInSymbol
  | duplicateSymbol
  | invalidDecoderParams
  | unableToReconstruct
  | messageTainted
  deriving DecidableEq, Repr

def validateSymbol (msg : ValidatedChunk) (symbolLen appMessageLen : Nat) (seen : List Nat) (capacity : Nat) :
    Except DecodeError Unit :=
  if msg.symbolData.length ≠ symbolLen then .error .invalidSymbolLen
  else if capacity ≤ msg.chunkID then .error .invalidSymbolID
  else if msg.appMessageLen ≠ appMessageLen then .error .invalidAppMsgLenInSymbol
  else if msg.chunkID ∈ seen then .error .duplicateSymbol
  else .ok ()

structure DecoderState (δ : Type) where
  decoder : δ
  appMessageLen : Nat
  seenESIS : List Nat
  capacity : Nat
  chunks : List ValidatedChunk

variable {δ : Type}

namespace DecoderState

def handleMessage (D : ErasureDecoder δ) (s : DecoderState δ) (msg : ValidatedChunk) :
    Except DecodeError (DecoderState δ) := do
  validateSymbol msg (D.shape s.decoder).2 s.appMessageLen s.seenESIS s.capacity
  return { s with
    decoder := D.received s.decoder msg.symbolData msg.chunkID
    seenESIS := msg.chunkID :: s.seenESIS
    chunks := msg :: s.chunks }

def new (D : ErasureDecoder δ) (msg : ValidatedChunk) : Except DecodeError (DecoderState δ) :=
  match D.new msg.numSourceSymbols msg.encodedSymbolCapacity msg.symbolData.length with
  | none => .error .invalidDecoderParams
  | some d => handleMessage D ⟨d, msg.appMessageLen, [], msg.encodedSymbolCapacity, []⟩ msg

end DecoderState

structure RecentlyDecoded where
  symbolLen : Nat
  appMessageLen : Nat
  seenESIS : List Nat
  capacity : Nat
  tainted : Bool
  deriving DecidableEq, Repr

def RecentlyDecoded.handleMessage (r : RecentlyDecoded) (msg : ValidatedChunk) : Except DecodeError RecentlyDecoded :=
  if r.tainted then .error .messageTainted
  else do
    validateSymbol msg r.symbolLen r.appMessageLen r.seenESIS r.capacity
    return { r with seenESIS := msg.chunkID :: r.seenESIS }

/-! ## Tiers -/

structure SoftQuotaConfig where
  totalSlots : Nat
  minSlotsPerAuthor : Nat
  maxTotalSizePerAuthor : Nat
  deriving DecidableEq, Repr

structure QuotaEntryMeta where
  unixTs : Nat
  size : Nat
  deriving DecidableEq, Repr

structure PerAuthorIndex where
  maxSlots : Nat
  maxSize : Nat
  size : Int
  keys : AMap CacheKey QuotaEntryMeta

def PerAuthorIndex.overquota (a : PerAuthorIndex) : Bool :=
  decide (a.maxSlots < a.keys.entries.length) || decide ((a.maxSize : Int) < a.size)

structure QuotaEntry (δ : Type) where
  state : DecoderState δ
  author : NodeId
  size : Nat
  unixTs : Nat

structure SoftQuotaCache (δ : Type) where
  cfg : SoftQuotaConfig
  entries : Lru CacheKey (QuotaEntry δ)
  perAuthor : AMap NodeId PerAuthorIndex
  totalSize : Int
  cooldownUntil : Option Nat

/-- What a call takes from outside: the time of the chunk clock and of the wall clock, in
milliseconds, and the order in which the keys of an author are visited. -/
structure CallEnv where
  now : Nat
  clock : Nat
  order : List (CacheKey × QuotaEntryMeta) → List (CacheKey × QuotaEntryMeta)

def pruneMaxTsDeltaMs : Nat := 10000

namespace SoftQuotaCache

def new (cfg : SoftQuotaConfig) : SoftQuotaCache δ := ⟨cfg, Lru.empty 0, AMap.empty, 0, none⟩

def maxTotalSize (c : SoftQuotaCache δ) : Nat :=
  c.cfg.maxTotalSizePerAuthor * max 1 (c.cfg.totalSlots / c.cfg.minSlotsPerAuthor)

/-- The entry of a key leaves its author's index, and an empty index goes. -/
def unindex (perAuthor : AMap NodeId PerAuthorIndex) (author : NodeId) (key : CacheKey) : AMap NodeId PerAuthorIndex :=
  match perAuthor.get author with
  | none => perAuthor
  | some ai =>
    let ai := match ai.keys.get key with
      | some info => { ai with size := ai.size - info.size, keys := ai.keys.erase key }
      | none => ai
    if ai.keys.entries = [] then perAuthor.erase author else perAuthor.insert author ai

def remove (c : SoftQuotaCache δ) (key : CacheKey) : SoftQuotaCache δ :=
  match c.entries.peek key with
  | none => c
  | some en => { c with
      entries := c.entries.remove key
      perAuthor := unindex c.perAuthor en.author key
      totalSize := c.totalSize - en.size }

def isFull (c : SoftQuotaCache δ) : Bool :=
  decide (c.cfg.totalSlots < c.entries.len) || decide ((c.maxTotalSize : Int) < c.totalSize)

/-- The key with the smallest time, the first of them in the order of the walk. -/
def oldestKey (keys : List (CacheKey × QuotaEntryMeta)) : Option CacheKey :=
  (keys.foldl (fun best e => if e.2.unixTs < best.1 then (e.2.unixTs, some e.1) else best) (2 ^ 64 - 1, none)).2

/-- The second loop of `enforceQuota`. Every turn takes a key from the author's index. -/
def evictAuthor (env : CallEnv) (author : NodeId) : Nat → SoftQuotaCache δ → SoftQuotaCache δ
  | 0, c => c
  | fuel + 1, c =>
    match c.perAuthor.get author with
    | none => c
    | some ai =>
      if !ai.overquota then c
      else
        match oldestKey (env.order ai.keys.entries) with
        | none => c
        | some key => evictAuthor env author fuel (c.remove key)

/-- The keys of an index that have expired. -/
def expiredKeys (threshold : Nat) (ai : PerAuthorIndex) : List CacheKey :=
  (ai.keys.entries.filter fun e => e.2.unixTs < threshold).map (·.1)

def enforceQuota (env : CallEnv) (author : NodeId) (c : SoftQuotaCache δ) : SoftQuotaCache δ :=
  match c.perAuthor.get author with
  | none => c
  | some ai =>
    if !ai.overquota then c
    else
      let c := if pruneMaxTsDeltaMs < env.now then
          (expiredKeys (env.now - pruneMaxTsDeltaMs) ai).foldl remove c
        else c
      evictAuthor env author ai.keys.entries.length c

/-- `pruneExpiredAll`. After a prune that freed less than a tenth there is none for ten seconds. -/
def pruneExpiredAll (env : CallEnv) (c : SoftQuotaCache δ) : SoftQuotaCache δ :=
  if c.cooldownUntil.any (env.clock < ·) then c
  else if env.now ≤ pruneMaxTsDeltaMs then c
  else
    let expired := c.perAuthor.values.flatMap (expiredKeys (env.now - pruneMaxTsDeltaMs))
    let totalSlots := (c.perAuthor.values.map (·.keys.entries.length)).sum
    let c := expired.foldl remove c
    if 10 * expired.length < totalSlots then { c with cooldownUntil := some (env.clock + 10000) } else c

/-- The last loop of `insert`. Every turn takes an entry. -/
def evictOldest : Nat → SoftQuotaCache δ → SoftQuotaCache δ
  | 0, c => c
  | fuel + 1, c =>
    if !c.isFull then c
    else
      match c.entries.oldest with
      | none => c
      | some key => evictOldest fuel (c.remove key)

/-- The new entry of `insert`, before room is made for it. -/
def addEntry (c : SoftQuotaCache δ) (key : CacheKey) (msg : ValidatedChunk) (state : DecoderState δ) : SoftQuotaCache δ :=
  let ai := (c.perAuthor.get msg.author).getD
    ⟨min c.cfg.minSlotsPerAuthor c.cfg.totalSlots, c.cfg.maxTotalSizePerAuthor, 0, AMap.empty⟩
  let ai := { ai with
    size := ai.size + msg.appMessageLen
    keys := ai.keys.insert key ⟨msg.unixTsMs, msg.appMessageLen⟩ }
  { c with
    perAuthor := c.perAuthor.insert msg.author ai
    totalSize := c.totalSize + msg.appMessageLen
    entries := c.entries.put key ⟨state, msg.author, msg.appMessageLen, msg.unixTsMs⟩ }

def insert (env : CallEnv) (c : SoftQuotaCache δ) (key : CacheKey) (msg : ValidatedChunk) (state : DecoderState δ) :
    SoftQuotaCache δ :=
  let c := c.addEntry key msg state
  if !c.isFull then c
  else
    let c := if ((c.perAuthor.get msg.author).map (·.overquota)).getD false then c.enforceQuota env msg.author else c
    if !c.isFull then c
    else
      let c := c.pruneExpiredAll env
      evictOldest (c.entries.len + 1) c

end SoftQuotaCache

/-! ## The cache -/

inductive MessageTier where
  | broadcast
  | validator
  | p2p
  deriving DecidableEq, Repr

def tierForMessage (msg : ValidatedChunk) (vs : Option ValidatorSet) : MessageTier :=
  if msg.broadcastMode ≠ .unspecified then .broadcast
  else if vs.any (·.isMember msg.author) then .validator
  else .p2p

structure DecoderCacheConfig where
  recentlyDecodedCacheSize : Nat
  tier : MessageTier → SoftQuotaConfig

def defaultDecoderCacheConfig : DecoderCacheConfig where
  recentlyDecodedCacheSize := 10000
  tier
    | .broadcast => ⟨1000, 5, 5 * 4 * 1024 * 1024⟩
    | .validator => ⟨600, 3, 1024 * 1024⟩
    | .p2p => ⟨500, 1, 1024 * 1024⟩

structure DecoderCache (δ : Type) where
  recentlyDecoded : Lru CacheKey RecentlyDecoded
  tier : MessageTier → SoftQuotaCache δ

inductive DecodedResult where
  | rejectedByCache
  | needsMoreSymbols
  | recentlyDecoded
  | decoded (author : NodeId) (appMessage : Bytes) (chunks : List ValidatedChunk)
  deriving DecidableEq, Repr

namespace DecoderCache

def new (cfg : DecoderCacheConfig) : DecoderCache δ :=
  ⟨Lru.empty cfg.recentlyDecodedCacheSize, fun t => SoftQuotaCache.new (cfg.tier t)⟩

def setTier (c : DecoderCache δ) (t : MessageTier) (q : SoftQuotaCache δ) : DecoderCache δ :=
  { c with tier := fun t' => if t' = t then q else c.tier t' }

/-- Look an entry up in a tier and change its state in place. -/
def setState (c : DecoderCache δ) (t : MessageTier) (key : CacheKey) (s : DecoderState δ) : DecoderCache δ :=
  let q := c.tier t
  c.setTier t { q with entries := (q.entries.touch key).update key fun en => { en with state := s } }

/-- The end of `tryDecode`: let the decoder of a key try. -/
def advance (D : ErasureDecoder δ) (c : DecoderCache δ) (t : MessageTier) (key : CacheKey) (msg : ValidatedChunk)
    (s : DecoderState δ) : Except DecodeError DecodedResult × DecoderCache δ :=
  let r := D.tryDecode s.decoder
  let s := { s with decoder := r.1 }
  let c := c.setState t key s
  if !r.2 then (.ok .needsMoreSymbols, c)
  else
    match D.reconstruct s.decoder with
    | none => (.error .unableToReconstruct, c)
    | some decoded =>
      let decoded := if msg.appMessageLen < decoded.length then decoded.take msg.appMessageLen else decoded
      let c := c.setTier t ((c.tier t).remove key)
      (.ok (.decoded msg.author decoded s.chunks), { c with
        recentlyDecoded := c.recentlyDecoded.put key
          ⟨(D.shape s.decoder).2, s.appMessageLen, s.seenESIS, s.capacity, false⟩ })

def tryDecode (D : ErasureDecoder δ) (H : Hashing) (env : CallEnv) (c : DecoderCache δ) (msg : ValidatedChunk)
    (vs : Option ValidatorSet) : Except DecodeError DecodedResult × DecoderCache δ :=
  let key := cacheKeyFromMessage H msg
  match c.recentlyDecoded.peek key with
  | some rd =>
    let c := { c with recentlyDecoded := c.recentlyDecoded.touch key }
    match rd.handleMessage msg with
    | .error e => (.error e, c)
    | .ok rd' => (.ok .recentlyDecoded, { c with recentlyDecoded := c.recentlyDecoded.update key fun _ => rd' })
  | none =>
    let t := tierForMessage msg vs
    match (c.tier t).entries.peek key with
    | some en =>
      match en.state.handleMessage D msg with
      | .error e => (.error e, c.setState t key en.state)
      | .ok s => advance D c t key msg s
    | none =>
      match DecoderState.new D msg with
      | .error e => (.error e, c)
      | .ok s =>
        let c := c.setTier t ((c.tier t).insert env key msg s)
        -- quota enforcement may have dropped the new entry at once
        match (c.tier t).entries.peek key with
        | none => (.ok .rejectedByCache, c)
        | some en => advance D c t key msg en.state

def markTainted (H : Hashing) (c : DecoderCache δ) (msg : ValidatedChunk) : DecoderCache δ :=
  let key := cacheKeyFromMessage H msg
  { c with recentlyDecoded := (c.recentlyDecoded.touch key).update key fun r => { r with tainted := true } }

end DecoderCache

/-! ## Tiers only lose entries -/

namespace SoftQuotaCache

variable {c : SoftQuotaCache δ} {key : CacheKey} {env : CallEnv}

/-- Every entry of `c'` is one of `c`. -/
def Within (c' c : SoftQuotaCache δ) : Prop := ∀ k en, c'.entries.peek k = some en → c.entries.peek k = some en

theorem Within.refl (c : SoftQuotaCache δ) : Within c c := fun _ _ h => h

theorem Within.trans {c₁ c₂ c₃ : SoftQuotaCache δ} (h : Within c₁ c₂) (h' : Within c₂ c₃) : Within c₁ c₃ :=
  fun k en hk => h' k en (h k en hk)

theorem remove_within (c : SoftQuotaCache δ) (key : CacheKey) : Within (c.remove key) c := by
  intro k en h
  unfold remove at h
  split at h
  · exact h
  · rw [Lru.peek_remove] at h
    split_ifs at h
    exact h

theorem foldl_remove_within (keys : List CacheKey) (c : SoftQuotaCache δ) : Within (keys.foldl remove c) c := by
  induction keys generalizing c with
  | nil => exact .refl c
  | cons k keys ih => exact (ih (c.remove k)).trans (remove_within c k)

theorem evictAuthor_within (env : CallEnv) (author : NodeId) (fuel : Nat) (c : SoftQuotaCache δ) :
    Within (evictAuthor env author fuel c) c := by
  induction fuel generalizing c with
  | zero => exact .refl c
  | succ fuel ih =>
    unfold evictAuthor
    split
    · exact .refl c
    · split_ifs
      · exact .refl c
      · split
        · exact .refl c
        · rename_i key _
          exact (ih (c.remove key)).trans (remove_within c key)

theorem enforceQuota_within (env : CallEnv) (author : NodeId) (c : SoftQuotaCache δ) :
    Within (c.enforceQuota env author) c := by
  unfold enforceQuota
  split
  · exact .refl c
  · split_ifs
    · exact .refl c
    · exact (evictAuthor_within env author _ _).trans (foldl_remove_within _ c)
    · exact evictAuthor_within env author _ c

theorem pruneExpiredAll_within (env : CallEnv) (c : SoftQuotaCache δ) : Within (c.pruneExpiredAll env) c := by
  unfold pruneExpiredAll
  dsimp only
  split_ifs
  · exact .refl c
  · exact .refl c
  · exact foldl_remove_within _ c
  · exact foldl_remove_within _ c

theorem evictOldest_within (fuel : Nat) (c : SoftQuotaCache δ) : Within (evictOldest fuel c) c := by
  induction fuel generalizing c with
  | zero => exact .refl c
  | succ fuel ih =>
    unfold evictOldest
    split_ifs
    · exact .refl c
    · split
      · exact .refl c
      · rename_i key _
        exact (ih (c.remove key)).trans (remove_within c key)

/-- Whatever makes room, the entries after `insert` are the new one and old ones. -/
theorem insert_within (env : CallEnv) (c : SoftQuotaCache δ) (key : CacheKey) (msg : ValidatedChunk) (s : DecoderState δ) :
    Within (c.insert env key msg s) (c.addEntry key msg s) := by
  have hroom : Within (if (((c.addEntry key msg s).perAuthor.get msg.author).map (·.overquota)).getD false then
      (c.addEntry key msg s).enforceQuota env msg.author else c.addEntry key msg s) (c.addEntry key msg s) := by
    split_ifs
    · exact enforceQuota_within env msg.author _
    · exact .refl _
  unfold insert
  by_cases hfull : (c.addEntry key msg s).isFull
  · simp only [hfull, Bool.not_true, Bool.false_eq_true, if_false]
    generalize hc : (if (((c.addEntry key msg s).perAuthor.get msg.author).map (·.overquota)).getD false then
      (c.addEntry key msg s).enforceQuota env msg.author else c.addEntry key msg s) = c' at hroom ⊢
    split_ifs
    · exact hroom
    · exact ((evictOldest_within _ _).trans (pruneExpiredAll_within env c')).trans hroom
  · simp only [hfull, Bool.not_false, if_true]
    exact .refl _

theorem of_peek_insert {msg : ValidatedChunk} {s : DecoderState δ} {k : CacheKey} {en : QuotaEntry δ}
    (h : (c.insert env key msg s).entries.peek k = some en) :
    (k = key ∧ en.state = s) ∨ (k ≠ key ∧ c.entries.peek k = some en) := by
  have hadd := insert_within env c key msg s k en h
  rcases Lru.of_peek_put hadd with ⟨hk, rfl⟩ | hold
  · exact .inl ⟨hk, rfl⟩
  · exact .inr hold

end SoftQuotaCache

/-! ## What a decoder was given -/

section Given

variable {D : ErasureDecoder δ} {H : Hashing} {S : Signing} {key : CacheKey} {s s' : DecoderState δ}
  {msg : ValidatedChunk}

/-- The chunks of a decoder are of one message, and its symbols cover the message. -/
structure DecoderState.Of (D : ErasureDecoder δ) (H : Hashing) (S : Signing) (key : CacheKey) (s : DecoderState δ) :
    Prop where
  chunks : ∀ c ∈ s.chunks, cacheKeyFromMessage H c = key ∧ c.appMessageLen = s.appMessageLen ∧ Validated H S c
  covers : s.appMessageLen ≤ (D.shape s.decoder).1 * (D.shape s.decoder).2

theorem validateSymbol_appMessageLen {symbolLen appMessageLen capacity : Nat} {seen : List Nat} {u : Unit}
    (h : validateSymbol msg symbolLen appMessageLen seen capacity = .ok u) : msg.appMessageLen = appMessageLen := by
  unfold validateSymbol at h
  split_ifs at h with _ _ hlen
  exact not_not.mp hlen

theorem DecoderState.Of.handleMessage (hs : s.Of D H S key) (hv : Validated H S msg)
    (hkey : cacheKeyFromMessage H msg = key) (h : s.handleMessage D msg = .ok s') :
    s'.Of D H S key ∧ msg ∈ s'.chunks := by
  obtain ⟨u, hu, hs'⟩ := bind_eq_ok.mp h
  cases hs'
  have hlen := validateSymbol_appMessageLen hu
  refine ⟨⟨fun c hc => ?_, ?_⟩, .head _⟩
  · rcases List.mem_cons.mp hc with rfl | hc
    · exact ⟨hkey, hlen, hv⟩
    · exact hs.chunks c hc
  · show s.appMessageLen ≤ _
    rw [D.shape_received]
    exact hs.covers

theorem DecoderState.Of.new (hv : Validated H S msg) (hkey : cacheKeyFromMessage H msg = key)
    (h : DecoderState.new D msg = .ok s) : s.Of D H S key ∧ msg ∈ s.chunks := by
  unfold DecoderState.new at h
  split at h
  · cases h
  · rename_i d hnew
    obtain ⟨-, hpos, hnum⟩ := hv.spec
    refine DecoderState.Of.handleMessage ⟨fun c hc => absurd hc List.not_mem_nil, ?_⟩ hv hkey h
    show msg.appMessageLen ≤ (D.shape d).1 * (D.shape d).2
    rw [D.shape_new hnew, hnum]
    exact le_ceil_mul hpos

/-- Every decoder in a tier has the chunks of its key. -/
def DecoderCache.Sorted (D : ErasureDecoder δ) (H : Hashing) (S : Signing) (c : DecoderCache δ) : Prop :=
  ∀ t key en, (c.tier t).entries.peek key = some en → en.state.Of D H S key

/-- What comes with a decoded message: it was decoded from chunks of the key of `msg`, `msg` among
them, and has the length that they carry. -/
structure DecodedFrom (H : Hashing) (S : Signing) (msg : ValidatedChunk) (author : NodeId) (appMessage : Bytes)
    (chunks : List ValidatedChunk) : Prop where
  author_eq : author = msg.author
  length : appMessage.length = msg.appMessageLen
  mem : msg ∈ chunks
  chunks : ∀ c ∈ chunks, cacheKeyFromMessage H c = cacheKeyFromMessage H msg ∧ c.appMessageLen = msg.appMessageLen ∧
    Validated H S c

namespace DecoderCache

variable {c : DecoderCache δ} {t : MessageTier}

theorem Sorted.setTier {q : SoftQuotaCache δ} (hc : c.Sorted D H S)
    (hq : ∀ key en, q.entries.peek key = some en → en.state.Of D H S key) : (c.setTier t q).Sorted D H S := by
  intro t' key en h
  by_cases ht : t' = t
  · simp only [DecoderCache.setTier, if_pos ht] at h
    exact hq key en h
  · simp only [DecoderCache.setTier, if_neg ht] at h
    exact hc t' key en h

theorem Sorted.setState (hc : c.Sorted D H S) (hs : s.Of D H S key) : (c.setState t key s).Sorted D H S := by
  refine hc.setTier fun k en h => ?_
  rw [Lru.peek_update, Lru.peek_touch] at h
  by_cases hk : k = key
  · rw [if_pos hk] at h
    obtain ⟨en', -, rfl⟩ := Option.map_eq_some_iff.mp h
    rw [hk]
    exact hs
  · rw [if_neg hk, Lru.peek_touch] at h
    exact hc t k en h

theorem advance_sorted (hc : c.Sorted D H S) (hkey : cacheKeyFromMessage H msg = key) (hs : s.Of D H S key)
    (hmem : msg ∈ s.chunks) : (c.advance D t key msg s).2.Sorted D H S ∧ ∀ author appMessage chunks,
      (c.advance D t key msg s).1 = .ok (.decoded author appMessage chunks) →
        DecodedFrom H S msg author appMessage chunks := by
  have hlen : msg.appMessageLen = s.appMessageLen := (hs.chunks msg hmem).2.1
  have hs' : ({ s with decoder := (D.tryDecode s.decoder).1 } : DecoderState δ).Of D H S key :=
    ⟨hs.chunks, by
      rw [D.shape_tryDecode]
      exact hs.covers⟩
  have hset : (c.setState t key { s with decoder := (D.tryDecode s.decoder).1 }).Sorted D H S := hc.setState hs'
  unfold advance
  dsimp only
  split_ifs
  · exact ⟨hset, fun _ _ _ h => by cases h⟩
  · split
    · exact ⟨hset, fun _ _ _ h => by cases h⟩
    · rename_i decoded hdec
      refine ⟨?_, fun author appMessage chunks h => ?_⟩
      · exact hset.setTier (t := t) fun k en hk => hset t k en (SoftQuotaCache.remove_within _ key k en hk)
      · cases h
        refine ⟨rfl, ?_, hmem, fun ch hch => ?_⟩
        · have hsize := D.length_reconstruct hdec
          have hcovers := hs'.covers
          dsimp only at hsize hcovers
          split_ifs with hlong
          · exact List.length_take_of_le (Nat.le_of_lt hlong)
          · omega
        · obtain ⟨hk, hl, hv⟩ := hs.chunks ch hch
          exact ⟨hk.trans hkey.symm, hl.trans hlen.symm, hv⟩

/-- The tiers after a call, and what a decoded message is. -/
theorem tryDecode_sorted (hc : c.Sorted D H S) (hv : Validated H S msg) (env : CallEnv) (vs : Option ValidatorSet) :
    (c.tryDecode D H env msg vs).2.Sorted D H S ∧ ∀ author appMessage chunks,
      (c.tryDecode D H env msg vs).1 = .ok (.decoded author appMessage chunks) →
        DecodedFrom H S msg author appMessage chunks := by
  unfold tryDecode
  dsimp only
  split
  · split <;> exact ⟨hc, fun _ _ _ h => by cases h⟩
  · split
    · rename_i en hen
      have hof := hc _ _ en hen
      split
      · exact ⟨hc.setState hof, fun _ _ _ h => by cases h⟩
      · rename_i s' hs'
        obtain ⟨hof', hmem⟩ := hof.handleMessage hv rfl hs'
        exact advance_sorted hc rfl hof' hmem
    · rename_i hnone
      split
      · exact ⟨hc, fun _ _ _ h => by cases h⟩
      · rename_i s' hs'
        obtain ⟨hof', hmem⟩ := DecoderState.Of.new hv rfl hs'
        have hc' : (c.setTier (tierForMessage msg vs)
            ((c.tier (tierForMessage msg vs)).insert env (cacheKeyFromMessage H msg) msg s')).Sorted D H S := by
          refine hc.setTier fun k en hk => ?_
          rcases SoftQuotaCache.of_peek_insert hk with ⟨rfl, hst⟩ | ⟨-, hold⟩
          · rw [hst]
            exact hof'
          · exact hc _ k en hold
        split
        · exact ⟨hc', fun _ _ _ h => by cases h⟩
        · rename_i en hen
          have hst : en.state = s' := by
            simp only [setTier, if_true] at hen
            rcases SoftQuotaCache.of_peek_insert hen with ⟨-, hst⟩ | ⟨hne, -⟩
            · exact hst
            · exact absurd rfl hne
          rw [hst]
          exact advance_sorted hc' rfl hof' hmem

/-! ## What is remembered -/

/-- A call's effect on the recently-decoded cache: a decoded key is new in it, and no other key
enters or changes its taint. -/
structure Recalls (key : CacheKey) (decoded : Prop) (before after : Lru CacheKey RecentlyDecoded) : Prop where
  fresh : decoded → before.peek key = none ∧ (after.peek key).isSome
  kept : ∀ k r', after.peek k = some r' → (∃ r, before.peek k = some r ∧ r'.tainted = r.tainted) ∨ (decoded ∧ k = key)

theorem Recalls.same {decoded : Prop} (before : Lru CacheKey RecentlyDecoded) (hd : ¬ decoded) :
    Recalls key decoded before before :=
  ⟨fun h => absurd h hd, fun _ r' h => .inl ⟨r', h, rfl⟩⟩

def Decodes (r : Except DecodeError DecodedResult × DecoderCache δ) : Prop :=
  ∃ author appMessage chunks, r.1 = .ok (.decoded author appMessage chunks)

theorem advance_recalls (hnone : c.recentlyDecoded.peek key = none) :
    Recalls key (Decodes (c.advance D t key msg s)) c.recentlyDecoded (c.advance D t key msg s).2.recentlyDecoded := by
  unfold advance
  dsimp only
  split_ifs
  · exact .same _ fun ⟨_, _, _, h⟩ => by cases h
  · split
    · exact .same _ fun ⟨_, _, _, h⟩ => by cases h
    · refine ⟨fun _ => ⟨hnone, ?_⟩, fun k r' h => ?_⟩
      · rw [Lru.peek_put_self]
        rfl
      · rcases Lru.of_peek_put h with ⟨hk, -⟩ | ⟨-, hold⟩
        · exact .inr ⟨⟨_, _, _, rfl⟩, hk⟩
        · exact .inl ⟨r', hold, rfl⟩

theorem handleMessage_tainted {r r' : RecentlyDecoded} (h : r.handleMessage msg = .ok r') : r'.tainted = r.tainted := by
  unfold RecentlyDecoded.handleMessage at h
  split_ifs at h
  obtain ⟨u, -, hr'⟩ := bind_eq_ok.mp h
  cases hr'
  rfl

theorem tryDecode_recalls (env : CallEnv) (vs : Option ValidatorSet) :
    Recalls (cacheKeyFromMessage H msg) (Decodes (c.tryDecode D H env msg vs)) c.recentlyDecoded
      (c.tryDecode D H env msg vs).2.recentlyDecoded := by
  unfold tryDecode
  dsimp only
  split
  · rename_i rd hrd
    split
    · refine ⟨fun ⟨_, _, _, h⟩ => (by cases h), fun k r' h => ?_⟩
      rw [Lru.peek_touch] at h
      exact .inl ⟨r', h, rfl⟩
    · rename_i rd' hrd'
      refine ⟨fun ⟨_, _, _, h⟩ => (by cases h), fun k r' h => .inl ?_⟩
      rw [Lru.peek_update, Lru.peek_touch, Lru.peek_touch, hrd] at h
      by_cases hk : k = cacheKeyFromMessage H msg
      · rw [if_pos hk] at h
        cases h
        rw [hk]
        exact ⟨rd, hrd, handleMessage_tainted hrd'⟩
      · rw [if_neg hk] at h
        exact ⟨r', h, rfl⟩
  · rename_i hnone
    split
    · split
      · exact .same _ fun ⟨_, _, _, h⟩ => by cases h
      · exact advance_recalls hnone
    · split
      · exact .same _ fun ⟨_, _, _, h⟩ => by cases h
      · split
        · exact .same _ fun ⟨_, _, _, h⟩ => by cases h
        · exact advance_recalls hnone

end DecoderCache

end Given

end MonadBft.RaptorCast
