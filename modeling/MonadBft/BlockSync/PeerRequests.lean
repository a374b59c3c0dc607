/-
  MonadBft.BlockSync.PeerRequests — what a peer can do to the node by asking for blocks.

  A request is handled well (`HandledWell`) when the handler returns with one command, which
  answers the sender or fetches what the cache lacks (and with none for an empty range). A
  number of blocks of `2 ^ 63` or more is negative as an `int`, and `chain[:n]` panics when the
  cache is a block tree. `GetParentBlockChain` returns the oldest block first and the handler
  takes it for the newest: when two or more of the blocks asked for are known, and more are
  missing, it fetches the parents of the newest known block instead of those of the oldest.

  Proved: these are the only requests handled badly, and a response of a peer never panics
  (`peer_messages_handled_iff`).
-/
import MonadBft.BlockSync.SelfRequests
import MonadBft.Scenario

namespace MonadBft.BlockSync

open Lib List

/-! ## What a request should do -/

/-- What the cache has of the chain that ends in the last block asked for, newest first, and
the first block it lacks. -/
def known (w : Wrapper) (range : BlockRange) : List ConsensusFullBlock × BlockId :=
  match w.cache with
  | .payloadCache _ => ([], range.lastBlockId)
  | .blockTree t => t.walk (fun _ => false) range.lastBlockId

/-- The command answers the sender's request. -/
def Answers (sender : NodeId) : RequestMessage → Command → Prop
  | .headers range, .sendResponse peer (.headers r) => peer = sender ∧ r.getBlockRange = range
  | .payload id, .sendResponse peer (.payload r) => peer = sender ∧ r.getPayloadId = id
  | _, _ => False

/-- The command reads what the cache lacks from the ledger. -/
def FetchesMissing (w : Wrapper) : RequestMessage → Command → Prop
  | .headers range, .fetchHeaders r =>
    r.lastBlockId = (known w range).2 ∧ r.numBlocks = range.numBlocks - (known w range).1.length
  | .payload id, .fetchPayload id' => id' = id
  | _, _ => False

def RequestMessage.IsEmpty : RequestMessage → Prop
  | .headers range => range.numBlocks = 0
  | .payload _ => False

/-- `HandlePeerRequest` returns, with the one command it should return. -/
def HandledWell (w : Wrapper) (bs : BlockSync) (sender : NodeId) (request : RequestMessage) : Prop :=
  ∃ bs' cmds, handlePeerRequest w bs sender request = .ok (bs', cmds) ∧
    (RequestMessage.IsEmpty request ∧ cmds = [] ∨ ¬RequestMessage.IsEmpty request ∧
      ∃ c, cmds = [c] ∧ (Answers sender request c ∨ FetchesMissing w request c))

/-- The requests for which it does. -/
def Servable (w : Wrapper) : RequestMessage → Prop
  | .payload _ => True
  | .headers range => range.numBlocks = 0 ∨ ∀ t, w.cache = .blockTree t → range.numBlocks < 2 ^ 63 ∧
      ((t.getParentBlockChain range.lastBlockId).length ≤ 1 ∨
        range.numBlocks ≤ (t.getParentBlockChain range.lastBlockId).length)

/-! ## The cached headers -/

variable {w : Wrapper} {bs : BlockSync} {sender : NodeId} {range : BlockRange} {t : BlockTree}

theorem known_linked (w : Wrapper) (range : BlockRange) :
    BlockPath range.lastBlockId (known w range).1 (known w range).2 := by
  unfold known
  split
  · exact Linked.nil _
  · exact BlockTree.walk_linked _ _ _

/-- None of the known blocks is the first unknown one. -/
theorem known_ne {b : ConsensusFullBlock} (h : b ∈ (known w range).1) : b.getId ≠ (known w range).2 := by
  have := Linked.rank_mem (r := BlockId.rank) ConsensusFullBlock.rank_lt (known_linked w range) h
  intro heq
  rw [heq] at this
  exact Nat.lt_irrefl _ this

theorem known_blockTree (hw : w.cache = .blockTree t) :
    t.getParentBlockChain range.lastBlockId = (known w range).1.reverse := by
  simp only [known, hw]
  rfl

/-- In a range of fewer than `2 ^ 63` blocks the handler takes the oldest known blocks, as many
as asked for, the newest of them first. -/
theorem cachedHeaders_eq (hn : range.numBlocks < 2 ^ 63) : cachedHeaders w range =
    .ok (((known w range).1.drop ((known w range).1.length - range.numBlocks)).map (·.header)) := by
  unfold cachedHeaders
  cases hw : w.cache with
  | payloadCache m => simp [known, hw]
  | blockTree t =>
    simp only [known_blockTree hw, int64_of_lt hn, length_reverse, reverse_reverse]
    by_cases hlt : range.numBlocks < (known w range).1.length
    · rw [if_pos (by omega), if_neg (by omega), Int.toNat_natCast, take_reverse, reverse_reverse]
    · rw [if_neg (by omega), Nat.sub_eq_zero_of_le (by omega), drop_zero]

theorem cachedHeaders_ge (hw : w.cache = .blockTree t) (hn : 2 ^ 63 ≤ range.numBlocks) :
    cachedHeaders w range = .error .sliceBounds := by
  have hneg := int64_of_ge hn range.bound
  simp only [cachedHeaders, hw]
  rw [if_pos (by omega), if_pos hneg]

/-! ## Requests for headers -/

theorem lt_of_known_ge (hn : range.numBlocks < 2 ^ 63 ∨ ∃ m, w.cache = .payloadCache m)
    (h : range.numBlocks ≤ (known w range).1.length) : range.numBlocks < 2 ^ 63 := by
  rcases hn with hn | ⟨m, hm⟩
  · exact hn
  · simp only [known, hm, length_nil] at h
    omega

theorem of_not_small (hn : ¬(range.numBlocks < 2 ^ 63 ∨ ∃ m, w.cache = .payloadCache m)) :
    ∃ t, w.cache = .blockTree t ∧ 2 ^ 63 ≤ range.numBlocks := by
  cases hw : w.cache with
  | payloadCache m => exact absurd (.inr ⟨m, hw⟩) hn
  | blockTree t => exact ⟨t, rfl, Nat.not_lt.mp fun h => hn (.inl h)⟩

/-- A range whose blocks are all known is answered. -/
theorem handlePeerRequest_answers (hn : range.numBlocks < 2 ^ 63) (h0 : range.numBlocks ≠ 0)
    (h : range.numBlocks ≤ (known w range).1.length) :
    handlePeerRequest w bs sender (.headers range) = .ok (bs, [.sendResponse sender (.headers (.found range
      (((known w range).1.drop ((known w range).1.length - range.numBlocks)).map (·.header))))]) := by
  simp only [handlePeerRequest, if_neg h0, cachedHeaders_eq hn, int64_of_lt hn]
  refine if_pos ?_
  simp only [length_map, length_drop]
  omega

/-- The range that is fetched when `cached` is known, the newest block first. -/
theorem fetchRange_known (h : (known w range).1.length < range.numBlocks) :
    (fetchRange range ((known w range).1.map (·.header))).numBlocks = range.numBlocks - (known w range).1.length := by
  have := range.bound
  simp only [fetchRange, length_map]
  exact sub64_of_le (by omega) range.bound

theorem handlePeerRequest_fetches (hn : range.numBlocks < 2 ^ 63 ∨ ∃ m, w.cache = .payloadCache m)
    (h : (known w range).1.length < range.numBlocks) : handlePeerRequest w bs sender (.headers range) =
      .ok (bs.await (fetchRange range ((known w range).1.map (·.header))) sender
        ((known w range).1.map (·.header)), [.fetchHeaders (fetchRange range ((known w range).1.map (·.header)))]) := by
  have hcached : cachedHeaders w range = .ok ((known w range).1.map (·.header)) := by
    rcases hn with hn | ⟨m, hw⟩
    · rw [cachedHeaders_eq hn, Nat.sub_eq_zero_of_le (by omega), drop_zero]
    · simp [cachedHeaders, known, hw]
  have hlen : ((known w range).1.length : Int) ≠ int64 range.numBlocks := by
    rcases hn with hn | ⟨m, hw⟩
    · rw [int64_of_lt hn]
      omega
    · have hk : (known w range).1.length = 0 := by simp [known, hw]
      have := int64_ne_zero range.bound (by omega)
      omega
  have h0 : range.numBlocks ≠ 0 := by omega
  rw [← length_map (f := fun b : ConsensusFullBlock => b.header)] at hlen
  rw [handlePeerRequest, if_neg h0, hcached, ok_bind, if_neg hlen]
  rfl

/-- It is the missing part exactly if at most one block is known: the fetch starts at the parent
of the newest known block. -/
theorem fetchRange_lastBlockId : (fetchRange range ((known w range).1.map (·.header))).lastBlockId = (known w range).2 ↔
      (known w range).1.length ≤ 1 := by
  have hlink := known_linked w range
  have hne : ∀ b ∈ (known w range).1, b.getId ≠ (known w range).2 := fun _ hb => known_ne hb
  unfold fetchRange
  generalize (known w range).1 = l at *
  generalize (known w range).2 = last at *
  cases l with
  | nil => simpa using Linked.nil_iff.mp hlink
  | cons b l =>
    cases l with
    | nil =>
      have hlast : b.header.getParentId = last := Linked.nil_iff.mp (Linked.cons_iff.mp hlink).2
      simpa using hlast
    | cons c l =>
      -- the parent of the newest block is known, so it is not what is missing
      have hc : b.getParentId = c.getId := (Linked.cons_iff.mp (Linked.cons_iff.mp hlink).2).1
      have := hne c (by simp)
      simp only [map_cons, head?_cons, Option.map_some, Option.getD_some, length_cons]
      constructor
      · intro heq
        exact absurd (hc.symm.trans heq) this
      · intro hl
        omega

/-- All that a request for headers can do. -/
theorem handlePeerRequest_cases {r : BlockSync × List Command}
    (h : handlePeerRequest w bs sender (.headers range) = .ok r) : r = (bs, []) ∨
    (range.numBlocks ≠ 0 ∧ range.numBlocks < 2 ^ 63 ∧ range.numBlocks ≤ (known w range).1.length ∧
      r = (bs, [.sendResponse sender (.headers (.found range
        (((known w range).1.drop ((known w range).1.length - range.numBlocks)).map (·.header))))])) ∨
    ((known w range).1.length < range.numBlocks ∧
      r = (bs.await (fetchRange range ((known w range).1.map (·.header))) sender
        ((known w range).1.map (·.header)),
        [.fetchHeaders (fetchRange range ((known w range).1.map (·.header)))])) := by
  by_cases h0 : range.numBlocks = 0
  · simp only [handlePeerRequest, if_pos h0] at h
    exact .inl (Except.ok.inj h).symm
  by_cases hn : range.numBlocks < 2 ^ 63 ∨ ∃ m, w.cache = .payloadCache m
  · by_cases hlt : (known w range).1.length < range.numBlocks
    · rw [handlePeerRequest_fetches hn hlt] at h
      exact .inr (.inr ⟨hlt, (Except.ok.inj h).symm⟩)
    · have hn' := lt_of_known_ge hn (Nat.le_of_not_lt hlt)
      rw [handlePeerRequest_answers hn' h0 (Nat.le_of_not_lt hlt)] at h
      exact .inr (.inl ⟨h0, hn', Nat.le_of_not_lt hlt, (Except.ok.inj h).symm⟩)
  · obtain ⟨t, hw, hge⟩ := of_not_small hn
    rw [handlePeerRequest, if_neg h0, cachedHeaders_ge hw hge] at h
    cases h

/-- A request handled with one command is handled well if the command is the right one. -/
theorem handledWell_of {request : RequestMessage} {bs' : BlockSync} {c : Command}
    (h : handlePeerRequest w bs sender request = .ok (bs', [c])) (he : ¬RequestMessage.IsEmpty request) :
    HandledWell w bs sender request ↔ Answers sender request c ∨ FetchesMissing w request c := by
  constructor
  · rintro ⟨bs₁, cmds, h₁, ⟨hemp, _⟩ | ⟨_, c₁, rfl, hc⟩⟩
    · exact absurd hemp he
    · rw [h] at h₁
      simp only [Except.ok.injEq, Prod.mk.injEq, cons.injEq, and_true] at h₁
      rw [h₁.2]
      exact hc
  · intro hc
    exact ⟨bs', [c], h, .inr ⟨he, c, rfl, hc⟩⟩

/-- A number of blocks that is negative as an `int` panics on a block tree. -/
theorem not_handledWell_of_ge (h0 : range.numBlocks ≠ 0) (hw : w.cache = .blockTree t)
    (hge : 2 ^ 63 ≤ range.numBlocks) : ¬HandledWell w bs sender (.headers range) := by
  rintro ⟨bs', cmds, h, _⟩
  rw [handlePeerRequest, if_neg h0, cachedHeaders_ge hw hge] at h
  cases h

theorem headers_handled_iff : HandledWell w bs sender (.headers range) ↔ Servable w (.headers range) := by
  by_cases h0 : range.numBlocks = 0
  · refine iff_of_true ⟨bs, [], ?_, .inl ⟨h0, rfl⟩⟩ (.inl h0)
    simp [handlePeerRequest, h0]
  have hserv : Servable w (.headers range) ↔ ∀ t, w.cache = .blockTree t →
      range.numBlocks < 2 ^ 63 ∧ ((known w range).1.length ≤ 1 ∨ range.numBlocks ≤ (known w range).1.length) := by
    simp only [Servable, h0, false_or]
    refine forall_congr' fun t => forall_congr' fun hw => ?_
    rw [known_blockTree hw, length_reverse]
  rw [hserv]
  by_cases hn : range.numBlocks < 2 ^ 63 ∨ ∃ m, w.cache = .payloadCache m
  · by_cases hlt : (known w range).1.length < range.numBlocks
    · rw [handledWell_of (handlePeerRequest_fetches hn hlt) h0]
      simp only [Answers, FetchesMissing, false_or, fetchRange_known hlt, and_true, fetchRange_lastBlockId]
      constructor
      · intro hone t hw
        refine ⟨hn.resolve_right ?_, .inl hone⟩
        rintro ⟨m, hm⟩
        rw [hw] at hm
        cases hm
      · intro hs
        cases hw : w.cache with
        | payloadCache m => simp [known, hw]
        | blockTree t =>
          have := (hs t hw).2
          omega
    · have hn' := lt_of_known_ge hn (Nat.le_of_not_lt hlt)
      have hans := @handlePeerRequest_answers w bs sender range hn' h0 (Nat.le_of_not_lt hlt)
      refine iff_of_true ((handledWell_of hans h0).mpr (.inl ⟨rfl, rfl⟩)) ?_
      intro t hw
      exact ⟨hn', .inr (Nat.le_of_not_lt hlt)⟩
  · obtain ⟨t, hw, hge⟩ := of_not_small hn
    refine iff_of_false (not_handledWell_of_ge h0 hw hge) fun h => ?_
    exact absurd (h t hw).1 (Nat.not_lt.mpr hge)

theorem payload_handled (w : Wrapper) (bs : BlockSync) (sender : NodeId) (id : BodyId) :
    HandledWell w bs sender (.payload id) := by
  cases hc : getCachedPayload w bs id with
  | some b =>
    have h : handlePeerRequest w bs sender (.payload id) =
        .ok (bs, [.sendResponse sender (.payload (.found b))]) := by simp only [handlePeerRequest, hc]
    exact (handledWell_of h not_false).mpr (.inl ⟨rfl, getCachedPayload_getId hc⟩)
  | none =>
    have h : ∃ bs', handlePeerRequest w bs sender (.payload id) = .ok (bs', [.fetchPayload id]) := by
      simp only [handlePeerRequest, hc]
      exact ⟨_, rfl⟩
    obtain ⟨bs', hbs'⟩ := h
    exact (handledWell_of hbs' not_false).mpr (.inr rfl)

/-! ## Peers' messages -/

/-- A request is handled well exactly if it is `Servable`; a response never panics. -/
theorem peer_messages_handled_iff (w : Wrapper) (bs : BlockSync) (sender : NodeId)
    (request : RequestMessage) (response : ResponseMessage) : (HandledWell w bs sender request ↔ Servable w request) ∧
      ∃ r, handlePeerResponse w bs sender response = .ok r := by
  refine ⟨?_, handlePeerResponse_ok w bs sender response⟩
  cases request with
  | headers range => exact headers_handled_iff
  | payload id => exact iff_of_true (payload_handled w bs sender id) trivial

def wrapperOf (cache : Cache) : Wrapper where
  cache := cache
  nodeId := 0
  currentEpoch := 1
  valEpochMap := Scenario.env.valEpochMap
  secondaryRaptorcastPeers := []
  draw := 0
  order _ := []

/-- A request for `2 ^ 63` blocks panics. A request for the two known blocks and the one before
them fetches the first of the known blocks again, where the genesis block is missing. -/
theorem huge_range_panics_and_known_block_is_fetched :
    handlePeerRequest (wrapperOf (.blockTree Scenario.twoBlocks)) (new [] 0) 1
      (.headers ⟨Scenario.block2.getId, 2 ^ 63, by decide⟩) = .error .sliceBounds ∧
    (handlePeerRequest (wrapperOf (.blockTree Scenario.twoBlocks)) (new [] 0) 1
      (.headers ⟨Scenario.block2.getId, 3, by decide⟩)).map Prod.snd =
        .ok [.fetchHeaders ⟨Scenario.block1.getId, 1, by decide⟩] ∧
    (known (wrapperOf (.blockTree Scenario.twoBlocks)) ⟨Scenario.block2.getId, 3, by decide⟩).2 = GENESIS_BLOCK_ID := by
  refine ⟨?_, by decide +kernel, by decide +kernel⟩
  rw [handlePeerRequest, if_neg (by decide), cachedHeaders_ge rfl (by decide)]
  rfl

end MonadBft.BlockSync
