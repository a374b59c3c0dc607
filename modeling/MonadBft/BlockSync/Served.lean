/-
  MonadBft.BlockSync.Served — whether a peer accepts the headers it is sent.

  A peer's request for headers is answered from the block tree, or it waits for the ledger and
  is answered with what the ledger has, followed by what was cached. `Served` is the state with,
  for every request that waits, the range the peer asked for and how many of its blocks were
  known. An answer is acceptable if it carries that range and `verifyBlockHeaders` accepts it.

  The peer wants the oldest header first. The handler hands out the known blocks newest first,
  because it takes the order of `GetParentBlockChain` for the opposite one, and looks for the
  tip of the answer at the wrong end.

  Proved: in every run, an answer with headers is acceptable exactly if at most one block was
  known when the request came, and fewer than `2 ^ 63` were asked for
  (`answer_acceptable_iff`).
-/
import MonadBft.BlockSync.PeerRequests

namespace MonadBft

open Lib List

/-- A path of headers, newest first. -/
abbrev HeaderPath : BlockId → List ConsensusBlockHeader → BlockId → Prop :=
  Linked ConsensusBlockHeader.getId ConsensusBlockHeader.getParentId

theorem headerPath_map {b b' : BlockId} {l : List ConsensusFullBlock} :
    HeaderPath b (l.map (·.header)) b' ↔ BlockPath b l b' := Linked.map_iff

variable {hs : List ConsensusBlockHeader} {L : Ledger}

theorem headerPath_reverse_cons {b b' : BlockId} {h : ConsensusBlockHeader} :
    HeaderPath b (h :: hs).reverse b' ↔ HeaderPath b hs.reverse h.getId ∧ h.getParentId = b' := by
  rw [reverse_cons]
  exact Linked.snoc_iff

/-! ## The ledger -/

structure Ledger where
  getBlock : BlockId → Option ConsensusFullBlock
  getBody : BodyId → Option ConsensusBlockBody
  keyed : ∀ id b, getBlock id = some b → b.getId = id
  bodies : ∀ id b, getBody id = some b → b.getId = id

namespace Ledger

/-- The blocks `getHeaders` collects, newest first, and where it stops. -/
def collect (L : Ledger) (range : BlockRange) : List ConsensusFullBlock × BlockId :=
  follow (fun id => if id = GENESIS_BLOCK_ID then none else L.getBlock id) (·.getParentId)
    range.numBlocks range.lastBlockId

/-- `Ledger.getHeaders`: as many headers as asked for, or all up to genesis. -/
def getHeaders (L : Ledger) (range : BlockRange) : HeadersResponse :=
  let r := L.collect range
  if r.1 ≠ [] ∧ (r.1.length = range.numBlocks ∨ r.2 = GENESIS_BLOCK_ID) then
    .found range (r.1.map (·.header)).reverse
  else .notAvailable range

def getPayload (L : Ledger) (id : BodyId) : BodyResponse :=
  match L.getBody id with
  | some b => .found b
  | none => .notAvailable id

/-- What the ledger answers to a fetch. -/
def respond (L : Ledger) : RequestMessage → ResponseMessage
  | .headers range => .headers (L.getHeaders range)
  | .payload id => .payload (L.getPayload id)

theorem getHeaders_range (L : Ledger) (range : BlockRange) : (L.getHeaders range).getBlockRange = range := by
  unfold getHeaders
  simp only
  split <;> rfl

/-- What the ledger finds is a chain that ends in the block asked for, complete or from the
genesis block on. -/
theorem getHeaders_found {range r : BlockRange}
    (h : L.getHeaders range = .found r hs) : r = range ∧ hs ≠ [] ∧ hs.length ≤ range.numBlocks ∧
      ∃ first, HeaderPath range.lastBlockId hs.reverse first ∧
        (hs.length = range.numBlocks ∨ first = GENESIS_BLOCK_ID) := by
  unfold getHeaders at h
  simp only at h
  split at h
  · rename_i hc
    obtain ⟨rfl, rfl⟩ := HeadersResponse.found.inj h
    have hlink : BlockPath range.lastBlockId (L.collect range).1 (L.collect range).2 := by
      refine follow_linked ?_ _ _
      intro id b hb
      split_ifs at hb
      exact L.keyed id b hb
    have hle : (L.collect range).1.length ≤ range.numBlocks := follow_length_le _ _
    refine ⟨rfl, by simpa using hc.1, by simpa using hle, (L.collect range).2, ?_, by simpa using hc.2⟩
    rw [reverse_reverse]
    exact headerPath_map.mpr hlink
  · cases h

end Ledger

namespace BlockSync

/-! ## What the peer accepts -/

/-- The links `verifyBlockHeaders` checks, and the tip, make a path. -/
theorem links_iff {last : BlockId} (h : ConsensusBlockHeader) (hs : List ConsensusBlockHeader) :
    HeaderPath last (h :: hs).reverse h.getParentId ↔ last = ((h :: hs).getLast (by simp)).getId ∧
        ((h :: hs).zip hs).all (fun p => p.1.getId = p.2.getParentId) = true := by
  induction hs generalizing h with
  | nil => simp [Linked.cons_iff, Linked.nil_iff]
  | cons h₂ hs ih =>
    rw [headerPath_reverse_cons]
    simp only [and_true, zip_cons_cons, all_cons, Bool.and_eq_true, decide_eq_true_eq]
    -- the path from the tip to `h` is one to the parent of `h₂`
    have hend : HeaderPath last (h₂ :: hs).reverse h.getId ↔
        HeaderPath last (h₂ :: hs).reverse h₂.getParentId ∧ h.getId = h₂.getParentId := by
      constructor
      · intro hpath
        have hp : h₂.getParentId = h.getId := (headerPath_reverse_cons.mp hpath).2
        rw [hp]
        exact ⟨hpath, rfl⟩
      · rintro ⟨hpath, hp⟩
        rwa [hp]
    rw [hend, ih]
    simp only [getLast_cons_cons]
    tauto

variable {hs : List ConsensusBlockHeader} {r : BlockSync × List Command}

theorem verifyBlockHeaders_iff {range : BlockRange} :
    verifyBlockHeaders range hs = true ↔ hs ≠ [] ∧ hs.length ≤ int64 range.numBlocks ∧
      ∃ first, HeaderPath range.lastBlockId hs.reverse first ∧
        (hs.length = int64 range.numBlocks ∨ first = GENESIS_BLOCK_ID) := by
  cases hs with
  | nil => simp [verifyBlockHeaders]
  | cons h hs =>
    have hlast : (h :: hs).getLast? = some ((h :: hs).getLast (by simp)) := getLast?_eq_some_getLast _
    simp only [verifyBlockHeaders, head?_cons, hlast, tail_cons, Bool.and_eq_true,
      Bool.or_eq_true, decide_eq_true_eq]
    constructor
    · rintro ⟨⟨⟨hle, hid⟩, hlinks⟩, hshort⟩
      exact ⟨by simp, hle, _, (links_iff h hs).mpr ⟨hid, hlinks⟩, hshort⟩
    · rintro ⟨_, hle, first, hpath, hshort⟩
      obtain rfl := (headerPath_reverse_cons.mp hpath).2
      obtain ⟨hid, hlinks⟩ := (links_iff h hs).mp hpath
      exact ⟨⟨⟨hle, hid⟩, hlinks⟩, hshort⟩

/-! ## Requests and their answers -/

/-- A request for headers: the range, and how many of its blocks were known when it came. -/
structure Asked where
  range : BlockRange
  known : Nat
  deriving DecidableEq, Repr

/-- The range asked for, with headers that the peer's check accepts. -/
def Acceptable (q : Asked) (r : BlockRange) (hs : List ConsensusBlockHeader) : Prop :=
  r = q.range ∧ verifyBlockHeaders q.range hs = true

/-- At most one block was known, and the number asked for is positive as an `int`. -/
def Asked.Plain (q : Asked) : Prop := q.known ≤ 1 ∧ q.range.numBlocks < 2 ^ 63

/-- What was asked by a request that comes now. -/
def asks (w : Wrapper) (range : BlockRange) : Asked := ⟨range, (known w range).1.length⟩

variable {w : Wrapper} {bs : BlockSync} {range : BlockRange} {q : Asked}

/-- The oldest of two or more known blocks is not the one that was asked for last. -/
theorem oldest_ne {last first : BlockId} {l : List ConsensusBlockHeader} {x : ConsensusBlockHeader}
    (h : HeaderPath last (l ++ [x]) first) (hl : l ≠ []) : x.getId ≠ last := by
  obtain ⟨b, l', rfl⟩ := exists_cons_of_ne_nil hl
  exact Linked.ne_of_mem_tail (r := BlockId.rank) getParentId_length_lt h
    (mem_append_right l' (.head _))

/-- The known blocks, the newest first, are acceptable only if there is but one. -/
theorem direct_acceptable_iff (h0 : range.numBlocks ≠ 0) (hn : range.numBlocks < 2 ^ 63)
    (h : range.numBlocks ≤ (known w range).1.length) : Acceptable (asks w range) range
      (((known w range).1.drop ((known w range).1.length - range.numBlocks)).map (·.header)) ↔
    (asks w range).Plain := by
  have hlink := headerPath_map.mpr (known_linked w range)
  have hlen : (known w range).1.length = ((known w range).1.map (·.header)).length := by simp
  simp only [Acceptable, Asked.Plain, asks, true_and, hn, and_true, map_drop, hlen] at h ⊢
  generalize (known w range).1.map (·.header) = l at *
  generalize (known w range).2 = first at *
  rw [verifyBlockHeaders_iff, int64_of_lt hn]
  rcases eq_nil_or_concat l with rfl | ⟨l, x, rfl⟩
  · simp only [length_nil] at h
    omega
  rw [concat_eq_append] at *
  simp only [length_append, length_cons, length_nil] at h ⊢
  rw [drop_append_of_le_length (by omega), reverse_append]
  constructor
  · -- the tip of the answer is the oldest known block
    rintro ⟨_, _, _, hpath, _⟩
    have htip : range.lastBlockId = x.getId := (Linked.cons_iff.mp hpath).1
    by_contra hlen
    refine oldest_ne hlink ?_ htip.symm
    rintro rfl
    simp at hlen
  · intro hlen
    obtain rfl : l = [] := eq_nil_of_length_eq_zero (by omega)
    have hone : range.numBlocks = 1 := by
      simp only [length_nil] at h
      omega
    exact ⟨by simp, by simp [hone], first, by simpa using hlink, .inl (by simp [hone])⟩

structure Pending (fetch : BlockRange) (q : Asked) (cached : List ConsensusBlockHeader) : Prop where
  path : ∃ first, HeaderPath q.range.lastBlockId cached first ∧ (q.known ≤ 1 → first = fetch.lastBlockId)
  known : cached.length = q.known
  fetched : fetch = fetchRange q.range cached
  more : q.known < q.range.numBlocks

/-- What the ledger finds, followed by the known blocks the newest first. -/
theorem assembled_acceptable_iff {fetch r : BlockRange} {cached : List ConsensusBlockHeader}
    (hq : Pending fetch q cached) (h : assemble (L.getHeaders fetch) cached = .found r hs) :
    Acceptable q r hs ↔ q.Plain := by
  cases hL : L.getHeaders fetch with
  | notAvailable r' => simp [hL, assemble] at h
  | found r' hs' =>
    obtain ⟨rfl, hne, hle, first', hpath', hshort⟩ := Ledger.getHeaders_found hL
    obtain ⟨first, hpath, hfirst⟩ := hq.path
    have hbound := q.range.bound
    have hknown := hq.known
    have hmore := hq.more
    have hfetch : r'.numBlocks = q.range.numBlocks - cached.length := by
      rw [hq.fetched]
      exact sub64_of_le (by omega) hbound
    have hsum : add64 r'.numBlocks cached.length = q.range.numBlocks := by
      rw [hfetch, add64_of_lt (by omega)]
      omega
    rw [hL] at h
    simp only [assemble, HeadersResponse.getBlockRange, hsum, HeadersResponse.found.injEq] at h
    obtain ⟨rfl, rfl⟩ := h
    simp only [Acceptable, BlockRange.ext_iff, and_true, verifyBlockHeaders_iff, Asked.Plain]
    constructor
    · rintro ⟨htip, _, hlen, _⟩
      refine ⟨?_, ?_⟩
      · by_contra htwo
        rcases eq_nil_or_concat cached with rfl | ⟨l, x, rfl⟩
        · simp only [length_nil] at hknown
          omega
        · rw [concat_eq_append] at *
          refine oldest_ne hpath ?_ (by simpa using htip)
          rintro rfl
          simp only [nil_append, length_cons, length_nil] at hknown
          omega
      · by_contra hge
        have := int64_of_ge (Nat.not_lt.mp hge) hbound
        omega
    · rintro ⟨hone, hn⟩
      obtain rfl := hfirst hone
      have hrev : cached.reverse = cached := by
        rcases cached with _ | ⟨x, _ | ⟨y, l⟩⟩
        · rfl
        · rfl
        · simp only [length_cons] at hknown
          omega
      refine ⟨?_, ?_, ?_, first', ?_, ?_⟩
      · rcases cached with _ | ⟨x, _ | ⟨y, l⟩⟩
        · exact (Linked.nil_iff.mp hpath).symm
        · exact (Linked.cons_iff.mp hpath).1.symm
        · simp only [length_cons] at hknown
          omega
      · simp [hne]
      · rw [int64_of_lt hn, length_append]
        omega
      · rw [reverse_append, hrev]
        exact Linked.append_iff.mpr ⟨_, hpath, hpath'⟩
      · rcases hshort with hfull | hgen
        · left
          rw [int64_of_lt hn, length_append]
          omega
        · exact .inr hgen

/-! ## Runs -/

/-- The state of block sync and, for every peer that waits for a range, what it asked for. -/
structure Served where
  bs : BlockSync
  asked : BlockRange → NodeId → Option Asked

/-- Responses to the node itself come from its ledger. -/
def Event.FromLedger : Event → Prop
  | .selfResponse m => ∃ (L : Ledger) (fetch : RequestMessage), m = L.respond fetch
  | _ => True

/-- Who waits for what after an event that emitted the commands. -/
def track (w : Wrapper) (asked : BlockRange → NodeId → Option Asked) :
    Event → List Command → BlockRange → NodeId → Option Asked
  | .request sender (.headers range), [.fetchHeaders fetch] => fun r peer =>
    if r = fetch ∧ peer = sender then some (asks w range) else asked r peer
  | .selfResponse (.headers hr), _ => fun r peer => if r = hr.getBlockRange then none else asked r peer
  | _, _ => asked

inductive Reach : Served → Prop
  | new (peers : List NodeId) (self : NodeId) : Reach ⟨new peers self, fun _ _ => none⟩
  | event {s : Served} {w : Wrapper} {ev : Event} {r : BlockSync × List Command} :
      Reach s → ev.FromLedger → update w s.bs ev = .ok r → Reach ⟨r.1, track w s.asked ev r.2⟩
  | setOverridePeers {s : Served} (peers : List NodeId) :
      Reach s → Reach ⟨s.bs.setOverridePeers peers, s.asked⟩

/-- The request that a response to `peer` answers. -/
def Served.answered (s : Served) (w : Wrapper) (peer : NodeId) : Event → Option Asked
  | .request sender (.headers range) => if peer = sender then some (asks w range) else none
  | .selfResponse (.headers hr) => s.asked hr.getBlockRange peer
  | _ => none

/-- Whoever waits for a range has asked for it. -/
def Served.Inv (s : Served) : Prop :=
  ∀ fetch entry peer cached, s.bs.headersRequests.get fetch = some entry → entry.get peer = some cached →
    ∃ q, s.asked fetch peer = some q ∧ Pending fetch q cached

theorem pending_of_request (h : (known w range).1.length < range.numBlocks) :
    Pending (fetchRange range ((known w range).1.map (·.header))) (asks w range)
      ((known w range).1.map (·.header)) where
  path := ⟨_, headerPath_map.mpr (known_linked w range), fun hone => (fetchRange_lastBlockId.mpr hone).symm⟩
  known := by simp [asks]
  fetched := rfl
  more := h

variable {s : Served} {sender : NodeId}

theorem Served.Inv.same (h : s.Inv) (hb : bs.headersRequests = s.bs.headersRequests) : Served.Inv ⟨bs, s.asked⟩ := by
  intro fetch entry peer cached hentry hpeer
  exact h fetch entry peer cached (hb ▸ hentry) hpeer

theorem inv_request (h : s.Inv) (hr : handlePeerRequest w s.bs sender (.headers range) = .ok r) :
    Served.Inv ⟨r.1, track w s.asked (.request sender (.headers range)) r.2⟩ := by
  rcases handlePeerRequest_cases hr with rfl | ⟨_, _, _, rfl⟩ | ⟨hmore, rfl⟩
  · exact h
  · exact h
  · intro fetch entry peer cached hentry hpeer
    simp only [track]
    simp only [await, AMap.get_insert] at hentry
    split_ifs at hentry with hf
    · obtain rfl := Option.some.inj hentry
      rw [AMap.get_insert] at hpeer
      by_cases hp : peer = sender
      · rw [if_pos hp] at hpeer
        obtain rfl := Option.some.inj hpeer
        rw [hf, if_pos ⟨rfl, hp⟩]
        exact ⟨_, rfl, pending_of_request hmore⟩
      · rw [if_neg hp] at hpeer
        rw [if_neg fun hc => hp hc.2]
        cases hold : s.bs.headersRequests.get (fetchRange range ((known w range).1.map (·.header))) with
        | none => simp [hold] at hpeer
        | some old =>
          rw [hold, Option.getD_some] at hpeer
          exact h fetch old peer cached (hf ▸ hold) hpeer
    · rw [if_neg fun hc => hf hc.1]
      exact h fetch entry peer cached hentry hpeer

theorem inv_ledger {hr : HeadersResponse} (h : s.Inv) (hr' : handleLedgerResponse w s.bs (.headers hr) = .ok r) :
    Served.Inv ⟨r.1, track w s.asked (.selfResponse (.headers hr)) r.2⟩ := by
  intro fetch entry peer cached hentry hpeer
  obtain ⟨r', hself, hp⟩ := bind_eq_ok.mp hr'
  obtain rfl := pure_eq_ok.mp hp
  have hkept := (SelfOnly.handleHeadersResponseForSelf hself).headersRequests
  rw [hkept, AMap.get_erase] at hentry
  split_ifs at hentry with hf
  simp only [track, if_neg hf]
  exact h fetch entry peer cached hentry hpeer

theorem handleLedgerResponse_payload {pr : BodyResponse} (h : handleLedgerResponse w bs (.payload pr) = .ok r) :
    r.1.headersRequests = bs.headersRequests ∧ ∀ peer hr, Command.sendResponse peer (.headers hr) ∉ r.2 := by
  obtain ⟨r', hself, hp⟩ := bind_eq_ok.mp h
  obtain rfl := pure_eq_ok.mp hp
  have hkept := SelfOnly.handlePayloadResponseForSelf hself
  refine ⟨hkept.headersRequests, ?_⟩
  intro peer hr hm
  rcases mem_append.mp hm with hm | hm
  · simp at hm
  · exact hkept.silent peer _ hm

theorem handlePeerRequest_payload {id : BodyId} (h : handlePeerRequest w bs sender (.payload id) = .ok r) :
    r.1.headersRequests = bs.headersRequests ∧ ∀ peer hr, Command.sendResponse peer (.headers hr) ∉ r.2 := by
  simp only [handlePeerRequest] at h
  split at h
  · obtain rfl := Except.ok.inj h
    simp
  · obtain rfl := Except.ok.inj h
    simp

theorem Reach.inv (h : Reach s) : s.Inv := by
  induction h with
  | new peers self =>
    intro fetch entry peer cached hentry
    simp [BlockSync.new] at hentry
  | setOverridePeers peers _ ih => exact ih.same rfl
  | @event s w ev r _ _ hr ih =>
    cases ev with
    | request sender m =>
      cases m with
      | headers range => exact inv_request ih hr
      | payload id => exact ih.same (handlePeerRequest_payload hr).1
    | selfRequest requester range =>
      obtain rfl := Except.ok.inj hr
      exact ih.same (SelfOnly.handleSelfRequest s.bs requester range).headersRequests
    | selfCancelRequest requester range =>
      obtain rfl := Except.ok.inj hr
      exact ih.same rfl
    | selfResponse m =>
      cases m with
      | headers hr' => exact inv_ledger ih hr
      | payload pr => exact ih.same (handleLedgerResponse_payload hr).1
    | response sender m => exact ih.same (SelfOnly.handlePeerResponse hr).headersRequests
    | timeout m => exact ih.same (SelfOnly.handleTimeout hr).headersRequests

/-! ## Answers -/

theorem ledger_answer {fetch r' : BlockRange} {peer : NodeId} (hinv : s.Inv)
    (hr : handleLedgerResponse w s.bs (.headers (L.getHeaders fetch)) = .ok r)
    (hc : Command.sendResponse peer (.headers (.found r' hs)) ∈ r.2) :
    ∃ q, s.asked fetch peer = some q ∧ (Acceptable q r' hs ↔ q.Plain) := by
  obtain ⟨r₁, hself, hp⟩ := bind_eq_ok.mp hr
  obtain rfl := pure_eq_ok.mp hp
  rcases mem_append.mp hc with hc | hc
  · obtain ⟨⟨p, cached⟩, hmem, hcmd⟩ := mem_map.mp hc
    rw [mem_shuffle, L.getHeaders_range] at hmem
    simp only [Command.sendResponse.injEq, ResponseMessage.headers.injEq] at hcmd
    obtain ⟨rfl, hassembled⟩ := hcmd
    cases hentry : s.bs.headersRequests.get fetch with
    | none => simp [hentry, AMap.empty] at hmem
    | some entry =>
      rw [hentry, Option.getD_some] at hmem
      obtain ⟨q, hq, hpend⟩ := hinv fetch entry p cached hentry (AMap.get_eq_some.mpr hmem)
      exact ⟨q, hq, assembled_acceptable_iff hpend hassembled⟩
  · exact absurd hc ((SelfOnly.handleHeadersResponseForSelf hself).silent peer _)

/-- In every run, headers that are sent to a peer answer a request of that peer, and the peer
accepts them exactly if the request was `Plain`. -/
theorem answer_acceptable_iff {s : Served} {w : Wrapper} {ev : Event} {r : BlockSync × List Command}
    {peer : NodeId} {r' : BlockRange} {hs : List ConsensusBlockHeader}
    (hs' : Reach s) (hev : ev.FromLedger) (hr : update w s.bs ev = .ok r)
    (hc : Command.sendResponse peer (.headers (.found r' hs)) ∈ r.2) :
    ∃ q, s.answered w peer ev = some q ∧ (Acceptable q r' hs ↔ q.Plain) := by
  cases ev with
  | request sender m =>
    cases m with
    | headers range =>
      rcases handlePeerRequest_cases hr with rfl | ⟨h0, hn, hle, rfl⟩ | ⟨_, rfl⟩
      · simp at hc
      · simp only [List.mem_singleton, Command.sendResponse.injEq, ResponseMessage.headers.injEq,
          HeadersResponse.found.injEq] at hc
        obtain ⟨rfl, rfl, rfl⟩ := hc
        exact ⟨_, if_pos rfl, direct_acceptable_iff h0 hn hle⟩
      · simp at hc
    | payload id => exact absurd hc ((handlePeerRequest_payload hr).2 peer _)
  | selfRequest requester range =>
    obtain rfl := Except.ok.inj hr
    exact absurd hc ((SelfOnly.handleSelfRequest s.bs requester range).silent peer _)
  | selfCancelRequest requester range =>
    obtain rfl := Except.ok.inj hr
    simp at hc
  | selfResponse m =>
    obtain ⟨L, fetch, rfl⟩ := hev
    cases fetch with
    | headers fetch =>
      obtain ⟨q, hq, hiff⟩ := ledger_answer hs'.inv hr hc
      refine ⟨q, ?_, hiff⟩
      simp only [Served.answered, Ledger.respond, L.getHeaders_range]
      exact hq
    | payload id => exact absurd hc ((handleLedgerResponse_payload hr).2 peer _)
  | response sender m => exact absurd hc ((SelfOnly.handlePeerResponse hr).silent peer _)
  | timeout m => exact absurd hc ((SelfOnly.handleTimeout hr).silent peer _)

/-- A node that knows the second block only, whose ledger has the first. -/
def newestOnly : Wrapper :=
  wrapperOf (.blockTree ((BlockTree.new Scenario.genesisRoot).add (fun _ => []) Scenario.block2))

def firstBlock : Ledger where
  getBlock id := if id = Scenario.block1.getId then some Scenario.block1 else none
  getBody _ := none
  keyed id b h := by
    split_ifs at h with hid
    rw [hid, Option.some.inj h]
  bodies id b h := by cases h

def lastTwo : BlockRange := ⟨Scenario.block2.getId, 2, by decide⟩

def missing : BlockRange := ⟨Scenario.block1.getId, 1, by decide⟩

/-- A peer waits for the missing block, with the one that was known when it asked for two. -/
def halfKnown : Served where
  bs := (new [] 0).await missing 1 [Scenario.block2.header]
  asked r peer := if r = missing ∧ peer = 1 then some ⟨lastTwo, 1⟩ else none

theorem reach_halfKnown : Reach halfKnown := by
  have hr : update newestOnly (new [] 0) (.request 1 (.headers lastTwo)) =
      .ok (halfKnown.bs, [.fetchHeaders missing]) := by decide +kernel
  have hasks : asks newestOnly lastTwo = ⟨lastTwo, 1⟩ := by decide +kernel
  have hev : Event.FromLedger (.request 1 (.headers lastTwo)) := trivial
  have hreach := Reach.event (.new [] 0) hev hr
  rwa [track, hasks] at hreach

/-- The ledger has the other block, and the peer accepts what the two make together. -/
theorem answer_acceptable_iff_assembled :
    (∃ q, halfKnown.answered newestOnly 1 (.selfResponse (firstBlock.respond (.headers missing))) = some q ∧
      (Acceptable q lastTwo [Scenario.block1.header, Scenario.block2.header] ↔ q.Plain)) ∧
    Acceptable ⟨lastTwo, 1⟩ lastTwo [Scenario.block1.header, Scenario.block2.header] := by
  have hr : update newestOnly halfKnown.bs (.selfResponse (firstBlock.respond (.headers missing))) =
      .ok (new [] 0, [.sendResponse 1 (.headers (.found lastTwo
        [Scenario.block1.header, Scenario.block2.header]))]) := by decide +kernel
  refine ⟨answer_acceptable_iff reach_halfKnown ⟨_, _, rfl⟩ hr (.head _), rfl, ?_⟩
  decide +kernel

/-- With two blocks known, the peer that asks for the newer one is sent the older one. -/
theorem older_block_is_sent : (update (wrapperOf (.blockTree Scenario.twoBlocks)) (new [] 0)
      (.request 1 (.headers ⟨Scenario.block2.getId, 1, by decide⟩))).map Prod.snd =
        .ok [.sendResponse 1 (.headers (.found ⟨Scenario.block2.getId, 1, by decide⟩
          [Scenario.block1.header]))] ∧
    verifyBlockHeaders ⟨Scenario.block2.getId, 1, by decide⟩ [Scenario.block1.header] = false := by
  decide +kernel

end BlockSync

end MonadBft
