/-
  MonadBft.BlockSync.State — requests for missing blocks, from peers and for the node itself
  (`blocksync.BlockSync`).

  Peers ask for ranges of headers and for payloads; what the block tree does not have is read
  from the node's own ledger, and the request waits under the range that was fetched. The
  node's own requests go to the ledger first and then to a peer; a range whose headers are
  there waits for its payloads.

  A payload sits in a completed block only if the header names it, and in a cache only under
  its own id. The metrics are left out.
-/
import MonadBft.BlockTree.Path
import MonadBft.Epoch

namespace MonadBft

open Lib

inductive RequestMessage where
  | headers (range : BlockRange)
  | payload (id : BodyId)
  deriving DecidableEq, Repr

inductive HeadersResponse where
  | found (range : BlockRange) (headers : List ConsensusBlockHeader)
  | notAvailable (range : BlockRange)
  deriving DecidableEq, Repr

def HeadersResponse.getBlockRange : HeadersResponse → BlockRange
  | .found range _ => range
  | .notAvailable range => range

inductive BodyResponse where
  | found (body : ConsensusBlockBody)
  | notAvailable (id : BodyId)
  deriving DecidableEq, Repr

def BodyResponse.getPayloadId : BodyResponse → BodyId
  | .found body => body.getId
  | .notAvailable id => id

inductive ResponseMessage where
  | headers (r : HeadersResponse)
  | payload (r : BodyResponse)
  deriving DecidableEq, Repr

namespace BlockSync

inductive SelfRequester where
  | consensus
  | stateSync
  deriving DecidableEq, Repr

inductive Command where
  | sendRequest (peer : NodeId) (request : RequestMessage)
  | scheduleTimeout (request : RequestMessage)
  | resetTimeout (request : RequestMessage)
  | sendResponse (peer : NodeId) (response : ResponseMessage)
  | fetchHeaders (range : BlockRange)
  | fetchPayload (payloadId : BodyId)
  | emit (requester : SelfRequester) (range : BlockRange) (fullBlocks : List ConsensusFullBlock)
  deriving DecidableEq, Repr

inductive Panic where
  /-- `blocksync: current epoch validator set missing` -/
  | currentEpochValidatorSetMissing
  /-- `blocksync: no validator has positive stake` -/
  | noPositiveStake
  /-- `blocksync: block_body_id mismatch` -/
  | blockBodyIdMismatch
  /-- a dereference of the payload a completed block does not have -/
  | nilPayload
  /-- `chain[:n]` with a negative `n` -/
  | sliceBounds
  deriving DecidableEq, Repr

/-- `SelfRequest`: an outstanding request (`To`); `peer` is `none` for the own ledger. -/
structure SelfRequest where
  requester : SelfRequester
  peer : Option NodeId
  deriving DecidableEq, Repr

structure PayloadMap where
  map : AMap BodyId ConsensusBlockBody
  keyed : ∀ {id b}, map.get id = some b → b.getId = id
  deriving DecidableEq

def PayloadMap.empty : PayloadMap := ⟨AMap.empty, by intro id b h; simp at h⟩

def PayloadMap.insert (m : PayloadMap) (b : ConsensusBlockBody) : PayloadMap where
  map := m.map.insert b.getId b
  keyed := by
    intro id b' h
    rw [AMap.get_insert] at h
    split_ifs at h with hid
    · rw [hid, ← Option.some.inj h]
    · exact m.keyed h

structure CompletedBlock where
  header : ConsensusBlockHeader
  payload : Option ConsensusBlockBody
  filled : ∀ {b}, payload = some b → b.getId = header.blockBodyId
  deriving DecidableEq

/-- A header whose payload is awaited. -/
def CompletedBlock.ofHeader (h : ConsensusBlockHeader) : CompletedBlock where
  header := h
  payload := none
  filled := by simp

/-- Whether the block waits for the payload `id`. -/
def CompletedBlock.lacks (b : CompletedBlock) (id : BodyId) : Bool :=
  b.header.blockBodyId = id && b.payload.isNone

def CompletedBlock.fill (b : CompletedBlock) (body : ConsensusBlockBody) : CompletedBlock :=
  if h : b.lacks body.getId then
    { b with
      payload := some body
      filled := by
        intro b' hb
        simp only [CompletedBlock.lacks, Bool.and_eq_true, decide_eq_true_eq] at h
        rw [← Option.some.inj hb, h.1] }
  else b

structure SelfCompletedHeader where
  requester : SelfRequester
  blocks : List CompletedBlock
  payloadCache : PayloadMap
  deriving DecidableEq

/-- Hand a payload to the blocks of the range that lack it. -/
def SelfCompletedHeader.fill (ch : SelfCompletedHeader) (body : ConsensusBlockBody) : SelfCompletedHeader :=
  { ch with
    blocks := ch.blocks.map (·.fill body)
    payloadCache :=
      if ch.blocks.any (·.lacks body.getId) then ch.payloadCache.insert body else ch.payloadCache }

def SelfCompletedHeader.complete (ch : SelfCompletedHeader) : Bool :=
  ch.blocks.all (·.payload.isSome)

end BlockSync

structure BlockSync where
  headersRequests : AMap BlockRange (AMap NodeId (List ConsensusBlockHeader))
  payloadRequests : AMap BodyId (List NodeId)
  selfHeadersRequests : AMap BlockRange BlockSync.SelfRequest
  selfPayloadRequests : AMap BodyId (Option BlockSync.SelfRequest)
  selfPayloadRequestsInFlight : Int
  selfCompletedHeadersRequests : AMap BlockRange BlockSync.SelfCompletedHeader
  selfRequestMode : BlockSync.SelfRequester
  overridePeers : List NodeId
  selfNodeId : NodeId
  deriving DecidableEq

namespace BlockSync

def new (overridePeersIncSelf : List NodeId) (selfNodeId : NodeId) : BlockSync where
  headersRequests := AMap.empty
  payloadRequests := AMap.empty
  selfHeadersRequests := AMap.empty
  selfPayloadRequests := AMap.empty
  selfPayloadRequestsInFlight := 0
  selfCompletedHeadersRequests := AMap.empty
  selfRequestMode := .stateSync
  overridePeers := overridePeersIncSelf.filter (· ≠ selfNodeId)
  selfNodeId := selfNodeId

def setOverridePeers (bs : BlockSync) (peersIncSelf : List NodeId) : BlockSync :=
  { bs with overridePeers := peersIncSelf.filter (· ≠ bs.selfNodeId) }

def clearSelfRequests (bs : BlockSync) : BlockSync :=
  { bs with
    selfHeadersRequests := AMap.empty
    selfPayloadRequests := AMap.empty
    selfPayloadRequestsInFlight := 0
    selfCompletedHeadersRequests := AMap.empty }

def selfRequestExists (bs : BlockSync) (r : BlockRange) : Bool :=
  bs.selfHeadersRequests.contains r || bs.selfCompletedHeadersRequests.contains r

inductive Cache where
  | blockTree (t : BlockTree)
  | payloadCache (m : PayloadMap)

inductive Loop where
  | requesters
  | completed
  | hydrate
  | initiate
  | completedAfter
  deriving DecidableEq, Repr

/-- `Wrapper`: what a handler reads beside the state. `draw` is what the random generator gives,
for the weighted choice the number that `randomize256` accepts; `order` the order of the
loops over maps. -/
structure Wrapper where
  cache : Cache
  nodeId : NodeId
  currentEpoch : Nat
  valEpochMap : ValidatorsEpochMapping
  secondaryRaptorcastPeers : List NodeId
  draw : Nat
  order : Loop → List Nat

/-- `getCachedPayload`. A payload is determined by its id, so the order of the completed ranges
does not matter. -/
def getCachedPayload (w : Wrapper) (bs : BlockSync) (id : BodyId) : Option ConsensusBlockBody :=
  let cached := match w.cache with
    | .payloadCache m => m.map.get id
    | .blockTree t => t.getPayload id
  cached.or (bs.selfCompletedHeadersRequests.values.findSome? fun ch => ch.payloadCache.map.get id)

theorem getCachedPayload_getId {w : Wrapper} {bs : BlockSync} {id : BodyId} {b : ConsensusBlockBody}
    (h : getCachedPayload w bs id = some b) : b.getId = id := by
  unfold getCachedPayload at h
  rw [Option.or_eq_some_iff] at h
  rcases h with hc | ⟨_, hch⟩
  · cases hcache : w.cache with
    | payloadCache m =>
      rw [hcache] at hc
      exact m.keyed hc
    | blockTree t =>
      rw [hcache] at hc
      obtain ⟨idx, hidx, rfl⟩ := Option.map_eq_some_iff.mp hc
      exact t.bodies hidx
  · obtain ⟨ch, _, hb⟩ := List.exists_of_findSome?_eq_some hch
    exact ch.payloadCache.keyed hb

/-- `chooseWeighted`: the first member whose share of the stake reaches beyond the number drawn;
the last one otherwise. -/
def chooseWeighted (vs : ValidatorSet) (members : List NodeId) (draw : Nat) : Except Panic NodeId :=
  let bounds := (members.filter (vs.stakeOf · ≠ 0)).foldl
    (fun acc m => acc ++ [(m, (acc.getLast?.map Prod.snd).getD 0 + vs.stakeOf m)]) []
  match bounds.getLast? with
  | none => .error .noPositiveStake
  | some (m, total) => .ok (((bounds.find? fun b => draw % total < b.2).map Prod.fst).getD m)

def pickPeer (w : Wrapper) (bs : BlockSync) : Except Panic (Option NodeId) :=
  if bs.overridePeers ≠ [] then .ok (bs.overridePeers[w.draw % bs.overridePeers.length]?)
  else
    match w.valEpochMap.get w.currentEpoch with
    | none => .error .currentEpochValidatorSetMissing
    | some valSet =>
      if valSet.isMember w.nodeId then
        let members := valSet.members.filter (· ≠ w.nodeId)
        if members = [] then .ok none
        else (chooseWeighted valSet members w.draw).map some
      else .ok (w.secondaryRaptorcastPeers[w.draw % w.secondaryRaptorcastPeers.length]?)

/-- `verifyBlockHeaders`: the length of the range, the id of its tip, the links, and a shortfall
only at genesis. -/
def verifyBlockHeaders (range : BlockRange) (headers : List ConsensusBlockHeader) : Bool :=
  match headers.head?, headers.getLast? with
  | some first, some last =>
    headers.length ≤ int64 range.numBlocks && range.lastBlockId = last.getId &&
      (headers.zip headers.tail).all (fun p => p.1.getId = p.2.getParentId) &&
      (headers.length = int64 range.numBlocks || first.getParentId = GENESIS_BLOCK_ID)
  | _, _ => false

end BlockSync

end MonadBft
