/-
  MonadBft.BlockSync.Handlers — the handlers of `blocksync.Wrapper`.

  Each takes the state and returns it with the commands, or panics. The loops over maps go
  in the order the wrapper gives; what they do to one entry is a function of its own.
-/
import MonadBft.BlockSync.State

namespace MonadBft.BlockSync

open Lib

abbrev Result := Except Panic (BlockSync × List Command)

/-- Run `f` and put its commands after `cmds`. -/
def andThen (r : BlockSync × List Command) (f : BlockSync → Result) : Result := do
  let r' ← f r.1
  pure (r'.1, r.2 ++ r'.2)

variable (w : Wrapper)

/-! ## Requests -/

variable (bs : BlockSync)

/-- A request of the other requester drops what was requested before. -/
def switchMode (requester : SelfRequester) : BlockSync :=
  if requester ≠ bs.selfRequestMode then { bs.clearSelfRequests with selfRequestMode := requester } else bs

def handleSelfRequest (requester : SelfRequester) (range : BlockRange) : BlockSync × List Command :=
  if range.numBlocks = 0 then (bs, [])
  else
    let bs := bs.switchMode requester
    if bs.selfRequestExists range then (bs, [])
    else
      ({ bs with selfHeadersRequests := bs.selfHeadersRequests.insert range ⟨requester, none⟩ }, [.fetchHeaders range])

/-- `HandleSelfCancelRequest`. Payload requests are not removed: another range may need them. -/
def handleSelfCancelRequest (requester : SelfRequester) (range : BlockRange) : BlockSync :=
  { bs with
    selfHeadersRequests := bs.selfHeadersRequests.filter fun r q => r ≠ range || q.requester ≠ requester
    selfCompletedHeadersRequests :=
      bs.selfCompletedHeadersRequests.filter fun r ch => r ≠ range || ch.requester ≠ requester }

/-- The headers `HandlePeerRequest` takes from the block tree: of the chain that ends in the last
block asked for, as `GetParentBlockChain` returns it, the first `n`, from the last of them on. -/
def cachedHeaders (range : BlockRange) : Except Panic (List ConsensusBlockHeader) :=
  match w.cache with
  | .payloadCache _ => .ok []
  | .blockTree t =>
    let chain := t.getParentBlockChain range.lastBlockId
    let n := int64 range.numBlocks
    if n < chain.length then
      if n < 0 then .error .sliceBounds
      else .ok ((chain.take n.toNat).reverse.map (·.header))
    else .ok (chain.reverse.map (·.header))

/-- The range `HandlePeerRequest` fetches when it has `cached`. -/
def fetchRange (range : BlockRange) (cached : List ConsensusBlockHeader) : BlockRange where
  lastBlockId := (cached.head?.map (·.getParentId)).getD range.lastBlockId
  numBlocks := sub64 range.numBlocks cached.length
  bound := sub64_lt _ _

/-- Let the sender wait for the range that is fetched; an earlier request of the sender that
waits for the same range is forgotten. -/
def await (fetch : BlockRange) (sender : NodeId) (cached : List ConsensusBlockHeader) : BlockSync :=
  let entry := (bs.headersRequests.get fetch).getD AMap.empty
  { bs with headersRequests := bs.headersRequests.insert fetch (entry.insert sender cached) }

def handlePeerRequest (sender : NodeId) : RequestMessage → Result
  | .headers range =>
    if range.numBlocks = 0 then .ok (bs, [])
    else do
      let cached ← cachedHeaders w range
      if cached.length = int64 range.numBlocks then
        pure (bs, [.sendResponse sender (.headers (.found range cached))])
      else
        let fetch := fetchRange range cached
        pure (bs.await fetch sender cached, [.fetchHeaders fetch])
  | .payload id =>
    match getCachedPayload w bs id with
    | some cached => .ok (bs, [.sendResponse sender (.payload (.found cached))])
    | none =>
      let entry := (bs.payloadRequests.get id).getD []
      let entry := if sender ∈ entry then entry else entry ++ [sender]
      .ok ({ bs with payloadRequests := bs.payloadRequests.insert id entry }, [.fetchPayload id])

/-! ## Completed ranges -/

def fullBlocks (ch : SelfCompletedHeader) : Except Panic (List ConsensusFullBlock) :=
  ch.blocks.mapM fun b =>
    match b.payload with
    | none => .error .nilPayload
    | some p =>
      match newFullBlock b.header p with
      | none => .error .blockBodyIdMismatch
      | some fb => .ok fb

variable (acc : BlockSync × List Command)

/-- Deliver one completed range. -/
def completeRange (e : BlockRange × SelfCompletedHeader) : Result := do
  let full ← fullBlocks e.2
  pure ({ acc.1 with selfCompletedHeadersRequests := acc.1.selfCompletedHeadersRequests.erase e.1 },
    acc.2 ++ [.emit e.2.requester e.1 full])

def handleCompletedRanges (loop : Loop) (bs : BlockSync) : Result :=
  (shuffle (w.order loop) (bs.selfCompletedHeadersRequests.entries.filter (·.2.complete))).foldlM
    completeRange (bs, [])

/-! ## Payload requests for the node itself -/

/-- Hand a payload to every completed range that lacks it. -/
def fillAll (body : ConsensusBlockBody) : BlockSync :=
  { bs with selfCompletedHeadersRequests := bs.selfCompletedHeadersRequests.mapVal fun _ ch => ch.fill body }

/-- One payload request, looked up in the caches first. -/
def hydrate (e : BodyId × Option SelfRequest) : BlockSync × List Command :=
  match getCachedPayload w acc.1 e.1 with
  | none => acc
  | some p =>
    let bs := fillAll acc.1 p
    ({ bs with
        selfPayloadRequests := bs.selfPayloadRequests.erase e.1
        selfPayloadRequestsInFlight := bs.selfPayloadRequestsInFlight - (if e.2.isSome then 1 else 0) },
      acc.2 ++ (if e.2.any (·.peer.isSome) then [.resetTimeout (.payload e.1)] else []))

def maxPayloadRequests : Int := 10

/-- One payload request, sent to the ledger if few enough are under way. -/
def initiate (id : BodyId) : BlockSync × List Command :=
  if acc.1.selfPayloadRequestsInFlight < maxPayloadRequests then
    ({ acc.1 with
        selfPayloadRequests := acc.1.selfPayloadRequests.insert id (some ⟨acc.1.selfRequestMode, none⟩)
        selfPayloadRequestsInFlight := acc.1.selfPayloadRequestsInFlight + 1 }, acc.2 ++ [.fetchPayload id])
  else acc

def waiting : List BodyId :=
  (bs.selfPayloadRequests.entries.filter (·.2.isNone)).map Prod.fst

def tryInitiatePayloadRequestsForSelf : Result :=
  let hydrated := (shuffle (w.order .hydrate) bs.selfPayloadRequests.entries).foldl (hydrate w) (bs, [])
  let initiated := (shuffle (w.order .initiate) hydrated.1.waiting).foldl initiate hydrated
  andThen initiated (handleCompletedRanges w .completedAfter)

/-! ## Responses -/

/-- Send a request to a peer, if there is one, and schedule its timeout. -/
def sendTo (request : RequestMessage) (peer : Option NodeId) : List Command :=
  (peer.map (Command.sendRequest · request)).toList ++ [.scheduleTimeout request]

/-- A verified list of headers: the range waits for the payloads it names. -/
def acceptHeaders (range : BlockRange) (headers : List ConsensusBlockHeader) : BlockSync :=
  { bs with
    selfHeadersRequests := bs.selfHeadersRequests.erase range
    selfPayloadRequests := headers.foldl (fun m h =>
      if m.contains h.blockBodyId then m else m.insert h.blockBodyId none) bs.selfPayloadRequests
    selfCompletedHeadersRequests := bs.selfCompletedHeadersRequests.insert range
      ⟨bs.selfRequestMode, headers.map .ofHeader, .empty⟩ }

/-- `handleHeadersResponseForSelf`; the sender of a ledger response is `none`. -/
def handleHeadersResponseForSelf (sender : Option NodeId) (hr : HeadersResponse) : Result :=
  match bs.selfHeadersRequests.get hr.getBlockRange with
  | none => .ok (bs, [])
  | some req => do
    let r ← (match hr with
      | .found range headers =>
        if verifyBlockHeaders range headers then
          pure (acceptHeaders bs range headers, if sender.isSome then [Command.resetTimeout (.headers range)] else [])
        else pure (bs, [])
      | .notAvailable range =>
        if sender.isNone ∧ req.peer.isNone then do
          let peer ← pickPeer w bs
          pure ({ bs with selfHeadersRequests := bs.selfHeadersRequests.insert range { req with peer := peer } },
            sendTo (.headers range) peer)
        else pure (bs, []))
    andThen r (tryInitiatePayloadRequestsForSelf w)

def handlePayloadResponseForSelf (sender : Option NodeId) (pr : BodyResponse) : Result :=
  match bs.selfPayloadRequests.get pr.getPayloadId with
  | none => .ok (bs, [])
  | some none => .ok (bs, [])
  | some (some req) => do
    let r ← (match pr with
      | .found body =>
        pure ({ fillAll bs body with
            selfPayloadRequests := bs.selfPayloadRequests.erase body.getId
            selfPayloadRequestsInFlight := bs.selfPayloadRequestsInFlight - 1 },
          if sender.isSome then [Command.resetTimeout (.payload body.getId)] else [])
      | .notAvailable id =>
        if sender.isNone ∧ req.peer.isNone then do
          let peer ← pickPeer w bs
          pure ({ bs with selfPayloadRequests := bs.selfPayloadRequests.insert id (some { req with peer := peer }) },
            sendTo (.payload id) peer)
        else pure (bs, []))
    let r ← andThen r (handleCompletedRanges w .completed)
    andThen r (tryInitiatePayloadRequestsForSelf w)

/-- The answer to a peer whose request waited for the range that was fetched: what was fetched,
then what was cached. -/
def assemble (hr : HeadersResponse) (cached : List ConsensusBlockHeader) : HeadersResponse :=
  let range : BlockRange :=
    { lastBlockId := (cached.getLast?.map (·.getId)).getD hr.getBlockRange.lastBlockId
      numBlocks := add64 hr.getBlockRange.numBlocks cached.length
      bound := add64_lt _ _ }
  match hr with
  | .found _ headers => .found range (headers ++ cached)
  | .notAvailable _ => .notAvailable range

def handleLedgerResponse : ResponseMessage → Result
  | .payload pr =>
    let requesters := (bs.payloadRequests.get pr.getPayloadId).getD []
    let sent := (shuffle (w.order .requesters) requesters).map fun q => Command.sendResponse q (.payload pr)
    andThen ({ bs with payloadRequests := bs.payloadRequests.erase pr.getPayloadId }, sent)
      fun bs => handlePayloadResponseForSelf w bs none pr
  | .headers hr =>
    let requesters := ((bs.headersRequests.get hr.getBlockRange).getD AMap.empty).entries
    let sent := (shuffle (w.order .requesters) requesters).map fun q =>
      Command.sendResponse q.1 (.headers (assemble hr q.2))
    andThen ({ bs with headersRequests := bs.headersRequests.erase hr.getBlockRange }, sent)
      fun bs => handleHeadersResponseForSelf w bs none hr

def handlePeerResponse (sender : NodeId) : ResponseMessage → Result
  | .payload pr => handlePayloadResponseForSelf w bs (some sender) pr
  | .headers hr => handleHeadersResponseForSelf w bs (some sender) hr

/-- `HandleTimeout`: ask another peer. -/
def handleTimeout : RequestMessage → Result
  | .headers range =>
    match bs.selfHeadersRequests.get range with
    | none => .ok (bs, [])
    | some req => do
      let peer ← pickPeer w bs
      pure ({ bs with selfHeadersRequests := bs.selfHeadersRequests.insert range { req with peer := peer } },
        sendTo (.headers range) peer)
  | .payload id =>
    match bs.selfPayloadRequests.get id with
    | some (some req) => do
      let peer ← pickPeer w bs
      pure ({ bs with selfPayloadRequests := bs.selfPayloadRequests.insert id (some { req with peer := peer }) },
        sendTo (.payload id) peer)
    | _ => .ok (bs, [])

/-! ## Events -/

inductive Event where
  | request (sender : NodeId) (request : RequestMessage)
  | selfRequest (requester : SelfRequester) (range : BlockRange)
  | selfCancelRequest (requester : SelfRequester) (range : BlockRange)
  | selfResponse (response : ResponseMessage)
  | response (sender : NodeId) (response : ResponseMessage)
  | timeout (request : RequestMessage)

/-- `MonadState.updateBlockSync`: the handler of each event. -/
def update : Event → Result
  | .request sender request => handlePeerRequest w bs sender request
  | .selfRequest requester range => .ok (handleSelfRequest bs requester range)
  | .selfCancelRequest requester range => .ok (handleSelfCancelRequest bs requester range, [])
  | .selfResponse response => handleLedgerResponse w bs response
  | .response sender response => handlePeerResponse w bs sender response
  | .timeout request => handleTimeout w bs request

end MonadBft.BlockSync
