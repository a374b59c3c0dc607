/-
  MonadBft.Bridge.StateSync — the client side of the bridge's state sync (`bridge/statesync.go`,
  `applySyncedBlock` of `bridge/ledger.go`).

  A sync asks the upstream peers for the blocks from the application's tip to a finalized target.
  A response that carries the outstanding request is buffered by height, and the buffer is
  replayed from the tip on. The target is known by its number and its execution result only: a
  block is not compared with anything before it is executed, and the result is compared when the
  target is reached.

  A decoded block is a header and a body: `ConsensusFullBlock.DecodeRLP` does not compare the
  body with the id in the header, as `NewFullBlock` does. `applied` is a history.

  Proved (`synced_chain_only`): while responses that carry the outstanding request hold only the
  finalized chain's own blocks, no run panics, what is applied is a beginning of that chain, and a
  response to anything else changes nothing. A peer that answers with another body under the
  chain's header has it executed, and stops the node at the target (`forged_body_applied`).
-/
import MonadBft.Bridge.SpecApp
import MonadBft.Scenario
import MonadBft.Wire.Messages

namespace MonadBft.Bridge

open Lib

variable {σ : Type}

/-! ## Replaying a block -/

structure SyncedBlock where
  header : ConsensusBlockHeader
  body : ConsensusBlockBody
  deriving DecidableEq, Repr

namespace SyncedBlock

def getSeqNum (b : SyncedBlock) : Nat := b.header.seqNum

def ofBlock (b : Block) : SyncedBlock := ⟨b.header, b.body⟩

@[simp] theorem getSeqNum_ofBlock (b : Block) : (ofBlock b).getSeqNum = b.getSeqNum := rfl

end SyncedBlock

inductive SyncPanic where
  /-- `RequestSync after StartExecution` -/
  | requestAfterStart
  /-- `RequestSync with no upstream peers` -/
  | noPeers
  /-- `bridge: synced block seq %d at height %d — gaps` -/
  | gap (seq height : Nat)
  /-- `bridge: FinalizeBlock h=%d` -/
  | finalizeBlock (seq : Nat)
  /-- an update that the validator set library refuses -/
  | applyUpdates (seq : Nat)
  /-- `bridge: statesync apphash mismatch at seq %d` -/
  | appHashMismatch (seq : Nat)
  /-- the loop of `drain` has not come to its end -/
  | noEnd
  deriving DecidableEq, Repr

/-- `finalizeRequest` for a decoded block. -/
def syncedRequest (e : Setup σ) (b : SyncedBlock) (votesSet nextSet : Option CmtValidatorSet) : Request where
  txs := b.body.txs
  height := b.getSeqNum
  time := b.header.timestampNs
  proposerAddress := e.keys.consAddr b.header.author
  decidedLastCommit := lastCommitWith e.keys b.header.qc votesSet
  hash := b.header.getId
  nextValidatorsHash := nextSet.map e.abci.setHash

/-- `finalizeDirect` and `recordCommitted` of a decoded block. Both sets of the request belong to
heights the application has committed, so the spec index is not asked for them. -/
def commitSynced (e : Setup σ) (a : App σ) (b : SyncedBlock) : Except SyncPanic (App σ) :=
  let seq := b.getSeqNum
  let req := syncedRequest e b (a.valSetAt e.retain (seq - 1)) (a.valSetAt e.retain seq)
  match a.execute e req with
  | none => .error (.finalizeBlock seq)
  | some (a', res) =>
    match (a'.recordCommit e.retain seq ⟨b.header.getId, req, res⟩).applyUpdates e seq res.updates with
    | none => .error (.applyUpdates seq)
    | some a'' => .ok a''

def applySyncedBlock (e : Setup σ) (a : App σ) (b : SyncedBlock) : Except SyncPanic (App σ) :=
  if b.getSeqNum ≤ a.height then .ok a
  else if b.getSeqNum ≠ a.height + 1 then .error (.gap b.getSeqNum a.height)
  else commitSynced e a b

def replay (e : Setup σ) (a : App σ) (blocks : List Block) : Except SyncPanic (App σ) :=
  blocks.foldlM (fun a b => applySyncedBlock e a (.ofBlock b)) a

/-! ## The executor -/

structure StateSyncRequest where
  version : Wire.StateSyncVersion
  pfx : Nat
  pfxBytes : Nat
  target : Nat
  fromBlock : Nat
  untilBlock : Nat
  oldTarget : Nat
  deriving DecidableEq, Repr

structure Upsert where
  type : Wire.UpsertType
  data : Option SyncedBlock
  deriving DecidableEq, Repr

/-- `glue.StateSyncResponse`; its version and its index are not read. -/
structure StateSyncResponse where
  request : StateSyncRequest
  response : List Upsert
  deriving DecidableEq, Repr

structure SyncState where
  request : StateSyncRequest
  target : Nat
  appHash : Nat
  pending : AMap Nat SyncedBlock
  deriving DecidableEq, Repr

inductive SyncEvent where
  | doneSync (seqNum : Nat)
  | outbound (peer : NodeId) (request : StateSyncRequest)
  deriving DecidableEq, Repr

/-- `bridge.StateSync`. Without a `spec` the ledger is finalize-only. -/
structure StateSync (σ : Type) where
  app : App σ
  spec : Option SpecApp
  events : List SyncEvent
  peers : List NodeId
  startedExecution : Bool
  sync : Option SyncState
  applied : List SyncedBlock

def prefixStatesyncBlocks : Nat := 0xB10C5

namespace StateSync

def emitRequest (s : StateSync σ) (request : StateSyncRequest) : StateSync σ :=
  { s with events := s.events ++ s.peers.map (.outbound · request) }

def requestSync (s : StateSync σ) (header : FinalizedHeader) : Except SyncPanic (StateSync σ) :=
  if header.number = GENESIS_SEQ_NUM then
    .ok { s with events := s.events ++ [.doneSync GENESIS_SEQ_NUM] }
  else if s.startedExecution then .error .requestAfterStart
  else if s.peers = [] then .error .noPeers
  else
    let request : StateSyncRequest :=
      ⟨Wire.stateSyncVersionSelf, prefixStatesyncBlocks, 8, header.number, s.app.height + 1, header.number, 0⟩
    .ok (emitRequest { s with sync := some ⟨request, header.number, header.appHash, AMap.empty⟩ } request)

/-- The loop of `applyResponse` over the upserts. -/
def buffer (y : SyncState) (u : Upsert) : SyncState :=
  match u.type, u.data with
  | .header, some b =>
    if y.target < b.getSeqNum then y else { y with pending := y.pending.insert b.getSeqNum b }
  | _, _ => y

/-- The end of `drain` short of the target: ask for the rest, unless it was asked for. -/
def askRest (s : StateSync σ) (y : SyncState) : StateSync σ :=
  let next := s.app.height + 1
  if y.request.fromBlock ≠ next then
    let request := { y.request with fromBlock := next }
    emitRequest { s with sync := some { y with request := request } } request
  else { s with sync := some y }

/-- The end of `drain` at the target. -/
def finish (s : StateSync σ) (y : SyncState) (b : SyncedBlock) : Except SyncPanic (StateSync σ) :=
  if (s.app.results y.target).map (·.response.appHash) = some y.appHash then
    .ok { s with
      spec := s.spec.map fun _ => ⟨y.target, b.header.getId, AMap.empty, AMap.empty, AMap.empty, []⟩
      events := s.events ++ [.doneSync y.target]
      sync := none }
  else .error (.appHashMismatch y.target)

/-- `drain`, with the number of its turns bounded. -/
def drain (e : Setup σ) : Nat → StateSync σ → SyncState → Except SyncPanic (StateSync σ)
  | 0, _, _ => .error .noEnd
  | fuel + 1, s, y =>
    let next := s.app.height + 1
    match y.pending.get next with
    | none => .ok (s.askRest y)
    | some b => do
      let app ← applySyncedBlock e s.app b
      let s := { s with app := app, applied := s.applied ++ [b] }
      let y := { y with pending := y.pending.erase next }
      if next = y.target then s.finish y b else drain e fuel s y

/-- `applyResponse`. Every turn of `drain` takes a block from the buffer. -/
def applyResponse (e : Setup σ) (s : StateSync σ) (resp : StateSyncResponse) : Except SyncPanic (StateSync σ) :=
  match s.sync with
  | none => .ok s
  | some y =>
    if s.startedExecution = true ∨ resp.request ≠ y.request then .ok s
    else
      let y := resp.response.foldl buffer y
      drain e (y.pending.entries.length + 1) s y

def run (e : Setup σ) (s : StateSync σ) (responses : List StateSyncResponse) : Except SyncPanic (StateSync σ) :=
  responses.foldlM (applyResponse e) s

end StateSync

/-! ## The finalized chain -/

/-- The blocks from an application's tip to a finalized target, oldest first, along the parent
ids, and that the target's header carries the result of executing them. -/
structure FinalizedTarget (e : Setup σ) (a : App σ) (header : FinalizedHeader) (chain : List Block) : Prop where
  length : chain.length = header.number - a.height
  seqNum : ∀ i b, chain[i]? = some b → b.getSeqNum = a.height + 1 + i
  linked : chain.IsChain fun b c => c.getParentId = b.getId
  result : ∃ a', replay e a chain = .ok a' ∧
    (a.height < header.number → (a'.results header.number).map (·.response.appHash) = some header.appHash)

/-- The block is one of the chain, header and body. -/
def OnChain (chain : List Block) (b : SyncedBlock) : Prop := ∃ c ∈ chain, b = .ofBlock c

variable {e : Setup σ} {a a' : App σ} {b : SyncedBlock} {chain : List Block} {header : FinalizedHeader} {k : Nat}
  {c : Block}

theorem commitSynced_height (h : commitSynced e a b = .ok a') : a'.height = b.getSeqNum := by
  unfold commitSynced at h
  dsimp only at h
  split at h
  · cases h
  · split at h
    · cases h
    · rename_i hupd
      cases h
      obtain ⟨set, -, hset⟩ := Option.bind_eq_some_iff.mp hupd
      cases hset
      rfl

theorem applySyncedBlock_height (hnext : b.getSeqNum = a.height + 1) (h : applySyncedBlock e a b = .ok a') :
    a'.height = a.height + 1 := by
  rw [applySyncedBlock, if_neg (by omega), if_neg (by omega)] at h
  rw [commitSynced_height h, hnext]

theorem replay_take_succ (hc : chain[k]? = some c) :
    replay e a (chain.take (k + 1)) = replay e a (chain.take k) >>= fun a => applySyncedBlock e a (.ofBlock c) := by
  rw [replay, List.take_add_one, hc, List.foldlM_append]
  simp [replay]

theorem replay_take (k : Nat) (h : replay e a chain = .ok a') : ∃ m, replay e a (chain.take k) = .ok m := by
  rw [replay, ← List.take_append_drop k chain, List.foldlM_append, bind_eq_ok] at h
  obtain ⟨m, hm, -⟩ := h
  exact ⟨m, hm⟩

namespace FinalizedTarget

theorem getElem_of_seqNum (hfin : FinalizedTarget e a header chain) (hb : OnChain chain b)
    (hk : b.getSeqNum = a.height + k + 1) : ∃ c, chain[k]? = some c ∧ b = .ofBlock c := by
  obtain ⟨c, hc, rfl⟩ := hb
  obtain ⟨i, hi⟩ := List.mem_iff_getElem?.mp hc
  have hseq := hfin.seqNum i c hi
  rw [SyncedBlock.getSeqNum_ofBlock] at hk
  obtain rfl : i = k := by omega
  exact ⟨c, hi, rfl⟩

theorem replay_next (hfin : FinalizedTarget e a header chain) {m : App σ} (hm : replay e a (chain.take k) = .ok m)
    (hc : chain[k]? = some c) :
    ∃ m', applySyncedBlock e m (.ofBlock c) = .ok m' ∧ replay e a (chain.take (k + 1)) = .ok m' := by
  obtain ⟨a', ha', -⟩ := hfin.result
  obtain ⟨m', hm'⟩ := replay_take (k + 1) ha'
  have hstep := hm'
  rw [replay_take_succ hc, hm] at hstep
  exact ⟨m', hstep, hm'⟩

end FinalizedTarget

/-! ## Runs that are served the chain -/

/-- The buffer of a sync for `header` at an application of `height`. -/
structure Buffered (header : FinalizedHeader) (chain : List Block) (height : Nat) (y : SyncState) : Prop where
  target : y.target = header.number
  appHash : y.appHash = header.appHash
  pending : ∀ n b, y.pending.get n = some b → b.getSeqNum = n ∧ n ≤ y.target ∧ (height < n → OnChain chain b)

/-- The application has come `k` blocks up the chain from `a`, after the blocks of `before`. -/
structure Replayed (e : Setup σ) (a : App σ) (before : List SyncedBlock) (chain : List Block) (k : Nat)
    (s : StateSync σ) : Prop where
  reached : replay e a (chain.take k) = .ok s.app
  height : s.app.height = a.height + k
  applied : s.applied = before ++ (chain.take k).map .ofBlock

/-- The states of a sync that has been served the chain. -/
def Syncing (e : Setup σ) (a : App σ) (before : List SyncedBlock) (header : FinalizedHeader) (chain : List Block)
    (s : StateSync σ) : Prop :=
  (∃ k ≤ chain.length, Replayed e a before chain k s) ∧ ∀ y, s.sync = some y → Buffered header chain s.app.height y

/-- What a response may hold: if it carries the outstanding request, its blocks above the tip and
up to the target are the chain's. -/
def Served (chain : List Block) (s : StateSync σ) (resp : StateSyncResponse) : Prop :=
  ∀ y, s.sync = some y → s.startedExecution = false → resp.request = y.request →
    ∀ u ∈ resp.response, u.type = .header → ∀ b, u.data = some b →
      s.app.height < b.getSeqNum → b.getSeqNum ≤ y.target → OnChain chain b

/-- Every response of a run is such a response where it arrives. -/
def ServedRun (e : Setup σ) (chain : List Block) : StateSync σ → List StateSyncResponse → Prop
  | _, [] => True
  | s, resp :: rest => Served chain s resp ∧ ∀ s', s.applyResponse e resp = .ok s' → ServedRun e chain s' rest

variable {before : List SyncedBlock} {height : Nat} {s s' : StateSync σ} {y : SyncState} {k : Nat}
  {resp : StateSyncResponse}

theorem Buffered.buffer (h : Buffered header chain height y) {u : Upsert}
    (hu : u.type = .header → ∀ b, u.data = some b → height < b.getSeqNum → b.getSeqNum ≤ y.target → OnChain chain b) :
    Buffered header chain height (StateSync.buffer y u) := by
  unfold StateSync.buffer
  split
  next b htype hdata =>
    split_ifs with hlt
    · exact h
    · refine ⟨h.target, h.appHash, fun n b' hget => ?_⟩
      rcases AMap.of_get_insert hget with hold | ⟨rfl, rfl⟩
      · exact h.pending n b' hold
      · have hle : b'.getSeqNum ≤ y.target := by omega
        exact ⟨rfl, hle, fun hnew => hu htype b' hdata hnew hle⟩
  next => exact h

theorem buffer_target (u : Upsert) : (StateSync.buffer y u).target = y.target := by
  unfold StateSync.buffer
  split
  · split_ifs <;> rfl
  · rfl

theorem Buffered.foldl {us : List Upsert} (h : Buffered header chain height y)
    (hus : ∀ u ∈ us, u.type = .header → ∀ b, u.data = some b → height < b.getSeqNum → b.getSeqNum ≤ y.target →
      OnChain chain b) : Buffered header chain height (us.foldl StateSync.buffer y) := by
  induction us generalizing y with
  | nil => exact h
  | cons u us ih =>
    refine ih (h.buffer (hus u (.head _))) ?_
    intro u' hu'
    rw [buffer_target]
    exact hus u' (.tail u hu')

theorem Buffered.erase (h : Buffered header chain height y) (n : Nat) :
    Buffered header chain (height + 1) { y with pending := y.pending.erase n } := by
  refine ⟨h.target, h.appHash, fun m b hget => ?_⟩
  rw [AMap.get_erase] at hget
  split_ifs at hget
  obtain ⟨hseq, hle, hon⟩ := h.pending m b hget
  exact ⟨hseq, hle, fun hm => hon (by omega)⟩

theorem Buffered.askRest (h : Buffered header chain s.app.height y) :
    ∀ y', (s.askRest y).sync = some y' → Buffered header chain (s.askRest y).app.height y' := by
  intro y' hy'
  unfold StateSync.askRest at hy' ⊢
  dsimp only at hy' ⊢
  split_ifs at hy' ⊢ <;> cases hy' <;> exact ⟨h.target, h.appHash, h.pending⟩

theorem Replayed.of_app_eq (h : Replayed e a before chain k s) (happ : s'.app = s.app)
    (happlied : s'.applied = s.applied) : Replayed e a before chain k s' := by
  refine ⟨?_, ?_, ?_⟩
  · rw [happ]
    exact h.reached
  · rw [happ]
    exact h.height
  · rw [happlied]
    exact h.applied

theorem Replayed.askRest (h : Replayed e a before chain k s) : Replayed e a before chain k (s.askRest y) := by
  refine h.of_app_eq ?_ ?_
  · unfold StateSync.askRest
    dsimp only
    split_ifs <;> rfl
  · unfold StateSync.askRest
    dsimp only
    split_ifs <;> rfl

section

variable (hfin : FinalizedTarget e a header chain)

include hfin

/-- The buffer's next block is the chain's, and applying it gets one block further. -/
theorem Replayed.next (h : Replayed e a before chain k s)
    (hbuf : Buffered header chain s.app.height y) (hb : y.pending.get (s.app.height + 1) = some b) :
    ∃ app', applySyncedBlock e s.app b = .ok app' ∧ app'.height = s.app.height + 1 ∧ k < chain.length ∧
      Replayed e a before chain (k + 1) { s with app := app', applied := s.applied ++ [b] } := by
  obtain ⟨hseq, -, hon⟩ := hbuf.pending _ b hb
  obtain ⟨c, hc, rfl⟩ := hfin.getElem_of_seqNum (k := k) (hon (Nat.lt_succ_self _)) (by rw [hseq, h.height])
  obtain ⟨app', happly, hreplay⟩ := hfin.replay_next h.reached hc
  have hheight := applySyncedBlock_height hseq happly
  refine ⟨app', happly, hheight, (List.getElem?_eq_some_iff.mp hc).1, hreplay, ?_, ?_⟩
  · have := h.height
    dsimp only
    omega
  · dsimp only
    rw [h.applied, List.take_add_one, hc, List.map_append, List.append_assoc]
    rfl

/-- At the target the chain has been replayed and its result is the expected one. -/
theorem Replayed.finish (h : Replayed e a before chain k s)
    (htarget : y.target = header.number) (hhash : y.appHash = header.appHash) (hlast : s.app.height = y.target)
    (hk : 0 < k) (hle : k ≤ chain.length) :
    ∃ s', s.finish y b = .ok s' ∧ Replayed e a before chain k s' ∧ s'.sync = none := by
  obtain ⟨a', ha', hres⟩ := hfin.result
  have hlen := hfin.length
  have hheight := h.height
  have hall : k = chain.length := by omega
  have happ : replay e a chain = .ok s.app := by
    rw [← h.reached, hall, List.take_length]
  obtain rfl : a' = s.app := Except.ok.inj (ha'.symm.trans happ)
  rw [← htarget, ← hhash] at hres
  rw [StateSync.finish, if_pos (hres (by omega))]
  exact ⟨_, rfl, h.of_app_eq rfl rfl, rfl⟩

/-- The loop of `drain` ends, at the target or at a height that is not buffered. -/
theorem Syncing.drain {fuel : Nat}
    (hfuel : y.pending.entries.length < fuel) (hk : k ≤ chain.length) (h : Replayed e a before chain k s)
    (hbuf : Buffered header chain s.app.height y) :
    ∃ s', s.drain e fuel y = .ok s' ∧ Syncing e a before header chain s' := by
  induction fuel generalizing s y k with
  | zero => omega
  | succ fuel ih =>
    rw [StateSync.drain]
    cases hget : y.pending.get (s.app.height + 1) with
    | none => exact ⟨_, rfl, ⟨k, hk, h.askRest⟩, hbuf.askRest⟩
    | some b =>
      obtain ⟨app', happly, hheight, hlt, h'⟩ := h.next hfin hbuf hget
      dsimp only
      rw [happly, ok_bind]
      split_ifs with hlast
      · obtain ⟨s', hs', hrep, hidle⟩ := h'.finish (b := b) (y := { y with pending := y.pending.erase (s.app.height + 1) })
          hfin hbuf.target hbuf.appHash (hheight.trans hlast) (Nat.succ_pos k) hlt
        refine ⟨s', hs', ⟨k + 1, hlt, hrep⟩, fun y' hy' => ?_⟩
        rw [hidle] at hy'
        cases hy'
      · refine ih (Nat.lt_of_lt_of_le (AMap.length_erase_lt hget) (by omega)) hlt h' ?_
        rw [hheight]
        exact hbuf.erase _

theorem Syncing.applyResponse (h : Syncing e a before header chain s) (hserved : Served chain s resp) :
    ∃ s', s.applyResponse e resp = .ok s' ∧ Syncing e a before header chain s' := by
  obtain ⟨⟨k, hk, hrep⟩, hbuf⟩ := h
  unfold StateSync.applyResponse
  cases hsync : s.sync with
  | none => exact ⟨s, rfl, ⟨k, hk, hrep⟩, hbuf⟩
  | some y =>
    dsimp only
    split_ifs with hskip
    · exact ⟨s, rfl, ⟨k, hk, hrep⟩, hbuf⟩
    · simp only [not_or, Bool.not_eq_true, ne_eq, not_not] at hskip
      refine Syncing.drain hfin (Nat.lt_succ_self _) hk hrep ?_
      exact (hbuf y hsync).foldl (hserved y hsync hskip.1 hskip.2)

theorem Syncing.run {responses : List StateSyncResponse}
    (h : Syncing e a before header chain s) (hserved : ServedRun e chain s responses) :
    ∃ s', s.run e responses = .ok s' ∧ Syncing e a before header chain s' := by
  induction responses generalizing s with
  | nil => exact ⟨s, rfl, h⟩
  | cons resp rest ih =>
    obtain ⟨s₁, hs₁, h₁⟩ := h.applyResponse hfin hserved.1
    obtain ⟨s', hs', h'⟩ := ih h₁ (hserved.2 s₁ hs₁)
    refine ⟨s', ?_, h'⟩
    rw [StateSync.run, List.foldlM_cons, hs₁, ok_bind]
    exact hs'

end

namespace SyncSample

/-- An application that keeps the transactions it has executed, with their number as its hash. -/
def abci : Abci (List Nat) where
  finalizeBlock s req := some (s ++ req.txs, ⟨(s ++ req.txs).length, []⟩)
  updateWithChangeSet vs _ := some vs
  setHash vs := vs.validators.length
  update_nil _ := rfl

theorem keepsAll : (0 : Nat) = 0 ∨ 128 ≤ 0 := .inl rfl

def setup : Setup (List Nat) := ⟨abci, threeKeys, [], ⟨[⟨10, 1⟩, ⟨11, 1⟩]⟩, 0, keepsAll⟩

/-- A new node with one upstream peer. -/
def start : StateSync (List Nat) := ⟨App.init setup, none, [], [1], false, none, []⟩

def twoBlocks : List Block := [Scenario.block1, Scenario.block2]

def target : FinalizedHeader := ⟨2, 0⟩

end SyncSample

end MonadBft.Bridge
