/-
  MonadBft.Bridge.Ledger — the ledger with its two workers (`bridge.Ledger`, `bridge.ValSet`).

  Three goroutines share the ledger. The node loop passes observed and finalized blocks in
  and, after a dispatch, notifies `ValSet` of the finalized ones; the commit worker applies
  finalized blocks in order; the spec worker runs jobs. A step of `Ledger` is what one of them
  does between two lock operations, so every interleaving is a sequence of steps. The
  ledger's own lock is held while a drain of the pending blocks is under way and between the
  two halves of recording a commit (`locked`). A drain reads the spec index several times
  under that lock, and each reading is a step of its own (`Reading`).

  The node closes the block store when its loop ends, and the commit worker may still be at
  work. A commit that finds the store closed is recorded, and its validator updates are not
  applied (`apply`). The ledger outlives the node if the engine starts a node on it again; what
  attaching a store anew then rebuilds is not modelled here.

  `finalized` and `emitted` are histories: the finalized chain and the validator sets handed
  to consensus.
-/
import MonadBft.Bridge.SpecApp
import MonadBft.Epoch

namespace MonadBft.Bridge

open Lib

variable {σ : Type}

inductive Worker where
  | idle
  /-- before `CommittedResult`, with the id of the canonical parent -/
  | query (b : Block) (parent : BlockId)
  /-- before `finalizeDirect` -/
  | direct (b : Block)
  /-- before `recordCommit` -/
  | record (b : Block) (entry : ResultEntry)
  /-- between `recordCommit` and `applyUpdates`, under the ledger's lock -/
  | apply (b : Block) (entry : ResultEntry)
  deriving DecidableEq, Repr

inductive Reading where
  | next
  /-- `SpecResultID` missed -/
  | missed (b : Block)
  /-- `WouldChain` held -/
  | chained (b : Block)
  /-- the first set is read -/
  | votes (b : Block) (votesSet : Option CmtValidatorSet)
  deriving DecidableEq, Repr

structure Drain where
  todo : List Block
  reading : Reading
  deriving DecidableEq, Repr

structure Ledger (σ : Type) where
  app : App σ
  spec : SpecApp
  blocks : List Block
  committed : HeightMap Block
  pendingSpec : List Block
  specInFlight : List BlockId
  commitQ : List Block
  worker : Worker
  drain : Option Drain
  /-- the job the spec worker has run and not yet reported -/
  specDone : Option BlockId
  /-- the notifications of the current dispatch -/
  notifications : List Nat
  /-- the block store is closed -/
  storeClosed : Bool
  finalized : List Block
  emitted : List (Nat × List ValidatorData)

/-- `bridge: finalized block seq %d missing parent` -/
inductive LedgerPanic where
  | missingParent (seq : Nat)
  deriving DecidableEq, Repr

/-- The walk of `commitFinalized` from a finalized block to the committed ones, newest first. A
block's id is longer than its parent's, which bounds the walk. -/
def collectPending (getBlock : BlockId → Option Block) (committed : HeightMap Block) :
    Nat → Block → Except LedgerPanic (List Block)
  | 0, _ => .ok []
  | fuel + 1, b =>
    if b.getSeqNum = GENESIS_SEQ_NUM then .ok []
    else if (committed b.getSeqNum).isSome then .ok []
    else if b.getParentId = GENESIS_BLOCK_ID then .ok [b]
    else
      match getBlock b.getParentId with
      | none => .error (.missingParent b.getSeqNum)
      | some parent => (b :: ·) <$> collectPending getBlock committed fuel parent

namespace Ledger

def init (e : Setup σ) : Ledger σ where
  app := App.init e
  spec := SpecApp.init
  blocks := []
  committed := fun _ => none
  pendingSpec := []
  specInFlight := []
  commitQ := []
  worker := .idle
  drain := none
  specDone := none
  notifications := []
  storeClosed := false
  finalized := []
  emitted := []

variable (l : Ledger σ)

def locked : Bool :=
  l.drain.isSome || match l.worker with
    | .apply _ _ => true
    | _ => false

def getBlock (id : BlockId) : Option Block := l.blocks.find? (·.getId = id)

def committedID (seq : Nat) : BlockId := ((l.committed seq).map (·.getId)).getD GENESIS_BLOCK_ID

def insertBlock (b : Block) : Ledger σ :=
  { l with blocks := b :: l.blocks.filter (·.getId ≠ b.getId) }

def addPending (b : Block) : Ledger σ :=
  { l with pendingSpec := b :: l.pendingSpec.filter (·.getId ≠ b.getId) }

def dropPending (id : BlockId) : Ledger σ :=
  { l with
    pendingSpec := l.pendingSpec.filter (·.getId ≠ id)
    specInFlight := l.specInFlight.filter (· ≠ id) }

/-- A drain takes the pending blocks in order of their numbers; the order of blocks with one
number is the sort's own. -/
def startDrain (todo : List Block) : Option (Ledger σ) :=
  if todo.Perm l.pendingSpec ∧ todo.Pairwise (·.getSeqNum ≤ ·.getSeqNum) then
    some { l with drain := some ⟨todo, .next⟩ }
  else none

/-- The end of `drainSpec`: blocks with the lowest numbers go while more than 512 are pending. -/
def trim : Nat → List Block → List Block
  | 0, l => l
  | n + 1, l =>
    if l.length ≤ 512 then l
    else
      match l.argmin (·.getSeqNum) with
      | none => l
      | some b => trim n (l.filter (·.getId ≠ b.getId))

def enqueue (b : Block) : Ledger σ :=
  { l with committed := l.committed.set b.getSeqNum b, commitQ := l.commitQ ++ [b] }

/-- `commitFinalized` up to the drain; `none` is the panic on a missing parent. -/
def commitFinalized (b : Block) : Option (Ledger σ) :=
  match collectPending l.getBlock l.committed (b.getId.bytes.length + 1) b with
  | .error _ => none
  | .ok pending => some (pending.reverse.foldl enqueue l)

def finalizeDirect (e : Setup σ) (l : Ledger σ) (b : Block) : Option (Ledger σ × ResultEntry) := do
  let votesSet := l.spec.valSetAfter e l.app (b.getSeqNum - 2)
  let nextSet := l.spec.valSetAfter e l.app (b.getSeqNum - 1)
  let req := finalizeRequest e b votesSet nextSet
  let r ← l.app.execute e req
  return ({ l with app := r.1 }, ⟨b.getId, req, r.2⟩)

end Ledger

/-! ## Steps -/

/-- What the goroutines do. `todo` is the order in which a drain that starts takes the blocks. -/
inductive Action where
  /-- a `Proposed` or `Voted` block -/
  | observe (b : Block) (todo : List Block)
  /-- a `Finalized` block -/
  | finalize (b : Block) (todo : List Block)
  /-- `ValSet.notifyFinalized` -/
  | notify
  /-- the end of the node loop, which closes the block store -/
  | closeStore
  | drainResult
  | drainChain
  | drainVotes
  | drainSubmit
  | drainEnd
  /-- the spec worker: `runSpec`, then `onSpecDone` -/
  | runSpec
  | reportSpec (todo : List Block)
  /-- the commit worker, from one turn of `commitLoop` on -/
  | take
  | query
  | direct
  | record
  | apply (todo : List Block)
  deriving DecidableEq, Repr

namespace Ledger

/-- `execLocked` for a `Proposed` or `Voted` block, with `speculate`: height 1 is never
speculated on. -/
def observe (l : Ledger σ) (b : Block) (todo : List Block) : Option (Ledger σ) :=
  if l.locked then none
  else if b.getSeqNum ≤ 1 then some (l.insertBlock b)
  else ((l.insertBlock b).addPending b).startDrain todo

/-- `execLocked` for a `Finalized` block. Consensus finalizes the child of the last finalized
block next. -/
def finalize (l : Ledger σ) (b : Block) (todo : List Block) : Option (Ledger σ) :=
  if l.locked then none
  else if b.getParentId ≠ Chain.headId l.finalized ∨ b.getSeqNum ≠ l.finalized.length + 1 then none
  else do
    let l ← (l.insertBlock b).commitFinalized b
    { l with
      finalized := b :: l.finalized
      notifications := l.notifications ++ [b.getSeqNum] }.startDrain todo

variable (e : Setup σ)

/-- `notifyFinalized`: a boundary block takes the application's set as it is now for the epoch it
locks. -/
def notify (epochLength : Nat) (l : Ledger σ) : Option (Ledger σ) :=
  match l.notifications with
  | [] => none
  | seq :: rest =>
    if !isBoundaryBlock seq epochLength then some { l with notifications := rest }
    else
      match validatorSetData e.keys l.app.appSet with
      | .error _ => none
      | .ok data => some { l with
          notifications := rest
          emitted := l.emitted ++ [(toEpoch seq epochLength + 1, data)] }

/-- The first checks of a drain on its next block. -/
def drainResult (l : Ledger σ) : Option (Ledger σ) :=
  match l.drain with
  | some ⟨b :: todo, .next⟩ =>
    if b.getSeqNum ≤ l.app.height then
      some { l.dropPending b.getId with drain := some ⟨todo, .next⟩ }
    else
      match l.spec.specResultID b.getId with
      | (true, _) => some { l.dropPending b.getId with drain := some ⟨todo, .next⟩ }
      | (false, spec) =>
        some { l with
          spec := spec
          drain := some ⟨todo, if b.getId ∈ l.specInFlight then .next else .missed b⟩ }
  | _ => none

def drainChain (l : Ledger σ) : Option (Ledger σ) :=
  match l.drain with
  | some ⟨todo, .missed b⟩ =>
    some { l with drain := some ⟨todo, if l.spec.wouldChain b then .chained b else .next⟩ }
  | _ => none

def drainVotes (l : Ledger σ) : Option (Ledger σ) :=
  match l.drain with
  | some ⟨todo, .chained b⟩ =>
    some { l with drain := some ⟨todo, .votes b (l.spec.valSetAfter e l.app (b.getSeqNum - 2))⟩ }
  | _ => none

/-- Read the second set and submit the job, unless a set is not known or the queue is full. -/
def drainSubmit (l : Ledger σ) : Option (Ledger σ) :=
  match l.drain with
  | some ⟨todo, .votes b votesSet⟩ =>
    let nextSet := l.spec.valSetAfter e l.app (b.getSeqNum - 1)
    let l' := { l with drain := some ⟨todo, .next⟩ }
    if votesSet = none ∨ nextSet = none ∨ 256 ≤ l.spec.jobs.length then some l'
    else
      let job : SpecJob := ⟨finalizeRequest e b votesSet nextSet, b⟩
      some { l' with
        spec := { l.spec with jobs := l.spec.jobs ++ [job] }
        specInFlight := b.getId :: l.specInFlight }
  | _ => none

def drainEnd (l : Ledger σ) : Option (Ledger σ) :=
  match l.drain with
  | some ⟨[], .next⟩ =>
    let kept := trim l.pendingSpec.length l.pendingSpec
    some { l with
      pendingSpec := kept
      specInFlight := l.specInFlight.filter fun id =>
        !(l.pendingSpec.any (·.getId = id) && !kept.any (·.getId = id))
      drain := none }
  | _ => none

def runSpec (e : Setup σ) (l : Ledger σ) : Option (Ledger σ) :=
  match l.spec.jobs, l.specDone with
  | j :: jobs, none =>
    let r := ({ l.spec with jobs := jobs } : SpecApp).runSpec e l.app j
    some { l with app := r.1, spec := r.2, specDone := some j.block.getId }
  | _, _ => none

def reportSpec (l : Ledger σ) (todo : List Block) : Option (Ledger σ) :=
  match l.specDone with
  | some id =>
    if l.locked then none
    else { l with specDone := none, specInFlight := l.specInFlight.filter (· ≠ id) }.startDrain todo
  | none => none

/-- The beginning of `execCanonical`; the panic on a gap has no next state. -/
def take (l : Ledger σ) : Option (Ledger σ) :=
  match l.worker, l.commitQ with
  | .idle, b :: q =>
    if l.locked then none
    else if b.getSeqNum ≤ l.app.height then some { l with commitQ := q }
    else if l.app.height ≠ 0 ∧ b.getSeqNum ≠ l.app.height + 1 then none
    else some { l with commitQ := q, worker := .query b (l.committedID (b.getSeqNum - 1)) }
  | _, _ => none

def query (l : Ledger σ) : Option (Ledger σ) :=
  match l.worker with
  | .query b parent =>
    (l.spec.committedResult l.app b.getSeqNum b.getId parent).map fun r =>
      { l with
        app := r.1
        spec := r.2.1
        worker := match r.2.2 with
          | some en => .record b en
          | none => .direct b }
  | _ => none

def direct (e : Setup σ) (l : Ledger σ) : Option (Ledger σ) :=
  match l.worker with
  | .direct b => (l.finalizeDirect e b).map fun r => { r.1 with worker := .record b r.2 }
  | _ => none

/-- `recordCommitted` up to `PutFinalized`. -/
def record (e : Setup σ) (l : Ledger σ) : Option (Ledger σ) :=
  match l.worker with
  | .record b en =>
    if l.locked then none
    else some { l with
      app := l.app.recordCommit e.retain b.getSeqNum en
      committed := l.committed.set b.getSeqNum b
      worker := .apply b en }
  | _ => none

/-- The rest of `recordCommitted`, and the drain at the end of `execCanonical`. If `PutFinalized`
finds the store closed, `recordCommitted` returns before `applyUpdates`. -/
def apply (e : Setup σ) (l : Ledger σ) (todo : List Block) : Option (Ledger σ) :=
  match l.worker with
  | .apply b en =>
    if l.storeClosed then { l with worker := .idle }.startDrain todo
    else
      (l.app.applyUpdates e b.getSeqNum en.response.updates).bind fun app =>
        { l with app := app, worker := .idle }.startDrain todo
  | _ => none

def step (epochLength : Nat) (l : Ledger σ) : Action → Option (Ledger σ)
  | .observe b todo => l.observe b todo
  | .finalize b todo => l.finalize b todo
  | .notify => l.notify e epochLength
  | .closeStore => some { l with storeClosed := true }
  | .drainResult => l.drainResult
  | .drainChain => l.drainChain
  | .drainVotes => l.drainVotes e
  | .drainSubmit => l.drainSubmit e
  | .drainEnd => l.drainEnd
  | .runSpec => l.runSpec e
  | .reportSpec todo => l.reportSpec todo
  | .take => l.take
  | .query => l.query
  | .direct => l.direct e
  | .record => l.record e
  | .apply todo => l.apply e todo

def runFrom (e : Setup σ) (epochLength : Nat) (start : Ledger σ) : List Action → Option (Ledger σ)
  | [] => some start
  | a :: past => (runFrom e epochLength start past).bind (step e epochLength · a)

def runAll (epochLength : Nat) : List Action → Option (Ledger σ) := runFrom e epochLength (init e)

/-- The states after runs in any interleaving, of steps that meet `ok` where they are taken. -/
inductive Runs (e : Setup σ) (epochLength : Nat) (ok : Ledger σ → Action → Prop) (start : Ledger σ) :
    Ledger σ → Prop
  | start : Runs e epochLength ok start start
  | step {l l' : Ledger σ} (a : Action) : Runs e epochLength ok start l → ok l a →
      l.step e epochLength a = some l' → Runs e epochLength ok start l'

section Check

variable {e : Setup σ} {n : Nat} {ok : Ledger σ → Action → Prop}

/-- Every action of a sequence, newest first, meets `ok` where it is taken. -/
def okAll (e : Setup σ) (epochLength : Nat) (ok : Ledger σ → Action → Prop) [∀ l a, Decidable (ok l a)]
    (start : Ledger σ) : List Action → Bool
  | [] => true
  | a :: past =>
    okAll e epochLength ok start past && (runFrom e epochLength start past).all fun l => decide (ok l a)

theorem Runs.of_runFrom [∀ l a, Decidable (ok l a)] {actions : List Action} {start l : Ledger σ}
    (hok : okAll e n ok start actions = true) (h : runFrom e n start actions = some l) : Runs e n ok start l := by
  induction actions generalizing l with
  | nil =>
    cases h
    exact .start
  | cons a past ih =>
    obtain ⟨l₁, hpast, hstep⟩ := Option.bind_eq_some_iff.mp h
    rw [okAll, hpast, Bool.and_eq_true] at hok
    exact .step a (ih hok.1 hpast) (by simpa using hok.2) hstep

theorem Runs.mono {ok' : Ledger σ → Action → Prop} (hok : ∀ l a, ok l a → ok' l a) {start l : Ledger σ}
    (h : Runs e n ok start l) : Runs e n ok' start l := by
  induction h with
  | start => exact .start
  | step a _ ha hstep ih => exact .step a ih (hok _ _ ha) hstep

end Check

end Ledger

end MonadBft.Bridge
