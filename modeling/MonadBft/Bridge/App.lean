/-
  MonadBft.Bridge.App — the application behind the bridge (`bridge.App`, the ABCI seam).

  The application is deterministic: `FinalizeBlock` is a function of the committed state and the
  request. Its store keeps every committed version, so `RollbackToVersion` gives back the exact
  earlier state. `App` is the bookkeeping around it: the committed height, the result and the
  validator set after each committed height, and the current set. Heights are sequence numbers.

  `Chain.run` executes a chain block by block with nothing in between; it is what the
  bookkeeping is measured against.
-/
import MonadBft.Bridge.Keys

namespace MonadBft.Bridge

open Lib

abbrev Block := ConsensusFullBlock

/-! ## The application -/

structure ValidatorUpdate where
  address : Nat
  power : Nat
  deriving DecidableEq, Repr

structure Request where
  txs : List Nat
  height : Nat
  time : Nat
  proposerAddress : Option Nat
  decidedLastCommit : CommitInfo
  hash : BlockId
  nextValidatorsHash : Option Nat
  deriving DecidableEq, Repr

/-- `abcitypes.ResponseFinalizeBlock`; transaction results and events are not used again. -/
structure Response where
  appHash : Nat
  updates : List ValidatorUpdate
  deriving DecidableEq, Repr

/-- The application with states `σ`, and what the bridge uses of the validator-set library:
`UpdateWithChangeSet` (which leaves the set alone when there is nothing to change) and `Hash`.
`none` is an error. -/
structure Abci (σ : Type) where
  finalizeBlock : σ → Request → Option (σ × Response)
  updateWithChangeSet : CmtValidatorSet → List ValidatorUpdate → Option CmtValidatorSet
  setHash : CmtValidatorSet → Nat
  update_nil : ∀ vs, updateWithChangeSet vs [] = some vs

/-- What does not change while a node runs: the application, the key tables, the state and the
set after `InitChain`, and the number of heights kept in memory (zero: all), which the
configuration check does not let be small. -/
structure Setup (σ : Type) where
  abci : Abci σ
  keys : Keys
  genesisState : σ
  genesisSet : CmtValidatorSet
  retain : Nat
  retain_ok : retain = 0 ∨ 128 ≤ retain

variable {σ : Type}

/-- `finalizeRequest`: `votesSet` validated the parent, `nextSet` validates this block. -/
def finalizeRequest (e : Setup σ) (b : Block) (votesSet nextSet : Option CmtValidatorSet) : Request where
  txs := b.body.txs
  height := b.getSeqNum
  time := b.header.timestampNs
  proposerAddress := e.keys.consAddr b.header.author
  decidedLastCommit := lastCommitWith e.keys b.header.qc votesSet
  hash := b.getId
  nextValidatorsHash := nextSet.map e.abci.setHash

/-- `applyValUpdates`, for a set that may be unknown. -/
def applyValUpdates (e : Setup σ) (base : Option CmtValidatorSet) (updates : List ValidatorUpdate) :
    Option CmtValidatorSet :=
  base.bind (e.abci.updateWithChangeSet · updates)

/-! ## Executing a chain -/

/-- What executing a chain leaves: the state, the set after the last block and the one before,
and the request and the response of the last block. -/
structure Outcome (σ : Type) where
  state : σ
  setAfter : Option CmtValidatorSet
  setBefore : Option CmtValidatorSet
  last : Option (Request × Response)

namespace Chain

/-- The id of the newest block, that of genesis for the empty chain. -/
def headId : List Block → BlockId
  | [] => GENESIS_BLOCK_ID
  | b :: _ => b.getId

inductive Linked : List Block → Prop
  | nil : Linked []
  | cons {b : Block} {c : List Block} : Linked c → b.getParentId = headId c →
      b.getSeqNum = c.length + 1 → Linked (b :: c)

def genesis (e : Setup σ) : Outcome σ := ⟨e.genesisState, some e.genesisSet, some e.genesisSet, none⟩

def request (e : Setup σ) (o : Outcome σ) (b : Block) : Request :=
  finalizeRequest e b o.setBefore o.setAfter

def step (e : Setup σ) (o : Outcome σ) (b : Block) : Option (Outcome σ) :=
  (e.abci.finalizeBlock o.state (request e o b)).map fun r =>
    ⟨r.1, applyValUpdates e o.setAfter r.2.updates, o.setAfter, some (request e o b, r.2)⟩

/-- Execute a chain from genesis, one block after the other. -/
def run (e : Setup σ) : List Block → Option (Outcome σ)
  | [] => some (genesis e)
  | b :: c => (run e c).bind (step e · b)

/-- The state after each block of a chain, newest first, down to genesis. -/
def states (e : Setup σ) : List Block → List σ
  | [] => [e.genesisState]
  | b :: c => ((run e (b :: c)).map (·.state)).toList ++ states e c

def setAfter (e : Setup σ) (c : List Block) : Option CmtValidatorSet := (run e c).bind (·.setAfter)

def record (e : Setup σ) (c : List Block) : Option (Request × Response) := (run e c).bind (·.last)

end Chain

namespace Chain

variable {e : Setup σ} {b : Block} {c d : List Block} {o : Outcome σ}

theorem headId_inj (hc : Linked c) (hd : Linked d) (h : headId c = headId d) : c = d := by
  induction hc generalizing d with
  | nil =>
    cases hd with
    | nil => rfl
    | cons _ _ _ => exact absurd h.symm (getId_ne_genesis _)
  | cons _ hparent _ ih =>
    cases hd with
    | nil => exact absurd h (getId_ne_genesis _)
    | cons hd' hparent' _ =>
      obtain rfl := ConsensusFullBlock.eq_of_getId h
      rw [ih hd' (hparent.symm.trans hparent')]

theorem Linked.tail (h : Linked (b :: c)) : Linked c := by
  cases h with
  | cons hc _ _ => exact hc

theorem Linked.seqNum (h : Linked (b :: c)) : b.getSeqNum = c.length + 1 := by
  cases h with
  | cons _ _ hseq => exact hseq

theorem Linked.suffix (hd : Linked d) (h : c <:+ d) : Linked c := by
  induction hd with
  | nil =>
    rw [List.suffix_nil.mp h]
    exact .nil
  | cons hd hparent hseq ih =>
    rcases List.suffix_cons_iff.mp h with rfl | h
    · exact .cons hd hparent hseq
    · exact ih h

theorem run_cons (h : run e (b :: c) = some o) :
    ∃ o', run e c = some o' ∧ step e o' b = some o := Option.bind_eq_some_iff.mp h

theorem run_suffix (h : c <:+ d) (hd : (run e d).isSome) : (run e c).isSome := by
  induction d with
  | nil =>
    rw [List.suffix_nil.mp h]
    exact hd
  | cons b d ih =>
    rcases List.suffix_cons_iff.mp h with rfl | h
    · exact hd
    · obtain ⟨o, ho⟩ := Option.isSome_iff_exists.mp hd
      obtain ⟨o', ho', -⟩ := run_cons ho
      exact ih h (by simp [ho'])

theorem states_length (h : (run e c).isSome) : (states e c).length = c.length + 1 := by
  induction c with
  | nil => rfl
  | cons b c ih =>
    obtain ⟨o, ho⟩ := Option.isSome_iff_exists.mp h
    rw [states, List.length_append, ih (run_suffix (List.suffix_cons b c) h), ho]
    simp only [Option.map_some, Option.toList_some, List.length_cons, List.length_nil]
    omega

theorem states_head (h : run e c = some o) : (states e c).head? = some o.state := by
  cases c with
  | nil =>
    cases h
    rfl
  | cons b c => simp [states, h]

theorem states_drop (h : (run e c).isSome) {k : Nat} (hk : k ≤ c.length) :
    (states e c).drop k = states e (c.drop k) := by
  induction c generalizing k with
  | nil =>
    obtain rfl : k = 0 := by simpa using hk
    rfl
  | cons b c ih =>
    cases k with
    | zero => rfl
    | succ k =>
      obtain ⟨o, ho⟩ := Option.isSome_iff_exists.mp h
      rw [List.drop_succ_cons, ← ih (run_suffix (List.suffix_cons b c) h) (by simpa using hk), states, ho]
      rfl

theorem run_setBefore (h : run e c = some o) : setAfter e c.tail = o.setBefore := by
  cases c with
  | nil =>
    cases h
    rfl
  | cons b c =>
    obtain ⟨o', ho', hstep⟩ := run_cons h
    obtain ⟨r, -, rfl⟩ := Option.map_eq_some_iff.mp hstep
    simp [setAfter, ho']

theorem setAfter_of_run (h : run e c = some o) : setAfter e c = o.setAfter := by
  simp [setAfter, h]

theorem run_extend {r : σ × Response} (h : run e c = some o)
    (hr : e.abci.finalizeBlock o.state (request e o b) = some r) : ∃ o', run e (b :: c) = some o' ∧ o'.state = r.1 ∧
      setAfter e (b :: c) = applyValUpdates e (setAfter e c) r.2.updates ∧
      record e (b :: c) = some (request e o b, r.2) := by
  have hrun : run e (b :: c) = some ⟨r.1, applyValUpdates e o.setAfter r.2.updates, o.setAfter,
      some (request e o b, r.2)⟩ := by
    simp [run, h, step, hr]
  exact ⟨_, hrun, rfl, by simp [setAfter, hrun, h], by simp [record, hrun]⟩

end Chain

/-! ## The bookkeeping -/

abbrev HeightMap (α : Type) := Nat → Option α

def HeightMap.set {α : Type} (m : HeightMap α) (h : Nat) (a : α) : HeightMap α :=
  fun h' => if h' = h then some a else m h'

def HeightMap.keep {α : Type} (m : HeightMap α) (p : Nat → Bool) : HeightMap α :=
  fun h => if p h then m h else none

structure ResultEntry where
  blockID : BlockId
  request : Request
  response : Response
  deriving DecidableEq, Repr

/-- `bridge.App`, with the result store attached. `store` lists the committed versions of the
application, newest first, down to genesis; `changes` the durable validator set changes. -/
structure App (σ : Type) where
  store : List σ
  height : Nat
  results : HeightMap ResultEntry
  valSets : HeightMap CmtValidatorSet
  lastValSet : CmtValidatorSet
  appSet : CmtValidatorSet
  changes : List (Nat × CmtValidatorSet)

namespace App

def init (e : Setup σ) : App σ where
  store := [e.genesisState]
  height := 0
  results := fun _ => none
  valSets := HeightMap.set (fun _ => none) 0 e.genesisSet
  lastValSet := e.genesisSet
  appSet := e.genesisSet
  changes := []

def storeTip (a : App σ) : Nat := a.store.length - 1

def rollbackTo (a : App σ) (h : Nat) : App σ := { a with store := a.store.drop (a.storeTip - h) }

/-- `FinalizeBlock` and `Commit`: a new version of the store. -/
def execute (e : Setup σ) (a : App σ) (req : Request) : Option (App σ × Response) := do
  let s ← a.store.head?
  let r ← e.abci.finalizeBlock s req
  return ({ a with store := r.1 :: a.store }, r.2)

/-- `ValSetBefore`: the last durable change at or below `h`. -/
def valSetBefore (a : App σ) (h : Nat) : Option CmtValidatorSet := (a.changes.find? (·.1 ≤ h)).map (·.2)

/-- `ValSetAt` with `SetRetain(retain)`: the set that validates height `h`. Below the kept window the
durable change log answers, and before the first change the genesis set. -/
def valSetAt (retain : Nat) (a : App σ) (h : Nat) : Option CmtValidatorSet :=
  if h ≤ 1 then a.valSets 0
  else
    match a.valSets (h - 1) with
    | some vs => some vs
    | none =>
      if 0 < retain ∧ h - 1 + retain < a.height then
        ((a.valSetBefore (h - 1)).or (a.valSets 0)).or (some a.lastValSet)
      else some a.lastValSet

/-- `recordCommit` with `SetRetain(retain)`. -/
def recordCommit (retain : Nat) (a : App σ) (seq : Nat) (entry : ResultEntry) : App σ :=
  let kept := fun h => !(0 < retain && 0 < seq - retain && h == seq - retain)
  { a with
    height := seq
    results := (a.results.set seq entry).keep kept
    valSets := a.valSets.keep kept }

/-- `applyUpdates`; `none` is the panic on an update the library refuses. -/
def applyUpdates (e : Setup σ) (a : App σ) (h : Nat) (updates : List ValidatorUpdate) : Option (App σ) := do
  let appSet ← e.abci.updateWithChangeSet a.appSet updates
  let last := if updates ≠ [] then appSet else a.lastValSet
  return { a with
    appSet := appSet
    lastValSet := last
    valSets := a.valSets.set h last
    changes := if updates ≠ [] then (h, last) :: a.changes else a.changes }

/-- Without updates the set stays, so the latest historical set is the current one either way. -/
theorem applyUpdates_some {e : Setup σ} {a a' : App σ} {h : Nat} {updates : List ValidatorUpdate}
    (hsome : a.applyUpdates e h updates = some a') (hsame : a.lastValSet = a.appSet) :
    ∃ vs, e.abci.updateWithChangeSet a.appSet updates = some vs ∧ a' = { a with
      appSet := vs
      lastValSet := vs
      valSets := a.valSets.set h vs
      changes := if updates ≠ [] then (h, vs) :: a.changes else a.changes } := by
  obtain ⟨vs, hvs, hsome⟩ := Option.bind_eq_some_iff.mp hsome
  have hlast : (if updates ≠ [] then vs else a.lastValSet) = vs := by
    split_ifs with hne
    · rfl
    · rw [not_not.mp hne, e.abci.update_nil] at hvs
      exact hsame.trans (Option.some.inj hvs)
  rw [hlast] at hsome
  exact ⟨vs, hvs, (Option.some.inj hsome).symm⟩

end App

end MonadBft.Bridge
