/-
  MonadBft.Bridge.SpecApp — speculative execution (`bridge.SpecApp`, asynchronous mode).

  The spec worker executes proposed blocks on the application's own store, ahead of
  finalization. `tip` and `tipID` are the height and the block the store has come to,
  `bySeq` the results not yet taken over by the canonical side, `valSets` the validator
  sets after these heights. Each operation holds the application's lock and the index's
  lock from beginning to end, so each is one function of the two states.
-/
import MonadBft.Bridge.App

namespace MonadBft.Bridge

open Lib

variable {σ : Type}

/-- `specEntry`: the block, and the response with the request it answers. -/
abbrev SpecEntry := ResultEntry

structure SpecJob where
  req : Request
  block : Block
  deriving DecidableEq, Repr

structure SpecApp where
  tip : Nat
  tipID : BlockId
  bySeq : AMap Nat SpecEntry
  byID : AMap BlockId Nat
  valSets : AMap Nat CmtValidatorSet
  jobs : List SpecJob
  deriving DecidableEq, Repr

namespace SpecApp

def init : SpecApp := ⟨0, GENESIS_BLOCK_ID, AMap.empty, AMap.empty, AMap.empty, []⟩

/-- `valSetAfter`: the set after height `h`, from the application up to the committed height and
from the speculative lineage above. -/
def valSetAfter (e : Setup σ) (a : App σ) (s : SpecApp) (h : Nat) : Option CmtValidatorSet :=
  if h ≤ a.height then a.valSetAt e.retain (h + 1) else s.valSets.get h

def wouldChain (s : SpecApp) (b : Block) : Bool := b.getSeqNum = s.tip + 1 ∧ b.getParentId = s.tipID

/-- `SpecResultID`: whether there is a result for the block. The entry of a block whose height
was taken by another is dropped. -/
def specResultID (s : SpecApp) (id : BlockId) : Bool × SpecApp :=
  match s.byID.get id with
  | none => (false, s)
  | some h =>
    if (s.bySeq.get h).any (·.blockID = id) then (true, s)
    else (false, { s with byID := s.byID.erase id })

/-- Delete the heights with `gone` from the index. -/
def dropHeights (s : SpecApp) (gone : Nat → Bool) : SpecApp :=
  { s with
    bySeq := s.bySeq.filter fun h _ => !gone h
    byID := s.byID.filter fun id _ => !s.bySeq.entries.any fun p => gone p.1 && p.2.blockID = id
    valSets := s.valSets.filter fun h _ => !(gone h && s.bySeq.contains h) }

/-- `runSpec`: execute a job if it extends both the lineage and the store. -/
def runSpec (e : Setup σ) (a : App σ) (s : SpecApp) (j : SpecJob) : App σ × SpecApp :=
  if j.req.height ≠ s.tip + 1 then (a, s)
  else if j.block.getParentId ≠ s.tipID then (a, s)
  else if j.req.height ≠ a.storeTip + 1 then (a, s)
  else
    match a.execute e j.req with
    | none => (a, s)
    | some (a', res) =>
      let s' : SpecApp := { s with
        tip := j.req.height
        tipID := j.block.getId
        bySeq := s.bySeq.insert j.req.height ⟨j.block.getId, j.req, res⟩
        byID := s.byID.insert j.block.getId j.req.height }
      match applyValUpdates e (s'.valSetAfter e a' (j.req.height - 1)) res.updates with
      | none => (a', s')
      | some next => (a', { s' with valSets := s'.valSets.insert j.req.height next })

/-- `rewindLocked`; `none` is the error on a rewind to genesis. -/
def rewind (a : App σ) (s : SpecApp) (h : Nat) (tipID : BlockId) : Option (App σ × SpecApp) :=
  if h = 0 then none
  else some (a.rollbackTo h, { s.dropHeights (h < ·) with tip := h, tipID := tipID })

/-- The end of `CommittedResult` for a block that was not executed: the caller will. -/
def moveTip (s : SpecApp) (seq : Nat) (blockID : BlockId) : SpecApp :=
  let s := if s.tip < seq then { s with tip := seq, tipID := blockID } else s
  s.dropHeights (· ≤ seq)

/-- `CommittedResult`: the result if exactly this block was executed at this height. A height
that another block took is rewound; `none` is the panic when that fails. -/
def committedResult (a : App σ) (s : SpecApp) (seq : Nat) (blockID parentID : BlockId) :
    Option (App σ × SpecApp × Option SpecEntry) :=
  match s.bySeq.get seq with
  | some en =>
    if en.blockID = blockID then some (a, s.dropHeights (· ≤ seq), some en)
    else (s.rewind a (seq - 1) parentID).map fun r => (r.1, r.2.moveTip seq blockID, none)
  | none => some (a, s.moveTip seq blockID, none)

end SpecApp

end MonadBft.Bridge
