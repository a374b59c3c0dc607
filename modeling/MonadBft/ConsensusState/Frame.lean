/-
  MonadBft.ConsensusState.Frame — what the elementary steps leave alone.

  Three kinds of steps touch the block tree, and only one finalizes blocks (`Step.chain`);
  the epoch of the pacemaker changes with the round only (`Step.epoch`); the history grows
  (`Step.history_le`). An event is a sequence of steps, so what holds of every step from the
  start of a run holds of every run (`steps_of_moves`).
-/
import MonadBft.ConsensusState.Trace

namespace MonadBft.State

open Lib Relation List

variable {env : Env} {ev : Event} {s s' : State} {c : Command}

structure SameChain (s s' : State) : Prop where
  tree : s'.pendingBlockTree = s.pendingBlockTree
  policy : s'.blockPolicy = s.blockPolicy
  epochs : s'.epochManager = s.epochManager
  finalized : s'.finalized = s.finalized

theorem finalized_append {cmds : List Command} (h : ∀ c ∈ cmds, c.finalizes = none) :
    (s.out ++ cmds).filterMap Command.finalizes = s.finalized := by
  rw [filterMap_append, filterMap_eq_nil_iff.mpr h, append_nil]
  rfl

theorem fromPacemakerCommand_finalizes {nodeId : NodeId} {pc : PacemakerCommand}
    (h : c ∈ fromPacemakerCommand nodeId pc) : c.finalizes = none := by
  cases pc with
  | enterRound =>
    rcases mem_cons.mp h with rfl | h
    · rfl
    · obtain rfl := mem_singleton.mp h
      rfl
  | _ =>
    obtain rfl := mem_singleton.mp h
    rfl

theorem proposes_finalizes {round : Nat} (h : proposesRound c = some round) : c.finalizes = none := by
  cases c with
  | commitBlocks => cases h
  | _ => rfl

structure Committed (b : ConsensusFullBlock) (s s' : State) : Prop where
  policy : s.blockPolicy.updateCommittedBlock b = .ok s'.blockPolicy
  epochs : s.epochManager.scheduleEpochStart b.header.seqNum b.getBlockRound = .ok s'.epochManager
  finalized : s'.finalized = s.finalized ++ [b]
  history : s'.history = s.history ++ [.commit s.currentRound s.epochManager b]
  core : SameCore s s'
  tree : s'.pendingBlockTree = s.pendingBlockTree

theorem commitBlock_ok {b : ConsensusFullBlock} (h : s.commitBlock b = .ok s') : Committed b s s' := by
  obtain ⟨policy, hpolicy, h⟩ := bind_eq_ok.mp h
  obtain ⟨em, hem, h⟩ := bind_eq_ok.mp h
  cases h
  refine ⟨hpolicy, hem, ?_, rfl, ⟨rfl, rfl, rfl, rfl, rfl⟩, rfl⟩
  unfold State.finalized
  rw [filterMap_append]
  rfl

/-- The steps that touch the block tree: a block of the event is added, blocks become coherent, or the path
to a committable block is finalized. -/
theorem Step.chain (h : Step env ev s s') : SameChain s s' ∨
    (∃ block, ev.Brings block ∧ s' = { s with pendingBlockTree := s.pendingBlockTree.add env.childOrder block }) ∨
    (∃ id tree blocks, s.pendingBlockTree.tryUpdateCoherency s.blockPolicy env.stateRead id = .ok (tree, blocks) ∧
      s' = { s with pendingBlockTree := tree, out := s.out ++ blocks.map (.commitBlocks (.proposed false)) }) ∨
    ∃ qc parent tree blocks, Commits env ev s qc parent ∧ s.pendingBlockTree.prune parent.getParentId = .ok (tree, blocks) ∧
      blocks.foldlM commitBlock { s with pendingBlockTree := tree } = .ok s' := by
  cases h with
  | insert block hb => exact .inr (.inl ⟨block, hb, rfl⟩)
  | cohere id tree blocks hc => exact .inr (.inr (.inl ⟨id, tree, blocks, hc, rfl⟩))
  | commit _ qc parent tree blocks hc hp hfold => exact .inr (.inr (.inr ⟨qc, parent, tree, blocks, hc, hp, hfold⟩))
  | pacemaker p safety cmds _ =>
    refine .inl ⟨rfl, rfl, rfl, finalized_append fun c hc => ?_⟩
    obtain ⟨pc, -, hc⟩ := mem_flatMap.mp hc
    exact fromPacemakerCommand_finalizes hc
  | sendVote v cmds _ hcmds =>
    refine .inl ⟨rfl, rfl, rfl, finalized_append fun c hc => ?_⟩
    rcases hcmds c hc with ⟨target, rfl⟩ | hq
    · rfl
    · exact hq.finalizes
  | noEndorse author m tip epoch safety =>
    exact .inl ⟨rfl, rfl, rfl, finalized_append (forall_mem_singleton.mpr rfl)⟩
  | propose cmd safety hcmd =>
    exact .inl ⟨rfl, rfl, rfl, finalized_append (forall_mem_singleton.mpr (proposes_finalizes hcmd))⟩
  | recoveryRequest cmd safety hq =>
    exact .inl ⟨rfl, rfl, rfl, finalized_append (forall_mem_singleton.mpr hq.finalizes)⟩
  | request range cancelRound =>
    exact .inl ⟨rfl, rfl, rfl, finalized_append (forall_mem_singleton.mpr rfl)⟩
  | forget keep cmds hq => exact .inl ⟨rfl, rfl, rfl, finalized_append fun c hc => (hq c hc).finalizes⟩
  | announce cmds canonical hq => exact .inl ⟨rfl, rfl, rfl, finalized_append fun c hc => (hq c hc).finalizes⟩
  | _ => exact .inl ⟨rfl, rfl, rfl, rfl⟩

theorem Step.epoch (h : Step env ev s s') :
    s'.pacemaker.currentEpoch = s.pacemaker.currentEpoch ∧ s'.currentRound = s.currentRound ∨
    s.currentRound < s'.currentRound ∧ s'.epochManager = s.epochManager ∧
      s.epochManager.getEpoch s'.currentRound = some s'.pacemaker.currentEpoch := by
  cases h with
  | commit _ qc parent tree blocks _ _ hfold =>
    obtain ⟨policy, em, acts, rfl, -⟩ := commitBlocks_ok hfold
    exact .inl ⟨rfl, rfl⟩
  | pacemaker p safety cmds hp =>
    generalize hx : (s.pacemaker, s.safety) = x at hp
    generalize hy : (p, safety) = y at hp
    cases hp with
    | enter q t cert epoch _ hlt hepoch =>
      cases hx
      cases hy
      exact .inr ⟨Nat.succ_lt_succ hlt, rfl, hepoch⟩
    | form q t validators order tcEpoch tc epoch _ htc hepoch =>
      cases hx
      cases hy
      obtain ⟨tr, -, heq⟩ := bind_eq_ok.mp htc
      cases heq
      exact .inr ⟨Nat.lt_succ_self _, rfl, hepoch⟩
    | _ =>
      cases hx
      cases hy
      exact .inl ⟨rfl, rfl⟩
  | _ => exact .inl ⟨rfl, rfl⟩

def Moves (s s' : State) : Prop := ∃ env ev, s.handle env ev = .ok s'

/-- The event is no message, or one that passes `Verify` and `Validate`. -/
def accepts (env : Env) (s : State) : Event → Bool
  | .message author m =>
    (s.validatorEnv env).verify author m = .ok () ∧ (s.validatorEnv env).validate s.currentRound m = .ok m
  | _ => true

def run (env : Env) : List Event → State → Option (Except Panic State)
  | [], s => some (.ok s)
  | ev :: rest, s =>
    if !s.accepts env ev then none
    else
      match s.handle env ev with
      | .error e => some (.error e)
      | .ok s' => run env rest s'

theorem moves_of_run {evs : List Event} (h : run env evs s = some (.ok s')) : ReflTransGen Moves s s' := by
  induction evs generalizing s with
  | nil =>
    cases h
    exact .refl
  | cons ev evs ih =>
    unfold run at h
    split at h
    · cases h
    split at h
    · cases h
    · rename_i s₁ hs₁
      exact .head ⟨env, ev, hs₁⟩ (ih h)

/-- One elementary step, of any event. -/
def AnyStep (s s' : State) : Prop := ∃ env ev, Step env ev s s'

theorem Moves.steps (h : Moves s s') : ReflTransGen AnyStep s s' := by
  obtain ⟨env, ev, h⟩ := h
  have htraced := handle_traced env ev s
  rw [h] at htraced
  have hsteps : ReflTransGen (Step env ev) s s' := htraced
  exact ReflTransGen.mono (fun a b hab => ⟨env, ev, hab⟩ : ∀ a b, Step env ev a b → AnyStep a b) _ _ hsteps

theorem steps_of_moves (h : ReflTransGen Moves s s') : ReflTransGen AnyStep s s' := by
  induction h with
  | refl => exact .refl
  | tail _ hmove ih => exact ih.trans hmove.steps

end MonadBft.State
