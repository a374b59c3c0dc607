/-
  MonadBft.Bridge.History — what the steps of the ledger do to its histories.

  The finalized chain grows only by `finalize`, the sets handed over only by `notify`, and
  blocks are never lost (`Ledger.step_history`, `Ledger.Runs.blocks`).
-/
import MonadBft.Bridge.Ledger

namespace MonadBft.Bridge

open Lib Chain Ledger

variable {σ : Type} {e : Setup σ} {n : Nat} {l l' : Ledger σ}

structure Ledger.Quiet (l l' : Ledger σ) : Prop where
  finalized : l'.finalized = l.finalized
  emitted : l'.emitted = l.emitted
  blocks : l.blocks ⊆ l'.blocks

theorem Ledger.blocks_insertBlock (l : Ledger σ) (b : Block) : l.blocks ⊆ (l.insertBlock b).blocks := by
  intro x hx
  by_cases hid : x.getId = b.getId
  · rw [ConsensusFullBlock.eq_of_getId hid]
    exact .head _
  · exact .tail b (List.mem_filter.mpr ⟨hx, by simpa using hid⟩)

variable {todo : List Block} {b : Block} {a : Action}

theorem Ledger.startDrain_quiet (h : l.startDrain todo = some l') : l.Quiet l' := by
  unfold startDrain at h
  split at h
  · cases h
    exact ⟨rfl, rfl, fun _ hx => hx⟩
  · cases h

theorem Ledger.commitFinalized_quiet (h : l.commitFinalized b = some l') : l.Quiet l' := by
  have hfold : ∀ (pending : List Block) (l : Ledger σ), l.Quiet (pending.foldl enqueue l) := by
    intro pending
    induction pending with
    | nil => exact fun l => ⟨rfl, rfl, fun _ hx => hx⟩
    | cons b pending ih =>
      intro l
      have hq := ih (l.enqueue b)
      exact ⟨hq.finalized, hq.emitted, hq.blocks⟩
  unfold commitFinalized at h
  split at h
  · cases h
  · cases h
    exact hfold _ l

theorem Ledger.finalize_history (h : l.finalize b todo = some l') :
    l'.finalized = b :: l.finalized ∧ l'.emitted = l.emitted ∧ b ∈ l'.blocks ∧ l.blocks ⊆ l'.blocks := by
  unfold finalize at h
  split at h
  · cases h
  split at h
  · cases h
  obtain ⟨l₁, hcommit, h⟩ := Option.bind_eq_some_iff.mp h
  have hq := commitFinalized_quiet hcommit
  have hd := startDrain_quiet h
  have hblocks : (l.insertBlock b).blocks ⊆ l'.blocks := fun x hx => hd.blocks (hq.blocks hx)
  refine ⟨hd.finalized.trans ?_, hd.emitted.trans hq.emitted, hblocks (.head _), fun x hx => ?_⟩
  · rw [hq.finalized]
    rfl
  · exact hblocks (l.blocks_insertBlock b hx)

theorem Ledger.observe_quiet (h : l.observe b todo = some l') : l.Quiet l' := by
  unfold observe at h
  split at h
  · cases h
  split at h
  · cases h
    exact ⟨rfl, rfl, l.blocks_insertBlock b⟩
  · have hq := startDrain_quiet h
    exact ⟨hq.finalized, hq.emitted, fun x hx => hq.blocks (l.blocks_insertBlock b hx)⟩

/-- Every other step than `finalize` and `notify` is quiet. -/
theorem Ledger.step_quiet (hfin : ∀ b todo, a ≠ .finalize b todo) (hnot : a ≠ .notify)
    (h : l.step e n a = some l') : l.Quiet l' := by
  cases a with
  | observe b todo => exact observe_quiet h
  | finalize b todo => exact absurd rfl (hfin b todo)
  | notify => exact absurd rfl hnot
  | drainResult =>
    change l.drainResult = some l' at h
    unfold drainResult at h
    split at h
    · split at h
      · cases h
        exact ⟨rfl, rfl, fun _ hx => hx⟩
      · split at h <;> cases h <;> exact ⟨rfl, rfl, fun _ hx => hx⟩
    · cases h
  | drainChain =>
    change l.drainChain = some l' at h
    unfold drainChain at h
    split at h
    · cases h
      exact ⟨rfl, rfl, fun _ hx => hx⟩
    · cases h
  | closeStore =>
    cases h
    exact ⟨rfl, rfl, fun _ hx => hx⟩
  | drainVotes =>
    change l.drainVotes e = some l' at h
    unfold drainVotes at h
    split at h
    · cases h
      exact ⟨rfl, rfl, fun _ hx => hx⟩
    · cases h
  | drainSubmit =>
    change l.drainSubmit e = some l' at h
    unfold drainSubmit at h
    split at h
    · dsimp only at h
      split at h <;> cases h <;> exact ⟨rfl, rfl, fun _ hx => hx⟩
    · cases h
  | drainEnd =>
    change l.drainEnd = some l' at h
    unfold drainEnd at h
    split at h
    · cases h
      exact ⟨rfl, rfl, fun _ hx => hx⟩
    · cases h
  | runSpec =>
    change l.runSpec e = some l' at h
    unfold runSpec at h
    split at h <;> cases h
    exact ⟨rfl, rfl, fun _ hx => hx⟩
  | reportSpec todo =>
    change l.reportSpec todo = some l' at h
    unfold reportSpec at h
    split at h
    · split at h
      · cases h
      · have hq := startDrain_quiet h
        exact ⟨hq.finalized, hq.emitted, hq.blocks⟩
    · cases h
  | take =>
    change l.take = some l' at h
    unfold take at h
    split at h
    · split at h
      · cases h
      split at h
      · cases h
        exact ⟨rfl, rfl, fun _ hx => hx⟩
      split at h <;> cases h
      exact ⟨rfl, rfl, fun _ hx => hx⟩
    · cases h
  | query =>
    change l.query = some l' at h
    unfold query at h
    split at h
    · obtain ⟨r, -, rfl⟩ := Option.map_eq_some_iff.mp h
      exact ⟨rfl, rfl, fun _ hx => hx⟩
    · cases h
  | direct =>
    change l.direct e = some l' at h
    unfold direct at h
    split at h
    · obtain ⟨r, hfin, rfl⟩ := Option.map_eq_some_iff.mp h
      obtain ⟨r', -, hr⟩ := Option.bind_eq_some_iff.mp hfin
      cases hr
      exact ⟨rfl, rfl, fun _ hx => hx⟩
    · cases h
  | record =>
    change l.record e = some l' at h
    unfold record at h
    split at h
    · split at h <;> cases h
      exact ⟨rfl, rfl, fun _ hx => hx⟩
    · cases h
  | apply todo =>
    change l.apply e todo = some l' at h
    unfold apply at h
    split at h
    · split at h
      · have hq := startDrain_quiet h
        exact ⟨hq.finalized, hq.emitted, hq.blocks⟩
      · obtain ⟨app, -, h⟩ := Option.bind_eq_some_iff.mp h
        have hq := startDrain_quiet h
        exact ⟨hq.finalized, hq.emitted, hq.blocks⟩
    · cases h

theorem Ledger.notify_history (h : l.notify e n = some l') : l'.finalized = l.finalized ∧ l'.blocks = l.blocks := by
  unfold notify at h
  split at h
  · cases h
  split at h
  · cases h
    exact ⟨rfl, rfl⟩
  · split at h <;> cases h
    exact ⟨rfl, rfl⟩

theorem Ledger.step_history (h : l.step e n a = some l') :
    l.finalized <:+ l'.finalized ∧ (a = .notify ∨ l'.emitted = l.emitted) := by
  by_cases hfin : ∃ b todo, a = .finalize b todo
  · obtain ⟨b, todo, rfl⟩ := hfin
    obtain ⟨hfin, hem, -⟩ := finalize_history h
    exact ⟨hfin ▸ List.suffix_cons b _, .inr hem⟩
  by_cases hnot : a = .notify
  · subst hnot
    rw [(notify_history h).1]
    exact ⟨List.suffix_rfl, .inl rfl⟩
  · push Not at hfin
    have hq := step_quiet hfin hnot h
    rw [hq.finalized]
    exact ⟨List.suffix_rfl, .inr hq.emitted⟩

theorem Ledger.Runs.blocks {ok : Ledger σ → Action → Prop} {start : Ledger σ} (h : Ledger.Runs e n ok start l)
    (hstart : start.finalized ⊆ start.blocks) : l.finalized ⊆ l.blocks := by
  induction h with
  | start => exact hstart
  | @step l l' a _ _ hstep ih =>
    by_cases hfin : ∃ b todo, a = .finalize b todo
    · obtain ⟨b, todo, rfl⟩ := hfin
      obtain ⟨hfin, -, hmem, hblocks⟩ := finalize_history hstep
      rw [hfin]
      exact List.cons_subset.mpr ⟨hmem, fun x hx => hblocks (ih hx)⟩
    by_cases hnot : a = .notify
    · subst hnot
      rw [(notify_history hstep).1, (notify_history hstep).2]
      exact ih
    · push Not at hfin
      have hq := step_quiet hfin hnot hstep
      rw [hq.finalized]
      exact fun x hx => hq.blocks (ih hx)

end MonadBft.Bridge
