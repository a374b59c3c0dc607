/-
  MonadBft.Bridge.FixedDelay — the execution window of the fixed-delay policies
  (`blocktree.MockBlockPolicy`, `blocktree.EvmBlockPolicy`).

  The policy indexes the last committed blocks: a reset seeds it with the last `2 * delay` of
  them, and every commit drops what is more than `2 * delay` behind. A block above the last
  committed one asks for the result `delay` behind it, and that is in the index or on the branch
  it extends (`fixed_delay_window`). The delay is doubled in 64 bits: a delay of `2 ^ 63` keeps the
  last block only (`doubled_delay_wraps`).
-/
import MonadBft.Bridge.FinalOnly

namespace MonadBft.Bridge

open Lib BlockPolicy List

/-- A chain, oldest first, numbered from one. -/
def Numbered (c : List ConsensusFullBlock) : Prop := c.map (·.getSeqNum) = List.range' 1 c.length

def FixedDelay (k : PolicyKind) : Prop := k = .mock ∨ ∃ fees, k = .evm fees

inductive Committed (delay : Nat) : BlockPolicy → List ConsensusFullBlock → Prop
  | reset {p : BlockPolicy} {c : List ConsensusFullBlock} : FixedDelay p.kind → p.executionDelay = delay → Numbered c →
      Committed delay (p.reset (c.drop (c.length - 2 * delay))) c
  | commit {p p' : BlockPolicy} {c : List ConsensusFullBlock} {b : ConsensusFullBlock} : Committed delay p c →
      p.updateCommittedBlock b = .ok p' → Committed delay p' (c ++ [b])

variable {delay s : Nat} {p p' : BlockPolicy} {c ext : List ConsensusFullBlock} {b : ConsensusFullBlock}

theorem FixedDelay.ne_passthru {k : PolicyKind} (h : FixedDelay k) : k ≠ .passthru := by
  rcases h with rfl | ⟨fees, rfl⟩ <;> simp

theorem Numbered.snoc (h : Numbered c) (hb : b.getSeqNum = c.length + 1) : Numbered (c ++ [b]) := by
  unfold Numbered at h ⊢
  rw [map_append, h, length_append, length_singleton, range'_concat]
  simp [hb, Nat.add_comm]

theorem Numbered.take (h : Numbered c) (n : Nat) : Numbered (c.take n) := by
  unfold Numbered at h ⊢
  rw [map_take, h, length_take]
  refine ext_getElem (by simp) fun i h₁ h₂ => ?_
  simp

theorem Numbered.seq_mem (h : Numbered c) (hb : b ∈ c) : 1 ≤ b.getSeqNum ∧ b.getSeqNum ≤ c.length := by
  have hmem : b.getSeqNum ∈ c.map (·.getSeqNum) := mem_map_of_mem hb
  rw [h, mem_range'_1] at hmem
  omega

theorem Numbered.exists_mem (h : Numbered c) {k : Nat} (hpos : 1 ≤ k) (hle : k ≤ c.length) :
    ∃ b ∈ c, b.getSeqNum = k := by
  have hk : k ∈ c.map (·.getSeqNum) := by
    rw [h, mem_range'_1]
    omega
  exact mem_map.mp hk

/-! ## The window -/

structure DelayWindow (delay : Nat) (p : BlockPolicy) (c : List ConsensusFullBlock) : Prop where
  kind : FixedDelay p.kind
  executionDelay : p.executionDelay = delay
  numbered : Numbered c
  lastCommit : p.lastCommit = c.length
  held : ∀ b ∈ c, c.length < b.getSeqNum + 2 * delay → p.committed.get b.getSeqNum = some (refOf b)

theorem DelayWindow.reset (hk : FixedDelay p.kind) (hdelay : p.executionDelay = delay) (hc : Numbered c) (hd : 1 ≤ delay) :
    DelayWindow delay (p.reset (c.drop (c.length - 2 * delay))) c := by
  have hnodup : ((c.drop (c.length - 2 * delay)).map (·.getSeqNum)).Nodup := by
    have hall : (c.map (·.getSeqNum)).Nodup := by
      rw [hc]
      exact nodup_range'
    exact hall.sublist ((drop_sublist _ _).map _)
  obtain ⟨h1, h2, h3⟩ := foldl_record_keeps (c.drop (c.length - 2 * delay))
    { p with lastCommit := GENESIS_SEQ_NUM, committed := AMap.empty }
  obtain ⟨-, h5⟩ := foldl_record _ { p with lastCommit := GENESIS_SEQ_NUM, committed := AMap.empty } hnodup
  rw [reset_eq hk.ne_passthru]
  refine ⟨?_, h2.trans hdelay, hc, ?_, ?_⟩
  · rw [h1]
    exact hk
  · rw [h3, ← getLast?_map, map_drop, hc, getLast?_drop, getLast?_range', length_range']
    by_cases hempty : c.length = 0
    · simp [hempty, GENESIS_SEQ_NUM]
    · rw [if_neg (by omega), if_neg hempty]
      simp
  · intro b hb hlt
    refine h5 b ?_
    -- the blocks that are left out have lower numbers
    rw [← take_append_drop (c.length - 2 * delay) c] at hb
    rcases mem_append.mp hb with hold | hnew
    · have := (hc.take (c.length - 2 * delay)).seq_mem hold
      rw [length_take] at this
      omega
    · exact hnew

theorem DelayWindow.commit (h : DelayWindow delay p c) (hd : delay < 2 ^ 63) (hu : p.updateCommittedBlock b = .ok p') :
    DelayWindow delay p' (c ++ [b]) := by
  obtain ⟨hseq, rfl⟩ := update_ok h.kind.ne_passthru hu
  rw [h.lastCommit] at hseq
  have hfloor : (p.record b).retainFrom = c.length + 1 - delay * 2 := by
    unfold retainFrom record
    rw [h.executionDelay, Nat.mod_eq_of_lt (by omega)]
    rcases h.kind with hk | ⟨fees, hk⟩ <;> simp [hk, hseq]
  refine ⟨h.kind, h.executionDelay, h.numbered.snoc hseq, ?_, ?_⟩
  · rw [length_append]
    exact hseq
  · intro x hx hlt
    rw [length_append, length_singleton] at hlt
    rw [get_prune (by omega)]
    rcases mem_append.mp hx with hx | hx
    · have hle := h.numbered.seq_mem hx
      unfold record
      rw [AMap.get_insert_ne _ _ (by omega)]
      exact h.held x hx (by omega)
    · obtain rfl := mem_singleton.mp hx
      exact AMap.get_insert_self _ _ _

theorem Committed.delayWindow (h : Committed delay p c) (hd : 1 ≤ delay) (hd' : delay < 2 ^ 63) : DelayWindow delay p c := by
  induction h with
  | reset hk hdelay hc => exact DelayWindow.reset hk hdelay hc hd
  | commit _ hu ih => exact ih.commit hd' hu

/-! ## The lookup -/

variable {sr : StateRead}

section

variable (h : DelayWindow delay p c)

include h

theorem DelayWindow.expected : p.getExpectedExecutionResults s ext sr = p.expectedFixedDelay s ext sr := by
  unfold getExpectedExecutionResults
  rcases h.kind with hk | ⟨fees, hk⟩ <;> rw [hk]

theorem DelayWindow.get_base (hs : c.length < s) (hbase : delay < s)
    (hle : s - delay ≤ c.length) : ∃ b ∈ c, b.getSeqNum = s - delay ∧ p.committed.get (s - delay) = some (refOf b) := by
  obtain ⟨b, hb, hseq⟩ := h.numbered.exists_mem (k := s - delay) (by omega) hle
  have hheld := h.held b hb (by omega)
  rw [hseq] at hheld
  exact ⟨b, hb, hseq, hheld⟩

theorem DelayWindow.no_panic (hs : c.length < s) : ∃ r, p.getExpectedExecutionResults s ext sr = .ok r := by
  rw [h.expected]
  unfold expectedFixedDelay
  rw [h.executionDelay, h.lastCommit]
  split
  · exact ⟨_, rfl⟩
  · dsimp only
    split
    · split
      · exact ⟨_, rfl⟩
      · rename_i hlt hle hne
        have hne' : s - delay ≠ 0 := hne
        obtain ⟨b, -, -, hget⟩ := h.get_base hs (by omega) hle
        rw [hget]
        exact ⟨_, rfl⟩
    · split <;> exact ⟨_, rfl⟩

/-- The lookup finds the block `delay` behind, committed or on the branch. -/
theorem DelayWindow.resolves (hd : 1 ≤ delay) (hs : c.length < s) (hbase : delay < s)
    (hext : Numbered (c ++ ext)) (hlen : s ≤ (c ++ ext).length + 1) :
    ∃ b ∈ c ++ ext, b.getSeqNum = s - delay ∧ p.getExpectedExecutionResults s ext sr =
      .ok ((sr.getExecutionResult b.getId (s - delay) (decide (s - delay ≤ c.length))).map fun r => [r]) := by
  have hne : s - delay ≠ GENESIS_SEQ_NUM := by
    unfold GENESIS_SEQ_NUM
    omega
  rw [h.expected]
  unfold expectedFixedDelay
  rw [h.executionDelay, h.lastCommit, if_neg (by omega)]
  by_cases hle : s - delay ≤ c.length
  · obtain ⟨b, hb, hseq, hget⟩ := h.get_base hs hbase hle
    rw [if_pos hle, if_neg hne, hget]
    exact ⟨b, mem_append_left _ hb, hseq, by simp [hle, refOf]⟩
  · rw [if_neg hle]
    -- the branch has every number between the committed blocks and the block
    obtain ⟨x, hx, hseq⟩ := hext.exists_mem (k := s - delay) (by omega) (by omega)
    have hxe : x ∈ ext := by
      rcases mem_append.mp hx with hx | hx
      · have := h.numbered.seq_mem hx
        omega
      · exact hx
    cases hfind : ext.find? fun b => decide (b.getSeqNum = s - delay) with
    | none =>
      have := find?_eq_none.mp hfind x hxe
      simp [hseq] at this
    | some b =>
      have hb := find?_some hfind
      exact ⟨b, mem_append_right _ (mem_of_find?_eq_some hfind), by simpa using hb, by simp [hle]⟩

theorem DelayWindow.checkCoherency {block : ConsensusFullBlock} {root : RootInfo}
    (hs : c.length < block.header.seqNum) : ∃ r, p.checkCoherency block ext root sr = .ok r := by
  obtain ⟨r, hr⟩ : ∃ r, p.getExpectedExecutionResults block.header.seqNum ext sr = .ok r := h.no_panic hs
  unfold BlockPolicy.checkCoherency checkResults checkExactResults
  rw [hr]
  dsimp only
  split
  · exact ⟨_, rfl⟩
  split
  · exact ⟨_, rfl⟩
  rcases h.kind with hk | ⟨fees, hk⟩
  · rw [hk]
    exact ⟨_, rfl⟩
  · rw [hk]
    exact ⟨_, rfl⟩

end

/-- With a delay below `2 ^ 63`, after a reset to the last blocks of a chain and any commits, the
next block can be committed; neither a coherency check nor a proposal above the last committed
block panics, whatever it extends; and on a branch of the chain the result asked for is that of the
block `delay` behind: none before the delay, then genesis, then the committed block or the one on
the branch. -/
theorem fixed_delay_window (hd : 1 ≤ delay) (hd' : delay < 2 ^ 63) (h : Committed delay p c) :
    (∀ b, b.getSeqNum = c.length + 1 → ∃ p', p.updateCommittedBlock b = .ok p') ∧
    (∀ block ext root sr, c.length < block.header.seqNum → ∃ r, p.checkCoherency block ext root sr = .ok r) ∧
    ∀ s ext sr, c.length < s → (∃ r, p.getExpectedExecutionResults s ext sr = .ok r) ∧
      (s < delay → p.getExpectedExecutionResults s ext sr = .ok (.ok [])) ∧
      (s = delay → p.getExpectedExecutionResults s ext sr =
        .ok ((sr.getExecutionResult GENESIS_BLOCK_ID GENESIS_SEQ_NUM true).map fun r => [r])) ∧
      (delay < s → Numbered (c ++ ext) → s ≤ (c ++ ext).length + 1 →
        ∃ b ∈ c ++ ext, b.getSeqNum = s - delay ∧ p.getExpectedExecutionResults s ext sr =
          .ok ((sr.getExecutionResult b.getId (s - delay) (decide (s - delay ≤ c.length))).map fun r => [r])) := by
  have hw := h.delayWindow hd hd'
  refine ⟨?_, fun block ext root sr hs => hw.checkCoherency hs, ?_⟩
  · intro b hb
    unfold updateCommittedBlock
    split
    · exact absurd ‹_› hw.kind.ne_passthru
    · rw [require_bind _ (by rw [hw.lastCommit, hb])]
      exact ⟨_, rfl⟩
  · intro s ext sr hs
    refine ⟨hw.no_panic hs, ?_, ?_, fun hbase hext hlen => hw.resolves hd hs hbase hext hlen⟩
    · intro hlt
      rw [hw.expected, expectedFixedDelay, hw.executionDelay, if_pos hlt]
    · intro heq
      rw [hw.expected, expectedFixedDelay, hw.executionDelay, heq, if_neg (Nat.lt_irrefl _)]
      simp [GENESIS_SEQ_NUM]

/-- The mock policy with delay one, reset to the first block: the second asks for its result. -/
theorem fixed_delay_window_block1 : ∃ p, Committed 1 p [Scenario.block1] ∧ ∀ sr,
    ∃ b ∈ [Scenario.block1], b.getSeqNum = 1 ∧ p.getExpectedExecutionResults 2 [] sr =
      .ok ((sr.getExecutionResult b.getId 1 true).map fun r => [r]) := by
  have hnum : Numbered [Scenario.block1] := rfl
  have h : Committed 1 (BlockPolicy.reset ⟨.mock, 1, 0, AMap.empty⟩ [Scenario.block1]) [Scenario.block1] :=
    .reset (p := ⟨.mock, 1, 0, AMap.empty⟩) (.inl rfl) rfl hnum
  refine ⟨_, h, fun sr => ?_⟩
  obtain ⟨-, -, hlookup⟩ := fixed_delay_window (Nat.le_refl 1) (by decide) h
  exact (hlookup 2 [] sr (by decide)).2.2.2 (by decide) hnum (by decide)

/-- Twice `2 ^ 63` is zero: the commit of the second block drops the first, and the lookup of its
result panics. -/
theorem doubled_delay_wraps : ∃ p, Committed (2 ^ 63) p [Scenario.block1, Scenario.block2] ∧ ∀ ext sr,
    p.getExpectedExecutionResults (2 ^ 63 + 1) ext sr = .error (.committedBlockMissing 1 2) := by
  have hwrap : 2 ^ 63 * 2 % 2 ^ 64 = 0 := by decide
  -- the unifier must not count up to the delay
  generalize 2 ^ 63 = delay at hwrap ⊢
  let p₀ := BlockPolicy.reset ⟨.mock, delay, 0, AMap.empty⟩ []
  have h₀ : Committed delay p₀ [] := by
    have h := Committed.reset (p := ⟨.mock, delay, 0, AMap.empty⟩) (.inl rfl) rfl (c := []) rfl
    rwa [drop_nil] at h
  let p₁ := (p₀.record Scenario.block1).prune
  have h₁ : Committed delay p₁ [Scenario.block1] := h₀.commit rfl
  let p₂ := (p₁.record Scenario.block2).prune
  have h₂ : Committed delay p₂ [Scenario.block1, Scenario.block2] := h₁.commit rfl
  have hfloor : (p₁.record Scenario.block2).retainFrom = 2 := by
    change 2 - delay * 2 % 2 ^ 64 = 2
    rw [hwrap]
  have hdropped : p₂.committed.get 1 = none := by
    simp [p₂, prune, hfloor, AMap.get_filter]
  refine ⟨p₂, h₂, fun ext sr => ?_⟩
  change p₂.expectedFixedDelay (delay + 1) ext sr = _
  have hdelay : p₂.executionDelay = delay := rfl
  have hlast : p₂.lastCommit = 2 := rfl
  simp [expectedFixedDelay, hdelay, hlast, hdropped, GENESIS_SEQ_NUM]

end MonadBft.Bridge
