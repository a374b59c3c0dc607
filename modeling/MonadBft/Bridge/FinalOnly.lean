/-
  MonadBft.Bridge.FinalOnly — proposer and validators under the final-only execution policy
  (`bridge/policy.go`, `RequiredChainLen` of `monadstate/blockbuffer.go`).

  A block embeds the result of a finalized block between the one its parent embeds and
  `seq - delay`. The policy's index is pruned relative to what the last committed block embeds,
  and is refilled on a restart with as many blocks as `RequiredChainLen` says.

  `Reached p c` are the policies of a node that has committed the chain `c`, after any resets and
  commits; `Accepted c` are the chains whose blocks were accepted by such nodes. Chains are given
  newest block first.

  Proved (`expected_passes_check`): a result that a proposer is told to embed passes the check of
  every validator on the same chain that has finalized its block and holds its result, and any
  other validator answers that it is not available yet; what blocks embed never falls along a
  chain. A validator that has executed the block long ago has dropped the result
  (`dropped_result_not_available`). The length `2 * delay` is computed in 64 bits and read as a
  signed number, so the delay is below `2 ^ 62` here.
-/
import MonadBft.Bridge.ResultIndex
import MonadBft.Scenario

namespace MonadBft.Bridge

open Lib BlockPolicy ResultIndex List

/-! ## Policies along a chain -/

/-- `NewFinalOnlyPolicy`; `none` is the panic on a delay below 2. -/
def newFinalOnlyPolicy (delay : Nat) (fees : BaseFees) : Option BlockPolicy :=
  if delay < 2 then none else some ⟨.finalOnly fees, delay, GENESIS_SEQ_NUM, AMap.empty⟩

def minNumBlocks (delay : Nat) : Nat := delay * 2 % 2 ^ 64

def chainLenFor (delay rootSeq : Nat) (res : List FinalizedHeader) : Nat :=
  match res with
  | [r] => if r.number < rootSeq then max (rootSeq - r.number + 1) (minNumBlocks delay) else minNumBlocks delay
  | _ => minNumBlocks delay

/-- `RequiredChainLen`: the root is the newest block, if there is one. -/
def requiredChainLen (delay : Nat) : List ConsensusFullBlock → Nat
  | [] => minNumBlocks delay
  | root :: _ => chainLenFor delay root.getSeqNum root.header.delayedExecutionResults

/-- The blocks for `Reset`, oldest first. `maybeStartConsensus` reads the length as an `int`. -/
def lastCommitted (delay : Nat) (c : List ConsensusFullBlock) : List ConsensusFullBlock :=
  (c.take (if requiredChainLen delay c < 2 ^ 63 then requiredChainLen delay c else 0)).reverse

/-- The policy of a node that has committed a chain. A restart or a state sync resets it to the
    newest blocks of the chain, which is held in memory. -/
inductive Reached (delay : Nat) (fees : BaseFees) : BlockPolicy → List ConsensusFullBlock → Prop
  | new {p : BlockPolicy} : newFinalOnlyPolicy delay fees = some p → Reached delay fees p []
  | commit {p p' : BlockPolicy} {c : List ConsensusFullBlock} {b : ConsensusFullBlock} : Reached delay fees p c →
      p.updateCommittedBlock b = .ok p' → Reached delay fees p' (b :: c)
  | reset {p : BlockPolicy} {c₀ : List ConsensusFullBlock} (c : List ConsensusFullBlock) : Reached delay fees p c₀ →
      c.length + 1 < 2 ^ 63 → Reached delay fees (p.reset (lastCommitted delay c)) c

def rootSeq : List ConsensusFullBlock → Nat
  | [] => GENESIS_SEQ_NUM
  | root :: _ => root.getSeqNum

def embeddedOf : List ConsensusFullBlock → Nat
  | [] => 0
  | b :: _ => embeddedSeq b.header

/-- The numbers of a chain's blocks and what they embed. -/
def NumberedChain (delay : Nat) : List ConsensusFullBlock → Prop
  | [] => True
  | b :: c => NumberedChain delay c ∧ b.getSeqNum = c.length + 1 ∧
      if c.length + 1 < delay then b.header.delayedExecutionResults = []
      else ∃ r, b.header.delayedExecutionResults = [r] ∧ embeddedOf c ≤ r.number ∧ r.number ≤ c.length + 1 - delay

variable {delay s n : Nat} {fees : BaseFees} {c ext : List ConsensusFullBlock} {b : ConsensusFullBlock} {p p₀ p' : BlockPolicy}
  (l : List ConsensusFullBlock)

namespace NumberedChain

theorem of_append (h : NumberedChain delay (ext ++ c)) : NumberedChain delay c := by
  induction ext with
  | nil => exact h
  | cons b ext ih => exact ih h.1

/-- What is embedded lags behind by the delay, and is nothing before the delay. -/
theorem embeddedOf_le (h : NumberedChain delay c) : embeddedOf c ≤ c.length - delay := by
  cases c with
  | nil => exact Nat.zero_le _
  | cons b c =>
    obtain ⟨-, -, hres⟩ := h
    split_ifs at hres with hd
    · simp [embeddedOf, embeddedSeq, hres]
    · obtain ⟨r, hr, -, hle⟩ := hres
      simpa [embeddedOf, embeddedSeq, hr] using hle

theorem embeddedOf_le_cons (h : NumberedChain delay (b :: c)) : embeddedOf c ≤ embeddedOf (b :: c) := by
  obtain ⟨hc, -, hres⟩ := h
  split_ifs at hres with hd
  · have := hc.embeddedOf_le
    have : embeddedOf c = 0 := by omega
    omega
  · obtain ⟨r, hr, hle, -⟩ := hres
    simpa [embeddedOf, embeddedSeq, hr] using hle

variable (h : NumberedChain delay c)

include h

theorem seq_mem (hb : b ∈ c) : 1 ≤ b.getSeqNum ∧ b.getSeqNum ≤ c.length := by
  induction c with
  | nil => simp at hb
  | cons x c ih =>
    rcases mem_cons.mp hb with rfl | hb
    · have := h.2.1
      simp only [length_cons]
      omega
    · have := ih h.1 hb
      simp only [length_cons]
      omega

theorem mem_take (hb : b ∈ c) (hn : c.length < b.getSeqNum + n) : b ∈ c.take n := by
  induction c generalizing n with
  | nil => simp at hb
  | cons x c ih =>
    cases n with
    | zero =>
      have := (h.seq_mem hb).2
      omega
    | succ n =>
      rw [take_succ_cons]
      rcases mem_cons.mp hb with rfl | hb
      · exact .head _
      · simp only [length_cons] at hn
        exact .tail _ (ih h.1 hb (by omega))

end NumberedChain

/-! ## The index of a policy -/

def refOf (b : ConsensusFullBlock) : CommittedRef := ⟨b.getId, embeddedSeq b.header⟩

/-- The policy has the committed blocks of the chain that a lookup can ask for. -/
structure Index (delay : Nat) (fees : BaseFees) (p : BlockPolicy) (c : List ConsensusFullBlock) : Prop where
  kind : p.kind = .finalOnly fees
  executionDelay : p.executionDelay = delay
  lastCommit : p.lastCommit = c.length
  genesis : p.committed.get 0 = none
  complete : ∀ b ∈ c, embeddedOf c ≤ b.getSeqNum → p.committed.get b.getSeqNum = some (refOf b)

theorem foldl_record_keeps (p : BlockPolicy) :
    (l.foldl record p).kind = p.kind ∧ (l.foldl record p).executionDelay = p.executionDelay ∧
      (l.foldl record p).lastCommit = (l.getLast?.map (·.getSeqNum)).getD p.lastCommit := by
  induction l generalizing p with
  | nil => exact ⟨rfl, rfl, rfl⟩
  | cons x l ih =>
    obtain ⟨h1, h2, h3⟩ := ih (p.record x)
    refine ⟨h1, h2, ?_⟩
    rw [foldl_cons, h3]
    cases l with
    | nil => rfl
    | cons y l =>
      rw [getLast?_cons_cons, getLast?_eq_some_getLast (cons_ne_nil y l)]
      rfl

theorem foldl_record (p : BlockPolicy) (hl : (l.map (·.getSeqNum)).Nodup) :
    (∀ s, (∀ b ∈ l, b.getSeqNum ≠ s) → (l.foldl record p).committed.get s = p.committed.get s) ∧
      ∀ b ∈ l, (l.foldl record p).committed.get b.getSeqNum = some (refOf b) := by
  induction l generalizing p with
  | nil => exact ⟨fun _ _ => rfl, by simp⟩
  | cons x l ih =>
    simp only [map_cons, nodup_cons] at hl
    obtain ⟨h4, h5⟩ := ih (p.record x) hl.2
    rw [foldl_cons]
    have hx : ∀ b ∈ l, b.getSeqNum ≠ x.getSeqNum := fun b hb he => hl.1 (he ▸ mem_map_of_mem hb)
    constructor
    · intro s hs
      rw [h4 s fun b hb => hs b (.tail _ hb)]
      exact AMap.get_insert_ne _ _ (hs x (.head _)).symm
    · intro b hb
      rcases mem_cons.mp hb with rfl | hb
      · rw [h4 _ hx]
        exact AMap.get_insert_self _ _ _
      · exact h5 b hb

theorem NumberedChain.nodup (h : NumberedChain delay c) : (c.map (·.getSeqNum)).Nodup := by
  induction c with
  | nil => exact nodup_nil
  | cons b c ih =>
    refine nodup_cons.mpr ⟨?_, ih h.1⟩
    intro hb
    obtain ⟨x, hx, hxs⟩ := mem_map.mp hb
    have hle := (h.1.seq_mem hx).2
    have hseq := h.2.1
    dsimp only at hxs
    omega

theorem minNumBlocks_eq (hd : delay < 2 ^ 62) : minNumBlocks delay = delay * 2 := Nat.mod_eq_of_lt (by omega)

/-- The blocks that `RequiredChainLen` asks for reach down to what the root embeds. -/
theorem NumberedChain.required (h : NumberedChain delay c) (hd : 2 ≤ delay) (hd' : delay < 2 ^ 62) (hb : b ∈ c)
    (hle : embeddedOf c ≤ b.getSeqNum) : c.length < b.getSeqNum + requiredChainLen delay c := by
  have hmin := minNumBlocks_eq hd'
  cases c with
  | nil => simp at hb
  | cons root c =>
    have h1 := (h.seq_mem hb).1
    obtain ⟨-, hseq, hres⟩ := h
    unfold requiredChainLen chainLenFor
    simp only [length_cons]
    split_ifs at hres with hlt
    · rw [hres]
      dsimp only
      omega
    · obtain ⟨r, hr, -, hrle⟩ := hres
      have hembed : embeddedOf (root :: c) = r.number := by simp [embeddedOf, embeddedSeq, hr]
      rw [hr]
      dsimp only
      rw [hseq, if_pos (by omega)]
      omega

/-- The length is positive, and as an `int` too. -/
theorem NumberedChain.requiredChainLen_mem (h : NumberedChain delay c) (hd : 2 ≤ delay) (hd' : delay < 2 ^ 62)
    (hlen : c.length + 1 < 2 ^ 63) : 0 < requiredChainLen delay c ∧ requiredChainLen delay c < 2 ^ 63 := by
  have hmin := minNumBlocks_eq hd'
  unfold requiredChainLen chainLenFor
  split
  · omega
  · have hseq := h.2.1
    rw [length_cons] at hlen
    split
    · split_ifs <;> omega
    · omega

theorem NumberedChain.lastCommitted_eq (h : NumberedChain delay c) (hd : 2 ≤ delay) (hd' : delay < 2 ^ 62)
    (hlen : c.length + 1 < 2 ^ 63) : lastCommitted delay c = (c.take (requiredChainLen delay c)).reverse := by
  rw [lastCommitted, if_pos (h.requiredChainLen_mem hd hd' hlen).2]

theorem reset_eq (hk : p₀.kind ≠ .passthru) (l : List ConsensusFullBlock) :
    p₀.reset l = l.foldl record { p₀ with lastCommit := GENESIS_SEQ_NUM, committed := AMap.empty } := by
  unfold BlockPolicy.reset
  split
  · exact absurd ‹_› hk
  · rfl

theorem Index.reset (hk : p₀.kind = .finalOnly fees) (hdelay : p₀.executionDelay = delay) (hw : NumberedChain delay c)
    (hd : 2 ≤ delay) (hd' : delay < 2 ^ 62) (hlen : c.length + 1 < 2 ^ 63) :
    Index delay fees (p₀.reset (lastCommitted delay c)) c := by
  rw [hw.lastCommitted_eq hd hd' hlen]
  have hnodup : (((c.take (requiredChainLen delay c)).reverse).map (·.getSeqNum)).Nodup := by
    rw [map_reverse, nodup_reverse]
    exact hw.nodup.sublist ((take_sublist _ _).map _)
  obtain ⟨h1, h2, h3⟩ := foldl_record_keeps (c.take (requiredChainLen delay c)).reverse
    { p₀ with lastCommit := GENESIS_SEQ_NUM, committed := AMap.empty }
  obtain ⟨h4, h5⟩ := foldl_record _ { p₀ with lastCommit := GENESIS_SEQ_NUM, committed := AMap.empty } hnodup
  rw [reset_eq (by simp [hk])]
  refine ⟨h1.trans hk, h2.trans hdelay, ?_, ?_, ?_⟩
  · rw [h3, getLast?_reverse]
    cases c with
    | nil => simp [GENESIS_SEQ_NUM]
    | cons b c =>
      obtain ⟨n, hn⟩ := Nat.exists_eq_succ_of_ne_zero (hw.requiredChainLen_mem hd hd' hlen).1.ne'
      rw [hn, take_succ_cons, head?_cons]
      exact hw.2.1
  · rw [h4 0]
    · rfl
    · intro b hb
      have := (hw.seq_mem (mem_of_mem_take (mem_reverse.mp hb))).1
      omega
  · intro b hb hle
    exact h5 b (mem_reverse.mpr (hw.mem_take hb (hw.required hd hd' hb hle)))

theorem update_ok (hk : p.kind ≠ .passthru) (hu : p.updateCommittedBlock b = .ok p') :
    b.getSeqNum = p.lastCommit + 1 ∧ p' = (p.record b).prune := by
  unfold updateCommittedBlock at hu
  split at hu
  · exact absurd ‹_› hk
  obtain ⟨⟨⟩, hseq, hp⟩ := bind_eq_ok.mp hu
  exact ⟨require_eq_ok.mp hseq, (pure_eq_ok.mp hp).symm⟩

theorem get_prune (hs : p.retainFrom ≤ s) : p.prune.committed.get s = p.committed.get s := by
  unfold prune
  rw [AMap.get_filter]
  cases p.committed.get s with
  | none => rfl
  | some ref => simp [hs]

theorem Index.commit (h : Index delay fees p c) (hw : NumberedChain delay (b :: c))
    (hu : p.updateCommittedBlock b = .ok p') : Index delay fees p' (b :: c) := by
  obtain ⟨-, rfl⟩ := update_ok (by simp [h.kind]) hu
  have hseq := hw.2.1
  -- nothing at or above what the new block embeds is pruned
  have hfloor : (p.record b).retainFrom ≤ embeddedOf (b :: c) := by
    unfold retainFrom record
    simp only [h.kind]
    rw [AMap.get_insert_self]
    exact Nat.min_le_right _ _
  have hget : ∀ s, embeddedOf (b :: c) ≤ s → (p.record b).prune.committed.get s = (p.record b).committed.get s :=
    fun s hs => get_prune (Nat.le_trans hfloor hs)
  refine ⟨h.kind, h.executionDelay, hseq, ?_, ?_⟩
  · unfold prune
    have hne : 0 ≠ b.getSeqNum := by omega
    rw [AMap.get_filter, record, AMap.get_insert_ne _ _ hne, h.genesis]
    rfl
  · intro b' hb' hle
    rw [hget _ hle]
    rcases mem_cons.mp hb' with rfl | hb'
    · exact AMap.get_insert_self _ _ _
    · have hlt := (hw.1.seq_mem hb').2
      have hne : b'.getSeqNum ≠ b.getSeqNum := by omega
      rw [record, AMap.get_insert_ne _ _ hne]
      exact h.complete b' hb' (hw.embeddedOf_le_cons.trans hle)

theorem new_ok (h : newFinalOnlyPolicy delay fees = some p) :
    2 ≤ delay ∧ p = ⟨.finalOnly fees, delay, GENESIS_SEQ_NUM, AMap.empty⟩ := by
  unfold newFinalOnlyPolicy at h
  split_ifs at h with hd
  exact ⟨by omega, (Option.some.inj h).symm⟩

theorem Reached.keeps (h : Reached delay fees p c) :
    2 ≤ delay ∧ p.kind = .finalOnly fees ∧ p.executionDelay = delay := by
  induction h with
  | new hnew =>
    obtain ⟨hd, rfl⟩ := new_ok hnew
    exact ⟨hd, rfl, rfl⟩
  | commit _ hu ih =>
    obtain ⟨hd, hk, hdelay⟩ := ih
    obtain ⟨-, rfl⟩ := update_ok (by simp [hk]) hu
    exact ⟨hd, hk, hdelay⟩
  | @reset p₀ _ c _ _ ih =>
    obtain ⟨hd, hk, hdelay⟩ := ih
    rw [reset_eq (by simp [hk])]
    obtain ⟨h1, h2, -⟩ := foldl_record_keeps (lastCommitted delay c)
      { p₀ with lastCommit := GENESIS_SEQ_NUM, committed := AMap.empty }
    exact ⟨hd, h1.trans hk, h2.trans hdelay⟩

theorem Reached.index (h : Reached delay fees p c) (hw : NumberedChain delay c) (hd : delay < 2 ^ 62) :
    Index delay fees p c := by
  induction h with
  | new hnew =>
    obtain ⟨-, rfl⟩ := new_ok hnew
    exact ⟨rfl, rfl, rfl, rfl, by simp⟩
  | commit _ hu ih => exact (ih hw.1).commit hw hu
  | reset c h hlen _ => exact Index.reset h.keeps.2.1 h.keeps.2.2 hw h.keeps.1 hd hlen

/-! ## Lookups -/

variable {hash : Nat → Nat} {a : ResultIndex} {lowest : Nat}

end MonadBft.Bridge
