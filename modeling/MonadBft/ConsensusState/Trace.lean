/-
  MonadBft.ConsensusState.Trace — every handler is a sequence of elementary steps.

  `handle_traced`: processing an event goes through the steps of `MonadBft.ConsensusState.Step`,
  and a panic happens in a state on the way that meets what the panic needs. The functions are
  taken apart one by one, in the order they call each other.
-/
import MonadBft.BlockTree.Path
import MonadBft.ConsensusState.Step

namespace MonadBft.State

open Lib Relation Traced Pacemaker Step BlockTree List

variable {env : Env} {ev : Event} {s s' : State}

/-- A computation of elementary steps, whose panics have what they need. -/
abbrev Stepped (env : Env) (ev : Event) : State → Except Panic State → Prop := Traced (Step env ev) (Fails env ev)

structure SameCore (s s' : State) : Prop where
  voteState : s'.voteState = s.voteState
  noEndorsementState : s'.noEndorsementState = s.noEndorsementState
  scheduledVote : s'.scheduledVote = s.scheduledVote
  safety : s'.safety = s.safety
  pacemaker : s'.pacemaker = s.pacemaker

theorem SameCore.refl (s : State) : SameCore s s := ⟨rfl, rfl, rfl, rfl, rfl⟩

theorem SameCore.trans {s₁ : State} (h : SameCore s s₁) (h' : SameCore s₁ s') : SameCore s s' :=
  ⟨h'.voteState.trans h.voteState, h'.noEndorsementState.trans h.noEndorsementState,
   h'.scheduledVote.trans h.scheduledVote, h'.safety.trans h.safety, h'.pacemaker.trans h.pacemaker⟩

theorem SameCore.currentRound (h : SameCore s s') : s'.currentRound = s.currentRound := by
  rw [State.currentRound, State.currentRound, h.pacemaker]

variable {cert : RoundCertificate} {blocks extending : List ConsensusFullBlock} {p policy : BlockPolicy}
  {b block : ConsensusFullBlock} {e : Panic} {n round epoch : Nat} {qc : QuorumCertificate}
  {id : BlockId} {t : BlockTree} {sr : StateRead} {v : Vote} {author : NodeId}
  {tc : TimeoutCertificate} {cmds : List PacemakerCommand} {header : ConsensusBlockHeader}
  {pending : Option PendingVote} {validators : ValidatorSet} {body : ConsensusBlockBody} {m : RoundRecoveryMessage}
  {tip : ConsensusTip} {em : EpochManager} {safety : Safety}

theorem SameCore.source (h : SameCore s s') (hs : Source env ev s cert) : Source env ev s' cert := by
  rcases hs with hc | ⟨qc, rfl, hq, hst⟩
  · exact .inl hc
  · refine .inr ⟨qc, rfl, hq, ?_⟩
    rw [h.voteState]
    exact hst

/-! ## Commits -/

theorem commitBlocks_ok (h : blocks.foldlM commitBlock s = .ok s') : ∃ policy em acts, s' = { s with
      blockPolicy := policy
      epochManager := em
      out := s.out ++ blocks.map (.commitBlocks .finalized)
      history := s.history ++ acts } ∧ ∀ a ∈ acts, ∃ round em block, a = .commit round em block := by
  induction blocks generalizing s with
  | nil =>
    obtain rfl : s = s' := by simpa [pure, Except.pure] using h
    exact ⟨s.blockPolicy, s.epochManager, [], by simp, by simp⟩
  | cons b blocks ih =>
    rw [foldlM_cons] at h
    obtain ⟨s₁, hb, hrest⟩ := bind_eq_ok.mp h
    obtain ⟨policy, em, acts, rfl, hacts⟩ := ih hrest
    obtain ⟨p₁, -, h₁⟩ := bind_eq_ok.mp hb
    obtain ⟨em₁, -, h₂⟩ := bind_eq_ok.mp h₁
    cases h₂
    refine ⟨policy, em, .commit s.currentRound s.epochManager b :: acts, by simp, ?_⟩
    exact forall_mem_cons.mpr ⟨⟨_, _, _, rfl⟩, hacts⟩

theorem updateCommittedBlock_error
    (h : p.updateCommittedBlock b = .error e) : ∃ seq last, e = .commitSeqGap seq last := by
  have hreq : ∀ {c : Prop} [Decidable c] {seq last : Nat} {q : BlockPolicy},
      ((require c (Panic.commitSeqGap seq last) >>= fun _ => pure q) : Except Panic BlockPolicy) = .error e →
      ∃ seq last, e = .commitSeqGap seq last := by
    intro c _ seq last q hr
    rcases bind_eq_error.mp hr with hr | ⟨_, _, hr⟩
    · exact ⟨seq, last, (require_eq_error.mp hr).2.symm⟩
    · exact absurd hr pure_ne_error
  unfold BlockPolicy.updateCommittedBlock at h
  split at h
  · cases h
  · exact hreq h

theorem scheduleEpochStart_error {r : Nat}
    (h : em.scheduleEpochStart n r = .error e) : ∃ a b c, e = .conflictingEpochStart a b c := by
  unfold EpochManager.scheduleEpochStart EpochManager.insertEpochStart at h
  split at h
  · cases h
  split at h
  · split at h
    · cases h
      exact ⟨_, _, _, rfl⟩
    · cases h
  · cases h

theorem commitBlocks_error (h : blocks.foldlM commitBlock s = .error e) (t : State) : Fails env ev t e := by
  induction blocks generalizing s with
  | nil => cases h
  | cons b blocks ih =>
    rw [foldlM_cons] at h
    rcases bind_eq_error.mp h with hb | ⟨s₁, -, hrest⟩
    · rcases bind_eq_error.mp hb with h₁ | ⟨p₁, -, h₁⟩
      · obtain ⟨seq, last, rfl⟩ := updateCommittedBlock_error h₁
        trivial
      · rcases bind_eq_error.mp h₁ with h₂ | ⟨em₁, -, h₂⟩
        · obtain ⟨a, b, c, rfl⟩ := scheduleEpochStart_error h₂
          trivial
        · cases h₂
    · exact ih hrest

theorem getCommittableIdForHeader_some {h : ConsensusBlockHeader}
    (hq : qc.getCommittableIdForHeader h = some (some id)) : qc.getRound = h.qc.getRound + 1 ∧ id = h.getParentId := by
  unfold QuorumCertificate.getCommittableIdForHeader at hq
  split_ifs at hq with h₁ h₂
  · refine ⟨h₂, ?_⟩
    cases hq
    rfl
  · cases hq

theorem pruneLoop_error {entry : BlockTreeEntry}
    (h : pruneLoop n t entry = .error e) : e = .incoherentOnCommitPath ∨ e = .pathToRootBroken := by
  induction n generalizing t entry with
  | zero =>
    unfold pruneLoop at h
    rcases bind_eq_error.mp h with h | ⟨_, _, h⟩
    · exact .inl (require_eq_error.mp h).2.symm
    · split at h
      · cases h
      · cases h
        exact .inr rfl
  | succ n ih =>
    unfold pruneLoop at h
    rcases bind_eq_error.mp h with h | ⟨_, _, h⟩
    · exact .inl (require_eq_error.mp h).2.symm
    · split at h
      · cases h
      · cases hrem : t.remove entry.validatedBlock.getParentId with
        | none =>
          rw [hrem] at h
          cases h
          exact .inr rfl
        | some r =>
          rw [hrem] at h
          rcases bind_eq_error.mp h with h | ⟨_, _, h⟩
          · exact ih h
          · cases h

theorem prune_error (hc : t.isCoherent id = true)
    (h : t.prune id = .error e) : e = .incoherentOnCommitPath ∨ e = .pathToRootBroken := by
  unfold prune at h
  rcases bind_eq_error.mp h with h | ⟨_, _, h⟩
  · exact absurd hc (require_eq_error.mp h).1
  split at h
  · cases h
  rename_i hne
  split at h
  · rename_i hrem
    -- a coherent block other than the root is in the tree
    have hnone : t.tree.get id = none := by
      unfold remove at hrem
      split at hrem
      · assumption
      · cases hrem
    simp [isCoherent, hne, hnone] at hc
  · rcases bind_eq_error.mp h with h | ⟨_, _, h⟩
    · exact pruneLoop_error h
    · cases h

theorem tryCommit_traced (hsrc : Source env ev s (.qc qc) ∨ s.pendingBlockTree.getHighCommittableQc = some qc) :
    Stepped env ev s (s.tryCommit qc) := by
  unfold tryCommit
  split
  · exact .refl s
  rename_i parent hparent
  split
  · rename_i hnone
    -- the block found under the certificate's id has that id
    exfalso
    unfold QuorumCertificate.getCommittableIdForHeader at hnone
    have hid : qc.getBlockId = parent.header.getId := (getBlock_keyed hparent).symm
    rw [if_neg (not_not.mpr hid)] at hnone
    split at hnone <;> cases hnone
  · exact .refl s
  rename_i id hid
  obtain ⟨hround, rfl⟩ := getCommittableIdForHeader_some hid
  refine past (fun hc => ?_)
  have hc : s.pendingBlockTree.isCoherent parent.getParentId = true := by
    simpa [ConsensusFullBlock.getParentId] using hc
  have hcommits : Commits env ev s qc parent := ⟨hsrc, hparent, hround, hc⟩
  refine read ?_ ?_
  · intro e he
    rcases prune_error hc he with rfl | rfl <;> exact ⟨qc, parent, hcommits, he⟩
  · rintro ⟨tree, blocks⟩ hprune
    dsimp only
    cases hfold : blocks.foldlM commitBlock { s with pendingBlockTree := tree } with
    | error e => exact .fail (commitBlocks_error hfold s)
    | ok s' => exact .single (commit s s' qc parent tree blocks hcommits hprune hfold)

theorem tryCommit_sameCore (h : s.tryCommit qc = .ok s') : SameCore s s' := by
  unfold tryCommit at h
  split at h
  · cases h
    exact .refl s
  split at h
  · cases h
  · cases h
    exact .refl s
  split at h
  · cases h
    exact .refl s
  obtain ⟨⟨tree, blocks⟩, -, hfold⟩ := bind_eq_ok.mp h
  obtain ⟨policy, em, acts, rfl, -⟩ := commitBlocks_ok hfold
  exact ⟨rfl, rfl, rfl, rfl, rfl⟩

theorem quiet_commit {kind : CommitKind} (h : kind ≠ .finalized) : Quiet (.commitBlocks kind b) := by
  refine ⟨rfl, rfl, ?_⟩
  cases kind with
  | proposed _ | voted => rfl
  | finalized => exact absurd rfl h

theorem updateProposedHead_steps (env : Env) (ev : Event) (s : State) :
    ReflTransGen (Step env ev) s s.updateProposedHead := by
  simp only [updateProposedHead]
  split
  · exact .refl
  split
  · exact .refl
  · refine .single (announce s _ _ ?_)
    intro c hc
    obtain rfl := mem_singleton.mp hc
    exact quiet_commit (by simp)

theorem updateProposedHead_sameCore (s : State) : SameCore s s.updateProposedHead := by
  simp only [updateProposedHead]
  split
  · exact .refl s
  split
  · exact .refl s
  · exact ⟨rfl, rfl, rfl, rfl, rfl⟩

theorem coherencyLevels_error {level : List BlockId} (h : t.coherencyLevels policy sr n level = .error e) :
    ∃ id, t.checkNext policy sr id = .error e := by
  induction n generalizing level with
  | zero =>
    cases level with
    | nil | cons id level => cases h
  | succ n ih =>
    cases level with
    | nil => cases h
    | cons id level =>
      simp only [coherencyLevels] at h
      rcases bind_eq_error.mp h with h | ⟨passed, -, h⟩
      · exact mapM_error h
      · rcases bind_eq_error.mp h with h | ⟨rest, -, h⟩
        · exact ih h
        · cases h

theorem expected_error
    (h : p.getExpectedExecutionResults n extending sr = .error e) : ∃ b l, e = .committedBlockMissing b l := by
  have hfixed : p.expectedFixedDelay n extending sr = .error e → ∃ b l, e = .committedBlockMissing b l := by
    intro h
    unfold BlockPolicy.expectedFixedDelay at h
    simp only at h
    split_ifs at h
    · split at h
      · cases h
        exact ⟨_, _, rfl⟩
      · cases h
    · split at h <;> cases h
  unfold BlockPolicy.getExpectedExecutionResults at h
  split at h
  · cases h
  · exact hfixed h
  · exact hfixed h
  · cases h

theorem checkCoherency_error {root : RootInfo} (h : p.checkCoherency b extending root sr = .error e) :
    ∃ b l, e = .committedBlockMissing b l := by
  have hexact : p.checkExactResults b extending sr = .error e → ∃ b l, e = .committedBlockMissing b l := by
    intro h
    rcases bind_eq_error.mp h with h | ⟨_, _, h⟩
    · exact expected_error h
    · cases h
  unfold BlockPolicy.checkCoherency at h
  simp only at h
  split_ifs at h
  unfold BlockPolicy.checkResults at h
  split at h
  · exact hexact h
  · exact hexact h
  · rcases bind_eq_error.mp h with h | ⟨_, _, h⟩
    · exact hexact h
    · cases h
  · cases h

theorem treeCoherency_error (h : t.tryUpdateCoherency policy sr id = .error e) (s : State) : Fails env ev s e := by
  unfold BlockTree.tryUpdateCoherency at h
  split at h
  · cases h
  split at h
  · cases h
  rcases bind_eq_error.mp h with h | ⟨_, _, h⟩
  · obtain ⟨id, h⟩ := coherencyLevels_error h
    unfold checkNext at h
    split at h
    · cases h
    split at h
    · cases h
      trivial
    rcases bind_eq_error.mp h with h | ⟨_, _, h⟩
    · obtain ⟨b, l, rfl⟩ := checkCoherency_error h
      trivial
    · split at h <;> cases h
  · cases h

theorem tryUpdateCoherency_traced : Stepped env ev s (s.tryUpdateCoherency env id) := by
  unfold tryUpdateCoherency
  refine read (fun e he => treeCoherency_error he s) ?_
  rintro ⟨tree, coherent⟩ htree
  refine step_then (cohere s id tree coherent htree) ?_
  refine after (updateProposedHead_steps env ev _) ?_
  dsimp only
  split
  · exact .refl _
  · rename_i qc hqc
    exact tryCommit_traced (.inr hqc)

theorem tryUpdateCoherency_sameCore (h : s.tryUpdateCoherency env id = .ok s') : SameCore s s' := by
  unfold tryUpdateCoherency at h
  obtain ⟨⟨tree, coherent⟩, -, h⟩ := bind_eq_ok.mp h
  dsimp only at h
  have hhead := updateProposedHead_sameCore { s with
    pendingBlockTree := tree
    out := s.out ++ coherent.map (.commitBlocks (.proposed false)) }
  have hstart : SameCore s { s with
    pendingBlockTree := tree
    out := s.out ++ coherent.map (.commitBlocks (.proposed false)) } := ⟨rfl, rfl, rfl, rfl, rfl⟩
  split at h
  · cases h
    exact hstart.trans hhead
  · exact (hstart.trans hhead).trans (tryCommit_sameCore h)

/-! ## Requests -/

theorem requestBlocksIfMissingAncestor_traced : Stepped env ev s s.requestBlocksIfMissingAncestor := by
  simp only [requestBlocksIfMissingAncestor]
  split
  · exact .refl s
  rename_i range hrange
  refine ite (fun _ => .fail trivial) (fun _ => past (fun _ => ?_))
  exact .single (request s range _ (.inl hrange))

theorem requestTipIfMissing_steps (env : Env) (ev : Event) (s : State) :
    ReflTransGen (Step env ev) s s.requestTipIfMissing := by
  unfold requestTipIfMissing
  split
  · rename_i tip htc
    dsimp only
    split
    · exact .refl
    · exact .single (request s _ _ (.inr ⟨_, tip, htc, rfl, rfl⟩))
  · exact .refl

theorem requestTipIfMissing_sameCore (s : State) :
    SameCore s s.requestTipIfMissing ∧ s.requestTipIfMissing.pendingBlockTree = s.pendingBlockTree := by
  unfold requestTipIfMissing
  split
  · dsimp only
    split
    · exact ⟨.refl s, rfl⟩
    · exact ⟨⟨rfl, rfl, rfl, rfl, rfl⟩, rfl⟩
  · exact ⟨.refl s, rfl⟩

theorem maybeStatesync_error (h : s.maybeStatesync env = .error e) (t : State) : Fails env ev t e := by
  simp only [maybeStatesync] at h
  split at h
  · cases h
  split at h
  · cases h
  split at h
  · cases h
    trivial
  · cases h
    trivial

/-! ## Voting -/

theorem roundLeader_error (h : s.roundLeader env round = .error e) : e = .leaderForInvalidRound := by
  unfold roundLeader at h
  split at h
  · cases h
    rfl
  split at h
  · cases h
    rfl
  · cases h

theorem sendVoteAndResetTimer_ok (h : s.sendVoteAndResetTimer env v = .ok s') :
    ∃ cmds, (∀ c ∈ cmds, (∃ target, c = .publish target (.vote (newVoteMessage v env.nodeId))) ∨ Quiet c) ∧
      s' = { s with out := s.out ++ cmds, scheduledVote := none } := by
  unfold sendVoteAndResetTimer at h
  obtain ⟨nextLeader, -, h⟩ := bind_eq_ok.mp h
  obtain ⟨currentLeader, -, h⟩ := bind_eq_ok.mp h
  cases h
  refine ⟨_, ?_, rfl⟩
  intro c hc
  rcases mem_append.mp hc with hc | hc
  · rcases mem_cons.mp hc with rfl | hc
    · exact .inl ⟨_, rfl⟩
    · split at hc
      · obtain rfl := mem_singleton.mp hc
        exact .inl ⟨_, rfl⟩
      · cases hc
  · obtain rfl := mem_singleton.mp hc
    exact .inr ⟨rfl, rfl, rfl⟩

theorem sendVoteAndResetTimer_error (h : s.sendVoteAndResetTimer env v = .error e) : e = .leaderForInvalidRound := by
  unfold sendVoteAndResetTimer at h
  rcases bind_eq_error.mp h with h | ⟨_, _, h⟩
  · exact roundLeader_error h
  rcases bind_eq_error.mp h with h | ⟨_, _, h⟩
  · exact roundLeader_error h
  · cases h

/-- A vote that is to be sent is sent, whatever else was scheduled when it was recorded. -/
theorem sendVote_traced (hv : s.scheduledVote = some (.ready v)) (sv : Option OutgoingVoteStatus) :
    Stepped env ev s ({ s with scheduledVote := sv }.sendVoteAndResetTimer env v) := by
  cases h : { s with scheduledVote := sv }.sendVoteAndResetTimer env v with
  | error e =>
    obtain rfl := sendVoteAndResetTimer_error h
    exact .fail trivial
  | ok s' =>
    obtain ⟨cmds, hcmds, rfl⟩ := sendVoteAndResetTimer_ok h
    exact .single (sendVote s v cmds hv hcmds)

theorem dispatchVote_traced {parentBlockRound : Nat} {history : List Act} (hround : v.round = s.currentRound)
    (hsafe : s.safety.highestVote < s.currentRound)
    (hrec : Step env ev s { s with safety := safety, history := history, scheduledVote := some (.ready v) }) :
    Stepped env ev s
      (dispatchVote env v parentBlockRound { s with safety := safety, history := history }) := by
  have hsend : Stepped env ev s
      ({ s with safety := safety, history := history }.sendVoteAndResetTimer env v) :=
    step_then hrec (sendVote_traced (s := { s with
      safety := safety, history := history, scheduledVote := some (.ready v) }) rfl s.scheduledVote)
  unfold dispatchVote
  split
  · exact hsend
  · rename_i w hw
    refine ite (fun hle => .fail ?_) (fun _ => ite (fun _ => hsend) (fun _ => .single hrec))
    exact ⟨w, hw, by omega, hsafe⟩
  · exact ite (fun _ => hsend) (fun _ => .single hrec)

theorem tryVote_traced {p : ProposalMessage} (hev : ev = .message author (.proposal p))
    (hround : p.proposalRound = s.currentRound) : Stepped env ev s (s.tryVote env p.lastRoundTC p.tip) := by
  simp only [tryVote]
  split
  · refine past (fun _ => past (fun hc => ?_))
    refine past (fun hsafe => ?_)
    have hc : s.pendingBlockTree.isCoherent p.tip.blockHeader.getId = true := by simpa using hc
    have hsafe : s.safety.isSafeToVote s.currentRound (tcTip p.lastRoundTC) = true := by simpa using hsafe
    refine read ?_ ?_
    · intro e he
      simp [Safety.vote, hsafe] at he
    · intro safety hvote
      exact dispatchVote_traced rfl (Safety.isSafeToVote_iff.mp hsafe).1
        (recordVote s author p safety hev hround hc hvote)
  · exact .refl s

theorem voteOnAdded_traced (hpending : ∀ v, pending = some v → ∃ author p, ev = .message author (.proposal p) ∧
      v = ⟨p.proposalRound, p.lastRoundTC, p.tip⟩ ∧ p.tip.blockHeader = block.header) :
    Stepped env ev s (s.voteOnAdded env block pending) := by
  unfold voteOnAdded
  split
  · exact .refl s
  rename_i v
  obtain ⟨author, p, hev, rfl, hheader⟩ := hpending v rfl
  refine past (fun hround => ite (fun hne => ?_) (fun _ => ?_))
  · exact absurd (congrArg ConsensusBlockHeader.getId hheader) hne
  · exact tryVote_traced hev (not_not.mp hround)

/-! ## Proposing -/

theorem repropose_traced (hsafe : s.safety.isSafeToPropose s.currentRound = true)
    (htc : s.pacemaker.highCertificate = .tc tc) (htip : tc.highExtend = .tip tip) :
    Stepped env ev s (s.repropose env s.currentRound tip tc) := by
  unfold repropose
  refine bind tryUpdateCoherency_traced ?_
  intro s₁ hs₁ _
  have hcore := tryUpdateCoherency_sameCore hs₁
  rw [← hcore.currentRound]
  have hsafe₁ : s₁.safety.isSafeToPropose s₁.currentRound = true := by
    rw [hcore.safety, hcore.currentRound]
    exact hsafe
  refine ite (fun _ => past (fun hreq => ?_)) (fun hcoh => ?_)
  · refine read ?_ ?_
    · intro e he
      simp [Safety.recoveryRequest, hreq] at he
    · intro safety hsafety
      exact .single (recoveryRequest s₁ _ safety ⟨rfl, rfl, rfl⟩ hsafety)
  · refine read ?_ ?_
    · intro e he
      simp [Safety.propose, hsafe₁] at he
    · intro safety hsafety
      split
      · rename_i hnone
        -- coherent, but no entry of the tree
        refine .fail ⟨tc, tip, by rw [hcore.pacemaker]; exact htc, htip, ?_⟩
        have hnone : s₁.pendingBlockTree.tree.get tip.blockHeader.getId = none := by
          simpa [getBlock] using hnone
        simp [isCoherent, hnone] at hcoh
        exact hcoh.1
      · exact .single (propose s₁ _ safety rfl (by simp [Command.signed, ProtocolMessage.signed]) hsafety)

theorem proposeOn_traced {fresh : Option FreshProposalCertificate} {tc : Option TimeoutCertificate}
    (hsafe : s.safety.isSafeToPropose s.currentRound = true) (hqc : s.pacemaker.highCertificate.getQC = qc) :
    Stepped env ev s (s.proposeOn env epoch s.currentRound qc fresh tc) := by
  unfold proposeOn
  refine bind tryUpdateCoherency_traced ?_
  intro s₁ hs₁ _
  have hcore := tryUpdateCoherency_sameCore hs₁
  rw [← hcore.currentRound]
  have hsafe₁ : s₁.safety.isSafeToPropose s₁.currentRound = true := by
    rw [hcore.safety, hcore.currentRound]
    exact hsafe
  refine past (fun hcoh => ?_)
  have hcoh : s₁.pendingBlockTree.isCoherent qc.getBlockId = true := by simpa using hcoh
  split
  · rename_i hpath
    refine .fail ⟨?_, ?_⟩
    · rw [hcore.pacemaker, hqc]
      exact hcoh
    · rw [hcore.pacemaker, hqc]
      exact hpath
  · refine read ?_ ?_
    · intro e he
      obtain ⟨b, l, rfl⟩ := expected_error he
      trivial
    · intro expected _
      split
      · exact .refl s₁
      · refine read ?_ ?_
        · intro e he
          simp [Safety.propose, hsafe₁] at he
        · intro safety hsafety
          exact .single (propose s₁ _ safety rfl (by simp [Command.signed]) hsafety)

theorem tryPropose_traced : Stepped env ev s (s.tryPropose env) := by
  simp only [tryPropose]
  split
  · exact .fail trivial
  split
  · exact .fail trivial
  refine past (fun _ => ?_)
  refine after (requestTipIfMissing_steps env ev s) ?_
  have hround : s.currentRound = s.requestTipIfMissing.currentRound :=
    (requestTipIfMissing_sameCore s).1.currentRound.symm
  rw [hround]
  refine past (fun hsafe => ?_)
  have hsafe := by simpa using hsafe
  split
  · rename_i tip tc hfrom
    simp only [proposeFrom] at hfrom
    split at hfrom
    · cases hfrom
    split at hfrom
    · cases hfrom
    rename_i tc' htc _ _
    split at hfrom
    · rename_i htip
      cases hfrom
      exact repropose_traced hsafe htc htip
    · cases hfrom
  · rename_i qc fresh tc hfrom
    refine proposeOn_traced hsafe ?_
    simp only [proposeFrom] at hfrom
    split at hfrom
    · rename_i hqc
      cases hfrom
      rw [hqc]
      rfl
    · rename_i htc
      rw [htc]
      split at hfrom
      · cases hfrom
        rfl
      · split at hfrom
        · cases hfrom
        · rename_i hhe
          cases hfrom
          simp [RoundCertificate.getQC, HighExtend.getQC, hhe]

/-! ## The pacemaker -/

theorem timeoutActs_entering {p : Pacemaker}
    (h : Pacemaker.Entering env.config cmds) : timeoutActs p safety cmds = [] := by
  rcases h with rfl | ⟨epoch, cert, rfl⟩ <;> rfl

theorem afterPacemaker_trans {p₁ p₂ : Pacemaker} {safety₁ safety₂ : Safety} {c₁ c₂ : List PacemakerCommand}
    (h : Pacemaker.Entering env.config c₂) :
    (s.afterPacemaker env (p₁, safety₁, c₁)).afterPacemaker env (p₂, safety₂, c₂) =
      s.afterPacemaker env (p₂, safety₂, c₁ ++ c₂) := by
  have hacts : ∀ p safety, timeoutActs p safety c₂ = [] := fun p safety => timeoutActs_entering h
  have happ : timeoutActs s.pacemaker s.safety (c₁ ++ c₂) =
      timeoutActs s.pacemaker s.safety c₁ ++ timeoutActs s.pacemaker s.safety c₂ := by
    simp [timeoutActs]
  simp only [afterPacemaker, hacts, happ, append_nil, flatMap_append, append_assoc]

theorem afterPacemaker_nil : s.afterPacemaker env (s.pacemaker, s.safety, []) = s := by
  simp [afterPacemaker, timeoutActs]

/-- A run of the pacemaker without timeouts, as steps of the state. -/
theorem run_steps {given : RoundCertificate → Prop} {x y : Pacemaker × Safety}
    (h : Run (Pacemaker.Step env.config em given (fun author t => ev = .message author (.timeout t))) x cmds y)
    (hx : x = (s.pacemaker, s.safety)) (hem : s.epochManager = em) (hgiven : Source env ev s = given)
    (hno : ∀ c ∈ cmds, ∀ ti he b rc, c ≠ .prepareTimeout ti he b rc) :
    ReflTransGen (Step env ev) s (s.afterPacemaker env (y.1, y.2, cmds)) := by
  induction h generalizing s with
  | nil x =>
    subst hx
    rw [afterPacemaker_nil]
  | @cons x x₁ x₂ out outs hstep _ ih =>
    subst hx hem hgiven
    have hstep' : Step env ev s (s.afterPacemaker env (x₁.1, x₁.2, out)) := Step.pacemaker s x₁.1 x₁.2 out hstep
    have hrest := ih (s := s.afterPacemaker env (x₁.1, x₁.2, out)) rfl rfl rfl
      (fun c hc => hno c (mem_append_right out hc))
    refine (ReflTransGen.single hstep').trans ?_
    convert hrest using 1
    have hacts : ∀ (p : Pacemaker) (safety : Safety) (l : List PacemakerCommand),
        (∀ c ∈ l, ∀ ti he b rc, c ≠ .prepareTimeout ti he b rc) → timeoutActs p safety l = [] := by
      intro p safety l hl
      refine filterMap_eq_nil_iff.mpr ?_
      intro c hc
      cases c with
      | prepareTimeout ti he b rc => exact absurd rfl (hl _ hc ti he b rc)
      | enterRound | schedule | scheduleReset => rfl
    simp only [afterPacemaker, hacts _ _ _ hno, hacts _ _ _ (fun c hc => hno c (mem_append_left outs hc)),
      hacts _ _ _ (fun c hc => hno c (mem_append_right out hc)), append_nil, flatMap_append,
      append_assoc]

theorem entering_no_timeout (h : Pacemaker.Entering env.config cmds) :
    ∀ c ∈ cmds, ∀ ti he b rc, c ≠ .prepareTimeout ti he b rc := by
  rcases h with rfl | ⟨epoch, cert, rfl⟩
  · intro c hc
    cases hc
  · intro c hc ti he b rc
    simp only [enterCommands, mem_cons, not_mem_nil, or_false] at hc
    rcases hc with rfl | rfl <;> simp

theorem enterRound_traced (hsrc : Source env ev s cert) : Stepped env ev s (s.enterRound env cert) := by
  unfold enterRound
  refine read ?_ ?_
  · intro e he
    unfold processCertificate at he
    split at he
    · cases he
    split at he
    · cases he
      trivial
    · cases he
  · rintro ⟨p, safety, cmds⟩ h
    exact run_steps (processCertificate_run hsrc h) rfl rfl rfl
      (entering_no_timeout (processCertificate_entering h))

theorem enterRound_ok (h : s.enterRound env cert = .ok s') : cert.round < s'.currentRound := by
  unfold enterRound at h
  obtain ⟨⟨p, safety, cmds⟩, hpc, hret⟩ := bind_eq_ok.mp h
  cases hret
  show cert.round < p.getCurrentRound
  obtain ⟨hle, rfl, -⟩ | ⟨-, epoch, -, rfl, -⟩ := processCertificate_ok hpc
  · unfold getCurrentRound
    omega
  · exact Nat.lt_succ_self _

theorem processLocalTimeout_steps {r : Pacemaker × Safety × List PacemakerCommand}
    (h : s.pacemaker.processLocalTimeout env.config s.safety = .ok r) :
    ReflTransGen (Step env ev) s (s.afterPacemaker env r) := by
  unfold processLocalTimeout at h
  obtain ⟨⟨safety, cmds⟩, htm, hret⟩ := bind_eq_ok.mp h
  obtain ⟨hle, rfl, rfl⟩ := localTimeoutRound_ok htm
  cases hret
  have htimeout : Step env ev s _ := Step.pacemaker s _ _ _ (.timeout s.pacemaker s.safety hle)
  generalize hcmds : timeoutCommands _ _ _ _ = cmds at htimeout ⊢
  have hphase := @Step.pacemaker env ev _ _ _ _ (.phase
    (s.afterPacemaker env (s.pacemaker, { s.safety with highestVote := s.pacemaker.getCurrentRound }, cmds)).pacemaker
    _ .one)
  rw [afterPacemaker_trans (.inl rfl), append_nil] at hphase
  exact (ReflTransGen.single htimeout).tail hphase

theorem processLocalTimeout_error (h : s.pacemaker.processLocalTimeout env.config s.safety = .error e) :
    Fails env ev s e := by
  unfold processLocalTimeout localTimeoutRound at h
  rcases bind_eq_error.mp h with h | ⟨_, _, h⟩
  · rcases bind_eq_error.mp h with h | ⟨_, _, h⟩
    · unfold Safety.timeout at h
      split at h
      · cases h
        assumption
      · cases h
    · cases h
  · cases h

theorem handleTimeoutExpiry_traced : Stepped env ev s (s.handleTimeoutExpiry env round) := by
  unfold handleTimeoutExpiry
  refine past (fun _ => read (fun e he => processLocalTimeout_error he) ?_)
  intro r hr
  exact processLocalTimeout_steps hr

theorem Step.round_le (h : Step env ev s s') : s.currentRound ≤ s'.currentRound := by
  cases h with
  | commit _ qc parent tree blocks _ _ hfold =>
    obtain ⟨policy, em, acts, rfl, -⟩ := commitBlocks_ok hfold
    exact Nat.le_refl _
  | pacemaker p safety cmds hp =>
    show s.pacemaker.highCertificate.round + 1 ≤ p.highCertificate.round + 1
    generalize hx : (s.pacemaker, s.safety) = x at hp
    generalize hy : (p, safety) = y at hp
    have hle : x.1.highCertificate.round ≤ y.1.highCertificate.round := by
      cases hp with
      | record | drop | phase | timeout => exact Nat.le_refl _
      | enter q t cert epoch _ hlt _ => exact Nat.le_of_lt hlt
      | form q t validators order tcEpoch tc epoch _ htc _ =>
        obtain ⟨tr, -, heq⟩ := bind_eq_ok.mp htc
        cases heq
        exact Nat.le_succ _
    subst hx hy
    exact Nat.succ_le_succ hle
  | _ => exact Nat.le_refl _

theorem steps_round_le (h : ReflTransGen (Step env ev) s s') : s.currentRound ≤ s'.currentRound :=
  reach (I := fun t => s.currentRound ≤ t.currentRound) (fun _ _ hs hle => hle.trans hs.round_le) h
    (Nat.le_refl _)

theorem remoteTimeout_traced {t : Timeout} (hev : ev = .message author (.timeout t))
    (hcerts : ∀ cert ∈ ev.certs, cert.round < s.currentRound) :
    Stepped env ev s (s.remoteTimeout env validators author t) := by
  unfold remoteTimeout processRemoteTimeout processRemoteTimeoutWith
  split
  · show Traced _ _ s (.ok (s.afterPacemaker env (s.pacemaker, s.safety, [])))
    rw [afterPacemaker_nil]
    exact .refl s
  rename_i hge
  split
  · rename_i hne
    exact .fail ⟨author, t, hev, Nat.lt_of_le_of_ne (Nat.le_of_not_lt hge) (Ne.symm hne), hcerts⟩
  rename_i hround
  have hround : t.tmInfo.round = s.pacemaker.getCurrentRound := not_not.mp hround
  split
  · show Traced _ _ s (.ok (s.afterPacemaker env (s.pacemaker, s.safety, [])))
    rw [afterPacemaker_nil]
    exact .refl s
  -- the timeout is kept
  generalize hp₀ : { s.pacemaker with pendingTimeouts := s.pacemaker.pendingTimeouts.insert author t } = p₀
  have hrec : Step env ev s (s.afterPacemaker env (p₀, s.safety, [])) := by
    rw [← hp₀]
    exact Step.pacemaker s _ _ _ (.record s.pacemaker s.safety author t hev hround)
  have hsame : p₀.highCertificate = s.pacemaker.highCertificate ∧ p₀.currentEpoch = s.pacemaker.currentEpoch := by
    rw [← hp₀]
    exact ⟨rfl, rfl⟩
  generalize hs₀ : s.afterPacemaker env (p₀, s.safety, []) = s₀ at hrec
  have hs₀core : s₀.pacemaker = p₀ ∧ s₀.safety = s.safety := by
    rw [← hs₀]
    exact ⟨rfl, rfl⟩
  have hafter : ∀ r : Pacemaker × Safety × List PacemakerCommand, s.afterPacemaker env r = s₀.afterPacemaker env r := by
    intro r
    rw [← hs₀]
    simp [afterPacemaker, timeoutActs, hsame.1, hsame.2]
  refine step_then hrec ?_
  have hfirst : Stepped env ev s₀
      ((timeoutAfterHonest env.config validators p₀ s.safety).map (s₀.afterPacemaker env)) := by
    unfold timeoutAfterHonest
    rw [← hs₀core.1, ← hs₀core.2]
    split
    · split
      · exact .fail trivial
      · show Traced _ _ s₀ (.ok _)
        rw [afterPacemaker_nil]
        exact .refl s₀
      · cases hlocal : s₀.pacemaker.processLocalTimeout env.config s₀.safety with
        | error e => exact .fail (processLocalTimeout_error hlocal)
        | ok r => exact processLocalTimeout_steps hlocal
    · show Traced _ _ s₀ (.ok _)
      rw [afterPacemaker_nil]
      exact .refl s₀
  cases hres : timeoutAfterHonest env.config validators p₀ s.safety with
  | error e =>
    rw [hres] at hfirst
    exact hfirst
  | ok r =>
    obtain ⟨p₁, safety₁, cmds⟩ := r
    rw [hres] at hfirst
    refine after hfirst ?_
    have hround₁ : t.tmInfo.round = p₁.getCurrentRound := by
      rw [hround, getCurrentRound, getCurrentRound,
        timeoutAfterHonest_highCertificate hres, hsame.1]
    rw [ok_bind]
    dsimp only
    cases hcert : certifyTimeoutsWith SigCol.new env.config s.epochManager validators env.timeoutOrder t.tmInfo
        p₁ safety₁ with
    | error e =>
      refine .fail ?_
      unfold certifyTimeoutsWith at hcert
      split at hcert
      · rcases tryFormTC_error hround₁ hcert with rfl | rfl | ⟨err, rfl⟩ <;> trivial
      · cases hcert
    | ok r₂ =>
      obtain ⟨p₂, safety₂, tcCmds⟩ := r₂
      have hentering := certifyTimeouts_entering hcert
      show ReflTransGen _ _ (s.afterPacemaker env (p₂, safety₂, cmds ++ tcCmds))
      rw [hafter, ← afterPacemaker_trans hentering]
      refine run_steps (certifyTimeouts_run hround₁ hcert) rfl ?_ rfl (entering_no_timeout hentering)
      rw [← hs₀]
      rfl

/-! ## Certificates -/

theorem commitVoted_steps (env : Env) (ev : Event) (qc : QuorumCertificate) (s : State) :
    ReflTransGen (Step env ev) s (s.commitVoted qc) := by
  unfold commitVoted
  split
  · exact .refl
  · refine .single (announce s _ s.canonicalProposedTip ?_)
    intro c hc
    obtain rfl := mem_singleton.mp hc
    exact quiet_commit (by simp)

theorem commitVoted_sameCore (qc : QuorumCertificate) (s : State) : SameCore s (s.commitVoted qc) := by
  unfold commitVoted
  split
  · exact .refl s
  · exact ⟨rfl, rfl, rfl, rfl, rfl⟩

theorem cancelObsolete_step (env : Env) (ev : Event) (s : State) : Step env ev s (s.cancelObsolete env) := by
  refine forget s _ _ ?_
  intro c hc
  obtain ⟨e, -, rfl⟩ := mem_map.mp hc
  exact ⟨rfl, rfl, rfl⟩

theorem processQC_traced (hsrc : Source env ev s (.qc qc)) : Stepped env ev s (s.processQC env qc) := by
  unfold processQC
  refine past (fun _ => ?_)
  refine after (commitVoted_steps env ev qc s) ?_
  have hvoted := commitVoted_sameCore qc s
  refine bind (tryCommit_traced (.inl (hvoted.source hsrc))) ?_
  intro s₁ hs₁ _
  refine step_then (cancelObsolete_step env ev s₁) ?_
  refine read (fun e he => maybeStatesync_error he _) (fun _ _ => ?_)
  have hcore : SameCore s (s₁.cancelObsolete env) :=
    (hvoted.trans (tryCommit_sameCore hs₁)).trans ⟨rfl, rfl, rfl, rfl, rfl⟩
  refine bind (enterRound_traced (hcore.source hsrc)) ?_
  intro s₂ _ _
  refine after (updateProposedHead_steps env ev s₂) ?_
  refine bind requestBlocksIfMissingAncestor_traced ?_
  intro s₃ _ _
  exact step_then (Step.startNewRound s₃) tryPropose_traced

theorem processQC_round (h : s.processQC env qc = .ok s') : qc.info.round < s'.currentRound := by
  unfold processQC at h
  split at h
  · cases h
    assumption
  obtain ⟨s₁, -, h⟩ := bind_eq_ok.mp h
  obtain ⟨_, -, h⟩ := bind_eq_ok.mp h
  obtain ⟨s₂, hs₂, h⟩ := bind_eq_ok.mp h
  obtain ⟨s₃, hs₃, h⟩ := bind_eq_ok.mp h
  have hlt : qc.info.round < s₂.currentRound := enterRound_ok hs₂
  have hreq : ReflTransGen (Step env (.timeout 0)) s₂ s₃ := by
    have htraced := @requestBlocksIfMissingAncestor_traced env (.timeout 0) s₂.updateProposedHead
    rw [hs₃] at htraced
    exact (updateProposedHead_steps env _ s₂).trans htraced
  have hprop := @tryPropose_traced env (.timeout 0) s₃.startNewRound
  rw [h] at hprop
  have h₂₃ := steps_round_le hreq
  have h₃ := steps_round_le hprop
  have hstart : s₃.startNewRound.currentRound = s₃.currentRound := rfl
  omega

theorem processTC_traced (hsrc : Source env ev s (.tc tc)) : Stepped env ev s (s.processTC env tc) := by
  unfold processTC
  refine past (fun _ => bind (enterRound_traced hsrc) ?_)
  intro s₁ _ _
  exact tryPropose_traced

theorem processTC_round (h : s.processTC env tc = .ok s') : tc.round < s'.currentRound := by
  unfold processTC at h
  split at h
  · cases h
    assumption
  obtain ⟨s₁, hs₁, h⟩ := bind_eq_ok.mp h
  have hlt : tc.round < s₁.currentRound := enterRound_ok hs₁
  have hprop := @tryPropose_traced env (.timeout 0) s₁
  rw [h] at hprop
  have hle := steps_round_le hprop
  omega

/-! ## Handlers -/

theorem verifiedSet_error (h : s.verifiedSet env round = .error e) (t : State) : Fails env ev t e := by
  unfold verifiedSet at h
  split at h
  · cases h
    trivial
  split at h
  · cases h
    trivial
  · cases h

theorem verifiedSet_ok (h : s.verifiedSet env round = .ok validators) :
    ∃ epoch, s.epochManager.getEpoch round = some epoch ∧ env.valEpochMap.get epoch = some validators := by
  unfold verifiedSet at h
  split at h
  · cases h
  rename_i epoch hepoch
  split at h
  · cases h
  · cases h
    exact ⟨epoch, hepoch, by assumption⟩

theorem validateBlock_ok (h : s.validateBlock env header body = .ok (some block)) : block.header = header := by
  unfold validateBlock at h
  split at h
  · rename_i validated hget
    split_ifs at h
    · cases h
    · cases h
      exact getId_injective (getBlock_keyed hget)
  · obtain ⟨validators, -, h⟩ := bind_eq_ok.mp h
    split at h
    · cases h
    split at h
    · cases h
    split at h
    · cases h
    split at h
    · unfold newFullBlock at h
      split at h
      · cases h
        rfl
      · cases h
    · cases h

theorem validateBlock_error (h : s.validateBlock env header body = .error e) (t : State) : Fails env ev t e := by
  unfold validateBlock at h
  split at h
  · cases h
  · rcases bind_eq_error.mp h with h | ⟨validators, -, h⟩
    · exact verifiedSet_error h t
    split at h
    · cases h
    split at h
    · cases h
      trivial
    split at h
    · cases h
      trivial
    · cases h

theorem tryAddAndCommitBlocktree_traced (hbrings : ev.Brings block)
    (hpending : ∀ v, pending = some v → ∃ author p, ev = .message author (.proposal p) ∧
      v = ⟨p.proposalRound, p.lastRoundTC, p.tip⟩ ∧ p.tip.blockHeader = block.header) :
    Stepped env ev s (s.tryAddAndCommitBlocktree env block pending) := by
  unfold tryAddAndCommitBlocktree
  refine step_then (insert s block hbrings) ?_
  refine bind tryUpdateCoherency_traced (fun s₁ _ _ => ?_)
  refine bind (voteOnAdded_traced hpending) (fun s₂ _ _ => ?_)
  refine bind tryPropose_traced (fun s₃ _ _ => ?_)
  exact read (fun e he => maybeStatesync_error he _) (fun _ _ => requestBlocksIfMissingAncestor_traced)

theorem addProposal_traced {p : ProposalMessage} (hev : ev = .message author (.proposal p)) :
    Stepped env ev s (s.addProposal env p) := by
  unfold addProposal
  refine past (fun hsafe => read ?_ ?_)
  · intro e he
    simp [Safety.handleProposal, hsafe] at he
  intro safety hsafety
  refine step_then (handleProposal s p.proposalRound safety hsafety) ?_
  refine read (fun e he => validateBlock_error he _) ?_
  intro block hblock
  split
  · exact .refl _
  · rename_i block'
    have hheader : block'.header = p.tip.blockHeader := validateBlock_ok hblock
    refine tryAddAndCommitBlocktree_traced ?_ ?_
    · rw [hev]
      exact hheader
    · intro v hv
      cases hv
      exact ⟨author, p, hev, rfl, hheader.symm⟩

theorem handleProposalMessage_traced {p : ProposalMessage} (hev : ev = .message author (.proposal p)) :
    Stepped env ev s (s.handleProposalMessage env author p) := by
  have hqc : RoundCertificate.qc p.tip.blockHeader.qc ∈ ev.certs := by
    rw [hev]
    exact .head _
  have htc : ∀ tc, p.lastRoundTC = some tc → RoundCertificate.tc tc ∈ ev.certs := by
    intro tc h
    rw [hev]
    simp [Event.certs, h]
  unfold handleProposalMessage
  refine past (fun _ => read (fun e he => verifiedSet_error he s) ?_)
  intro validators _
  refine bind (processQC_traced (.inl hqc)) (fun s₁ _ _ => ?_)
  refine bind ?_ (fun s₂ _ _ => past (fun _ => addProposal_traced hev))
  cases hlast : p.lastRoundTC with
  | none => exact .refl s₁
  | some tc => exact processTC_traced (.inl (htc tc hlast))

theorem handleVoteMessage_traced {m : VoteMessage} (hev : (author, m) ∈ ev.votes) :
    Stepped env ev s (s.handleVoteMessage env author m) := by
  unfold handleVoteMessage
  refine past (fun _ => read (fun e he => verifiedSet_error he s) ?_)
  intro validators hvalidators
  refine step_then (collectVote s author m validators hev) ?_
  dsimp only
  split
  · exact .refl _
  · rename_i qc hqc
    obtain ⟨epoch, -, hepoch⟩ := verifiedSet_ok hvalidators
    obtain ⟨-, hcert, hstored⟩ := VoteState.processVote_qc hqc
    refine bind (processQC_traced (.inr ⟨qc, rfl, ⟨epoch, validators, hepoch, hcert⟩, hstored⟩))
      (fun s₁ _ _ => ?_)
    refine bind tryPropose_traced (fun s₂ _ _ => ?_)
    split
    · refine .single (announce s₂ _ s₂.canonicalProposedTip ?_)
      intro c hc
      obtain rfl := mem_singleton.mp hc
      exact ⟨rfl, rfl, rfl⟩
    · exact .refl s₂

theorem handleEmbeddedVote_traced {t : Timeout} (hev : ev = .message author (.timeout t)) :
    Stepped env ev s (s.handleEmbeddedVote env author t) := by
  unfold handleEmbeddedVote
  split
  · rename_i tip voteSig hhe
    refine handleVoteMessage_traced ?_
    rw [hev]
    simp [Event.votes, Event.embeddedVote, hhe]
  · exact .refl s

theorem handleLastRoundCertificate_traced {lrc : Option RoundCertificate} (hev : ∀ cert, lrc = some cert → cert ∈ ev.certs) :
    Stepped env ev s (s.handleLastRoundCertificate env lrc) := by
  unfold handleLastRoundCertificate
  split
  · exact .refl s
  · exact processQC_traced (.inl (hev _ rfl))
  · rename_i tc
    have hsrc : ∀ t, Source env ev t (.tc tc) := fun t => .inl (hev _ rfl)
    refine ite (fun _ => ?_) (fun _ => ite (fun _ => ?_) (fun _ => .refl s))
    · exact bind handleTimeoutExpiry_traced (fun s₁ _ _ => processTC_traced (hsrc s₁))
    · refine after ?_ (processTC_traced (hsrc _))
      unfold broadcastAdvanceRoundMessage
      split
      · exact .refl
      · refine .single (announce s _ s.canonicalProposedTip ?_)
        intro c hc
        obtain rfl := mem_singleton.mp hc
        exact ⟨rfl, rfl, rfl⟩

theorem handleLastRoundCertificate_round
    (h : s.handleLastRoundCertificate env (some cert) = .ok s') : cert.round < s'.currentRound := by
  unfold handleLastRoundCertificate at h
  cases cert with
  | qc qc => exact processQC_round h
  | tc tc =>
    dsimp only at h
    split at h
    · obtain ⟨s₁, -, h⟩ := bind_eq_ok.mp h
      exact processTC_round h
    split at h
    · exact processTC_round h
    · cases h
      show tc.round < s.currentRound
      omega

theorem handleTimeoutMessage_traced {t : Timeout} (hev : ev = .message author (.timeout t)) :
    Stepped env ev s (s.handleTimeoutMessage env author t) := by
  have hqc : RoundCertificate.qc t.highExtend.asHighExtend.getQC ∈ ev.certs := by
    rw [hev]
    exact .head _
  have hlrc : ∀ cert, t.lastRoundCertificate = some cert → cert ∈ ev.certs := by
    intro cert h
    rw [hev]
    simp [Event.certs, h]
  unfold handleTimeoutMessage
  refine past (fun _ => read (fun e he => verifiedSet_error he s) ?_)
  intro validators _
  refine bind (processQC_traced (.inl hqc)) (fun s₁ hs₁ _ => ?_)
  refine bind (handleEmbeddedVote_traced hev) (fun s₂ _ h₁₂ => ?_)
  refine bind (handleLastRoundCertificate_traced hlrc) (fun s₃ hs₃ h₂₃ => ?_)
  refine bind (remoteTimeout_traced hev ?_) (fun s₄ _ _ => tryPropose_traced)
  -- all certificates of the timeout are processed by now
  intro cert hcert
  rw [hev] at hcert
  simp only [Event.certs, mem_cons, Option.mem_toList] at hcert
  rcases hcert with rfl | hcert
  · exact Nat.lt_of_lt_of_le (processQC_round hs₁) ((steps_round_le h₁₂).trans (steps_round_le h₂₃))
  · rw [hcert] at hs₃
    exact handleLastRoundCertificate_round hs₃

theorem noEndorseTip_traced (hev : ev = .message author (.roundRecovery m)) (htip : m.tc.highExtend = .tip tip)
    (hround : m.round = s.currentRound) : Stepped env ev s (s.noEndorseTip env author epoch m tip) := by
  unfold noEndorseTip
  refine past (fun _ => past (fun hsafe => ?_))
  refine read ?_ ?_
  · intro e he
    simp [Safety.noEndorse, hsafe] at he
  · intro safety hsafety
    exact .single (noEndorse s author m tip epoch safety hev htip hround hsafety)

theorem handleRoundRecoveryMessage_traced (hev : ev = .message author (.roundRecovery m)) :
    Stepped env ev s (s.handleRoundRecoveryMessage env author m) := by
  unfold handleRoundRecoveryMessage
  split
  · exact .fail trivial
  split
  · exact .fail trivial
  refine bind (processTC_traced (.inl (by rw [hev]; exact (.head _)))) (fun s₁ _ _ => ?_)
  refine past (fun hok => ?_)
  push Not at hok
  split
  · exact .refl s₁
  · rename_i tip htip
    exact noEndorseTip_traced hev htip hok.1

theorem handleNoEndorsementMessage_traced {m : NoEndorsementMessage} :
    Stepped env ev s (s.handleNoEndorsementMessage env author m) := by
  unfold handleNoEndorsementMessage
  refine past (fun _ => read (fun e he => verifiedSet_error he s) ?_)
  intro validators _
  refine step_then
    (collectNoEndorsement s (s.noEndorsementState.processNoEndorsement author m validators).1) ?_
  dsimp only
  split
  · exact .refl _
  · exact tryPropose_traced

theorem handleAdvanceRoundMessage_traced (hev : ev = .message author (.advanceRound cert)) :
    Stepped env ev s (s.handleAdvanceRoundMessage env cert) := by
  have hcert : cert ∈ ev.certs := by
    rw [hev]
    exact .head _
  unfold handleAdvanceRoundMessage
  split
  · exact processTC_traced (.inl hcert)
  · refine past (fun _ => bind (processQC_traced (.inl hcert)) (fun s₁ _ _ => ?_))
    refine read ?_ ?_
    · intro e he
      obtain rfl := roundLeader_error he
      trivial
    · intro leader _
      refine .single (announce s₁ _ s₁.canonicalProposedTip ?_)
      intro c hc
      obtain rfl := mem_singleton.mp hc
      exact ⟨rfl, rfl, rfl⟩

theorem syncBlocks_traced (hbrings : ∀ b ∈ blocks, ev.Brings b) : Stepped env ev s (syncBlocks env blocks s) := by
  induction blocks generalizing s with
  | nil => exact .refl s
  | cons b blocks ih =>
    have hrest : ∀ b' ∈ blocks, ev.Brings b' := fun b' hb' => hbrings b' (.tail b hb')
    unfold syncBlocks
    refine ite (fun _ => ih hrest) (fun _ => read (fun e he => validateBlock_error he s) ?_)
    intro block hblock
    split
    · exact .refl s
    · rename_i block'
      obtain rfl : block' = b :=
        ConsensusFullBlock.eq_of_getId (congrArg ConsensusBlockHeader.getId (validateBlock_ok hblock))
      refine bind (tryAddAndCommitBlocktree_traced (hbrings block' (.head _)) (by simp))
        (fun s₁ _ _ => ih hrest)

theorem handleBlockSync_traced {range : BlockRange} (hev : ev = .blockSync range blocks) :
    Stepped env ev s (s.handleBlockSync env range blocks) := by
  unfold handleBlockSync
  refine past (fun _ => bind (syncBlocks_traced ?_) (fun s₁ _ _ => ?_))
  · intro b hb
    rw [hev]
    exact hb
  · have hforget := @forget env ev s₁ (fun k _ => decide (k ≠ range.lastBlockId)) [] (by simp)
    rw [append_nil] at hforget
    exact .single hforget

theorem handleVoteTimer_traced : Stepped env ev s (s.handleVoteTimer env) := by
  unfold handleVoteTimer
  split
  · rename_i v hv
    exact sendVote_traced hv s.scheduledVote
  · rename_i hnot
    exact .single (voteTimer s (fun v hv => hnot v hv))

/-- Every event is processed by elementary steps. -/
theorem handle_traced (env : Env) (ev : Event) (s : State) : Stepped env ev s (s.handle env ev) := by
  cases ev with
  | message author m =>
    cases m with
    | proposal p => exact handleProposalMessage_traced rfl
    | vote m => exact handleVoteMessage_traced (by simp [Event.votes])
    | timeout t => exact handleTimeoutMessage_traced rfl
    | roundRecovery m => exact handleRoundRecoveryMessage_traced rfl
    | noEndorsement m => exact handleNoEndorsementMessage_traced
    | advanceRound cert => exact @handleAdvanceRoundMessage_traced env _ s cert author rfl
  | timeout round => exact handleTimeoutExpiry_traced
  | sendVote round => exact handleVoteTimer_traced
  | blockSync range blocks => exact handleBlockSync_traced rfl

end MonadBft.State
