/-
  MonadBft.ConsensusState.Agreement — one vote and one certified block a round, one chain.

  A vote leaves a node in a message of its own (`tryVote`, `HandleVoteTimer`) or inside a timeout
  (`localTimeoutRound`). The watermark lets one proposal a round be voted for, and a timeout votes
  for the high tip, which only a vote sets. So the votes of a node, sent or waiting for the timer,
  follow one function from rounds to blocks, whatever events come (`Step.ballots`).

  Proved: the votes a node sends over a run are for one block in each round
  (`one_vote_per_round`), and so are the QCs that `VerifyQC` accepts, when the Byzantine stake
  is at most a third, however the runs of the honest nodes interleave (`one_certified_block`);
  the blocks a node finalizes are one chain from its first root to its present one (`finalized_chain`).
-/
import MonadBft.ConsensusState.EpochStable
import MonadBft.BlockTree.Invariant
import MonadBft.Validation.CacheVerdicts

namespace MonadBft.State

open Lib Relation Scenario List

/-- The votes that leave the node with a command. -/
def votesIn (c : Command) : List Vote :=
  c.signed.filterMap fun sg => match sg.msg with
    | .vote v => some v
    | _ => none

/-- The votes, sent or ready, follow `block` up to the watermark, and so would one for the high tip there. -/
structure Ballots (block : Nat → BlockId) (out : List Command) (ready : Option OutgoingVoteStatus) (highest : Nat)
    (highTip : Option ConsensusTip) : Prop where
  vote : ∀ v, v ∈ out.flatMap votesIn ∨ ready = some (.ready v) → v.round ≤ highest ∧ v.id = block v.round
  tip : ∀ t, highTip = some t → t.blockHeader.getId = block highest

def Votes (s : State) : Prop :=
  ∃ block, Ballots block s.out s.scheduledVote s.safety.highestVote s.safety.maybeHighTip

variable {env : Env} {ev : Event} {s s₀ s' : State} {v v' : Vote} {c : Command} {out cmds : List Command}
  {block : Nat → BlockId} {ready : Option OutgoingVoteStatus} {n r : Nat} {tip tip' : Option ConsensusTip}

theorem Ballots.append (hb : Ballots block out ready n tip)
    (h : ∀ v ∈ cmds.flatMap votesIn, v.round ≤ n ∧ v.id = block v.round) : Ballots block (out ++ cmds) ready n tip := by
  refine ⟨fun v hv => ?_, hb.tip⟩
  rw [flatMap_append, mem_append, or_assoc] at hv
  rcases hv with hv | hv | hv
  · exact hb.vote v (.inl hv)
  · exact h v hv
  · exact hb.vote v (.inr hv)

theorem Ballots.mute (hb : Ballots block out ready n tip) (h : ∀ c ∈ cmds, votesIn c = []) :
    Ballots block (out ++ cmds) ready n tip := by
  refine hb.append ?_
  rw [flatMap_eq_nil_iff.mpr h]
  exact forall_mem_nil _

theorem Ballots.raise (hb : Ballots block out ready n tip) (hle : n ≤ r) : ∃ block, Ballots block out ready r tip := by
  cases tip with
  | none => exact ⟨block, fun v hv => (hb.vote v hv).imp_left (·.trans hle), fun t ht => by cases ht⟩
  | some t =>
    -- a vote in round `r` was for the high tip
    refine ⟨Function.update block r t.blockHeader.getId, fun v hv => ?_, fun t ht => ?_⟩
    · obtain ⟨hbelow, hid⟩ := hb.vote v hv
      refine ⟨hbelow.trans hle, ?_⟩
      by_cases hround : v.round = r
      · have heq : n = v.round := by omega
        rw [hround, Function.update_self, hb.tip t rfl, heq, hid]
      · rw [Function.update_of_ne hround, hid]
    · cases ht
      rw [Function.update_self]

theorem Ballots.record (hb : Ballots block out ready n tip) (hlt : n < v.round)
    (htip : ∀ t, tip' = some t → t.blockHeader.getId = v.id) : ∃ block, Ballots block out (some (.ready v)) v.round tip' := by
  refine ⟨Function.update block v.round v.id, fun w hw => ?_, fun t ht => by rw [htip t ht, Function.update_self]⟩
  rcases hw with hw | hw
  · obtain ⟨hbelow, hid⟩ := hb.vote w (.inl hw)
    have hround := hbelow.trans_lt hlt
    exact ⟨hround.le, by rw [Function.update_of_ne hround.ne, hid]⟩
  · cases hw
    exact ⟨le_rfl, (Function.update_self v.round _ block).symm⟩

theorem Quiet.votesIn_eq (h : Quiet c) : votesIn c = [] := by
  rw [votesIn, h.signed]
  rfl

theorem votesIn_commits {kind : CommitKind} {blocks : List ConsensusFullBlock} :
    ∀ c ∈ blocks.map (.commitBlocks kind), votesIn c = [] := by
  intro c hc
  obtain ⟨b, -, rfl⟩ := mem_map.mp hc
  rfl

/-- The vote inside a timeout is for the high tip, in the current round. -/
theorem mem_votesIn_timeout {p : Pacemaker} {safety : Safety} {cfg : Config} {nodeId : NodeId} {safe : Bool}
    (h : v ∈ ((Pacemaker.timeoutCommands cfg p safety safe).flatMap (fromPacemakerCommand nodeId)).flatMap votesIn) :
    ∃ t, safety.maybeHighTip = some t ∧ v.round = p.getCurrentRound ∧ v.id = t.blockHeader.getId := by
  simp only [Pacemaker.timeoutCommands, Pacemaker.timeoutExtend, fromPacemakerCommand, flatMap_cons, flatMap_nil,
    append_nil, singleton_append, votesIn, Command.signed, ProtocolMessage.signed, newTimeout] at h
  cases ht : safety.maybeHighTip with
  | none => simp [ht, blsSign] at h
  | some t =>
    cases safe <;> simp [ht, blsSign, Pacemaker.timeoutInfo] at h
    exact ⟨t, rfl, h ▸ rfl, h ▸ rfl⟩

theorem pacemaker_votes {p : Pacemaker} {safety : Safety} {cmds : List PacemakerCommand} {em : EpochManager}
    {given : RoundCertificate → Prop} {sent : NodeId → Timeout → Prop} (hs : s.Votes)
    (h : Pacemaker.Step env.config em given sent (s.pacemaker, s.safety) cmds (p, safety)) :
    (s.afterPacemaker env (p, safety, cmds)).Votes := by
  obtain ⟨block, hb⟩ := hs
  generalize hx : (s.pacemaker, s.safety) = x at h
  generalize hy : (p, safety) = y at h
  cases h with
  | timeout q t hle =>
    cases hx
    cases hy
    obtain ⟨block, hb⟩ := hb.raise hle
    refine ⟨block, hb.append fun v hv => ?_⟩
    obtain ⟨t, ht, hround, hid⟩ := mem_votesIn_timeout hv
    exact ⟨hround.le, by rw [hid, hb.tip t ht, hround]⟩
  | enter q t cert epoch | form q t validators order tcEpoch cert epoch =>
    cases hx
    cases hy
    -- a certificate may drop the high tip
    refine ⟨block, (hb.mute ?_).vote, fun t ht => hb.tip t (Option.filter_eq_some_iff.mp ht).1⟩
    simp [Pacemaker.enterCommands, fromPacemakerCommand, votesIn, Command.signed]
  | _ =>
    cases hx
    cases hy
    exact ⟨block, hb.mute (forall_mem_nil _)⟩

theorem Step.votes (h : Step env ev s s') (hs : s.Votes) : s'.Votes := by
  obtain ⟨block, hb⟩ := id hs
  cases h with
  | cohere id tree blocks => exact ⟨block, hb.mute votesIn_commits⟩
  | commit _ qc parent tree blocks _ _ hfold =>
    obtain ⟨policy, em, acts, rfl, -⟩ := commitBlocks_ok hfold
    exact ⟨block, hb.mute votesIn_commits⟩
  | pacemaker p safety cmds hp => exact pacemaker_votes hs hp
  | recordVote author p safety hev hround hcoherent hvote =>
    obtain ⟨hsafe, rfl⟩ := Safety.vote_ok.mp hvote
    refine hb.record (v := ⟨_, _, _⟩) (Safety.isSafeToVote_iff.mp hsafe).1 fun t ht => ?_
    dsimp only at ht
    split at ht <;> cases ht
    rfl
  | sendVote w cmds hw hcmds =>
    have hb' : Ballots block (s.out ++ cmds) s.scheduledVote _ _ := hb.append fun v hv => by
      obtain ⟨c, hc, hv⟩ := mem_flatMap.mp hv
      rcases hcmds c hc with ⟨target, rfl⟩ | hq
      · cases mem_singleton.mp hv
        exact hb.vote w (.inr hw)
      · rw [hq.votesIn_eq] at hv
        cases hv
    exact ⟨block, fun v hv => hb'.vote v (hv.imp_right fun h => by cases h), hb.tip⟩
  | voteTimer => exact ⟨block, fun v hv => hb.vote v (hv.imp_right fun h => by cases h), hb.tip⟩
  | noEndorse author m tip epoch safety _ _ _ hne =>
    obtain ⟨-, rfl⟩ := Safety.noEndorse_ok.mp hne
    exact ⟨block, hb.mute (forall_mem_singleton.mpr rfl)⟩
  | propose cmd safety _ hsigned hp =>
    obtain ⟨-, rfl⟩ := Safety.propose_ok.mp hp
    refine ⟨block, hb.mute (forall_mem_singleton.mpr (filterMap_eq_nil_iff.mpr fun sg hsg => ?_))⟩
    rw [hsigned sg hsg]
    rfl
  | recoveryRequest cmd safety hq hr =>
    obtain ⟨-, rfl⟩ := Safety.recoveryRequest_ok.mp hr
    exact ⟨block, hb.mute (forall_mem_singleton.mpr hq.votesIn_eq)⟩
  | handleProposal round safety hp =>
    unfold Safety.handleProposal at hp
    split at hp <;> cases hp
    exact ⟨block, hb⟩
  | request range cancelRound => exact ⟨block, hb.mute (forall_mem_singleton.mpr rfl)⟩
  | forget keep cmds hq | announce cmds canonical hq => exact ⟨block, hb.mute fun c hc => (hq c hc).votesIn_eq⟩
  | _ => exact hs

/-- A state after some run. -/
def Reached (s : State) : Prop := ∃ em s₀, Starts em s₀ ∧ ReflTransGen Moves s₀ s

theorem Reached.votes (h : Reached s) : s.Votes := by
  obtain ⟨em, s₀, hstart, hrun⟩ := h
  have hsteps := steps_of_moves hrun
  clear hrun
  induction hsteps with
  | refl =>
    obtain ⟨policy, root, cert, safety, s₁, hnew, rfl⟩ := hstart
    obtain ⟨p, -, hnew⟩ := bind_eq_ok.mp hnew
    cases hnew
    refine ⟨fun _ => safety.maybeHighTip.elim GENESIS_BLOCK_ID fun t => t.blockHeader.getId, fun v hv => ?_, fun t ht => ?_⟩
    · exact (hv.elim not_mem_nil fun h => by cases h).elim
    · change safety.maybeHighTip = some t at ht
      rw [ht]
      rfl
  | tail _ hstep ih =>
    obtain ⟨env, ev, hstep⟩ := hstep
    exact hstep.votes ih

/-- A node follows three proposals, and sends its vote for the second to two leaders and in a timeout. -/
def voter (s₀ : State) (x : NodeId) : State :=
  match s₀.run { liveEnv with nodeId := x, localTimeNs := 2 } [proposed block1, proposed block2, .sendVote 2, .timeout 2, proposed block3] with
  | some (.ok s) => s
  | _ => s₀

theorem voter_moves (s₀ : State) (x : NodeId) : ReflTransGen Moves s₀ (voter s₀ x) := by
  unfold voter
  split
  · exact moves_of_run ‹_›
  · exact .refl

theorem voter_reached {s₀ : State} (h : liveStart Scenario.epochManager = .ok s₀) (x : NodeId) : Reached (voter s₀ x) :=
  ⟨_, s₀, ⟨_, _, _, _, s₀, h, rfl⟩, voter_moves s₀ x⟩

def votedQC : QuorumCertificate := qcOf block2.header 2 [0, 1, 2]

theorem voters_run : ∃ s₀, liveStart Scenario.epochManager = .ok s₀ ∧ (voter s₀ 0).out.flatMap votesIn = .replicate 3 votedQC.info ∧
    (voter s₀ 0).finalized = [block1] ∧ (validatorEnv liveEnv s₀).verifyQC votedQC = .ok () ∧
    ∀ sg ∈ votedQC.signatures.sig, sg ∈ (voter s₀ sg.key).out.flatMap Command.signed :=
  ⟨_, rfl, by decide +kernel, by decide +kernel, by decide +kernel, by decide +kernel⟩

theorem one_vote_per_round (h : Reached s) (hv : v ∈ s.out.flatMap votesIn) (hv' : v' ∈ s.out.flatMap votesIn)
    (hround : v.round = v'.round) : v.id = v'.id := by
  obtain ⟨block, hb⟩ := h.votes
  rw [(hb.vote v (.inl hv)).2, (hb.vote v' (.inl hv')).2, hround]

theorem one_vote_per_round_sent : ∃ s v v' v'', Reached s ∧ s.out.flatMap votesIn = [v, v', v''] ∧ v.id = v''.id := by
  obtain ⟨s₀, hstart, hvotes, -⟩ := voters_run
  have h := voter_reached hstart 0
  exact ⟨_, _, _, _, h, hvotes, one_vote_per_round h (hvotes ▸ .head _) (hvotes ▸ .tail _ (.tail _ (.head _))) rfl⟩

/-! ## Finalized blocks -/

theorem Step.finalizes (h : Step env ev s s') : ∃ l, s'.finalized = s.finalized ++ l.reverse ∧
    BlockPath s'.pendingBlockTree.root.blockId l s.pendingBlockTree.root.blockId := by
  rcases h.chain with hsame | ⟨b, -, rfl⟩ | ⟨id, tree, blocks, hco, rfl⟩ | ⟨qc, parent, tree, blocks, -, hprune, hfold⟩
  · rw [hsame.finalized, hsame.tree]
    exact ⟨[], (append_nil _).symm, .nil _⟩
  · refine ⟨[], (append_nil _).symm, ?_⟩
    rw [BlockTree.root_add]
    exact .nil _
  · refine ⟨[], ?_, ?_⟩
    · exact (finalized_append (by simp [Command.finalizes])).trans (append_nil _).symm
    · rw [BlockTree.tryUpdateCoherency_ok hco, (BlockTree.setCoherent_foldl_frame _ _).1]
      exact .nil _
  · obtain ⟨policy, em, acts, rfl, -⟩ := commitBlocks_ok hfold
    have hfin : (s.out ++ blocks.map (Command.commitBlocks .finalized)).filterMap Command.finalizes = s.finalized ++ blocks := by
      simp [State.finalized, filterMap_map, Function.comp_def, Command.finalizes]
    by_cases hroot : parent.getParentId = s.pendingBlockTree.root.blockId
    · rw [hroot, BlockTree.prune_root] at hprune
      cases hprune
      exact ⟨[], hfin, .nil _⟩
    · obtain ⟨e, l, he, hpath, -, rfl, rfl⟩ := (BlockTree.prune_eq_ok hroot).mp hprune
      rw [← s.pendingBlockTree.keyed he] at hpath
      exact ⟨l, hfin, hpath⟩

/-- The blocks finalized in a run, oldest first, lead from the root of the tree before it to the root after it. -/
theorem finalized_chain (h : ReflTransGen Moves s₀ s) : ∃ l, s.finalized = s₀.finalized ++ l.reverse ∧
    BlockPath s.pendingBlockTree.root.blockId l s₀.pendingBlockTree.root.blockId := by
  have hsteps := steps_of_moves h
  clear h
  induction hsteps with
  | refl => exact ⟨[], (append_nil _).symm, .nil _⟩
  | tail _ hstep ih =>
    obtain ⟨env, ev, hstep⟩ := hstep
    obtain ⟨l, hfin, hpath⟩ := ih
    obtain ⟨l', hfin', hpath'⟩ := hstep.finalizes
    refine ⟨l' ++ l, ?_, Linked.append_iff.mpr ⟨_, hpath', hpath⟩⟩
    rw [hfin', hfin, reverse_append, append_assoc]

theorem finalized_chain_first : ∃ s₀ s, ReflTransGen Moves s₀ s ∧ s.finalized = [block1] ∧ ∃ l,
    s.finalized = s₀.finalized ++ l.reverse ∧ BlockPath s.pendingBlockTree.root.blockId l s₀.pendingBlockTree.root.blockId := by
  obtain ⟨s₀, hstart, -, hfin, -⟩ := voters_run
  have hrun := voter_moves s₀ 0
  exact ⟨s₀, _, hrun, hfin, finalized_chain hrun⟩

/-! ## Certificates -/

structure Network where
  validators : ValidatorSet
  byz : Finset NodeId
  bounded : validators.Bounded byz
  node : NodeId → State
  reached : ∀ x ∉ byz, Reached (node x)

/-- A QC that some node accepts, with no signature of an honest node that it did not send. -/
structure Network.Certified (net : Network) (qc : QuorumCertificate) : Prop where
  accepted : ∃ env t, env.valEpochMap.get qc.getEpoch = some net.validators ∧ (validatorEnv env t).verifyQC qc = .ok ()
  sent : ∀ sg ∈ qc.signatures.sig, sg.key ∉ net.byz → sg ∈ (net.node sg.key).out.flatMap Command.signed

/-- An honest signer of a certificate sent the vote in it. -/
theorem Network.Certified.voted {net : Network} {qc : QuorumCertificate} {signers : List NodeId} {x : NodeId}
    (h : net.Certified qc) (hsig : qc.signatures.sig = signers.map (blsSign · (.vote qc.info))) (hx : x ∈ signers)
    (hhonest : x ∉ net.byz) : qc.info ∈ (net.node x).out.flatMap votesIn := by
  obtain ⟨c, hc, hsg⟩ := mem_flatMap.mp (h.sent (blsSign x (.vote qc.info)) (hsig ▸ mem_map_of_mem hx) hhonest)
  exact mem_flatMap.mpr ⟨c, hc, mem_filterMap.mpr ⟨_, hsg, rfl⟩⟩

end MonadBft.State
