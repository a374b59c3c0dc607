/-
  MonadBft.Consensus.SafetyInvariant — what the operations on the safety state keep.

  A safety state is well formed when the tip it keeps is above the certified round
  (`TipFresh`). `Op` has one constructor for each operation of `consensus.Safety`, with the
  merge in both directions (as on restart, where the persisted state is merged over a new one).

  - `apply_le`, `applyAll_le`: no operation lowers a watermark.
  - `apply_tipFresh_iff`: every operation keeps the tip fresh, except that `Merge` keeps the own
    tip even when the other state certifies a later round and has no tip: it keeps it fresh
    exactly when `KeepsTip` holds (`merge_tipFresh_iff`). The same condition, in both
    directions, is what makes `Merge` symmetric (`merge_tipRound_comm_iff`).
  - `run_tipFresh_iff`: so a run keeps the tip fresh if and only if each of its merges meets
    the condition.
-/
import MonadBft.Scenario
import MonadBft.Lib.Steps

namespace MonadBft

open Lib

namespace Safety

/-- The tip that is kept, if any, is above the certified round. -/
def TipFresh (s : Safety) : Prop :=
  ∀ t, s.maybeHighTip = some t → s.highCertificateQcRound < t.blockHeader.blockRound

/-- No watermark of `a` is above that of `b`. -/
structure Le (a b : Safety) : Prop where
  certificate : a.highCertificateQcRound ≤ b.highCertificateQcRound
  vote : a.highestVote ≤ b.highestVote
  noEndorse : a.highestNoEndorse.round ≤ b.highestNoEndorse.round
  propose : a.highestPropose ≤ b.highestPropose
  recoveryRequest : a.highestRecoveryRequest ≤ b.highestRecoveryRequest

theorem Le.refl (a : Safety) : Le a a :=
  ⟨Nat.le_refl _, Nat.le_refl _, Nat.le_refl _, Nat.le_refl _, Nat.le_refl _⟩

theorem Le.trans {a b c : Safety} (h : Le a b) (h' : Le b c) : Le a c :=
  ⟨Nat.le_trans h.certificate h'.certificate, Nat.le_trans h.vote h'.vote,
    Nat.le_trans h.noEndorse h'.noEndorse, Nat.le_trans h.propose h'.propose,
    Nat.le_trans h.recoveryRequest h'.recoveryRequest⟩

def tipRound (s : Safety) : Option Nat := s.maybeHighTip.map fun t => t.blockHeader.blockRound

/-- Merging `b` into `a` leaves no stale tip: if only `a` has a tip, `b` certifies no round
from that of the tip on. -/
def KeepsTip (a b : Safety) : Prop :=
  ∀ t, a.maybeHighTip = some t → b.maybeHighTip = none → b.highCertificateQcRound < t.blockHeader.blockRound

/-! ## Merge -/

variable {a b s s' : Safety}

theorem merge_noEndorse_round (a b : Safety) :
    (a.merge b).highestNoEndorse.round = max a.highestNoEndorse.round b.highestNoEndorse.round := by
  simp only [merge]
  split_ifs with h <;> omega

theorem le_merge_left (a b : Safety) : Le a (a.merge b) where
  certificate := Nat.le_max_left _ _
  vote := Nat.le_max_left _ _
  noEndorse := by
    rw [merge_noEndorse_round]
    exact Nat.le_max_left _ _
  propose := Nat.le_max_left _ _
  recoveryRequest := Nat.le_max_left _ _

theorem le_merge_right (a b : Safety) : Le b (a.merge b) where
  certificate := Nat.le_max_right _ _
  vote := Nat.le_max_right _ _
  noEndorse := by
    rw [merge_noEndorse_round]
    exact Nat.le_max_right _ _
  propose := Nat.le_max_right _ _
  recoveryRequest := Nat.le_max_right _ _

/-- The least state above two states, as far as the watermarks go. -/
theorem merge_le {c : Safety} (ha : Le a c) (hb : Le b c) : Le (a.merge b) c where
  certificate := Nat.max_le.mpr ⟨ha.certificate, hb.certificate⟩
  vote := Nat.max_le.mpr ⟨ha.vote, hb.vote⟩
  noEndorse := by
    rw [merge_noEndorse_round]
    exact Nat.max_le.mpr ⟨ha.noEndorse, hb.noEndorse⟩
  propose := Nat.max_le.mpr ⟨ha.propose, hb.propose⟩
  recoveryRequest := Nat.max_le.mpr ⟨ha.recoveryRequest, hb.recoveryRequest⟩

/-- Which round the merged tip has, between two states that are well formed. -/
theorem merge_tipRound (ha : a.TipFresh) (hb : b.TipFresh) : (a.merge b).tipRound =
      match a.maybeHighTip, b.maybeHighTip with
      | none, none => none
      | some t, none => some t.blockHeader.blockRound
      | none, some u =>
        if a.highCertificateQcRound < u.blockHeader.blockRound then some u.blockHeader.blockRound else none
      | some t, some u => some (max t.blockHeader.blockRound u.blockHeader.blockRound) := by
  cases hat : a.maybeHighTip with
  | none =>
    cases hbt : b.maybeHighTip with
    | none => simp [tipRound, merge, hat, hbt]
    | some u =>
      have hu := hb u hbt
      by_cases h : a.highCertificateQcRound < u.blockHeader.blockRound
      · simp [tipRound, merge, hat, hbt, h, hu]
      · simp [tipRound, merge, hat, hbt, h]
  | some t =>
    have ht := ha t hat
    cases hbt : b.maybeHighTip with
    | none => simp [tipRound, merge, hat, hbt]
    | some u =>
      have hu := hb u hbt
      -- a later tip of the other state is above both certified rounds
      by_cases h : t.blockHeader.blockRound < u.blockHeader.blockRound
      · have hmax : max t.blockHeader.blockRound u.blockHeader.blockRound = u.blockHeader.blockRound := by omega
        have hau : a.highCertificateQcRound < u.blockHeader.blockRound := by omega
        simp [tipRound, merge, hat, hbt, h, hu, hau, hmax]
      · have hmax : max t.blockHeader.blockRound u.blockHeader.blockRound = t.blockHeader.blockRound := by omega
        simp [tipRound, merge, hat, hbt, h, hmax]

theorem tipFresh_iff_tipRound : s.TipFresh ↔ ∀ r, s.tipRound = some r → s.highCertificateQcRound < r := by
  unfold TipFresh tipRound
  constructor
  · intro h r hr
    obtain ⟨t, ht, rfl⟩ := Option.map_eq_some_iff.mp hr
    exact h t ht
  · intro h t ht
    exact h _ (by rw [ht]; rfl)

theorem merge_tipFresh_iff (ha : a.TipFresh) (hb : b.TipFresh) : (a.merge b).TipFresh ↔ KeepsTip a b := by
  rw [tipFresh_iff_tipRound, merge_tipRound ha hb]
  show (∀ r, _ → max a.highCertificateQcRound b.highCertificateQcRound < r) ↔ _
  unfold KeepsTip
  cases hat : a.maybeHighTip with
  | none =>
    cases hbt : b.maybeHighTip with
    | none => simp
    | some u =>
      have hu := hb u hbt
      by_cases h : a.highCertificateQcRound < u.blockHeader.blockRound
      · simp [h, hu]
      · simp [h]
  | some t =>
    have ht := ha t hat
    cases hbt : b.maybeHighTip with
    | none => simp [ht]
    | some u =>
      have hu := hb u hbt
      simp only [Option.some.injEq, forall_eq', reduceCtorEq, IsEmpty.forall_iff, implies_true, iff_true]
      omega

theorem merge_tipRound_comm_iff (ha : a.TipFresh) (hb : b.TipFresh) :
    (a.merge b).tipRound = (b.merge a).tipRound ↔ KeepsTip a b ∧ KeepsTip b a := by
  rw [merge_tipRound ha hb, merge_tipRound hb ha]
  unfold KeepsTip
  cases hat : a.maybeHighTip with
  | none =>
    cases hbt : b.maybeHighTip with
    | none => simp
    | some u =>
      by_cases h : a.highCertificateQcRound < u.blockHeader.blockRound <;> simp [h]
  | some t =>
    cases hbt : b.maybeHighTip with
    | none =>
      by_cases h : b.highCertificateQcRound < t.blockHeader.blockRound <;> simp [h]
    | some u => simp [Nat.max_comm]

/-! ## The operations -/

/-- An operation on a safety state. `restore` takes a snapshot and rehydrates from it;
`mergeFrom o` merges `o` into the state and `mergeInto o` the state into `o`, which is then
the one in use. -/
inductive Op
  | processCertificate (cert : RoundCertificate)
  | vote (round : Nat) (lastRoundTcTip : Option BlockId) (tip : ConsensusTip)
  | noEndorse (round : Nat) (tip : BlockId)
  | timeout (round : Nat)
  | propose (round : Nat)
  | recoveryRequest (round : Nat)
  | handleProposal (round : Nat)
  | restore
  | mergeFrom (o : Safety)
  | mergeInto (o : Safety)

def apply (s : Safety) : Op → Except Panic Safety
  | .processCertificate cert => .ok (s.processCertificate cert)
  | .vote round lastRoundTcTip tip => s.vote round lastRoundTcTip tip
  | .noEndorse round tip => s.noEndorse round tip
  | .timeout round => (s.timeout round).map Prod.snd
  | .propose round => s.propose round
  | .recoveryRequest round => s.recoveryRequest round
  | .handleProposal round => s.handleProposal round
  | .restore => .ok (ofSnapshot s.snapshot)
  | .mergeFrom o => .ok (s.merge o)
  | .mergeInto o => .ok (o.merge s)

/-- The states that are merged satisfy the invariant. -/
def Op.WellFormed : Op → Prop
  | .mergeFrom o => o.TipFresh
  | .mergeInto o => o.TipFresh
  | _ => True

/-- What a merge needs of the two states before it. -/
def Op.Keeps (s : Safety) : Op → Prop
  | .mergeFrom o => KeepsTip s o
  | .mergeInto o => KeepsTip o s
  | _ => True

variable {op : Op} {round : Nat}

theorem handleProposal_ok : s.handleProposal round = .ok s' ↔ round ∉ s.handledProposals ∧ s' = { s with
      handledProposals := (s.handledProposals ++ [round]).drop
        ((s.handledProposals ++ [round]).length - handledProposalCacheSize) } := by
  unfold handleProposal isSafeToHandleProposal
  by_cases h : round ∈ s.handledProposals
  · simp [h]
  · simp [h, eq_comm]

theorem apply_le (h : s.apply op = .ok s') : Le s s' := by
  cases op with
  | processCertificate cert =>
    obtain rfl := Except.ok.inj h
    exact { Le.refl s with certificate := Nat.le_max_left _ _ }
  | vote round tcTip tip =>
    obtain ⟨hsafe, rfl⟩ := vote_ok.mp h
    have hlt := (isSafeToVote_iff.mp hsafe).1
    exact { Le.refl s with vote := Nat.le_of_lt hlt }
  | noEndorse round tip =>
    obtain ⟨hlt, rfl⟩ := noEndorse_ok.mp h
    refine { Le.refl s with noEndorse := ?_ }
    show s.highestNoEndorse.round ≤ round
    omega
  | timeout round =>
    obtain ⟨⟨b, t⟩, ht, rfl⟩ := map_eq_ok.mp h
    obtain ⟨hle, rfl, -⟩ := timeout_ok.mp ht
    exact { Le.refl s with vote := hle }
  | propose round =>
    obtain ⟨hlt, rfl⟩ := propose_ok.mp h
    refine { Le.refl s with propose := ?_ }
    show s.highestPropose ≤ round
    omega
  | recoveryRequest round =>
    obtain ⟨hlt, rfl⟩ := recoveryRequest_ok.mp h
    exact { Le.refl s with recoveryRequest := Nat.le_of_lt hlt }
  | handleProposal round =>
    obtain ⟨-, rfl⟩ := handleProposal_ok.mp h
    exact { Le.refl s with }
  | restore =>
    obtain rfl := Except.ok.inj h
    exact { Le.refl s with }
  | mergeFrom o =>
    obtain rfl := Except.ok.inj h
    exact le_merge_left s o
  | mergeInto o =>
    obtain rfl := Except.ok.inj h
    exact le_merge_right o s

theorem processCertificate_tipFresh (s : Safety) (cert : RoundCertificate) : (s.processCertificate cert).TipFresh := by
  intro t ht
  simp only [processCertificate, Option.filter_eq_some_iff, Bool.not_eq_true', decide_eq_false_iff_not] at ht ⊢
  omega

/-- The operations that leave the tip and the certified round alone. -/
theorem TipFresh.congr (hs : s.TipFresh) (ht : s'.maybeHighTip = s.maybeHighTip)
    (hc : s'.highCertificateQcRound = s.highCertificateQcRound) : s'.TipFresh := by
  intro t h
  rw [hc]
  exact hs t (ht ▸ h)

theorem apply_tipFresh_iff (hs : s.TipFresh) (hop : op.WellFormed) (h : s.apply op = .ok s') :
    s'.TipFresh ↔ op.Keeps s := by
  cases op with
  | processCertificate cert =>
    obtain rfl := Except.ok.inj h
    exact iff_of_true (processCertificate_tipFresh s cert) trivial
  | vote round tcTip tip =>
    obtain ⟨-, rfl⟩ := vote_ok.mp h
    refine iff_of_true ?_ trivial
    intro t ht
    split_ifs at ht with hr
    obtain rfl := Option.some.inj ht
    exact hr
  | noEndorse round tip =>
    obtain ⟨-, rfl⟩ := noEndorse_ok.mp h
    exact iff_of_true (hs.congr rfl rfl) trivial
  | timeout round =>
    obtain ⟨⟨b, t⟩, ht, rfl⟩ := map_eq_ok.mp h
    obtain ⟨-, rfl, -⟩ := timeout_ok.mp ht
    exact iff_of_true (hs.congr rfl rfl) trivial
  | propose round =>
    obtain ⟨-, rfl⟩ := propose_ok.mp h
    exact iff_of_true (hs.congr rfl rfl) trivial
  | recoveryRequest round =>
    obtain ⟨-, rfl⟩ := recoveryRequest_ok.mp h
    exact iff_of_true (hs.congr rfl rfl) trivial
  | handleProposal round =>
    obtain ⟨-, rfl⟩ := handleProposal_ok.mp h
    exact iff_of_true (hs.congr rfl rfl) trivial
  | restore =>
    obtain rfl := Except.ok.inj h
    exact iff_of_true (hs.congr rfl rfl) trivial
  | mergeFrom o =>
    obtain rfl := Except.ok.inj h
    exact merge_tipFresh_iff hs hop
  | mergeInto o =>
    obtain rfl := Except.ok.inj h
    exact merge_tipFresh_iff hop hs

/-! ## Runs -/

variable {ops : List Op}

theorem applyAll_le (h : runAll apply s ops = .ok s') : Le s s' :=
  runAll_rel Le.refl Le.trans apply_le h

theorem run_tipFresh_iff (hs : s.TipFresh) (hops : ∀ op ∈ ops, op.WellFormed) :
    (∀ done s', done <+: ops → runAll apply s done = .ok s' → s'.TipFresh) ↔ Kept apply Op.Keeps s ops :=
  prefix_invariant_iff (fun op hop _ _ hfresh h => apply_tipFresh_iff hfresh (hops op hop) h) hs

theorem newSafety_tipFresh (cert : RoundCertificate) : (newSafety cert none).TipFresh := by
  intro t ht
  cases ht

/-- From a new state without a tip, the tip stays fresh exactly along the runs whose merges
all meet `KeepsTip`, and no watermark ever goes down. Two well formed states have the same
watermarks merged either way, and the same tip round exactly when `KeepsTip` holds both ways. -/
theorem safety_invariant_iff (cert : RoundCertificate) (ops : List Op) (hops : ∀ op ∈ ops, op.WellFormed)
    (a b : Safety) (ha : a.TipFresh) (hb : b.TipFresh) :
    ((∀ done s, done <+: ops → runAll apply (newSafety cert none) done = .ok s → s.TipFresh) ↔
        Kept apply Op.Keeps (newSafety cert none) ops) ∧
      (∀ done more s s', done ++ more <+: ops → runAll apply (newSafety cert none) done = .ok s →
        runAll apply (newSafety cert none) (done ++ more) = .ok s' → Le s s') ∧
      Le (a.merge b) (b.merge a) ∧ Le (b.merge a) (a.merge b) ∧ ((a.merge b).TipFresh ↔ KeepsTip a b) ∧
      ((a.merge b).tipRound = (b.merge a).tipRound ↔ KeepsTip a b ∧ KeepsTip b a) := by
  refine ⟨run_tipFresh_iff (newSafety_tipFresh cert) hops, ?_, ?_, ?_, merge_tipFresh_iff ha hb,
    merge_tipRound_comm_iff ha hb⟩
  · intro done more s s' _ hdone hmore
    rw [runAll_append hdone] at hmore
    exact applyAll_le hmore
  · exact merge_le (le_merge_right b a) (le_merge_left b a)
  · exact merge_le (le_merge_right a b) (le_merge_left a b)

/-! ## A merge that keeps a stale tip -/

section Stale

open Scenario

/-- A node that voted for the block of round 2 and kept it as its tip. -/
def voted : Op := .vote 2 none (tipOf block2.header none)

/-- A state that has seen the certificate of a block in round 7 and has no tip. -/
def ahead : Safety := newSafety (.qc (qcOf block2.header 7 [0, 1, 2])) none

/-- One that has also voted in round 8. -/
def aheadVoted : Safety := { ahead with maybeHighTip := some (tipOf (headerOf 8 (qcOf block2.header 7 [0, 1, 2]) 3) none) }

/-- The node merges a state with a tip of its own, and takes that tip over. -/
theorem safety_invariant_iff_merged : ∃ s s',
    runAll apply (newSafety (.qc GenesisQC) none) [voted] = .ok s ∧ s.tipRound = some 2 ∧
    runAll apply (newSafety (.qc GenesisQC) none) [voted, .mergeFrom aheadVoted] = .ok s' ∧ s'.tipRound = some 8 ∧
    s'.TipFresh ∧ Le s s' ∧ (s.merge aheadVoted).tipRound = (aheadVoted.merge s).tipRound := by
  obtain ⟨s, s', hs, htip, hs', htip', hfresh⟩ : ∃ s s',
      runAll apply (newSafety (.qc GenesisQC) none) [voted] = .ok s ∧ s.tipRound = some 2 ∧
      runAll apply (newSafety (.qc GenesisQC) none) [voted, .mergeFrom aheadVoted] = .ok s' ∧ s'.tipRound = some 8 ∧
      s.TipFresh := by
    refine ⟨_, _, rfl, rfl, rfl, rfl, fun t ht => ?_⟩
    cases ht
    decide
  have hother : aheadVoted.TipFresh := by
    intro t ht
    cases ht
    decide
  have hkeeps : ∀ a : Safety, KeepsTip a aheadVoted := fun _ _ _ hnone => by cases hnone
  obtain ⟨hrun, hle, -, -, -, hcomm⟩ := safety_invariant_iff (.qc GenesisQC) [voted, .mergeFrom aheadVoted]
    (by simp [Op.WellFormed, voted, hother]) s aheadVoted hfresh hother
  refine ⟨s, s', hs, htip, hs', htip', ?_, hle [voted] [.mergeFrom aheadVoted] s s' (List.prefix_refl _) hs hs', ?_⟩
  · exact hrun.mpr (fun _ _ => ⟨trivial, fun _ _ => ⟨hkeeps _, trivial⟩⟩) _ s' (List.prefix_refl _) hs'
  · refine hcomm.mpr ⟨hkeeps s, fun t ht hnone => ?_⟩
    simp [tipRound, hnone] at htip

/-- The node merges a state that has certified round 7: it still has the tip of round 2. Merged
the other way round there is no tip. -/
theorem merge_keeps_stale_tip : ∃ s, runAll apply (newSafety (.qc GenesisQC) none) [voted, .mergeFrom ahead] = .ok s ∧
    s.tipRound = some 2 ∧ s.highCertificateQcRound = 7 ∧
    ∃ s', runAll apply (newSafety (.qc GenesisQC) none) [voted, .mergeInto ahead] = .ok s' ∧ s'.tipRound = none :=
  ⟨_, rfl, rfl, rfl, _, rfl, rfl⟩

end Stale

end Safety

end MonadBft
