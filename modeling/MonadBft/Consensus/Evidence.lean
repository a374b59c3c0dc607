/-
  MonadBft.Consensus.Evidence — the evidence a node reports in its timeouts.

  A node that times out reports the tip it last voted for, or else the QC inside the
  certificate that opened its round (`Pacemaker.timeoutExtend`). The second one need not
  be the highest QC the node has processed: a timeout certificate formed by others may
  carry an older one. The watermarks keep the round of the highest QC
  (`highCertificateQcRound`), but not the QC.

  A run is judged by its votes, the certificates it processed and its reports. `Record` is what
  the first two add up to; a round is `Outdated` if it was opened by a certificate with an older QC
  than one processed before, and no voted tip is newer than all of them.

  Proved, for every sequence of pacemaker calls, votes and other watermark updates from
  a start or a restart: what is reported never ranks below the highest processed QC, and
  never below what was reported before without a vote in between, exactly when no timeout
  is sent in an outdated round (`neverRegresses_iff`). In one the report does fall back
  (`timeout_reports_older_qc`).
-/
import MonadBft.Rank
import MonadBft.Scenario

namespace MonadBft.Evidence

open Lib Pacemaker

/-! ## Calls -/

inductive Call where
  | processCertificate (em : EpochManager) (cert : RoundCertificate)
  | processLocalTimeout
  | processRemoteTimeout (em : EpochManager) (validators : ValidatorSet) (order : List NodeId)
      (author : NodeId) (timeout : Timeout)
  | vote (round : Nat) (lastRoundTcTip : Option BlockId) (tip : ConsensusTip)
  | noEndorse (round : Nat) (tip : BlockId)
  | propose (round : Nat)
  | recoveryRequest (round : Nat)
  | handleProposal (round : Nat)

def call (cfg : Config) (p : Pacemaker) (s : Safety) : Call → Except Panic (Pacemaker × Safety × List PacemakerCommand)
  | .processCertificate em cert => p.processCertificate cfg em s cert
  | .processLocalTimeout => p.processLocalTimeout cfg s
  | .processRemoteTimeout em validators order author timeout =>
    p.processRemoteTimeout cfg em validators order s author timeout
  | .vote round tcTip tip => (s.vote round tcTip tip).map (p, ·, [])
  | .noEndorse round tip => (s.noEndorse round tip).map (p, ·, [])
  | .propose round => (s.propose round).map (p, ·, [])
  | .recoveryRequest round => (s.recoveryRequest round).map (p, ·, [])
  | .handleProposal round => (s.handleProposal round).map (p, ·, [])

/-- What a run is judged by: the votes, the certificates that opened a round, and the evidence of
each `CmdPrepareTimeout`. -/
inductive Ev where
  | vote (tip : ConsensusTip)
  | enter (cert : RoundCertificate)
  | emit (highExtend : HighExtend)

def emitted : PacemakerCommand → Option Ev
  | .enterRound _ _ cert => some (.enter cert)
  | .prepareTimeout _ he _ _ => some (.emit he)
  | _ => none

def events (cmds : List PacemakerCommand) : Call → List Ev
  | .vote _ _ tip => [.vote tip]
  | _ => cmds.filterMap emitted

def run (cfg : Config) : List Call → Pacemaker → Safety → Except Panic (Pacemaker × Safety × List Ev)
  | [], p, s => .ok (p, s, [])
  | c :: cs, p, s => do
    let (p₁, s₁, cmds) ← call cfg p s c
    let (p₂, s₂, evs) ← run cfg cs p₁ s₁
    return (p₂, s₂, events cmds c ++ evs)

/-! ## What a node has processed -/

/-- The round of the QC in the certificate that opened the current round, those of the certificates
processed before, and the tip of the last vote. -/
structure Record where
  opened : Nat
  earlier : List Nat
  tip : Option ConsensusTip

namespace Record

variable (r : Record)

def add : Ev → Record
  | .vote tip => { r with tip := some tip }
  | .enter cert => { r with opened := cert.getQC.getRound, earlier := r.opened :: r.earlier }
  | .emit _ => r

def after (evs : List Ev) : Record := evs.foldl add r

/-- The highest QC processed. -/
def highest : Nat := max r.opened (r.earlier.foldr max 0)

/-- The voted tip, if it is newer than all QCs processed. -/
def freshTip : Option ConsensusTip := r.tip.filter fun t => r.highest < t.blockHeader.blockRound

/-- The certificate that opened the round has an older QC than one processed before, and there is no
newer tip. -/
def Outdated : Prop := r.freshTip = none ∧ ∃ q ∈ r.earlier, r.opened < q

/-- The rank of what a node reports. -/
def report : HighExtendRank :=
  match r.freshTip with
  | some t => .tip t.blockHeader.blockRound t.blockHeader.qc.getRound
  | none => .qc r.opened

/-- The rank of the best evidence a node has seen. -/
def best : HighExtendRank :=
  match r.freshTip with
  | some t => .tip t.blockHeader.blockRound t.blockHeader.qc.getRound
  | none => .qc r.highest

end Record

/-- Reports never fall: not below an earlier one without a vote in between, and not below
the highest QC processed so far. -/
structure NeverRegresses (start : Record) (evs : List Ev) : Prop where
  monotone : ∀ pre he mid he' post, evs = pre ++ .emit he :: (mid ++ .emit he' :: post) →
    (∀ tip, .vote tip ∉ mid) → he.rank ≤ he'.rank
  floor : ∀ pre he post, evs = pre ++ .emit he :: post → HighExtendRank.qc (start.after pre).highest ≤ he.rank

/-- Every report is that of the record it is made with. -/
def Reports : Record → List Ev → Prop
  | _, [] => True
  | r, e :: evs => (∀ he, e = .emit he → he.rank = r.report) ∧ Reports (r.add e) evs

section Records

variable {r : Record} {evs pre post : List Ev} {he : HighExtend}

namespace Record

theorem after_append : r.after (pre ++ evs) = (r.after pre).after evs := List.foldl_append

theorem outdated_iff : r.Outdated ↔ r.freshTip = none ∧ r.opened < r.highest := by
  have hmax : ∀ l : List Nat, r.opened < l.foldr max 0 ↔ ∃ q ∈ l, r.opened < q := by
    intro l
    induction l with
    | nil => simp
    | cons q l ih => simp [ih]
  rw [Outdated, highest, lt_max_iff, hmax]
  simp

theorem floor_le_best : HighExtendRank.qc r.highest ≤ r.best := by
  unfold best
  cases ht : r.freshTip with
  | none => simp
  | some t =>
    obtain ⟨-, hlt⟩ := Option.filter_eq_some_iff.mp ht
    simpa using hlt

theorem report_eq (h : ¬r.Outdated) : r.report = r.best := by
  unfold report best
  cases ht : r.freshTip with
  | some t => rfl
  | none =>
    have hle : r.highest ≤ r.opened := not_lt.mp fun hlt => h (outdated_iff.mpr ⟨ht, hlt⟩)
    have hge : r.opened ≤ r.highest := le_max_left _ _
    simp [le_antisymm hge hle]

/-- The best evidence grows with a certificate. -/
theorem best_enter (cert : RoundCertificate) : r.best ≤ (r.add (.enter cert)).best := by
  have hmax : (r.add (.enter cert)).highest = max cert.getQC.getRound r.highest := rfl
  unfold best freshTip
  rw [hmax]
  cases htip : r.tip with
  | none => simp [add, htip]
  | some t =>
    by_cases hnew : max cert.getQC.getRound r.highest < t.blockHeader.blockRound
    · have hold : r.highest < t.blockHeader.blockRound := lt_of_le_of_lt (le_max_right _ _) hnew
      simp [add, htip, Option.filter, hnew, hold]
    · by_cases hold : r.highest < t.blockHeader.blockRound
      · have hle := le_max_iff.mp (not_lt.mp hnew)
        simpa [add, htip, Option.filter, hnew, hold] using hle
      · simp [add, htip, Option.filter, hnew, hold]

theorem best_after (hvote : ∀ tip, .vote tip ∉ evs) : r.best ≤ (r.after evs).best := by
  induction evs generalizing r with
  | nil => exact le_rfl
  | cons e evs ih =>
    have hrest := ih (r := r.add e) fun tip hm => hvote tip (.tail _ hm)
    cases e with
    | vote tip => exact absurd (.head _) (hvote tip)
    | enter cert => exact (best_enter cert).trans hrest
    | emit he => exact hrest

end Record

theorem Reports.of_append (h : Reports r (pre ++ evs)) : Reports (r.after pre) evs := by
  induction pre generalizing r with
  | nil => exact h
  | cons e pre ih => exact ih h.2

theorem Reports.append (h : Reports r pre) (h' : Reports (r.after pre) evs) : Reports r (pre ++ evs) := by
  induction pre generalizing r with
  | nil => exact h'
  | cons e pre ih => exact ⟨h.1, ih h.2 h'⟩

theorem Reports.rank_eq (h : Reports r (pre ++ .emit he :: post)) : he.rank = (r.after pre).report := h.of_append.1 he rfl

/-- Reports fall exactly in outdated rounds. -/
theorem Reports.never_iff_not_outdated (h : Reports r evs) : NeverRegresses r evs ↔
    ∀ pre he post, evs = pre ++ .emit he :: post → ¬(r.after pre).Outdated := by
  constructor
  · rintro hn pre he post rfl hout
    have hfloor := hn.floor pre he post rfl
    obtain ⟨htip, hlt⟩ := Record.outdated_iff.mp hout
    rw [h.rank_eq, Record.report, htip, HighExtendRank.qc_le_qc] at hfloor
    omega
  · intro hcur
    have hrank : ∀ {pre he post}, evs = pre ++ .emit he :: post → he.rank = (r.after pre).best := by
      rintro pre he post rfl
      rw [h.rank_eq, Record.report_eq (hcur pre he post rfl)]
    refine ⟨?_, ?_⟩
    · intro pre he mid he' post hev hmid
      have hev' : evs = (pre ++ .emit he :: mid) ++ .emit he' :: post := by simp [hev]
      rw [hrank hev, hrank hev', Record.after_append]
      have hvote : ∀ tip, .vote tip ∉ (.emit he :: mid : List Ev) := by simpa using hmid
      exact Record.best_after hvote
    · intro pre he post hev
      rw [hrank hev]
      exact Record.floor_le_best

end Records

/-! ## The record of a run -/

/-- The pacemaker and the watermarks hold what the record says. -/
structure Tracks (p : Pacemaker) (s : Safety) (r : Record) : Prop where
  opened : p.highCertificate.getQC.getRound = r.opened
  highest : s.highCertificateQcRound = r.highest
  tip : s.maybeHighTip = r.freshTip

variable {cfg : Config} {p p' : Pacemaker} {s s' : Safety} {r : Record}

/-- Operations that touch neither the certificate nor the evidence. -/
theorem Tracks.of_eq (h : Tracks p s r) (hcert : p'.highCertificate = p.highCertificate)
    (htip : s'.maybeHighTip = s.maybeHighTip) (hqc : s'.highCertificateQcRound = s.highCertificateQcRound) :
    Tracks p' s' r :=
  ⟨hcert ▸ h.opened, hqc.trans h.highest, htip.trans h.tip⟩

theorem Tracks.enter (h : Tracks p s r) (cert : RoundCertificate) (epoch : Nat) :
    Tracks (entered epoch cert) (s.processCertificate cert) (r.add (.enter cert)) := by
  have hmax : (r.add (.enter cert)).highest = max cert.getQC.getRound r.highest := rfl
  refine ⟨rfl, ?_, ?_⟩
  · rw [hmax, max_comm, ← h.highest]
    rfl
  · unfold Safety.processCertificate Record.freshTip
    rw [hmax, h.tip, h.highest, Record.freshTip]
    cases htip : r.tip with
    | none => simp [Record.add, htip]
    | some t =>
      by_cases hnew : max cert.getQC.getRound r.highest < t.blockHeader.blockRound
      · simp [Record.add, htip, Option.filter, hnew, (max_lt_iff.mp hnew).2, (max_lt_iff.mp hnew).1]
      · by_cases hold : r.highest < t.blockHeader.blockRound
        · have hle := (le_max_iff.mp (not_lt.mp hnew)).resolve_right (not_le.mpr hold)
          simpa [Record.add, htip, Option.filter, hnew, hold] using hle
        · simp [Record.add, htip, Option.filter, hnew, hold]

theorem Tracks.report (h : Tracks p s r) : (p.timeoutExtend s).rank = r.report := by
  unfold timeoutExtend Record.report
  rw [h.tip]
  cases r.freshTip with
  | none => rw [← h.opened]; rfl
  | some t => rfl

variable {em : EpochManager} {cmds out : List PacemakerCommand} {c : Call} {cs : List Call} {evs : List Ev}

theorem tracks_step {x y : Pacemaker × Safety} (h : Pacemaker.Step cfg em (fun _ => True) (fun _ _ => True) x out y)
    (hx : Tracks x.1 x.2 r) : Tracks y.1 y.2 (r.after (out.filterMap emitted)) ∧ Reports r (out.filterMap emitted) := by
  cases h with
  | record | drop | phase => exact ⟨hx.of_eq rfl rfl rfl, trivial⟩
  | timeout p s => exact ⟨hx.of_eq rfl rfl rfl, fun he heq => Ev.emit.inj heq ▸ hx.report, trivial⟩
  | enter p s cert epoch => exact ⟨hx.enter cert epoch, nofun, trivial⟩
  | form p s _ _ _ tc epoch => exact ⟨hx.enter (.tc tc) epoch, nofun, trivial⟩

theorem tracks_run {x y : Pacemaker × Safety}
    (h : Run (Pacemaker.Step cfg em (fun _ => True) (fun _ _ => True)) x out y) (hx : Tracks x.1 x.2 r) :
    Tracks y.1 y.2 (r.after (out.filterMap emitted)) ∧ Reports r (out.filterMap emitted) := by
  induction h generalizing r with
  | nil x => exact ⟨hx, trivial⟩
  | cons hstep _ ih =>
    obtain ⟨hmid, hrep⟩ := tracks_step hstep hx
    obtain ⟨hend, hrep'⟩ := ih hmid
    rw [List.filterMap_append]
    exact ⟨Record.after_append ▸ hend, hrep.append hrep'⟩

theorem safetyOnly {x : Except Panic Safety}
    (h : x.map (p, ·, []) = .ok (p', s', cmds)) : p' = p ∧ cmds = [] ∧ x = .ok s' := by
  obtain ⟨t, hx, heq⟩ := map_eq_ok.mp h
  cases heq
  exact ⟨rfl, rfl, hx⟩

theorem tracks_call (h : call cfg p s c = .ok (p', s', cmds)) (hp : Tracks p s r) :
    Tracks p' s' (r.after (events cmds c)) ∧ Reports r (events cmds c) := by
  cases c with
  | processCertificate em cert => exact tracks_run (processCertificate_run trivial h) hp
  | processLocalTimeout =>
    -- the timer reads no epoch
    exact tracks_run (processLocalTimeout_run (m := ⟨0, 0, []⟩) h) hp
  | processRemoteTimeout em validators order author timeout => exact tracks_run (processRemoteTimeout_run trivial h) hp
  | vote round tcTip tip =>
    obtain ⟨rfl, rfl, hv⟩ := safetyOnly h
    obtain ⟨-, rfl⟩ := Safety.vote_ok.mp hv
    refine ⟨⟨hp.opened, hp.highest, ?_⟩, nofun, trivial⟩
    have hhigh : (r.add (.vote tip)).highest = r.highest := rfl
    show (if tip.blockHeader.blockRound > s.highCertificateQcRound then some tip else none) = (r.add (.vote tip)).freshTip
    rw [hp.highest, Record.freshTip, hhigh]
    simp [Record.add, Option.filter]
  | noEndorse round tip =>
    obtain ⟨rfl, rfl, hv⟩ := safetyOnly h
    obtain ⟨-, rfl⟩ := Safety.noEndorse_ok.mp hv
    exact ⟨hp.of_eq rfl rfl rfl, trivial⟩
  | propose round =>
    obtain ⟨rfl, rfl, hv⟩ := safetyOnly h
    obtain ⟨-, rfl⟩ := Safety.propose_ok.mp hv
    exact ⟨hp.of_eq rfl rfl rfl, trivial⟩
  | recoveryRequest round =>
    obtain ⟨rfl, rfl, hv⟩ := safetyOnly h
    obtain ⟨-, rfl⟩ := Safety.recoveryRequest_ok.mp hv
    exact ⟨hp.of_eq rfl rfl rfl, trivial⟩
  | handleProposal round =>
    obtain ⟨rfl, rfl, hv⟩ := safetyOnly h
    unfold Safety.handleProposal at hv
    split at hv
    · cases hv
    · cases hv
      exact ⟨hp.of_eq rfl rfl rfl, trivial⟩

theorem tracks_calls (h : run cfg cs p s = .ok (p', s', evs)) (hp : Tracks p s r) :
    Tracks p' s' (r.after evs) ∧ Reports r evs := by
  induction cs generalizing p s r evs with
  | nil =>
    cases h
    exact ⟨hp, trivial⟩
  | cons c cs ih =>
    obtain ⟨⟨p₁, s₁, cmds⟩, hcall, hrest⟩ := bind_eq_ok.mp h
    obtain ⟨⟨p₂, s₂, evs₁⟩, hrun, hlast⟩ := bind_eq_ok.mp hrest
    cases hlast
    obtain ⟨hmid, hrep⟩ := tracks_call hcall hp
    obtain ⟨hend, hrep'⟩ := ih hrun hmid
    exact ⟨Record.after_append ▸ hend, hrep.append hrep'⟩

/-! ## Starts -/

/-- The watermarks a node starts with: from the certificate of its forkpoint, merged with
a durable snapshot if there is one. -/
def startSafety (highCertificate : RoundCertificate) (snapshot : Option SafetySnapshot) : Safety :=
  match snapshot with
  | none => newSafety highCertificate none
  | some snap => (newSafety highCertificate none).merge (.ofSnapshot snap)

/-- The snapshot stands for the QCs processed and the tip voted for before the restart. -/
def startRecord (highCertificate : RoundCertificate) (snapshot : Option SafetySnapshot) : Record where
  opened := highCertificate.getQC.getRound
  earlier := (snapshot.map (·.highCertificateQcRound)).toList
  tip := snapshot.bind (·.maybeHighTip)

theorem tracks_start {hc : RoundCertificate} {snapshot : Option SafetySnapshot} (hp : new em hc = .ok p) :
    Tracks p (startSafety hc snapshot) (startRecord hc snapshot) := by
  have hcert : p.highCertificate = hc := by
    unfold new at hp
    split at hp
    · cases hp
    · cases hp
      rfl
  refine ⟨by rw [hcert]; rfl, ?_, ?_⟩
  · cases snapshot with
    | none => simp [startSafety, newSafety, startRecord, Record.highest]
    | some snap => simp [startSafety, newSafety, Safety.merge, Safety.ofSnapshot, startRecord, Record.highest]
  · cases snapshot with
    | none => rfl
    | some snap =>
      cases htip : snap.maybeHighTip with
      | none => simp [startSafety, newSafety, Safety.merge, Safety.ofSnapshot, startRecord, Record.freshTip, htip]
      | some t =>
        simp [startSafety, newSafety, Safety.merge, Safety.ofSnapshot, startRecord, Record.freshTip, Record.highest, htip,
          Option.filter]

/-- Exactly when no timeout is sent in an outdated round do the reports of a run never fall. The round
that the watermarks keep is that of the highest QC processed. -/
theorem neverRegresses_iff {em : EpochManager} {hc : RoundCertificate} {snapshot : Option SafetySnapshot}
    (hp : Pacemaker.new em hc = .ok p) {cs : List Call}
    (h : run cfg cs p (startSafety hc snapshot) = .ok (p', s', evs)) :
    (NeverRegresses (startRecord hc snapshot) evs ↔
      ∀ pre he post, evs = pre ++ .emit he :: post → ¬((startRecord hc snapshot).after pre).Outdated) ∧
    s'.highCertificateQcRound = ((startRecord hc snapshot).after evs).highest := by
  obtain ⟨hend, hreports⟩ := tracks_calls h (tracks_start hp)
  exact ⟨hreports.never_iff_not_outdated, hend.highest⟩

/-! ## A report that falls back

Validators 0, 1 and 3 vote for the block of round 1, and the node under test sees their
certificate. Validators 1, 2 and 3 then time out of round 2; none of them has seen that
certificate, so 1 and 3 report the block as their tip and 2 reports genesis. -/

open Scenario

def exampleConfig : Config := ⟨1, fun _ => 1, 100, 1⟩

def block1 : ConsensusBlockHeader := headerOf 1 GenesisQC 1

def qc1 : QuorumCertificate := qcOf block1 1 [0, 1, 3]

def tc2 : TimeoutCertificate :=
  ⟨1, 2, [reported 2 0 1 [1, 3], reported 2 0 0 [2]], .tip (tipOf block1 none)⟩

/-- The node enters round 2 on the QC and times out of it, then enters round 3 on the TC and
times out of it. -/
def olderQcRun : List Call :=
  [.processCertificate epochManager (.qc qc1), .processLocalTimeout,
   .processCertificate epochManager (.tc tc2), .processLocalTimeout]

/-- Both certificates are accepted; the node first reports the QC of round 1 and then, though
it has processed that QC and has not voted since, the genesis QC. -/
theorem timeout_reports_older_qc : env.verifyQC qc1 = .ok () ∧ env.verifyTC tc2 = .ok () ∧
    ∃ p p' s', Pacemaker.new epochManager (.qc GenesisQC) = .ok p ∧
      run exampleConfig olderQcRun p (startSafety (.qc GenesisQC) none) =
        .ok (p', s', [.enter (.qc qc1), .emit (.qc qc1), .enter (.tc tc2), .emit (.qc GenesisQC)]) ∧
      s'.highCertificateQcRound = 1 ∧ ¬NeverRegresses (startRecord (.qc GenesisQC) none)
        [.enter (.qc qc1), .emit (.qc qc1), .enter (.tc tc2), .emit (.qc GenesisQC)] := by
  refine ⟨by decide +kernel, by decide +kernel, _, _, _, rfl, rfl, rfl, ?_⟩
  intro h
  have hle := h.monotone [.enter (.qc qc1)] _ [.enter (.tc tc2)] _ [] rfl (by simp)
  exact absurd hle (by decide +kernel)

/-- The same run with a vote for a block of round 3 before the second timeout. -/
def votedRun : List Call :=
  olderQcRun.take 3 ++ [.vote 3 none (tipOf (headerOf 3 qc1 2) none), .processLocalTimeout]

/-- The block is reported, though the TC that opened the round has an older QC. -/
theorem neverRegresses_after_vote : ∃ p p' s' evs, Pacemaker.new epochManager (.qc GenesisQC) = .ok p ∧
      run exampleConfig votedRun p (startSafety (.qc GenesisQC) none) = .ok (p', s', evs) ∧
      evs.length = 5 ∧ NeverRegresses (startRecord (.qc GenesisQC) none) evs := by
  have hp : Pacemaker.new epochManager (.qc GenesisQC) = .ok (Pacemaker.entered 1 (.qc GenesisQC)) := rfl
  obtain ⟨p', s', hrun⟩ : ∃ p' s', run exampleConfig votedRun (Pacemaker.entered 1 (.qc GenesisQC))
      (startSafety (.qc GenesisQC) none) = .ok (p', s', [.enter (.qc qc1), .emit (.qc qc1), .enter (.tc tc2),
        .vote (tipOf (headerOf 3 qc1 2) none), .emit (.tip (tipOf (headerOf 3 qc1 2) none))]) := ⟨_, _, rfl⟩
  refine ⟨_, p', s', _, hp, hrun, rfl, (neverRegresses_iff hp hrun).1.mpr fun pre he post hev => ?_⟩
  rw [Record.outdated_iff]
  rcases pre with _ | ⟨_, _ | ⟨_, _ | ⟨_, _ | ⟨_, _ | ⟨_, pre⟩⟩⟩⟩⟩ <;> simp at hev
  · obtain ⟨rfl, -⟩ := hev
    decide
  · obtain ⟨rfl, rfl, rfl, rfl, -⟩ := hev
    decide

end MonadBft.Evidence
