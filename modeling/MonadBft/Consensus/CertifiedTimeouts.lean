/-
  MonadBft.Consensus.CertifiedTimeouts — timeout certificates that are built are accepted
  (`NewTimeoutCertificate` against `VerifyTC`).

  The builder groups timeouts by what they sign and keeps the first evidence of the highest
  rank. The verifier tells the groups apart by the two rounds they report, counts every signer
  once, and computes the rank again from the groups.

  Proved: the groups of a set of timeouts list every sender once (`groups_perm`), the verifier's
  loop gets the same signers and the same rank out of them (`verifyTipRounds_ok`), and the
  certificate of validated timeouts is built and accepted exactly if no keys cancel, every
  reported QC is of an earlier round and the set has no more members than a signer map may name
  (`timeoutCertificate_iff`).
-/
import MonadBft.Consensus.TimeoutCert
import MonadBft.Rank

namespace MonadBft

open Lib Signing ValidatorEnv HighExtendRank List

/-! ## Every sender is in one group -/

def groupSigners (groups : List (TimeoutInfo × List (NodeId × BlsSignature))) : List NodeId :=
  groups.flatMap fun g => g.2.map Prod.fst

variable {timeouts : List (NodeId × Timeout)}

theorem mem_groupSigners {x : NodeId} :
    x ∈ groupSigners (groupTimeouts timeouts).entries ↔ x ∈ timeouts.map Prod.fst := by
  simp only [groupSigners, mem_flatMap, mem_map, Prod.exists, exists_and_right, exists_eq_right]
  constructor
  · rintro ⟨ti, sigs, hg, sg, hx⟩
    obtain ⟨rfl, -⟩ := mem_groups.mp hg
    obtain ⟨t, ht, -⟩ := mem_signaturesOn.mp hx
    exact ⟨t, ht⟩
  · rintro ⟨t, ht⟩
    have hx : (x, t.timeoutSignature) ∈ signaturesOn t.tmInfo timeouts := mem_signaturesOn.mpr ⟨t, ht, rfl, rfl⟩
    exact ⟨t.tmInfo, _, mem_groups.mpr ⟨rfl, ne_nil_of_mem hx⟩, _, hx⟩

theorem groupSigners_nodup (hnodup : (timeouts.map Prod.fst).Nodup) :
    (groupSigners (groupTimeouts timeouts).entries).Nodup := by
  refine nodup_flatMap.mpr ⟨?_, ?_⟩
  · rintro ⟨ti, sigs⟩ hg
    obtain ⟨rfl, -⟩ := mem_groups.mp hg
    exact signaturesOn_nodup hnodup ti
  · -- a sender has one timeout, which signs one thing
    have hpair : (groupTimeouts timeouts).entries.Pairwise fun g g' => g.1 ≠ g'.1 :=
      pairwise_map.mp (groupTimeouts timeouts).nodup
    refine hpair.imp_of_mem fun {g g'} hg hg' hne => ?_
    obtain ⟨ti, sigs⟩ := g
    obtain ⟨ti', sigs'⟩ := g'
    obtain ⟨rfl, -⟩ := mem_groups.mp hg
    obtain ⟨rfl, -⟩ := mem_groups.mp hg'
    intro x hx hx'
    obtain ⟨⟨y, sg⟩, hy, rfl⟩ := mem_map.mp hx
    obtain ⟨⟨y', sg'⟩, hy', hyy⟩ := mem_map.mp hx'
    obtain ⟨t, ht, hti, -⟩ := mem_signaturesOn.mp hy
    obtain ⟨t', ht', hti', -⟩ := mem_signaturesOn.mp hy'
    obtain rfl : y' = y := hyy
    have htt : some t = some t' := by
      rw [← (AMap.lookup_eq_some hnodup).mpr ht, (AMap.lookup_eq_some hnodup).mpr ht']
    cases htt
    exact hne (hti.symm.trans hti')

theorem groups_perm (hnodup : (timeouts.map Prod.fst).Nodup) :
    (groupSigners (groupTimeouts timeouts).entries).Perm (timeouts.map Prod.fst) :=
  (perm_ext_iff_of_nodup (groupSigners_nodup hnodup) hnodup).mpr fun _ => mem_groupSigners

/-! ## What is built -/

variable {groups : List (TimeoutInfo × List (NodeId × BlsSignature))}
  {tuples : List HighTipRoundSigColTuple} {env : ValidatorEnv} {validators : ValidatorSet}
  {epoch round : Nat} {seen : List (Nat × Nat)} {nodeIds : List NodeId}

theorem tipRoundsOf_ok {agg : Aggregator} {mapping : List NodeId} (h : tipRoundsOf agg mapping groups = .ok tuples) :
    List.Forall₂ (fun g t => t.highQcRound = g.1.highQcRound ∧ t.highTipRound = g.1.highTipRound ∧
      agg g.2 mapping (.timeout g.1) = .ok t.sigs) groups tuples := by
  induction groups generalizing tuples with
  | nil =>
    cases h
    exact .nil
  | cons g groups ih =>
    obtain ⟨ti, sigs⟩ := g
    obtain ⟨sc, hsc, h⟩ := bind_eq_ok.mp h
    obtain ⟨rest, hrest, h⟩ := bind_eq_ok.mp h
    cases h
    exact .cons ⟨rfl, rfl, hsc⟩ (ih hrest)

/-- The evidence of a certificate is of the highest rank among its timeouts and genesis, and is the
evidence of one of them, or the genesis QC. -/
theorem highestExtend_spec (timeouts : List (NodeId × Timeout)) :
    (∀ tm ∈ timeouts, tm.2.highExtend.asHighExtend.rank ≤ (highestExtend timeouts).rank) ∧
    qc GENESIS_ROUND ≤ (highestExtend timeouts).rank ∧
    (highestExtend timeouts = .qc GenesisQC ∨ ∃ tm ∈ timeouts, tm.2.highExtend.asHighExtend = highestExtend timeouts) := by
  induction timeouts using reverseRecOn with
  | nil => exact ⟨by simp, le_rfl, .inl rfl⟩
  | append_singleton timeouts tm ih =>
    obtain ⟨hle, hgen, hfrom⟩ := ih
    have hsnoc : highestExtend (timeouts ++ [tm]) =
        if tm.2.highExtend.asHighExtend.rank.cmp (highestExtend timeouts).rank = .gt then
          tm.2.highExtend.asHighExtend else highestExtend timeouts := by
      rw [highestExtend, foldl_append]
      rfl
    rw [hsnoc]
    split
    · rename_i hgt
      have hlt := cmp_eq_gt.mp hgt
      refine ⟨fun t ht => ?_, hgen.trans hlt.le, .inr ⟨tm, by simp, rfl⟩⟩
      rcases mem_append.mp ht with ht | ht
      · exact (hle t ht).trans hlt.le
      · rw [mem_singleton.mp ht]
    · rename_i hgt
      have hnlt := not_lt.mp (mt cmp_eq_gt.mpr hgt)
      refine ⟨fun t ht => ?_, hgen, ?_⟩
      · rcases mem_append.mp ht with ht | ht
        · exact hle t ht
        · rwa [mem_singleton.mp ht]
      · exact hfrom.imp_right fun ⟨t, ht, heq⟩ => ⟨t, mem_append_left _ ht, heq⟩

/-! ## What the verifier makes of it -/

structure Verified (env : ValidatorEnv) (validators : ValidatorSet) (epoch round : Nat)
    (g : TimeoutInfo × List (NodeId × BlsSignature)) (t : HighTipRoundSigColTuple) : Prop where
  info : g.1 = ⟨epoch, round, t.highQcRound, t.highTipRound⟩
  below : t.highQcRound < round
  signed : t.sigs.signers.count true ≠ 0
  signers : ∃ signers, env.verifySigs t.sigs validators (.timeout g.1) = .ok signers ∧ signers.Perm (g.2.map Prod.fst)

theorem Verified.rank {g : TimeoutInfo × List (NodeId × BlsSignature)} {t : HighTipRoundSigColTuple}
    (h : Verified env validators epoch round g t) : t.rank = g.1.rank := by
  rw [h.info]
  rfl

theorem exists_tuple {α β : Type} {R : α → β → Prop} {as : List α} {bs : List β} (h : List.Forall₂ R as bs) {a : α}
    (ha : a ∈ as) : ∃ b ∈ bs, R a b := by
  induction h with
  | nil => cases ha
  | @cons a' b' as bs hab _ ih =>
    rcases mem_cons.mp ha with rfl | ha
    · exact ⟨b', .head _, hab⟩
    · obtain ⟨b, hb, hR⟩ := ih ha
      exact ⟨b, .tail b' hb, hR⟩

theorem forall₂_imp_mem {α β : Type} {R R' : α → β → Prop} {as : List α} {bs : List β} (h : List.Forall₂ R as bs)
    (himp : ∀ a ∈ as, ∀ b, R a b → R' a b) : List.Forall₂ R' as bs := by
  induction h with
  | nil => exact .nil
  | @cons a b as bs hab _ ih =>
    exact .cons (himp a (.head _) b hab) (ih fun a' ha' => himp a' (.tail a ha'))

theorem flatMap_perm
    {f : HighTipRoundSigColTuple → List NodeId} (h : List.Forall₂ (fun g t => (f t).Perm (g.2.map Prod.fst)) groups tuples) :
    (tuples.flatMap f).Perm (groupSigners groups) := by
  induction h with
  | nil => exact .refl _
  | cons hgt _ ih => exact hgt.append ih

/-- The loop of `VerifyTC` accepts the tuples of distinct groups with distinct signers: it returns
the signers and the highest rank. -/
theorem verifyTipRounds_ok (h : List.Forall₂ (Verified env validators epoch round) groups tuples)
    (hkeys : (groups.map Prod.fst).Nodup) (hseen : ∀ g ∈ groups, (g.1.highQcRound, g.1.highTipRound) ∉ seen)
    (hnodes : (nodeIds ++ groupSigners groups).Nodup) (highest : HighExtendRank) :
    ∃ ids highest', env.verifyTipRounds validators epoch round tuples seen nodeIds highest = .ok (ids, highest') ∧
      ids.Perm (nodeIds ++ groupSigners groups) ∧ highest ≤ highest' ∧ (∀ g ∈ groups, g.1.rank ≤ highest') ∧
      (highest' = highest ∨ ∃ g ∈ groups, highest' = g.1.rank) := by
  induction h generalizing seen nodeIds highest with
  | nil => exact ⟨nodeIds, highest, rfl, by simp [groupSigners], le_rfl, by simp, .inl rfl⟩
  | @cons g t groups tuples hgt hrest ih =>
    obtain ⟨signers, hsig, hperm⟩ := hgt.signers
    have hinfo := hgt.info
    have hfresh : (t.highQcRound, t.highTipRound) ∉ seen := by
      have hs := hseen g (.head _)
      rwa [hinfo] at hs
    have hcons : groupSigners (g :: groups) = g.2.map Prod.fst ++ groupSigners groups := rfl
    have hnew : ¬(signers.any nodeIds.contains) = true := by
      simp only [any_eq_true, not_exists, not_and]
      intro x hx hin
      rw [hcons, nodup_append] at hnodes
      exact hnodes.2.2 x (by simpa using hin) x (mem_append_left _ (hperm.subset hx)) rfl
    -- the groups after this one report other rounds
    have hseen' : ∀ g' ∈ groups, (g'.1.highQcRound, g'.1.highTipRound) ∉ (t.highQcRound, t.highTipRound) :: seen := by
      intro g' hg' hin
      rcases mem_cons.mp hin with heq | hin
      · obtain ⟨t', -, hgt'⟩ := exists_tuple hrest hg'
        have hinfo' := hgt'.info
        have hg : g'.1 = g.1 := by
          rw [hinfo'] at heq ⊢
          rw [hinfo]
          simp only [Prod.mk.injEq] at heq
          rw [heq.1, heq.2]
        have hnot := (nodup_cons.mp hkeys).1
        exact hnot (hg ▸ mem_map_of_mem hg')
      · exact hseen g' (.tail g hg') hin
    have hnodes' : (nodeIds ++ signers ++ groupSigners groups).Nodup := by
      have hp : (nodeIds ++ signers ++ groupSigners groups).Perm (nodeIds ++ groupSigners (g :: groups)) := by
        rw [hcons, append_assoc]
        exact (hperm.append_right _).append_left _
      exact hp.nodup_iff.mpr hnodes
    obtain ⟨ids, highest', hloop, hids, hle, hranks, hfrom⟩ := ih (nodup_cons.mp hkeys).2 hseen' hnodes'
      (if t.rank.cmp highest = .gt then t.rank else highest)
    have hmax : highest ≤ (if t.rank.cmp highest = .gt then t.rank else highest) ∧
        t.rank ≤ (if t.rank.cmp highest = .gt then t.rank else highest) := by
      split
      · rename_i hgt'
        exact ⟨(cmp_eq_gt.mp hgt').le, le_rfl⟩
      · rename_i hgt'
        exact ⟨le_rfl, not_lt.mp (mt cmp_eq_gt.mpr hgt')⟩
    refine ⟨ids, highest', ?_, ?_, hmax.1.trans hle, ?_, ?_⟩
    · rw [hinfo] at hsig
      unfold verifyTipRounds
      rw [require_bind _ (by simpa using hgt.below), require_bind _ (by simpa using hfresh),
        require_bind _ hgt.signed, hsig, ok_bind, require_bind _ hnew]
      exact hloop
    · rw [hcons, ← append_assoc]
      exact hids.trans ((hperm.append_left _).append_right _)
    · intro g' hg'
      rcases mem_cons.mp hg' with rfl | hg'
      · rw [← hgt.rank]
        exact hmax.2.trans hle
      · exact hranks g' hg'
    · rcases hfrom with hfrom | ⟨g', hg', hfrom⟩
      · rw [hfrom]
        split
        · exact .inr ⟨g, .head _, hgt.rank⟩
        · exact .inl rfl
      · exact .inr ⟨g', .tail g hg', hfrom⟩

/-- What is accepted reports QCs of earlier rounds, in collections that verify. -/
theorem verifyTipRounds_sound {highest : HighExtendRank} {r : List NodeId × HighExtendRank}
    (h : env.verifyTipRounds validators epoch round tuples seen nodeIds highest = .ok r) :
    ∀ t ∈ tuples, t.highQcRound < round ∧
      ∃ signers, env.verifySigs t.sigs validators (.timeout ⟨epoch, round, t.highQcRound, t.highTipRound⟩) = .ok signers := by
  induction tuples generalizing seen nodeIds highest with
  | nil => simp
  | cons t tuples ih =>
    unfold verifyTipRounds at h
    obtain ⟨⟨⟩, hqc, h⟩ := bind_eq_ok.mp h
    obtain ⟨⟨⟩, -, h⟩ := bind_eq_ok.mp h
    obtain ⟨⟨⟩, -, h⟩ := bind_eq_ok.mp h
    obtain ⟨signers, hsig, h⟩ := bind_eq_ok.mp h
    obtain ⟨⟨⟩, -, h⟩ := bind_eq_ok.mp h
    exact forall_mem_cons.mpr ⟨⟨not_le.mp (require_eq_ok.mp hqc), signers, hsig⟩, ih h⟩

/-! ## Timeouts of one round -/

/-- Timeouts of `round`, one for each of some members who hold a supermajority, each validated and
properly signed. -/
structure RoundTimeouts {K S : Type} [AddCommGroup K] [AddCommGroup S] [DecidableEq K] [DecidableEq S]
    (b : Signing K S) (env : ValidatorEnv) (validators : ValidatorSet) (round : Nat) (pending : AMap NodeId Timeout) :
    Prop where
  round : ∀ tm ∈ pending.entries, tm.2.tmInfo.round = round
  validated : ∀ tm ∈ pending.entries, ∃ currentRound timeout, env.validateTimeout currentRound timeout = .ok tm.2
  signed : ∀ tm ∈ pending.entries, b.validTimeout tm
  members : ∀ x ∈ pending.keys, x ∈ validators.members
  supermajority : validators.hasSuperMajorityVotes pending.keys = .ok true

namespace RoundTimeouts

variable {K S : Type} [AddCommGroup K] [AddCommGroup S] [DecidableEq K] [DecidableEq S] {b : Signing K S}
variable {env : ValidatorEnv} {validators : ValidatorSet} {epoch round : Nat} {pending : AMap NodeId Timeout}
  {order : List NodeId} {leader : NodeId}

theorem pick_nodup (order : List NodeId) : ((pick order pending).map Prod.fst).Nodup :=
  ((pick_perm order pending).map Prod.fst).nodup_iff.mpr pending.nodup

variable {ti : TimeoutInfo} {tc : TimeoutCertificate} {sc : SigCol}

/-- A group is aggregated exactly if its keys do not cancel. -/
theorem group_new (hne : signaturesOn ti (pick order pending) ≠ [])
    (hnew : b.new (signaturesOn ti (pick order pending)) validators.members (.timeout ti) = .ok sc) :
    sc = SigCol.ofMap validators.members
        ⟨signaturesOn ti (pick order pending), signaturesOn_nodup (pick_nodup order) ti⟩ ∧
      b.aggregateVerifies (.timeout ti)
        ⟨signaturesOn ti (pick order pending), signaturesOn_nodup (pick_nodup order) ti⟩ := by
  have hne' : (⟨signaturesOn ti (pick order pending), signaturesOn_nodup (pick_nodup order) ti⟩ :
      AMap NodeId BlsSignature).entries ≠ [] := hne
  obtain ⟨-, hsc, hagg⟩ := b.new_ok hne' hnew
  exact ⟨hsc, hagg⟩

theorem tuples_of_built
    (hbuilt : newTimeoutCertificateWith b.new epoch round (pick order pending) validators.members = .ok tc) :
    List.Forall₂ (fun g t => t.highQcRound = g.1.highQcRound ∧ t.highTipRound = g.1.highTipRound ∧
      b.new g.2 validators.members (.timeout g.1) = .ok t.sigs) (groupTimeouts (pick order pending)).entries tc.tipRounds ∧
    tc = ⟨epoch, round, tc.tipRounds, highestExtend (pick order pending)⟩ := by
  obtain ⟨tuples, htuples, heq⟩ := bind_eq_ok.mp hbuilt
  cases heq
  exact ⟨tipRoundsOf_ok htuples, rfl⟩

theorem length_groups_le (h : ∀ g ∈ groups, g.2 ≠ []) : groups.length ≤ (groupSigners groups).length := by
  induction groups with
  | nil => simp
  | cons g groups ih =>
    have hg := length_pos_of_ne_nil (h g (.head _))
    have hrest := ih fun g' hg' => h g' (.tail g hg')
    simp only [groupSigners, flatMap_cons, length_append, length_map, length_cons] at hrest ⊢
    omega

theorem pick_keys_perm (order : List NodeId) : (groupSigners (groupTimeouts (pick order pending)).entries).Perm pending.keys :=
  (groups_perm (pick_nodup order)).trans ((pick_perm order pending).map Prod.fst)

variable (h : RoundTimeouts b env validators round pending) {tm : NodeId × Timeout}
  (hset : env.epochToValidators epoch round = .ok (validators, leader))

include h

theorem entries_ne_nil : pending.entries ≠ [] := by
  intro hnil
  have hstake := (ValidatorSet.hasThresholdVotes_ok.mp h.supermajority).2
  simp [AMap.keys, hnil, ValidatorSet.threshold] at hstake

include hset in
/-- What is validated: the epoch is that of the round, the evidence verifies, and its rank is the one
that is signed. -/
theorem validated_spec (htm : tm ∈ pending.entries) :
    tm.2.tmInfo = ⟨epoch, round, tm.2.tmInfo.highQcRound, tm.2.tmInfo.highTipRound⟩ ∧
      env.verifyHighExtend tm.2.highExtend.asHighExtend = .ok () ∧
      tm.2.highExtend.asHighExtend.rank = tm.2.tmInfo.rank := by
  obtain ⟨currentRound, t₀, ht₀⟩ := h.validated tm htm
  obtain ⟨hwf, hep, heq, hhe⟩ := validateTimeout_ok ht₀
  have hinfo : tm.2.tmInfo = t₀.tmInfo ∧ tm.2.highExtend = t₀.highExtend := by
    rw [heq]
    split <;> exact ⟨rfl, rfl⟩
  have hround := h.round tm htm
  have hget : env.epochManager.getEpoch round = some epoch := by
    by_contra hne
    rw [epochToValidators, if_pos hne] at hset
    cases hset
  have hepoch : tm.2.tmInfo.epoch = epoch := by
    unfold verifyEpoch at hep
    split at hep
    · rename_i he
      rw [← hinfo.1, hround, hget] at he
      exact (Option.some.inj he).symm
    · cases hep
  refine ⟨?_, by rw [hinfo.2]; exact hhe, ?_⟩
  · rw [← hround, ← hepoch]
  · unfold wellFormedTimeout at hwf
    split at hwf
    · cases hwf
    · rename_i hcmp
      rw [hinfo.1, hinfo.2]
      exact cmp_eq_eq.mp (not_not.mp hcmp)

theorem group_members :
    ∀ x ∈ (⟨signaturesOn ti (pick order pending), signaturesOn_nodup (pick_nodup order) ti⟩ :
      AMap NodeId BlsSignature).keys, x ∈ validators.members := by
  intro x hx
  obtain ⟨⟨y, sg⟩, hy, rfl⟩ := mem_map.mp hx
  obtain ⟨t, ht, -⟩ := mem_signaturesOn.mp hy
  exact h.members _ (mem_map_of_mem ((pick_perm order pending).subset ht))

/-- A certificate is built only if no keys cancel. -/
theorem noCancel_of_built
    (hbuilt : newTimeoutCertificateWith b.new epoch round (pick order pending) validators.members = .ok tc) :
    b.NoCancel pending.entries := by
  refine Signing.NoCancel.perm (pick_perm order pending).symm fun tm htm _ => ?_
  have hall : ∀ t ∈ pick order pending, t.2.tmInfo = tm.2.tmInfo → b.validTimeout t :=
    fun t ht _ => h.signed t ((pick_perm order pending).subset ht)
  have hmem : (tm.1, tm.2.timeoutSignature) ∈ signaturesOn tm.2.tmInfo (pick order pending) :=
    mem_signaturesOn.mpr ⟨tm.2, htm, rfl, rfl⟩
  have hne := ne_nil_of_mem hmem
  obtain ⟨t, -, -, -, hnew⟩ := exists_tuple (tuples_of_built hbuilt).1 (mem_groups.mpr ⟨rfl, hne⟩)
  have hagg := (group_new hne hnew).2
  rw [validWith_eq hall, map_map]
  exact (b.scheme.verify_iff.mp hagg).1

theorem built_of_noCancel (hcancel : b.NoCancel pending.entries) :
    ∃ tc, newTimeoutCertificateWith b.new epoch round (pick order pending) validators.members = .ok tc := by
  have hperm := pick_perm order pending
  cases hnew : newTimeoutCertificateWith b.new epoch round (pick order pending) validators.members with
  | ok tc => exact ⟨tc, rfl⟩
  | error err =>
    -- an error would blame somebody, and everybody signed
    obtain ⟨bad, rfl⟩ := newTimeoutCertificate_error (pick_nodup order)
      (fun tm htm => h.members _ (mem_map_of_mem (hperm.subset htm))) (hcancel.perm hperm) hnew
    obtain ⟨hne, hbad⟩ := newTimeoutCertificate_blames hnew
    obtain ⟨x, hx⟩ := exists_mem_of_ne_nil _ hne
    obtain ⟨t, ht, hinv⟩ := hbad x hx
    rw [h.signed _ (hperm.subset ht)] at hinv
    cases hinv

theorem signers_of_group (hne : signaturesOn ti (pick order pending) ≠ [])
    (hnew : b.new (signaturesOn ti (pick order pending)) validators.members (.timeout ti) = .ok sc) :
    (SigCol.signersOf validators.members sc.signers).Perm ((signaturesOn ti (pick order pending)).map Prod.fst) := by
  obtain ⟨rfl, -⟩ := group_new hne hnew
  rw [SigCol.ofMap, signersOf_map]
  exact signers_perm ValidatorSet.members_nodup h.group_members

include hset

/-- The evidence that is kept is that of a timeout, so it verifies. -/
theorem highestExtend_mem (order : List NodeId) :
    ∃ tm ∈ pending.entries, tm.2.highExtend.asHighExtend = highestExtend (pick order pending) := by
  have hperm := pick_perm order pending
  obtain ⟨hle, -, hgen | ⟨tm, htm, heq⟩⟩ := highestExtend_spec (pick order pending)
  · -- everybody reports genesis
    obtain ⟨tm, htm⟩ := exists_mem_of_ne_nil _ h.entries_ne_nil
    obtain ⟨-, hver, hrank⟩ := h.validated_spec hset htm
    have hlow := hle tm (hperm.symm.subset htm)
    rw [hgen] at hlow
    refine ⟨tm, htm, ?_⟩
    rw [hgen]
    cases he : tm.2.highExtend.asHighExtend with
    | tip tip =>
      rw [he] at hlow hrank
      simp only [HighExtend.rank, tip_le_qc] at hlow hrank
      unfold TimeoutInfo.rank at hrank
      split at hrank
      · cases hrank
      · rename_i hne
        have htip := (HighExtendRank.tip.inj hrank).1
        exact absurd (htip.symm.trans (Nat.le_zero.mp hlow)) hne
    | qc qc =>
      rw [he] at hlow hver
      have hzero : qc.getRound = GENESIS_ROUND := Nat.le_zero.mp (qc_le_qc.mp hlow)
      obtain ⟨⟨vs, l⟩, -, hqc⟩ := bind_eq_ok.mp hver
      dsimp only at hqc
      rw [if_pos hzero] at hqc
      rw [require_eq_ok.mp hqc]
  · exact ⟨tm, hperm.subset htm, heq⟩

theorem rank_of_group (order : List NodeId) (htm : tm ∈ pending.entries) :
    ∃ g ∈ (groupTimeouts (pick order pending)).entries, g.1.rank = tm.2.highExtend.asHighExtend.rank := by
  have hmem : (tm.1, tm.2.timeoutSignature) ∈ signaturesOn tm.2.tmInfo (pick order pending) :=
    mem_signaturesOn.mpr ⟨tm.2, (pick_perm order pending).symm.subset htm, rfl, rfl⟩
  exact ⟨(tm.2.tmInfo, _), mem_groups.mpr ⟨rfl, ne_nil_of_mem hmem⟩, (h.validated_spec hset htm).2.2.symm⟩

variable (hsig : env.verifySigCol = b.verifyCol) (hbelow : ∀ tm ∈ pending.entries, tm.2.tmInfo.highQcRound < round)
  (hlen : validators.members.length ≤ MaxSignersLen)
  (hbuilt : newTimeoutCertificateWith b.new epoch round (pick order pending) validators.members = .ok tc)

include hsig hbelow hlen hbuilt

theorem verified_groups :
    List.Forall₂ (Verified env validators epoch round) (groupTimeouts (pick order pending)).entries tc.tipRounds := by
  refine forall₂_imp_mem (tuples_of_built hbuilt).1 ?_
  rintro ⟨ti, sigs⟩ hg t ⟨hqc, htip, hnew⟩
  obtain ⟨rfl, hne⟩ := mem_groups.mp hg
  obtain ⟨⟨x, sg⟩, hx⟩ := exists_mem_of_ne_nil _ hne
  obtain ⟨tm, htm, hti, -⟩ := mem_signaturesOn.mp hx
  have hpend := (pick_perm order pending).subset htm
  have hinfo := (h.validated_spec hset hpend).1
  have hperm := h.signers_of_group hne hnew
  have hver : b.verifyCol t.sigs validators.members (.timeout ti) =
      .ok (SigCol.signersOf validators.members t.sigs.signers) := by
    obtain ⟨hsc, hagg⟩ := group_new hne hnew
    have hcol := b.verifyCol_ofMap ValidatorSet.members_nodup h.group_members hagg
    rw [if_neg (by omega), ← hsc] at hcol
    rw [hcol, hsc, SigCol.ofMap, signersOf_map]
  refine ⟨?_, ?_, ?_, _, ?_, hperm⟩
  · subst hti
    rw [hqc, htip]
    exact hinfo
  · rw [hqc]
    subst hti
    exact hbelow _ hpend
  · -- a signer of the group is named
    intro hzero
    have hnot : true ∉ t.sigs.signers := count_eq_zero.mp hzero
    have hnil : SigCol.signersOf validators.members t.sigs.signers = [] := by
      unfold SigCol.signersOf
      rw [map_eq_nil_iff, filter_eq_nil_iff]
      rintro ⟨y, bit⟩ hy hbit
      exact hnot (hbit ▸ (of_mem_zip hy).2)
    rw [hnil] at hperm
    have hx' := hperm.symm.subset (mem_map_of_mem hx)
    cases hx'
  · unfold verifySigs
    rw [hsig, hver]

/-- `VerifyTC` accepts what is built. -/
theorem accepted : env.verifyTC tc = .ok () := by
  have hgroups := h.verified_groups hset hsig hbelow hlen hbuilt
  have hkeys : (groupSigners (groupTimeouts (pick order pending)).entries).Perm pending.keys := pick_keys_perm order
  have hfew : ¬tc.tipRounds.length > validators.members.length := by
    have hfull : ∀ g ∈ (groupTimeouts (pick order pending)).entries, g.2 ≠ [] := fun g hg => (mem_groups.mp hg).2
    have h₁ := length_groups_le hfull
    have h₂ := (pending.nodup.subperm h.members).length_le
    have h₃ := hkeys.length_eq
    rw [← hgroups.length_eq]
    simp only [AMap.keys] at h₃
    omega
  have hdistinct : ([] ++ groupSigners (groupTimeouts (pick order pending)).entries).Nodup := by
    simpa using groupSigners_nodup (pick_nodup order)
  obtain ⟨ids, highest, hloop, hids, hgen, hranks, hfrom⟩ := verifyTipRounds_ok hgroups
    (groupTimeouts (pick order pending)).nodup (fun _ _ => not_mem_nil) hdistinct (.qc GENESIS_ROUND)
  have hidkeys : ids.Perm pending.keys := by simpa using hids.trans hkeys
  have hsuper : validators.hasSuperMajorityVotes ids = .ok true :=
    ValidatorSet.hasThresholdVotes_congr (hidkeys.nodup_iff.mpr pending.nodup) (fun x => hidkeys.mem_iff) h.supermajority
  obtain ⟨tm, htm, heq⟩ := h.highestExtend_mem hset order
  obtain ⟨hle, hgen', -⟩ := highestExtend_spec (pick order pending)
  have hrank : (highestExtend (pick order pending)).rank = highest := by
    apply le_antisymm
    · obtain ⟨g, hg, hgr⟩ := h.rank_of_group hset order htm
      rw [← heq, ← hgr]
      exact hranks g hg
    · rcases hfrom with rfl | ⟨⟨ti, sigs⟩, hg, rfl⟩
      · exact hgen'
      · obtain ⟨rfl, hne⟩ := mem_groups.mp hg
        obtain ⟨⟨x, sg⟩, hx⟩ := exists_mem_of_ne_nil _ hne
        obtain ⟨t, ht, rfl, -⟩ := mem_signaturesOn.mp hx
        have hr := (h.validated_spec hset ((pick_perm order pending).subset ht)).2.2
        exact hr ▸ hle _ ht
  rw [(tuples_of_built hbuilt).2] at hfew hloop ⊢
  unfold verifyTC verifyTCWith
  rw [hset, ok_bind]
  dsimp only
  rw [require_bind _ hfew, hloop, ok_bind]
  rw [checkSuperMajority, hsuper]
  rw [ok_bind, ← heq, (h.validated_spec hset htm).2.1, ok_bind, heq, hrank]
  exact require_eq_ok.mpr (cmp_eq_eq.mpr rfl)

end RoundTimeouts

section Main

variable {K S : Type} [AddCommGroup K] [AddCommGroup S] [DecidableEq K] [DecidableEq S]

/-- The certificate of validated timeouts of a supermajority, read in any order, is built and accepted
exactly if no keys cancel, every reported QC is of an earlier round, and the set is not too large. What
is built has the highest rank among the timeouts, whatever the order, and names every sender once. -/
theorem timeoutCertificate_iff (b : Signing K S) (em : EpochManager) (vals : ValidatorsEpochMapping)
    (getLeader : Nat → ValidatorSet → NodeId) {validators : ValidatorSet} {leader : NodeId} {epoch round : Nat}
    {pending : AMap NodeId Timeout} (order : List NodeId)
    (hset : (b.validatorEnv em vals getLeader).epochToValidators epoch round = .ok (validators, leader))
    (h : RoundTimeouts b (b.validatorEnv em vals getLeader) validators round pending) :
    ((∃ tc, newTimeoutCertificateWith b.new epoch round (pick order pending) validators.members = .ok tc ∧
        (b.validatorEnv em vals getLeader).verifyTC tc = .ok ()) ↔
      b.NoCancel pending.entries ∧ (∀ tm ∈ pending.entries, tm.2.tmInfo.highQcRound < round) ∧
        validators.members.length ≤ MaxSignersLen) ∧
    ∀ tc, newTimeoutCertificateWith b.new epoch round (pick order pending) validators.members = .ok tc →
      (∀ tm ∈ pending.entries, tm.2.highExtend.asHighExtend.rank ≤ tc.highExtend.rank) ∧
      (∃ tm ∈ pending.entries, tm.2.highExtend.asHighExtend = tc.highExtend) ∧
      (tc.tipRounds.flatMap fun t => SigCol.signersOf validators.members t.sigs.signers).Perm pending.keys ∧
      ∀ order' tc', newTimeoutCertificateWith b.new epoch round (pick order' pending) validators.members = .ok tc' →
        tc'.highExtend.rank = tc.highExtend.rank := by
  -- the rank of what is built is the highest, for every order
  have hmax : ∀ order tc, newTimeoutCertificateWith b.new epoch round (pick order pending) validators.members = .ok tc →
      (∀ tm ∈ pending.entries, tm.2.highExtend.asHighExtend.rank ≤ tc.highExtend.rank) ∧
      ∃ tm ∈ pending.entries, tm.2.highExtend.asHighExtend = tc.highExtend := by
    intro order tc hbuilt
    rw [(RoundTimeouts.tuples_of_built hbuilt).2]
    refine ⟨fun tm htm => ?_, h.highestExtend_mem hset order⟩
    exact (highestExtend_spec _).1 tm ((pick_perm order pending).symm.subset htm)
  refine ⟨⟨?_, ?_⟩, fun tc hbuilt => ?_⟩
  · rintro ⟨tc, hbuilt, hver⟩
    have htuples := (RoundTimeouts.tuples_of_built hbuilt).1
    -- each timeout is in a group, and each group's tuple was accepted
    have hgroup : ∀ tm ∈ pending.entries, tm.2.tmInfo.highQcRound < round ∧ validators.members.length ≤ MaxSignersLen := by
      intro tm htm
      have hmem : (tm.1, tm.2.timeoutSignature) ∈ signaturesOn tm.2.tmInfo (pick order pending) :=
        Signing.mem_signaturesOn.mpr ⟨tm.2, (pick_perm order pending).symm.subset htm, rfl, rfl⟩
      have hne := List.ne_nil_of_mem hmem
      obtain ⟨t, ht, hqc, htip, hnew⟩ := exists_tuple htuples (mem_groups.mpr ⟨rfl, hne⟩)
      rw [(RoundTimeouts.tuples_of_built hbuilt).2] at hver
      obtain ⟨⟨vs, l⟩, hvs, hver⟩ := bind_eq_ok.mp hver
      rw [hset] at hvs
      cases hvs
      obtain ⟨⟨⟩, -, hver⟩ := bind_eq_ok.mp hver
      obtain ⟨r, hloop, -⟩ := bind_eq_ok.mp hver
      obtain ⟨hbelow, signers, hsig⟩ := verifyTipRounds_sound hloop t ht
      refine ⟨hqc ▸ hbelow, ?_⟩
      by_contra hlarge
      obtain ⟨hsc, hagg⟩ := RoundTimeouts.group_new hne hnew
      have hcol := b.verifyCol_ofMap ValidatorSet.members_nodup h.group_members hagg
      rw [if_pos (by omega), ← hsc] at hcol
      have hinfo : (⟨epoch, round, t.highQcRound, t.highTipRound⟩ : TimeoutInfo) = tm.2.tmInfo := by
        rw [hqc, htip]
        exact (h.validated_spec hset htm).1.symm
      rw [hinfo] at hsig
      unfold ValidatorEnv.verifySigs at hsig
      have hcol' : (b.validatorEnv em vals getLeader).verifySigCol t.sigs validators.members (.timeout tm.2.tmInfo) =
          .error .signersLenExceeded := hcol
      rw [hcol'] at hsig
      cases hsig
    obtain ⟨tm, htm⟩ := List.exists_mem_of_ne_nil _ h.entries_ne_nil
    exact ⟨h.noCancel_of_built hbuilt, fun tm htm => (hgroup tm htm).1, (hgroup tm htm).2⟩
  · rintro ⟨hcancel, hbelow, hlen⟩
    obtain ⟨tc, hbuilt⟩ := h.built_of_noCancel hcancel
    exact ⟨tc, hbuilt, h.accepted hset rfl hbelow hlen hbuilt⟩
  · obtain ⟨hle, tm, htm, heq⟩ := hmax order tc hbuilt
    refine ⟨hle, ⟨tm, htm, heq⟩, ?_, fun order' tc' hbuilt' => ?_⟩
    · refine List.Perm.trans ?_ (RoundTimeouts.pick_keys_perm order)
      have hsigners : List.Forall₂ (fun g t => (SigCol.signersOf validators.members t.sigs.signers).Perm (g.2.map Prod.fst))
          (groupTimeouts (pick order pending)).entries tc.tipRounds := by
        refine forall₂_imp_mem (RoundTimeouts.tuples_of_built hbuilt).1 ?_
        rintro ⟨ti, sigs⟩ hg t ⟨-, -, hnew⟩
        obtain ⟨rfl, hne⟩ := mem_groups.mp hg
        exact h.signers_of_group hne hnew
      exact flatMap_perm hsigners
    · obtain ⟨hle', tm', htm', heq'⟩ := hmax order' tc' hbuilt'
      exact le_antisymm (heq' ▸ hle tm' htm') (heq ▸ hle' tm htm)

end Main

/-! ## A certificate that is not built -/

open Scenario

/-- The validation of the seven validators. -/
def sevenVals : ValidatorsEpochMapping := ⟨[(1, seven)], List.nodup_singleton 1⟩

/-- The pending timeouts of a node that got those of two with cancelling keys and of three others. -/
def pendingCancelling : AMap NodeId Timeout := ⟨cancelling, by decide⟩

def pendingHonest : AMap NodeId Timeout :=
  ⟨[(0, reportsGenesis 0), (1, reportsGenesis 1), (2, reportsBlock 2), (3, reportsBlock 3), (4, reportsBlock 4)], by decide⟩

/-- Five validated and properly signed timeouts with a supermajority, and no certificate. -/
theorem cancelling_not_certified :
    RoundTimeouts signing (signing.validatorEnv epochManager sevenVals fun round _ => round % 7) seven 1 pendingCancelling ∧
      newTimeoutCertificateWith signing.new 1 1 (pick [] pendingCancelling) seven.members = .error .invalidSignatures := by
  refine ⟨⟨by decide +kernel, fun tm htm => ⟨1, tm.2, ?_⟩, by decide +kernel, by decide +kernel, by decide +kernel⟩,
    by decide +kernel⟩
  revert tm
  decide +kernel

theorem timeoutCertificate_iff_honest :
    ∃ tc, newTimeoutCertificateWith signing.new 1 1 (pick [3, 0] pendingHonest) seven.members = .ok tc ∧
      (signing.validatorEnv epochManager sevenVals fun round _ => round % 7).verifyTC tc = .ok () := by
  have h : RoundTimeouts signing (signing.validatorEnv epochManager sevenVals fun round _ => round % 7) seven 1
      pendingHonest := by
    refine ⟨by decide +kernel, fun tm htm => ⟨1, tm.2, ?_⟩, by decide +kernel, by decide +kernel, by decide +kernel⟩
    revert tm
    decide +kernel
  refine (timeoutCertificate_iff signing epochManager sevenVals (fun round _ => round % 7) [3, 0] rfl h).1.mpr ⟨?_, ?_, ?_⟩
  · decide +kernel
  · decide +kernel
  · decide +kernel

end MonadBft
