/-
  MonadBft.Consensus.TimeoutCert — what `NewTimeoutCertificate` does with the timeouts of a round.

  The timeouts are grouped by what they sign, and each group is aggregated by itself. A group
  may then consist of few signers, and where each of them signed but their keys add up to zero
  there is no certificate and nobody to blame (`Signing.NoCancel` excludes that).

  Proved: the groups are the timeouts by what they sign, whatever the order (`groupTimeouts_get`,
  `pick_perm`); without cancelling keys the only error is one that blames senders of bad
  signatures (`newTimeoutCertificate_error`); the loop around it ends (`tryFormTCLoop_ends`), bars
  only senders of bad signatures (`tryFormTC_barred`) and, without cancelling keys, does not
  panic (`tryFormTC_total`).
-/
import MonadBft.Consensus.Aggregation
import MonadBft.Scenario
import Mathlib.Data.ZMod.Basic

namespace MonadBft

open Lib List

/-! ## Groups and orders -/

def signaturesOn (ti : TimeoutInfo) (timeouts : List (NodeId × Timeout)) : List (NodeId × BlsSignature) :=
  (timeouts.filter fun tm => decide (tm.2.tmInfo = ti)).map fun tm => (tm.1, tm.2.timeoutSignature)

theorem groupTimeouts_get (timeouts : List (NodeId × Timeout)) (ti : TimeoutInfo) : (groupTimeouts timeouts).get ti =
      if signaturesOn ti timeouts = [] then none else some (signaturesOn ti timeouts) := by
  induction timeouts using reverseRecOn with
  | nil => simp [groupTimeouts, signaturesOn]
  | append_singleton timeouts tm ih =>
    have hsnoc : groupTimeouts (timeouts ++ [tm]) = (groupTimeouts timeouts).insert tm.2.tmInfo
        (((groupTimeouts timeouts).get tm.2.tmInfo).getD [] ++ [(tm.1, tm.2.timeoutSignature)]) := by
      simp [groupTimeouts]
    rw [hsnoc, AMap.get_insert]
    by_cases hti : ti = tm.2.tmInfo
    · subst hti
      have hgroup : signaturesOn tm.2.tmInfo (timeouts ++ [tm]) =
          signaturesOn tm.2.tmInfo timeouts ++ [(tm.1, tm.2.timeoutSignature)] := by
        simp [signaturesOn]
      rw [ih, hgroup]
      by_cases hnil : signaturesOn tm.2.tmInfo timeouts = [] <;> simp [hnil]
    · have hsame : signaturesOn ti (timeouts ++ [tm]) = signaturesOn ti timeouts := by
        simp [signaturesOn, Ne.symm hti]
      rw [if_neg hti, ih, hsame]

variable {timeouts : List (NodeId × Timeout)} {ti : TimeoutInfo} {α : Type}

theorem mem_groups {sigs : List (NodeId × BlsSignature)} :
    (ti, sigs) ∈ (groupTimeouts timeouts).entries ↔ sigs = signaturesOn ti timeouts ∧ sigs ≠ [] := by
  rw [← AMap.get_eq_some, groupTimeouts_get]
  by_cases hnil : signaturesOn ti timeouts = []
  · simp only [hnil, if_true]
    constructor
    · intro h
      cases h
    · rintro ⟨rfl, hne⟩
      exact absurd rfl hne
  · simp only [hnil, if_false, Option.some.injEq]
    constructor
    · rintro rfl
      exact ⟨rfl, hnil⟩
    · rintro ⟨rfl, -⟩
      rfl

theorem nodup_eraseDups [BEq α] [LawfulBEq α] (l : List α) : l.eraseDups.Nodup := by
  induction hn : l.length using Nat.strong_induction_on generalizing l with
  | _ n ih =>
    cases l with
    | nil => simp
    | cons a l =>
      rw [eraseDups_cons, nodup_cons]
      have hle := length_filter_le (fun b => !b == a) l
      refine ⟨by simp [mem_eraseDups], ih _ ?_ _ rfl⟩
      simp only [length_cons] at hn
      omega

theorem pick_perm (order : List NodeId) (m : AMap NodeId α) : (pick order m).Perm m.entries := by
  have hnodup : m.entries.Nodup := List.Nodup.of_map Prod.fst m.nodup
  have hfirst : (order.eraseDups.filterMap fun id => (m.get id).map (id, ·)).Nodup := by
    refine (nodup_eraseDups order).filterMap fun a a' e ha ha' => ?_
    obtain ⟨v, -, rfl⟩ := Option.map_eq_some_iff.mp ha
    obtain ⟨v', -, hv'⟩ := Option.map_eq_some_iff.mp ha'
    exact (congrArg Prod.fst hv').symm
  have hmem : ∀ k v, (k, v) ∈ (order.eraseDups.filterMap fun id => (m.get id).map (id, ·)) ↔
      k ∈ order ∧ (k, v) ∈ m.entries := by
    intro k v
    rw [mem_filterMap, ← AMap.get_eq_some]
    constructor
    · rintro ⟨id, hid, h⟩
      obtain ⟨w, hw, heq⟩ := Option.map_eq_some_iff.mp h
      cases heq
      exact ⟨mem_eraseDups.mp hid, hw⟩
    · rintro ⟨hk, hget⟩
      exact ⟨k, mem_eraseDups.mpr hk, by simp [hget]⟩
  refine (perm_ext_iff_of_nodup ?_ hnodup).mpr ?_
  · refine nodup_append.mpr ⟨hfirst, hnodup.filter _, ?_⟩
    rintro ⟨k, v⟩ hkv e he rfl
    have hk := ((hmem k v).mp hkv).1
    simp [hk] at he
  · rintro ⟨k, v⟩
    rw [pick, mem_append, hmem, mem_filter]
    by_cases hk : k ∈ order <;> simp [hk]

variable {mapping bad : List NodeId} {agg : Aggregator} {err : SigColErr} {x : NodeId} {epoch round : Nat}

theorem tipRoundsOf_error {groups : List (TimeoutInfo × List (NodeId × BlsSignature))}
    (h : tipRoundsOf agg mapping groups = .error err) :
    ∃ ti sigs, (ti, sigs) ∈ groups ∧ agg sigs mapping (.timeout ti) = .error err := by
  induction groups with
  | nil => cases h
  | cons g groups ih =>
    obtain ⟨ti, sigs⟩ := g
    rcases bind_eq_error.mp h with h | ⟨sc, -, h⟩
    · exact ⟨ti, sigs, .head _, h⟩
    rcases bind_eq_error.mp h with h | ⟨rest, -, h⟩
    · obtain ⟨ti', sigs', hmem, herr⟩ := ih h
      exact ⟨ti', sigs', .tail _ hmem, herr⟩
    · cases h

theorem newTimeoutCertificate_group_error
    (h : newTimeoutCertificateWith agg epoch round timeouts mapping = .error err) :
    ∃ ti, signaturesOn ti timeouts ≠ [] ∧ agg (signaturesOn ti timeouts) mapping (.timeout ti) = .error err := by
  rcases bind_eq_error.mp h with h | ⟨tr, -, h⟩
  · obtain ⟨ti, sigs, hmem, herr⟩ := tipRoundsOf_error h
    obtain ⟨rfl, hne⟩ := mem_groups.mp hmem
    exact ⟨ti, hne, herr⟩
  · cases h

/-! ## Cancelling keys -/

namespace Signing

variable {K S : Type} [AddCommGroup K] [AddCommGroup S] [DecidableEq K] [DecidableEq S]
variable (b : Signing K S)

def validTimeout (tm : NodeId × Timeout) : Bool := b.valid (.timeout tm.2.tmInfo) tm.1 tm.2.timeoutSignature

/-- The senders with a valid signature on what `tm` signs. -/
def validWith (tm : NodeId × Timeout) (timeouts : List (NodeId × Timeout)) : List NodeId :=
  (timeouts.filter fun t => decide (t.2.tmInfo = tm.2.tmInfo) && b.validTimeout t).map Prod.fst

/-- In no group do the keys of those who really signed add up to zero. -/
def NoCancel (timeouts : List (NodeId × Timeout)) : Prop :=
  ∀ tm ∈ timeouts, b.validTimeout tm → ((b.validWith tm timeouts).map b.pubKey).sum ≠ 0

instance (timeouts : List (NodeId × Timeout)) : Decidable (b.NoCancel timeouts) :=
  inferInstanceAs (Decidable (∀ tm ∈ timeouts, b.validTimeout tm → ((b.validWith tm timeouts).map b.pubKey).sum ≠ 0))

variable {b} {timeouts timeouts' : List (NodeId × Timeout)} {mapping : List NodeId} {err : SigColErr}

theorem NoCancel.perm (hp : timeouts.Perm timeouts') (h : b.NoCancel timeouts') : b.NoCancel timeouts := by
  intro tm htm hvalid
  have hsum := h tm (hp.subset htm) hvalid
  rwa [validWith, (((hp.filter _).map Prod.fst).map b.pubKey).sum_eq]

/-- Dropping timeouts with bad signatures makes no keys cancel. -/
theorem NoCancel.filter {keep : NodeId × Timeout → Bool} (h : b.NoCancel timeouts)
    (hkeep : ∀ tm ∈ timeouts, b.validTimeout tm → keep tm) : b.NoCancel (timeouts.filter keep) := by
  intro tm htm hvalid
  have hsum := h tm (mem_filter.mp htm).1 hvalid
  have hsame : b.validWith tm (timeouts.filter keep) = b.validWith tm timeouts := by
    unfold validWith
    rw [filter_filter]
    congr 1
    refine filter_congr fun t ht => ?_
    cases hv : b.validTimeout t with
    | false => simp
    | true => simp [hkeep t ht hv]
  rwa [hsame]

theorem mem_signaturesOn {sg : BlsSignature} :
    (x, sg) ∈ signaturesOn ti timeouts ↔ ∃ t, (x, t) ∈ timeouts ∧ t.tmInfo = ti ∧ t.timeoutSignature = sg := by
  simp only [signaturesOn, mem_map, mem_filter, decide_eq_true_eq, Prod.mk.injEq]
  constructor
  · rintro ⟨tm, ⟨htm, hti⟩, rfl, hsg⟩
    exact ⟨tm.2, htm, hti, hsg⟩
  · rintro ⟨t, ht, hti, hsg⟩
    exact ⟨(x, t), ⟨ht, hti⟩, rfl, hsg⟩

/-- Where all signatures on what `tm` signs are valid, these are the signers of the group. -/
theorem validWith_eq {tm : NodeId × Timeout} (hall : ∀ t ∈ timeouts, t.2.tmInfo = tm.2.tmInfo → b.validTimeout t) :
    b.validWith tm timeouts = (signaturesOn tm.2.tmInfo timeouts).map Prod.fst := by
  have hfilter : (timeouts.filter fun t => decide (t.2.tmInfo = tm.2.tmInfo) && b.validTimeout t) =
      timeouts.filter fun t => decide (t.2.tmInfo = tm.2.tmInfo) := by
    refine filter_congr fun t ht => ?_
    by_cases h : t.2.tmInfo = tm.2.tmInfo
    · simp [h, hall t ht h]
    · simp [h]
  rw [validWith, hfilter, signaturesOn, map_map]
  rfl

/-- When no signature of a group is bad, its aggregate fails only if the keys cancel. -/
theorem aggregateVerifies_of_noCancel (h : b.NoCancel timeouts)
    (hnodup : (signaturesOn ti timeouts |>.map Prod.fst).Nodup) (hne : signaturesOn ti timeouts ≠ [])
    (hbad : b.badSigners (.timeout ti) ⟨signaturesOn ti timeouts, hnodup⟩ = []) :
    b.aggregateVerifies (.timeout ti) ⟨signaturesOn ti timeouts, hnodup⟩ := by
  have hvalid : ∀ e ∈ signaturesOn ti timeouts, b.scheme.verify (b.pubKey e.1) (.timeout ti) (b.point e.2) = true :=
    b.valid_of_badSigners_nil hbad
  obtain ⟨⟨x, sg⟩, he⟩ := exists_mem_of_ne_nil _ hne
  obtain ⟨t, ht, rfl, -⟩ := mem_signaturesOn.mp he
  have hall : ∀ tm ∈ timeouts, tm.2.tmInfo = t.tmInfo → b.validTimeout tm := by
    intro tm htm hti
    have hv := hvalid _ (mem_signaturesOn.mpr ⟨tm.2, htm, hti, rfl⟩)
    rwa [validTimeout, valid, hti]
  refine (b.scheme.verify_sum hvalid).mpr ?_
  have hsum := h (x, t) ht (hall (x, t) ht rfl)
  rwa [validWith_eq hall, map_map] at hsum

theorem signaturesOn_nodup (hnodup : (timeouts.map Prod.fst).Nodup) (ti : TimeoutInfo) :
    ((signaturesOn ti timeouts).map Prod.fst).Nodup := by
  have hsub : ((timeouts.filter fun tm => decide (tm.2.tmInfo = ti)).map Prod.fst).Sublist (timeouts.map Prod.fst) :=
    (filter_sublist).map _
  have heq : (signaturesOn ti timeouts).map Prod.fst =
      (timeouts.filter fun tm => decide (tm.2.tmInfo = ti)).map Prod.fst := by
    simp [signaturesOn]
  rw [heq]
  exact hnodup.sublist hsub

/-- Who a failed certificate blames sent a timeout whose signature does not verify. -/
theorem newTimeoutCertificate_blames
    (h : newTimeoutCertificateWith b.new epoch round timeouts mapping = .error (.invalidSignaturesCreate bad)) :
    bad ≠ [] ∧ ∀ x ∈ bad, ∃ t, (x, t) ∈ timeouts ∧ b.validTimeout (x, t) = false := by
  obtain ⟨ti, -, herr⟩ := newTimeoutCertificate_group_error h
  obtain ⟨hne, hbad⟩ := b.new_blames _ _ _ _ herr
  refine ⟨hne, fun x hx => ?_⟩
  obtain ⟨sg, hmem, hinv⟩ := hbad x hx
  obtain ⟨t, ht, rfl, rfl⟩ := mem_signaturesOn.mp hmem
  exact ⟨t, ht, hinv⟩

/-- Without cancelling keys, timeouts of distinct members give a certificate or somebody to blame. -/
theorem newTimeoutCertificate_error (hnodup : (timeouts.map Prod.fst).Nodup) (hmem : ∀ tm ∈ timeouts, tm.1 ∈ mapping)
    (hcancel : b.NoCancel timeouts) (h : newTimeoutCertificateWith b.new epoch round timeouts mapping = .error err) :
    ∃ bad, err = .invalidSignaturesCreate bad := by
  obtain ⟨ti, hne, herr⟩ := newTimeoutCertificate_group_error h
  have hgroup := signaturesOn_nodup hnodup ti
  have hkeys : ∀ x ∈ (⟨signaturesOn ti timeouts, hgroup⟩ : AMap NodeId BlsSignature).keys, x ∈ mapping := by
    intro x hx
    obtain ⟨⟨y, sg⟩, hy, rfl⟩ := mem_map.mp hx
    obtain ⟨t, ht, -⟩ := mem_signaturesOn.mp hy
    exact hmem _ ht
  have heq : b.new (signaturesOn ti timeouts) mapping (.timeout ti) = _ := b.new_eq hkeys
  rw [herr] at heq
  split at heq
  · cases heq
  rename_i hfail
  split at heq
  · rename_i hbad
    exact absurd (.inr (aggregateVerifies_of_noCancel hcancel hgroup hne hbad)) hfail
  · exact ⟨_, Except.error.inj heq⟩

end Signing

/-! ## The loop of `ProcessRemoteTimeout` -/

namespace Pacemaker

variable {K S : Type} [AddCommGroup K] [AddCommGroup S] [DecidableEq K] [DecidableEq S] {b : Signing K S}
variable {cfg : Config} {em : EpochManager} {validators : ValidatorSet} {order : List NodeId} {tmInfo : TimeoutInfo}
  {p p' : Pacemaker} {safety safety' : Safety} {cmds : List PacemakerCommand}

/-- The pacemaker without the timeouts of the senders in `bad`, who are barred. -/
def dropSenders (p : Pacemaker) (bad : List NodeId) : Pacemaker :=
  { p with
    invalidTimeoutSenders := p.invalidTimeoutSenders ++ bad
    pendingTimeouts := p.pendingTimeouts.filter fun id _ => !bad.contains id }

theorem mem_pick {t : Timeout} : (x, t) ∈ pick order p.pendingTimeouts ↔ p.pendingTimeouts.get x = some t := by
  rw [(pick_perm order p.pendingTimeouts).mem_iff, AMap.get_eq_some]

theorem length_dropSenders_lt (h : newTimeoutCertificateWith b.new epoch round (pick order p.pendingTimeouts) mapping =
      .error (.invalidSignaturesCreate bad)) :
    (p.dropSenders bad).pendingTimeouts.entries.length < p.pendingTimeouts.entries.length := by
  obtain ⟨hne, hbad⟩ := Signing.newTimeoutCertificate_blames h
  obtain ⟨y, hy⟩ := exists_mem_of_ne_nil _ hne
  obtain ⟨t, ht, -⟩ := hbad y hy
  refine length_filter_lt_length_iff_exists.mpr ⟨(y, t), AMap.get_eq_some.mp (mem_pick.mp ht), ?_⟩
  simpa using hy

/-- The loop ends: each turn but the last drops a timeout. -/
theorem tryFormTCLoop_ends {turns : Nat} (hturns : p.pendingTimeouts.entries.length < turns) :
    (tryFormTCLoop b.new cfg em validators order tmInfo turns p safety).isSome := by
  induction turns generalizing p with
  | zero => omega
  | succ turns ih =>
    unfold tryFormTCLoop
    split
    · rfl
    · rfl
    split
    · rfl
    · rename_i bad hbad
      have hlt := length_dropSenders_lt hbad
      exact ih (p := p.dropSenders bad) (by omega)
    · rfl

/-- Only timeouts that were pending stay pending, and who is barred had sent a bad signature. -/
theorem tryFormTC_barred (h : tryFormTCWith b.new cfg em validators order tmInfo p safety = .ok (p', safety', cmds)) :
    (∀ x t, p'.pendingTimeouts.get x = some t → p.pendingTimeouts.get x = some t) ∧
    ∀ x ∈ p'.invalidTimeoutSenders, x ∈ p.invalidTimeoutSenders ∨
      ∃ t, p.pendingTimeouts.get x = some t ∧ b.validTimeout (x, t) = false := by
  refine tryFormTCWith_ok (motive := fun p =>
    (∀ x t, p'.pendingTimeouts.get x = some t → p.pendingTimeouts.get x = some t) ∧
    ∀ x ∈ p'.invalidTimeoutSenders, x ∈ p.invalidTimeoutSenders ∨
      ∃ t, p.pendingTimeouts.get x = some t ∧ b.validTimeout (x, t) = false) ?_ ?_ ?_ h
  · intro p hdone
    cases hdone
    exact ⟨fun _ _ => id, fun _ => .inl⟩
  · intro p tc _ _ hpc
    obtain ⟨-, rfl, -⟩ | ⟨-, epoch, -, rfl, -⟩ := processCertificate_ok hpc
    · exact ⟨fun _ _ => id, fun _ => .inl⟩
    · simp [entered]
  · intro p bad hbad ih
    obtain ⟨hpend, hbar⟩ := ih
    have hblame := (Signing.newTimeoutCertificate_blames hbad).2
    have hsub : ∀ x t, (p.dropSenders bad).pendingTimeouts.get x = some t → p.pendingTimeouts.get x = some t := by
      intro x t hx
      rw [dropSenders, AMap.get_filter, Option.filter_eq_some_iff] at hx
      exact hx.1
    refine ⟨fun x t hx => hsub x t (hpend x t hx), fun x hx => ?_⟩
    rcases hbar x hx with hx | ⟨t, ht, hinv⟩
    · rcases mem_append.mp hx with hx | hx
      · exact .inl hx
      · obtain ⟨t, ht, hinv⟩ := hblame x hx
        exact .inr ⟨t, mem_pick.mp ht, hinv⟩
    · exact .inr ⟨t, hsub x t ht, hinv⟩

theorem tryFormTC_round
    (h : tryFormTCWith agg cfg em validators order tmInfo p safety = .ok (p', safety', cmds)) :
    p.getCurrentRound ≤ p'.getCurrentRound ∧ safety'.highestVote = safety.highestVote := by
  refine tryFormTCWith_ok (motive := fun p => p.getCurrentRound ≤ p'.getCurrentRound ∧
    safety'.highestVote = safety.highestVote) ?_ ?_ (fun _ _ _ ih => ih) h
  · intro p hdone
    cases hdone
    exact ⟨le_rfl, rfl⟩
  · intro p tc _ _ hpc
    exact processCertificate_round hpc

/-- Without cancelling keys the loop does not panic. -/
theorem tryFormTC_total (hround : tmInfo.round = p.getCurrentRound) (hep : (em.getEpoch (tmInfo.round + 1)).isSome)
    (hmem : ∀ x ∈ p.pendingTimeouts.keys, x ∈ validators.members) (hcancel : b.NoCancel p.pendingTimeouts.entries) :
    ∃ r, tryFormTCWith b.new cfg em validators order tmInfo p safety = .ok r := by
  suffices hloop : ∀ turns, p.pendingTimeouts.entries.length < turns →
      ∃ r, tryFormTCLoop b.new cfg em validators order tmInfo turns p safety = some (.ok r) by
    obtain ⟨r, hr⟩ := hloop _ (Nat.lt_succ_self _)
    exact ⟨r, by rw [tryFormTCWith, hr]; rfl⟩
  intro turns hturns
  induction turns generalizing p with
  | zero => omega
  | succ turns ih =>
    have hsuper : validators.hasSuperMajorityVotes p.pendingTimeouts.keys =
        .ok (decide (validators.threshold 2 3 ≤ (p.pendingTimeouts.keys.map validators.stakeOf).sum)) :=
      ValidatorSet.hasThresholdVotes_nodup p.pendingTimeouts.nodup
    have hperm := pick_perm order p.pendingTimeouts
    unfold tryFormTCLoop
    rw [hsuper]
    by_cases henough : validators.threshold 2 3 ≤ (p.pendingTimeouts.keys.map validators.stakeOf).sum
    · simp only [henough, decide_true]
      cases htc : newTimeoutCertificateWith b.new tmInfo.epoch tmInfo.round (pick order p.pendingTimeouts)
        validators.members with
      | ok tc =>
        -- the certificate is of the current round, so the next one is entered
        obtain ⟨epoch, hepoch⟩ := Option.isSome_iff_exists.mp hep
        have hr : tc.round = tmInfo.round := by
          obtain ⟨tr, -, heq⟩ := bind_eq_ok.mp htc
          cases heq
          rfl
        have hlt : p.highCertificate.round < tc.round := by
          rw [hr, hround, getCurrentRound]
          omega
        have hpc : p.processCertificate cfg em safety (.tc tc) =
            .ok (entered epoch (.tc tc), safety.processCertificate (.tc tc), enterCommands cfg epoch (.tc tc)) :=
          processCertificate_enter hlt (by rw [RoundCertificate.round, hr, hepoch])
        exact ⟨(entered epoch (.tc tc), safety.processCertificate (.tc tc), enterCommands cfg epoch (.tc tc)),
          by simp only [hpc, ok_bind]; rfl⟩
      | error err =>
        obtain ⟨bad, rfl⟩ := Signing.newTimeoutCertificate_error
          ((hperm.map Prod.fst).nodup_iff.mpr p.pendingTimeouts.nodup)
          (fun tm htm => hmem _ (mem_map_of_mem (hperm.subset htm))) (hcancel.perm hperm) htc
        have hblame := (Signing.newTimeoutCertificate_blames htc).2
        have hlt := length_dropSenders_lt htc
        refine ih (p := p.dropSenders bad) hround ?_ ?_ (by omega)
        · intro x hx
          obtain ⟨e, he, rfl⟩ := mem_map.mp hx
          exact hmem _ (mem_map_of_mem (mem_filter.mp he).1)
        · refine hcancel.filter fun tm htm hvalid => ?_
          simp only [Bool.not_eq_true', contains_eq_mem, decide_eq_false_iff_not]
          intro hx
          obtain ⟨t, ht, hinv⟩ := hblame _ hx
          obtain rfl : t = tm.2 := by
            have hget := mem_pick.mp ht
            rw [AMap.get_eq_some.mpr htm] at hget
            exact (Option.some.inj hget).symm
          rw [hvalid] at hinv
          cases hinv
    · simp only [henough, decide_false]
      exact ⟨_, rfl⟩

end Pacemaker

namespace Scenario

/-! ## Two keys that cancel

Seven validators of equal stake, two of which chose keys with the sum zero. These two report the
block of round 1 in their timeouts, three honest ones have not seen it. All five signatures verify,
and the group of the two has an aggregate that does not. -/

def seven : ValidatorSet where
  vals := ⟨[(0, 1), (1, 1), (2, 1), (3, 1), (4, 1), (5, 1), (6, 1)], by decide⟩
  nonempty := by decide
  pos := by decide

/-- A point for each domain. -/
def hashed : SignedMsg → ZMod 11
  | .vote _ => 1
  | .timeout _ => 2
  | .noEndorsement _ => 3
  | .round _ => 4

theorem hashed_injective (m : SignedMsg) : Function.Injective (AddMonoidHom.mulLeft (hashed m)) := by
  have h : ∀ k ∈ ([1, 2, 3, 4] : List (ZMod 11)), ∀ x y, k * x = k * y → x = y := by decide
  intro x y hxy
  cases m with
  | vote v => exact h 1 (by decide) x y hxy
  | timeout t => exact h 2 (by decide) x y hxy
  | noEndorsement n => exact h 3 (by decide) x y hxy
  | round r => exact h 4 (by decide) x y hxy

def keyOf : NodeId → ZMod 11
  | 0 => 1
  | 1 => 2
  | 2 => 3
  | 3 => 4
  | 4 => 7
  | 5 => 6
  | _ => 5

def signing : Signing (ZMod 11) (ZMod 11) where
  scheme := ⟨fun m => AddMonoidHom.mulLeft (hashed m), hashed_injective⟩
  pubKey := keyOf
  point sg := hashed sg.msg * keyOf sg.key

def sevenEnv : ValidatorEnv where
  epochManager := epochManager
  valEpochMap := ⟨[(1, seven)], by decide⟩
  getLeader round _ := round % 7
  verifySigCol := signing.verifyCol

def sevenConfig : Config := ⟨1, fun _ => 1, 100, 1⟩

def reportsGenesis (x : NodeId) : Timeout := newTimeout x ⟨1, 1, 0, 0⟩ (.qc GenesisQC) false none

/-- One that reports the block of round 1. -/
def reportsBlock (x : NodeId) : Timeout :=
  newTimeout x ⟨1, 1, 0, 1⟩ (.tip (tipOf (headerOf 1 GenesisQC 1) none)) false none

def cancelling : List (NodeId × Timeout) :=
  [(5, reportsBlock 5), (6, reportsBlock 6), (0, reportsGenesis 0), (2, reportsGenesis 2), (3, reportsGenesis 3)]

end Scenario

end MonadBft
