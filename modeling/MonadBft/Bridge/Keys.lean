/-
  MonadBft.Bridge.Keys — the two names of a validator (`bridge.Validator`, the key tables of
  `bridge.App`).

  A validator goes by its node id in consensus and by its consensus address in the
  application. The genesis key list binds the two; `App` keeps it sorted by node id and
  looks a validator up by address (`byCons`). `validatorSetData` turns the application's
  set into the set of an epoch, `lastCommitWith` and `localLastCommitWith` turn the signer
  bits of a QC into the votes the application is shown.

  Proved: the votes name the signers of every QC, for every set the application passes,
  exactly if every genesis key has in the epoch's set the position it has in the key list,
  or no position in either (`votes_name_signers_iff`). A validator that left shifts the
  others (`leaver_is_credited`).
-/
import MonadBft.Validator
import Mathlib.Data.List.Sort

namespace MonadBft.Bridge

open Lib SigCol List

/-! ## The key list -/

/-- `bridge.Validator`: the node id and the consensus address. The BLS key goes by the node id. -/
structure Validator where
  nodeId : NodeId
  consAddr : Nat
  deriving DecidableEq, Repr

/-- `App.byCons`: where in the list the address is found, the last place if there are several. -/
def byConsFrom (m : AMap Nat Nat) (i : Nat) : List Validator → AMap Nat Nat
  | [] => m
  | v :: vals => byConsFrom (m.insert v.consAddr i) (i + 1) vals

/-- The key tables of `App`: the genesis key list as `NewApp` sorts it. The order of keys with
one node id is the sort's own. -/
structure Keys where
  monadVals : List Validator
  sorted : monadVals.Pairwise (·.nodeId ≤ ·.nodeId)
  deriving DecidableEq, Repr

namespace Keys

def byCons (k : Keys) : AMap Nat Nat := byConsFrom AMap.empty 0 k.monadVals

def nodeIdOf (k : Keys) (address : Nat) : Option NodeId :=
  (k.byCons.get address).bind fun i => (k.monadVals[i]?).map (·.nodeId)

/-- `App.ConsAddr`: the consensus address of a node, the empty one if it has no key. -/
def consAddr (k : Keys) (id : NodeId) : Option Nat := (k.monadVals.find? (·.nodeId = id)).map (·.consAddr)

end Keys

/-! ## The application's set and the set of an epoch -/

structure CmtValidator where
  address : Nat
  votingPower : Nat
  deriving DecidableEq, Repr

structure CmtValidatorSet where
  validators : List CmtValidator
  deriving DecidableEq, Repr

structure ValidatorData where
  nodeId : NodeId
  stake : Nat
  deriving DecidableEq, Repr

inductive KeyErr where
  | notInKeyMap (address : Nat)
  deriving DecidableEq, Repr

variable (k : Keys)

/-- `App.ValidatorSetData`: the members under their node ids, sorted by these. -/
def validatorSetData (appSet : CmtValidatorSet) : Except KeyErr (List ValidatorData) := do
  let vds ← appSet.validators.mapM fun v =>
    match k.nodeIdOf v.address with
    | none => .error (.notInKeyMap v.address)
    | some id => .ok ⟨id, v.votingPower⟩
  return vds.insertionSort fun a b => a.nodeId ≤ b.nodeId

/-- `validator.NewValidatorMapping` over the data of an epoch: its members in order of node id. -/
def mappingOf (data : List ValidatorData) : List NodeId := data.map (·.nodeId)

/-- The set of an epoch: derived from a set of the application, and without duplicates, which
`NewValidatorSet` checks. -/
structure EpochSet (k : Keys) where
  appSet : CmtValidatorSet
  data : List ValidatorData
  derived : validatorSetData k appSet = .ok data
  nodup : (mappingOf data).Nodup

def EpochSet.mapping {k : Keys} (e : EpochSet k) : List NodeId := mappingOf e.data

/-! ## The votes shown to the application -/

inductive BlockIDFlag where
  | absent
  | commit
  deriving DecidableEq, Repr

structure VoteInfo where
  validator : CmtValidator
  blockIdFlag : BlockIDFlag
  deriving DecidableEq, Repr

/-- `abcitypes.CommitInfo` and `ExtendedCommitInfo`; the round is cut to an `int32`. -/
structure CommitInfo where
  round : Int
  votes : List VoteInfo
  deriving DecidableEq, Repr

/-- The flag of a validator: the signer bit at its place in the key list, if there is one. -/
def flagOf (bits : List Bool) (v : CmtValidator) : BlockIDFlag :=
  match k.byCons.get v.address with
  | none => .absent
  | some i => if bits[i]? = some true then .commit else .absent

variable (qc : QuorumCertificate)

/-- The body `LastCommitWith` and `LocalLastCommitWith` share. -/
def commitInfo (vs : Option CmtValidatorSet) : CommitInfo :=
  let round := (BitVec.ofNat 32 qc.info.round).toInt
  match vs with
  | none => ⟨round, []⟩
  | some vs =>
    if qc.signatures.signers.length = 0 then ⟨round, []⟩
    else ⟨round, vs.validators.map fun v => ⟨v, flagOf k qc.signatures.signers v⟩⟩

def lastCommitWith (vs : Option CmtValidatorSet) : CommitInfo :=
  commitInfo k qc vs

def localLastCommitWith (vs : Option CmtValidatorSet) : CommitInfo :=
  commitInfo k qc vs

/-- The votes say of `v` that it signed. -/
def Flagged (info : CommitInfo) (v : CmtValidator) : Prop := ⟨v, .commit⟩ ∈ info.votes

instance (info : CommitInfo) (v : CmtValidator) : Decidable (Flagged info v) :=
  inferInstanceAs (Decidable (_ ∈ _))

/-- The votes of a certificate name `signers`, whatever set `vs` the application passes. -/
def NamesSigners (signers : List NodeId) : Prop :=
  ∀ vs : CmtValidatorSet, ∀ v ∈ vs.validators,
    (Flagged (lastCommitWith k qc (some vs)) v ↔ ∃ id ∈ signers, k.nodeIdOf v.address = some id) ∧
      (Flagged (localLastCommitWith k qc (some vs)) v ↔ ∃ id ∈ signers, k.nodeIdOf v.address = some id)

/-! ## Positions -/

/-- Every key that can be looked up has in `mapping` the position it has in the key list, or
no position in either. -/
def PositionsAgree (mapping : List NodeId) : Prop :=
  ∀ address i v, k.byCons.get address = some i → k.monadVals[i]? = some v →
    mapping[i]? = some v.nodeId ∨ (mapping.length ≤ i ∧ v.nodeId ∉ mapping)

theorem byConsFrom_get {m : AMap Nat Nat} {vals : List Validator} {n address i : Nat}
    (h : (byConsFrom m n vals).get address = some i) :
    m.get address = some i ∨ ∃ j v, i = n + j ∧ vals[j]? = some v ∧ v.consAddr = address := by
  induction vals generalizing m n with
  | nil => exact .inl h
  | cons w vals ih =>
    rcases ih h with hm | ⟨j, v, hij, hv, hva⟩
    · rw [AMap.get_insert] at hm
      split_ifs at hm with hw
      · cases hm
        exact .inr ⟨0, w, rfl, rfl, hw.symm⟩
      · exact .inl hm
    · exact .inr ⟨j + 1, v, by omega, hv, hva⟩

variable {k : Keys} {mapping signers : List NodeId} {id : NodeId} {qc : QuorumCertificate} {bits : List Bool}
  {v : CmtValidator} {j : Nat}

theorem Keys.byCons_get {address i : Nat} (h : k.byCons.get address = some i) :
    ∃ v, k.monadVals[i]? = some v ∧ k.nodeIdOf address = some v.nodeId := by
  rcases byConsFrom_get h with hm | ⟨j, v, hij, hv, -⟩
  · cases hm
  · obtain rfl : i = j := by omega
    exact ⟨v, hv, by simp [Keys.nodeIdOf, h, hv]⟩

theorem mem_signersOf :
    id ∈ signersOf mapping bits ↔ ∃ j : Nat, mapping[j]? = some id ∧ bits[j]? = some true := by
  induction mapping generalizing bits with
  | nil => simp [signersOf]
  | cons x mapping ih =>
    cases bits with
    | nil => simp [signersOf]
    | cons b bits =>
      have hcons : id ∈ signersOf (x :: mapping) (b :: bits) ↔
          (b = true ∧ id = x) ∨ id ∈ signersOf mapping bits := by
        cases b <;> simp [signersOf]
      rw [hcons, ih]
      constructor
      · rintro (⟨rfl, rfl⟩ | ⟨j, hj⟩)
        · exact ⟨0, rfl, rfl⟩
        · exact ⟨j + 1, hj⟩
      · rintro ⟨j, hj⟩
        cases j with
        | zero =>
          simp only [getElem?_cons_zero, Option.some.injEq] at hj
          exact .inl ⟨hj.2, hj.1.symm⟩
        | succ j => exact .inr ⟨j, hj⟩

theorem signersOf_single (hm : mapping.Nodup) (hj : mapping[j]? = some id) :
    signersOf mapping (mapping.map fun x => decide (x = id)) = [id] := by
  have hfilter : signersOf mapping (mapping.map fun x => decide (x = id)) =
      mapping.filter fun x => decide (x = id) := by
    clear hm hj
    induction mapping with
    | nil => rfl
    | cons x mapping ih =>
      by_cases hx : x = id <;> simpa [signersOf, hx] using ih
  rw [hfilter]
  have hid : id ∈ mapping := mem_of_getElem? hj
  have hperm : (mapping.filter fun x => decide (x = id)).Perm [id] := by
    refine (perm_ext_iff_of_nodup (hm.filter _) (nodup_singleton id)).mpr fun x => ?_
    simp only [mem_filter, decide_eq_true_eq, mem_singleton]
    exact ⟨fun h => h.2, fun h => ⟨h ▸ hid, h⟩⟩
  exact perm_singleton.mp hperm

/-- The certificate one member of `mapping` signs alone. -/
def signedAlone (mapping : List NodeId) (id : NodeId) (vote : Vote) : QuorumCertificate :=
  ⟨vote, ⟨mapping.map fun x => decide (x = id), [blsSign id (.vote vote)]⟩⟩

theorem signedAlone_verify (vote : Vote) (hm : mapping.Nodup) (hlen : mapping.length ≤ MaxSignersLen)
    (hj : mapping[j]? = some id) : (signedAlone mapping id vote).signatures.verify mapping (.vote vote) = .ok [id] := by
  unfold verify
  rw [if_neg (by simp [signedAlone]), if_neg (by simpa [signedAlone] using hlen)]
  simp [signedAlone, signersOf_single hm hj]

theorem signedAlone_bit {vote : Vote} (i : Nat) :
    (signedAlone mapping id vote).signatures.signers[i]? = some true ↔ mapping[i]? = some id := by
  simp [signedAlone]

theorem flagOf_commit : flagOf k bits v = .commit ↔ ∃ i, k.byCons.get v.address = some i ∧ bits[i]? = some true := by
  unfold flagOf
  cases hget : k.byCons.get v.address with
  | none => simp
  | some i =>
    by_cases hbit : bits[i]? = some true <;> simp [hbit]

theorem flagged_commitInfo {vs : CmtValidatorSet} (hv : v ∈ vs.validators) :
    Flagged (commitInfo k qc (some vs)) v ↔
      ∃ i, k.byCons.get v.address = some i ∧ qc.signatures.signers[i]? = some true := by
  unfold Flagged commitInfo
  dsimp only
  by_cases hempty : qc.signatures.signers.length = 0
  · rw [if_pos hempty, length_eq_zero_iff.mp hempty]
    simp
  · rw [if_neg hempty]
    simp only [mem_map, VoteInfo.mk.injEq]
    rw [← flagOf_commit]
    constructor
    · rintro ⟨w, -, rfl, hflag⟩
      exact hflag
    · intro hflag
      exact ⟨v, hv, rfl, hflag⟩

theorem namesSigners_iff : NamesSigners k qc signers ↔
      ∀ address i v, k.byCons.get address = some i → k.monadVals[i]? = some v →
        (qc.signatures.signers[i]? = some true ↔ v.nodeId ∈ signers) := by
  constructor
  · intro h address i v hi hv
    -- the set with this one validator
    obtain ⟨w, hw, hid⟩ := Keys.byCons_get hi
    obtain rfl : w = v := by simpa [hw] using hv
    have hflag := (h ⟨[⟨address, 1⟩]⟩ ⟨address, 1⟩ (by simp)).1
    rw [lastCommitWith, flagged_commitInfo (by simp)] at hflag
    simpa [hi, hid] using hflag
  · intro h vs v hv
    have hflag : (∃ i, k.byCons.get v.address = some i ∧ qc.signatures.signers[i]? = some true) ↔
        ∃ id ∈ signers, k.nodeIdOf v.address = some id := by
      cases hget : k.byCons.get v.address with
      | none => simp [Keys.nodeIdOf, hget]
      | some i =>
        obtain ⟨w, hw, hid⟩ := Keys.byCons_get hget
        simpa [hid] using h v.address i w hget hw
    exact ⟨(flagged_commitInfo hv).trans hflag, (flagged_commitInfo hv).trans hflag⟩

/-! ## When the votes name the signers -/

theorem namesSigners_of_positionsAgree (hm : mapping.Nodup) (h : PositionsAgree k mapping)
    (hlen : qc.signatures.signers.length = mapping.length)
    (hsigners : signers = signersOf mapping qc.signatures.signers) : NamesSigners k qc signers := by
  rw [namesSigners_iff]
  intro address i v hi hv
  rw [hsigners, mem_signersOf]
  rcases h address i v hi hv with hsame | ⟨hout, hnone⟩
  · constructor
    · intro hbit
      exact ⟨i, hsame, hbit⟩
    · rintro ⟨j, hj, hbit⟩
      -- the same member at two places is one place
      have hjlt : j < mapping.length := (List.getElem?_eq_some_iff.mp hj).1
      obtain rfl : j = i := (List.getElem?_inj hjlt hm).mp (hj.trans hsame.symm)
      exact hbit
  · constructor
    · intro hbit
      have hilt : i < qc.signatures.signers.length := (List.getElem?_eq_some_iff.mp hbit).1
      omega
    · rintro ⟨j, hj, -⟩
      exact absurd (List.mem_of_getElem? hj) hnone

theorem positionsAgree_of_namesSigners (hm : mapping.Nodup) (hlen : mapping.length ≤ MaxSignersLen)
    (h : ∀ (qc : QuorumCertificate) (signers : List NodeId),
      qc.signatures.verify mapping (.vote qc.info) = .ok signers → NamesSigners k qc signers) :
    PositionsAgree k mapping := by
  intro address i v hi hv
  -- what a certificate signed by the member at place `j` alone says of this key
  have halone : ∀ (j : Nat) (id : NodeId), mapping[j]? = some id → (mapping[i]? = some id ↔ v.nodeId = id) := by
    intro j id hj
    let vote : Vote := ⟨GENESIS_BLOCK_ID, 1, 1⟩
    have hnames := h (signedAlone mapping id vote) [id] (signedAlone_verify vote hm hlen hj)
    have hbit := namesSigners_iff.mp hnames address i v hi hv
    rw [signedAlone_bit] at hbit
    simpa using hbit
  by_cases hlt : i < mapping.length
  · have hi' : mapping[i]? = some (mapping.get ⟨i, hlt⟩) := getElem?_eq_getElem hlt
    left
    rw [hi', (halone i _ hi').mp hi']
  · right
    refine ⟨Nat.le_of_not_lt hlt, fun hmem => ?_⟩
    obtain ⟨j, hj⟩ := List.getElem?_of_mem hmem
    have hsome := (halone j _ hj).mpr rfl
    exact hlt (List.getElem?_eq_some_iff.mp hsome).1

theorem verify_signers {c : SigCol} {msg : SignedMsg} (h : c.verify mapping msg = .ok signers) :
    c.signers.length = mapping.length ∧ c.signers.length ≤ MaxSignersLen ∧
      signers = signersOf mapping c.signers := by
  unfold verify at h
  split at h
  · cases h
  rename_i hlen
  split at h
  · cases h
  rename_i hmax
  dsimp only at h
  refine ⟨not_not.mp hlen, Nat.le_of_not_lt hmax, ?_⟩
  split at h
  · split at h
    · cases h
      rfl
    · cases h
  · split at h
    · cases h
    · cases h
      rfl

/-- The votes shown to the application name the signers of every certificate that verifies
against the set of an epoch, exactly if the positions agree. No certificate verifies against
a set that is too large. -/
theorem votes_name_signers_iff (k : Keys) (e : EpochSet k) : (∀ (qc : QuorumCertificate) (signers : List NodeId),
      qc.signatures.verify e.mapping (.vote qc.info) = .ok signers → NamesSigners k qc signers) ↔
      (e.mapping.length ≤ MaxSignersLen → PositionsAgree k e.mapping) := by
  constructor
  · intro h hlen
    exact positionsAgree_of_namesSigners e.nodup hlen h
  · intro h qc signers hqc
    obtain ⟨hlen, hmax, hsigners⟩ := verify_signers hqc
    exact namesSigners_of_positionsAgree e.nodup (h (hlen ▸ hmax)) hlen hsigners

def threeKeys : Keys := ⟨[⟨0, 10⟩, ⟨1, 11⟩, ⟨2, 12⟩], by decide⟩

/-- The set of the epoch after the first of the three has left. -/
def afterLeave : EpochSet threeKeys where
  appSet := ⟨[⟨11, 1⟩, ⟨12, 1⟩]⟩
  data := [⟨1, 1⟩, ⟨2, 1⟩]
  derived := by decide +kernel
  nodup := by decide

/-- Both members sign, and the second of them is shown as absent; the validator that left is
shown as a signer to an application that still lists it. -/
theorem leaver_is_credited : ∃ qc : QuorumCertificate,
    qc.signatures.verify afterLeave.mapping (.vote qc.info) = .ok [1, 2] ∧
    ¬ Flagged (lastCommitWith threeKeys qc (some afterLeave.appSet)) ⟨12, 1⟩ ∧
    Flagged (lastCommitWith threeKeys qc (some ⟨⟨10, 1⟩ :: afterLeave.appSet.validators⟩)) ⟨10, 1⟩ ∧
    ¬ NamesSigners threeKeys qc [1, 2] := by
  let vote : Vote := ⟨GENESIS_BLOCK_ID, 1, 1⟩
  let qc : QuorumCertificate :=
    ⟨vote, ⟨[true, true], [blsSign 1 (.vote vote), blsSign 2 (.vote vote)]⟩⟩
  have hmissed : ¬ Flagged (lastCommitWith threeKeys qc (some afterLeave.appSet)) ⟨12, 1⟩ := by decide +kernel
  refine ⟨qc, by decide +kernel, hmissed, by decide +kernel, fun h => ?_⟩
  have hid : threeKeys.nodeIdOf 12 = some 2 := by decide +kernel
  exact hmissed ((h afterLeave.appSet ⟨12, 1⟩ (by decide)).1.mpr ⟨2, by decide, hid⟩)

end MonadBft.Bridge
