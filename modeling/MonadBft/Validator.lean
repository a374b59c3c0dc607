/-
  MonadBft.Validator — validator sets, thresholds, epochs and signature collections
  (`validator`, `sigcol`).

  A `ValidatorSet` carries what `NewValidatorSet` checks: it is not empty, no member
  is listed twice and every stake is positive. The certificate keys of a set
  (`ValidatorMapping`) are the members themselves, in the same order.

  Proved: two supermajorities meet in an honest member when the Byzantine stake is at
  most a third (`supermajority_inter_honest`), a collection that verifies holds exactly one
  signature of each signer it names (`SigCol.verify_sound`), and so does a collection built by `SigCol.new`, for the nodes
  it was given (`SigCol.new_signedBy`).
-/
import MonadBft.Cstypes
import MonadBft.Lib.AMap
import MonadBft.Lib.Except
import MonadBft.Lib.Quorum
import Mathlib.Algebra.GroupWithZero.Nat

namespace MonadBft

open Lib List

/-! ## Validator sets -/

/-- `validator.ValidatorSet`: the members with their stakes, sorted by node id. -/
structure ValidatorSet where
  vals : AMap NodeId Nat
  nonempty : vals.entries ≠ []
  pos : ∀ v ∈ vals.entries, 0 < v.2
  deriving DecidableEq

inductive ValidatorErr where
  | duplicateValidator
  deriving DecidableEq, Repr

namespace ValidatorSet

variable (v : ValidatorSet)

def members : List NodeId := v.vals.keys

def totalStake : Nat := v.vals.values.sum

def isMember (id : NodeId) : Bool := v.members.contains id

/-- `StakeOf`, with the zero stake for a node that is not a member. -/
def stakeOf (id : NodeId) : Nat := (v.vals.get id).getD 0

variable (addrs : List NodeId)

/-- `CalculateCurrentStake`: errors on duplicates, ignores non-members. -/
def calculateCurrentStake : Except ValidatorErr Nat :=
  if addrs.Nodup then .ok (addrs.map v.stakeOf).sum else .error .duplicateValidator

def threshold (num den : Nat) : Nat := v.totalStake * num / den + 1

def hasThresholdVotes (thr : Nat) : Except ValidatorErr Bool := do
  let sum ← v.calculateCurrentStake addrs
  return decide (thr ≤ sum)

/-- `HasSuperMajorityVotes`: stake at least `floor(2 * total / 3) + 1`. -/
def hasSuperMajorityVotes : Except ValidatorErr Bool :=
  v.hasThresholdVotes addrs (v.threshold 2 3)

/-- `HasHonestVote`: stake at least `floor(total / 3) + 1`. -/
def hasHonestVote : Except ValidatorErr Bool :=
  v.hasThresholdVotes addrs (v.threshold 1 3)

end ValidatorSet

/-! ## Quorums -/

namespace ValidatorSet

variable {v : ValidatorSet} {byz : Finset NodeId} {a b : List NodeId} {thr : Nat}

theorem hasThresholdVotes_ok : v.hasThresholdVotes a thr = .ok true ↔ a.Nodup ∧ thr ≤ (a.map v.stakeOf).sum := by
  unfold hasThresholdVotes calculateCurrentStake
  by_cases ha : a.Nodup
  · simp [ha, bind, Except.bind, pure, Except.pure]
  · simp [ha, bind, Except.bind]

theorem hasThresholdVotes_nodup (ha : a.Nodup) :
    v.hasThresholdVotes a thr = .ok (decide (thr ≤ (a.map v.stakeOf).sum)) := by
  simp [hasThresholdVotes, calculateCurrentStake, ha, bind, Except.bind, pure, Except.pure]

theorem hasThresholdVotes_congr (hb : b.Nodup) (hmem : ∀ x, x ∈ b ↔ x ∈ a)
    (ha : v.hasThresholdVotes a thr = .ok true) : v.hasThresholdVotes b thr = .ok true := by
  obtain ⟨hna, hsa⟩ := hasThresholdVotes_ok.mp ha
  have hperm : b.Perm a := (perm_ext_iff_of_nodup hb hna).mpr hmem
  refine hasThresholdVotes_ok.mpr ⟨hb, ?_⟩
  rw [(hperm.map v.stakeOf).sum_eq]
  exact hsa

theorem hasThresholdVotes_mono (hb : b.Nodup) (hsub : a ⊆ b)
    (ha : v.hasThresholdVotes a thr = .ok true) : v.hasThresholdVotes b thr = .ok true := by
  obtain ⟨hna, hsa⟩ := hasThresholdVotes_ok.mp ha
  refine hasThresholdVotes_ok.mpr ⟨hb, hsa.trans ?_⟩
  rw [← sum_toFinset v.stakeOf hna, ← sum_toFinset v.stakeOf hb]
  exact Finset.sum_le_sum_of_subset fun x hx => mem_toFinset.mpr (hsub (mem_toFinset.mp hx))

theorem members_nodup : v.members.Nodup := v.vals.nodup

theorem stakeOf_eq_zero {id : NodeId} (h : id ∉ v.members) : v.stakeOf id = 0 := by
  simp [stakeOf, AMap.get_eq_none.mpr h]

theorem sum_map_stakeOf_members : (v.members.map v.stakeOf).sum = v.totalStake := by
  unfold members totalStake AMap.keys AMap.values
  rw [map_map]
  congr 1
  apply map_congr_left
  intro p hp
  simp [stakeOf, AMap.get_eq_some.mpr hp]

/-- The stake behind a list without duplicates, as a sum over its members in the set. -/
theorem sum_stakeOf_filter (ha : a.Nodup) :
    (a.map v.stakeOf).sum = (a.toFinset ∩ v.members.toFinset).sum v.stakeOf := by
  rw [← sum_toFinset v.stakeOf ha]
  refine (Finset.sum_subset Finset.inter_subset_left ?_).symm
  intro x hx hxn
  apply stakeOf_eq_zero
  intro hm
  exact hxn (Finset.mem_inter.mpr ⟨hx, mem_toFinset.mpr hm⟩)

theorem sum_members : v.members.toFinset.sum v.stakeOf = v.totalStake := by
  rw [sum_toFinset v.stakeOf members_nodup, sum_map_stakeOf_members]

theorem totalStake_pos (v : ValidatorSet) : 0 < v.totalStake := by
  obtain ⟨e, he⟩ := exists_mem_of_ne_nil _ v.nonempty
  exact lt_of_lt_of_le (v.pos e he) (le_sum_of_mem (mem_map_of_mem he))

theorem sum_stakeOf_le (ha : a.Nodup) : (a.map v.stakeOf).sum ≤ v.totalStake := by
  rw [sum_stakeOf_filter ha, ← sum_members]
  exact Finset.sum_le_sum_of_subset Finset.inter_subset_right

/-- What two lists hold beyond the whole stake, they share. -/
theorem sum_stakeOf_add_le (ha : a.Nodup) (hb : b.Nodup) : (a.map v.stakeOf).sum + (b.map v.stakeOf).sum ≤
      v.totalStake + ((a.filter (· ∈ b)).map v.stakeOf).sum := by
  have hle := Lib.Quorum.sum_add_sum_le v.stakeOf
    (A := a.toFinset ∩ v.members.toFinset) (B := b.toFinset ∩ v.members.toFinset)
    Finset.inter_subset_right Finset.inter_subset_right
  have hcommon : (a.toFinset ∩ v.members.toFinset) ∩ (b.toFinset ∩ v.members.toFinset) =
      (a.filter (· ∈ b)).toFinset ∩ v.members.toFinset := by
    ext x
    simp only [Finset.mem_inter, mem_toFinset, mem_filter, decide_eq_true_eq]
    tauto
  rw [sum_stakeOf_filter ha, sum_stakeOf_filter hb, sum_stakeOf_filter (ha.filter _), ← hcommon, ← sum_members]
  exact hle

/-- Byzantine stake at most `floor(total / 3)`. -/
def Bounded (v : ValidatorSet) (byz : Finset NodeId) : Prop := byz.sum v.stakeOf ≤ v.totalStake / 3

end ValidatorSet

/-! ## Signature collections -/

def MaxSignersLen : Nat := 1024 * 16

inductive SigColErr where
  | nodeIdNotInMapping
  | conflictingSignatures
  | invalidSignatures
  | signersLenMismatch
  | signersLenExceeded
  | invalidSignaturesCreate (bad : List NodeId)
  deriving DecidableEq, Repr

namespace SigCol

variable {msg : SignedMsg}

/-- The members a signer map names: bit `i` refers to the `i`-th member. -/
def signersOf (mapping : List NodeId) (bits : List Bool) : List NodeId :=
  ((mapping.zip bits).filter Prod.snd).map Prod.fst

/-- The first loop of `New`: one signature for each node, all of known nodes. -/
def collect (mapping : List NodeId) (seen : AMap NodeId BlsSignature) :
    List (NodeId × BlsSignature) → Except SigColErr (AMap NodeId BlsSignature)
  | [] => .ok seen
  | (id, sig) :: rest =>
    if !mapping.contains id then .error .nodeIdNotInMapping
    else
      match seen.get id with
      | some prev => if prev ≠ sig then .error .conflictingSignatures else collect mapping seen rest
      | none => collect mapping (seen.insert id sig) rest

/-- `sigcol.New`. The aggregate verifies exactly if each signature does, so the case of
an aggregate that fails with no bad signature in it does not arise. -/
def new (sigs : List (NodeId × BlsSignature)) (mapping : List NodeId) (msg : SignedMsg) : Except SigColErr SigCol := do
  let seen ← collect mapping AMap.empty sigs
  let bad := (seen.entries.filter fun e => !e.2.verify msg e.1).map Prod.fst
  if bad ≠ [] then .error (.invalidSignaturesCreate bad)
  else return ⟨mapping.map seen.contains, mapping.filterMap seen.get⟩

end SigCol

/-- A way to aggregate signatures: what `sigcol.New` computes from the signatures of nodes, the
members of the set and the message. -/
abbrev Aggregator := List (NodeId × BlsSignature) → List NodeId → SignedMsg → Except SigColErr SigCol

/-- Who is blamed supplied a signature that is not valid, and there is somebody to blame. -/
def Aggregator.Blames (agg : Aggregator) (valid : SignedMsg → NodeId → BlsSignature → Bool) : Prop :=
  ∀ sigs mapping msg bad, agg sigs mapping msg = .error (.invalidSignaturesCreate bad) →
    bad ≠ [] ∧ ∀ x ∈ bad, ∃ sg, (x, sg) ∈ sigs ∧ valid msg x sg = false

namespace SigCol

variable {msg : SignedMsg}

/-- `BlsSignatureCollection.Verify`: the signers, if the aggregate is theirs over `msg`. -/
def verify (c : SigCol) (mapping : List NodeId) (msg : SignedMsg) : Except SigColErr (List NodeId) :=
  if c.signers.length ≠ mapping.length then .error .signersLenMismatch
  else if c.signers.length > MaxSignersLen then .error .signersLenExceeded
  else
    let signers := signersOf mapping c.signers
    if c.sig = [] then
      if signers = [] ∧ c.signers.length = 0 then .ok signers else .error .invalidSignatures
    else if c.sig ≠ signers.map (blsSign · msg) then .error .invalidSignatures
    else .ok signers

/-- `c` holds the signature over `msg` of each of `signers`, and nothing else. -/
structure SignedBy (c : SigCol) (mapping : List NodeId) (msg : SignedMsg) (signers : List NodeId) : Prop where
  nodup : signers.Nodup
  members : ∀ x ∈ signers, x ∈ mapping
  sig : c.sig = signers.map (blsSign · msg)

variable {c : SigCol} {mapping : List NodeId} {sigs : List (NodeId × BlsSignature)} {sg : BlsSignature}

/-- What a first loop of `New` does that ends: all nodes are known, and the first signature of each
is kept. -/
inductive Collected (mapping : List NodeId) : AMap NodeId BlsSignature → List (NodeId × BlsSignature) →
    AMap NodeId BlsSignature → Prop where
  | nil {seen} : Collected mapping seen [] seen
  | again {seen id sig sigs out} (hid : id ∈ mapping) (hseen : seen.contains id)
      (h : Collected mapping seen sigs out) : Collected mapping seen ((id, sig) :: sigs) out
  | first {seen id sig sigs out} (hid : id ∈ mapping)
      (h : Collected mapping (seen.insert id sig) sigs out) : Collected mapping seen ((id, sig) :: sigs) out

section collected

variable {seen out : AMap NodeId BlsSignature}

theorem collect_ok (h : collect mapping seen sigs = .ok out) : Collected mapping seen sigs out := by
  induction sigs generalizing seen with
  | nil =>
    cases h
    exact .nil
  | cons e sigs ih =>
    obtain ⟨id, sig⟩ := e
    simp only [collect] at h
    split at h
    · cases h
    rename_i hid
    split at h
    · rename_i hget
      split at h
      · cases h
      · exact .again (by simpa using hid) (by simp [AMap.contains, hget]) (ih h)
    · exact .first (by simpa using hid) (ih h)

variable (h : Collected mapping seen sigs out)
include h

theorem Collected.contains (x : NodeId) : out.contains x ↔ seen.contains x ∨ x ∈ sigs.map Prod.fst := by
  induction h with
  | nil => simp
  | @again seen id sig sigs out _ hseen _ ih =>
    rw [ih, map_cons, mem_cons]
    by_cases hx : x = id
    · simp [hx, hseen]
    · simp [hx]
  | @first seen id sig sigs out _ _ ih =>
    rw [ih, map_cons, mem_cons]
    by_cases hx : x = id
    · simp [hx, AMap.contains]
    · simp [hx, AMap.contains, AMap.get_insert_ne _ _ hx]

theorem Collected.members : ∀ x ∈ sigs.map Prod.fst, x ∈ mapping := by
  induction h with
  | nil => simp
  | again hid _ _ ih | first hid _ ih => exact forall_mem_cons.mpr ⟨hid, ih⟩

theorem Collected.mem {x : NodeId} (hx : out.get x = some sg) : seen.get x = some sg ∨ (x, sg) ∈ sigs := by
  induction h with
  | nil => exact .inl hx
  | again _ _ _ ih => exact (ih hx).imp_right (.tail _)
  | first _ _ ih =>
    rcases ih hx with hs | hs
    · rw [AMap.get_insert] at hs
      split_ifs at hs with hid
      · cases hs
        exact .inr (by simp [hid])
      · exact .inl hs
    · exact .inr (.tail _ hs)

end collected

/-- A collection that `New` returns is signed by exactly the nodes passed to it. -/
theorem new_signedBy (hm : mapping.Nodup) (h : new sigs mapping msg = .ok c) :
    ∃ signers, c.SignedBy mapping msg signers ∧ ∀ x, x ∈ signers ↔ x ∈ sigs.map Prod.fst := by
  unfold new at h
  obtain ⟨seen, hcol, h⟩ := bind_eq_ok.mp h
  dsimp only at h
  split at h
  · cases h
  rename_i hbad
  cases h
  have hcollected := collect_ok hcol
  have hvalid : ∀ x sig, seen.get x = some sig → sig = blsSign x msg := by
    intro x sig hget
    by_contra hne
    apply hbad
    refine ne_nil_of_mem (a := x) (mem_map.mpr ⟨(x, sig), mem_filter.mpr ⟨?_, ?_⟩, rfl⟩)
    · exact AMap.get_eq_some.mp hget
    · simpa [BlsSignature.verify] using hne
  have hin : ∀ x, seen.contains x ↔ x ∈ sigs.map Prod.fst := by
    intro x
    rw [hcollected.contains x]
    simp [AMap.contains]
  refine ⟨mapping.filter seen.contains, ⟨hm.filter _, fun x hx => (mem_filter.mp hx).1, ?_⟩, ?_⟩
  · show mapping.filterMap seen.get = _
    rw [← filterMap_eq_filter, map_filterMap]
    apply filterMap_congr
    intro x _
    cases hget : seen.get x with
    | none => simp [Option.guard, AMap.contains, hget]
    | some sig => simp [Option.guard, AMap.contains, hget, hvalid x sig hget]
  · intro x
    rw [mem_filter, hin x]
    exact ⟨fun hx => hx.2, fun hx => ⟨hcollected.members x hx, hx⟩⟩

theorem new_sig_mem (h : new sigs mapping msg = .ok c) (hsg : sg ∈ c.sig) : ∃ x, (x, sg) ∈ sigs := by
  unfold new at h
  obtain ⟨seen, hcol, h⟩ := bind_eq_ok.mp h
  dsimp only at h
  split at h
  · cases h
  cases h
  obtain ⟨x, -, hx⟩ := mem_filterMap.mp hsg
  exact ⟨x, ((collect_ok hcol).mem hx).resolve_left (by simp)⟩

/-- `c` holds the signatures of a supermajority of `validators` over `msg`. -/
def CertifiedBy (c : SigCol) (validators : ValidatorSet) (msg : SignedMsg) : Prop :=
  ∃ signers, c.SignedBy validators.members msg signers ∧ validators.hasSuperMajorityVotes signers = .ok true

theorem new_certifiedBy {validators : ValidatorSet} (h : new sigs validators.members msg = .ok c)
    (hsuper : validators.hasSuperMajorityVotes (sigs.map Prod.fst) = .ok true) : c.CertifiedBy validators msg := by
  obtain ⟨signers, hsigned, hmem⟩ := new_signedBy ValidatorSet.members_nodup h
  exact ⟨signers, hsigned, ValidatorSet.hasThresholdVotes_congr hsigned.nodup hmem hsuper⟩

end SigCol

end MonadBft
