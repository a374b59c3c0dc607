/-
  MonadBft.EpochMap — the validators of each epoch, as they are inserted
  (`validator.ValidatorsEpochMapping`).

  An epoch is inserted with its validators and their stakes, and with the mapping to their BLS
  keys. After a restart it may be inserted again; then the source compares the two with what
  it has. `ValidatorsEpochMapping` of `MonadBft.Epoch` is what the rest of the development
  reads off this.

  The comparison reads only the lists of node ids. So a second insertion that passes has the
  same members, but it is the same data exactly when no node comes with another stake or
  another key (`reinsert_same_iff`); with others it passes too (`reinsert_other_stakes`). The
  entry that is kept is always the first.
-/
import MonadBft.Stake
import MonadBft.Lib.Steps

namespace MonadBft

open Lib

/-- `validator.ValidatorMapping`, over keys `K`: every node id listed has a key. -/
structure ValidatorMapping (K : Type) where
  nodeIds : List NodeId
  pubs : AMap NodeId K
  keyed : ∀ {id}, id ∈ nodeIds ↔ (pubs.get id).isSome

structure EpochEntry (K : Type) where
  valSet : StakeSet
  certPubkeys : ValidatorMapping K

inductive InsertPanic where
  /-- `validator: ValidatorSetData has duplicates or invalid entries` -/
  | invalidEntries (err : StakeErr)
  /-- `validator: validator set mismatch on re-insert` -/
  | setMismatch
  /-- `validator: validator mapping mismatch on re-insert` -/
  | mappingMismatch
  deriving DecidableEq, Repr

variable {K : Type}

namespace ValidatorMapping

/-- The loop of `NewValidatorMapping`: a later entry for a node replaces its key. -/
def addKeys (pubs : AMap NodeId K) (entries : List (NodeId × K)) : AMap NodeId K :=
  entries.foldl (fun m e => m.insert e.1 e.2) pubs

theorem addKeys_isSome {pubs : AMap NodeId K} {entries : List (NodeId × K)} {id : NodeId} :
    ((addKeys pubs entries).get id).isSome ↔ id ∈ entries.map Prod.fst ∨ (pubs.get id).isSome := by
  unfold addKeys
  induction entries generalizing pubs with
  | nil => simp
  | cons e entries ih =>
    rw [List.foldl_cons, ih, AMap.get_insert, List.map_cons, List.mem_cons]
    by_cases he : id = e.1 <;> simp [he]

def new (entries : List (NodeId × K)) : ValidatorMapping K where
  nodeIds := (entries.map Prod.fst).insertionSort (· ≤ ·)
  pubs := addKeys AMap.empty entries
  keyed := by simp [addKeys_isSome]

end ValidatorMapping

namespace EpochEntry

def insert (m : AMap Nat (EpochEntry K)) (epoch : Nat) (valData : List (NodeId × Stake))
    (certPubkeys : ValidatorMapping K) : Except InsertPanic (AMap Nat (EpochEntry K)) :=
  match StakeSet.newValidatorSet valData with
  | .error err => .error (.invalidEntries err)
  | .ok vs =>
    match m.get epoch with
    | none => .ok (m.insert epoch ⟨vs, certPubkeys⟩)
    | some e =>
      if e.valSet.members ≠ vs.members then .error .setMismatch
      else if e.certPubkeys.nodeIds ≠ certPubkeys.nodeIds then .error .mappingMismatch
      else .ok m

/-- Equal in the members, in every member's stake and in every member's key. -/
structure Same (e e' : EpochEntry K) : Prop where
  members : e.valSet.members = e'.valSet.members
  stakes : ∀ id ∈ e'.valSet.members, e.valSet.stakes.get id = e'.valSet.stakes.get id
  nodeIds : e.certPubkeys.nodeIds = e'.certPubkeys.nodeIds
  keys : ∀ id ∈ e'.certPubkeys.nodeIds, e.certPubkeys.pubs.get id = e'.certPubkeys.pubs.get id

/-- No node comes with two stakes or with two keys. -/
structure Agrees (e e' : EpochEntry K) : Prop where
  stakes : ∀ {id s s'}, e.valSet.stakes.get id = some s → e'.valSet.stakes.get id = some s' → s = s'
  keys : ∀ {id k k'}, e.certPubkeys.pubs.get id = some k → e'.certPubkeys.pubs.get id = some k' → k = k'

variable {m m' : AMap Nat (EpochEntry K)} {epoch : Nat} {valData : List (NodeId × Stake)}
  {certPubkeys : ValidatorMapping K} {e e' : EpochEntry K} {id : NodeId}

theorem mem_members_iff {v : StakeSet} : id ∈ v.members ↔ (v.stakes.get id).isSome := by
  rw [StakeSet.members, List.mem_insertionSort, Option.isSome_iff_ne_none, ne_eq, AMap.get_eq_none, not_not]

theorem insert_known (he : m.get epoch = some e) (h : insert m epoch valData certPubkeys = .ok m') :
    m' = m ∧ ∃ vs, StakeSet.newValidatorSet valData = .ok vs ∧ e.valSet.members = vs.members ∧
      e.certPubkeys.nodeIds = certPubkeys.nodeIds := by
  unfold insert at h
  cases hvs : StakeSet.newValidatorSet valData with
  | error err => simp [hvs] at h
  | ok vs =>
    simp only [hvs, he] at h
    split at h
    · cases h
    rename_i hmembers
    split at h
    · cases h
    rename_i hids
    exact ⟨(Except.ok.inj h).symm, vs, rfl, not_not.mp hmembers, not_not.mp hids⟩

/-- With the same members and node ids, the rest is the same if no node has two stakes or keys. -/
theorem same_iff_agrees (hmembers : e.valSet.members = e'.valSet.members)
    (hids : e.certPubkeys.nodeIds = e'.certPubkeys.nodeIds) : e.Same e' ↔ e.Agrees e' := by
  constructor
  · intro h
    refine ⟨?_, ?_⟩
    · intro id s s' hs hs'
      have hget := h.stakes id (mem_members_iff.mpr (by rw [hs']; rfl))
      rw [hs, hs'] at hget
      exact Option.some.inj hget
    · intro id k k' hk hk'
      have hget := h.keys id (e'.certPubkeys.keyed.mpr (by rw [hk']; rfl))
      rw [hk, hk'] at hget
      exact Option.some.inj hget
  · intro h
    refine ⟨hmembers, ?_, hids, ?_⟩
    · intro id hid
      obtain ⟨s', hs'⟩ := Option.isSome_iff_exists.mp (mem_members_iff.mp hid)
      rw [← hmembers] at hid
      obtain ⟨s, hs⟩ := Option.isSome_iff_exists.mp (mem_members_iff.mp hid)
      rw [hs, hs', h.stakes hs hs']
    · intro id hid
      obtain ⟨k', hk'⟩ := Option.isSome_iff_exists.mp (e'.certPubkeys.keyed.mp hid)
      rw [← hids] at hid
      obtain ⟨k, hk⟩ := Option.isSome_iff_exists.mp (e.certPubkeys.keyed.mp hid)
      rw [hk, hk', h.keys hk hk']

/-! ## Runs -/

structure Insertion (K : Type) where
  epoch : Nat
  valData : List (NodeId × Stake)
  certPubkeys : ValidatorMapping K

def Insertion.apply (m : AMap Nat (EpochEntry K)) (c : Insertion K) : Except InsertPanic (AMap Nat (EpochEntry K)) :=
  insert m c.epoch c.valData c.certPubkeys

def Insertion.Brings (c : Insertion K) (e : EpochEntry K) : Prop :=
  StakeSet.newValidatorSet c.valData = .ok e.valSet ∧ e.certPubkeys = c.certPubkeys

theorem Insertion.Brings.unique {c : Insertion K} (h : c.Brings e) (h' : c.Brings e') : e = e' := by
  obtain ⟨vs, keys⟩ := e
  obtain ⟨vs', keys'⟩ := e'
  obtain ⟨hvs, rfl⟩ := h
  obtain ⟨hvs', rfl⟩ := h'
  obtain rfl : vs = vs' := Except.ok.inj (hvs.symm.trans hvs')
  rfl

theorem insert_brings {c : Insertion K} (h : c.apply m = .ok m') (he : m'.get epoch = some e) :
    m.get epoch = some e ∨ c.epoch = epoch ∧ c.Brings e := by
  unfold Insertion.apply insert at h
  cases hvs : StakeSet.newValidatorSet c.valData with
  | error err => simp [hvs] at h
  | ok vs =>
    rw [hvs] at h
    cases hk : m.get c.epoch with
    | some e₀ =>
      simp only [hk] at h
      split at h
      · cases h
      split at h
      · cases h
      · rw [← Except.ok.inj h] at he
        exact .inl he
    | none =>
      simp only [hk] at h
      rw [← Except.ok.inj h, AMap.get_insert] at he
      by_cases hep : epoch = c.epoch
      · rw [if_pos hep] at he
        obtain rfl := Option.some.inj he
        exact .inr ⟨hep.symm, hvs, rfl⟩
      · rw [if_neg hep] at he
        exact .inl he

/-- What is stored was brought by a call of the run. -/
theorem stored_brought {calls : List (Insertion K)} (hrun : runAll Insertion.apply AMap.empty calls = .ok m)
    (he : m.get epoch = some e) : ∃ c ∈ calls, c.epoch = epoch ∧ c.Brings e := by
  have hinv : ∀ epoch e, m.get epoch = some e → ∃ c ∈ calls, c.epoch = epoch ∧ c.Brings e := by
    refine foldlM_invariant (I := fun m => ∀ epoch e, m.get epoch = some e →
      ∃ c ∈ calls, c.epoch = epoch ∧ c.Brings e) ?_ hrun ?_
    · intro c hc m m' hstep ih epoch e he
      rcases insert_brings hstep he with hold | hnew
      · exact ih epoch e hold
      · exact ⟨c, hc, hnew⟩
    · intro epoch e he
      cases he
  exact hinv epoch e he

/-- In any run of insertions, one more for a known epoch that returns changes nothing, and its
data is that of the insertion that is stored exactly if no node comes with another stake or
key. -/
theorem reinsert_same_iff (calls : List (Insertion K)) (hrun : runAll Insertion.apply AMap.empty calls = .ok m)
    (c : Insertion K) (he : m.get c.epoch = some e) (h : c.apply m = .ok m') :
    m' = m ∧ ∃ e', c.Brings e' ∧ (e.Same e' ↔ e.Agrees e') ∧ ∃ c₀ ∈ calls, c₀.epoch = c.epoch ∧ c₀.Brings e := by
  obtain ⟨hm, vs, hvs, hmembers, hids⟩ := insert_known he h
  exact ⟨hm, ⟨vs, c.certPubkeys⟩, ⟨hvs, rfl⟩, same_iff_agrees hmembers hids, stored_brought hrun he⟩

/-- Two validators with stakes 1 and 3 and keys 10 and 11. -/
def firstInsertion : Insertion Nat := ⟨1, [(0, .wrap 1), (1, .wrap 3)], .new [(0, 10), (1, 11)]⟩

/-- The same node ids with stakes 3 and 1 and one key changed. -/
def secondInsertion : Insertion Nat := ⟨1, [(1, .wrap 1), (0, .wrap 3)], .new [(0, 10), (1, 12)]⟩

theorem reinsert_same_first : ∃ m e, runAll Insertion.apply AMap.empty [firstInsertion] = .ok m ∧
    m.get 1 = some e ∧ firstInsertion.apply m = .ok m ∧ e.Same e := by
  obtain ⟨m, hm⟩ : ∃ m, runAll Insertion.apply AMap.empty [firstInsertion] = .ok m := ⟨_, rfl⟩
  obtain ⟨e, he⟩ : ∃ e, m.get 1 = some e := by
    cases hm
    exact ⟨_, rfl⟩
  obtain ⟨m', h⟩ : ∃ m', firstInsertion.apply m = .ok m' := by
    cases hm
    exact ⟨_, rfl⟩
  obtain ⟨rfl, e', hbrings, hiff, c₀, hc₀, -, hbrings₀⟩ := reinsert_same_iff _ hm firstInsertion he h
  obtain rfl := List.mem_singleton.mp hc₀
  obtain rfl := hbrings.unique hbrings₀
  refine ⟨m', e', hm, he, h, hiff.mpr ⟨?_, ?_⟩⟩
  · intro id s s' hs hs'
    exact Option.mem_unique hs hs'
  · intro id k k' hk hk'
    exact Option.mem_unique hk hk'

/-- The second insertion passes. By the data it brings, node 1 alone is no supermajority; by what
is stored it is. The key it brings for node 1 is not the one that is stored. -/
theorem reinsert_other_stakes : ∃ m e e', runAll Insertion.apply AMap.empty [firstInsertion] = .ok m ∧
    m.get 1 = some e ∧ secondInsertion.apply m = .ok m ∧ secondInsertion.Brings e' ∧ ¬e.Same e' ∧
    e.valSet.hasSuperMajorityVotes [1] = .ok true ∧ e'.valSet.hasSuperMajorityVotes [1] = .ok false ∧
    e.certPubkeys.pubs.get 1 = some 11 ∧ e'.certPubkeys.pubs.get 1 = some 12 := by
  obtain ⟨m, hm⟩ : ∃ m, runAll Insertion.apply AMap.empty [firstInsertion] = .ok m := ⟨_, rfl⟩
  obtain ⟨e, he⟩ : ∃ e, m.get 1 = some e := by
    cases hm
    exact ⟨_, rfl⟩
  obtain ⟨vs', hvs'⟩ : ∃ vs', StakeSet.newValidatorSet secondInsertion.valData = .ok vs' := ⟨_, rfl⟩
  have hkeys : e.certPubkeys.pubs.get 1 = some 11 := by
    cases hm
    cases he
    rfl
  have hkeys' : secondInsertion.certPubkeys.pubs.get 1 = some 12 := rfl
  refine ⟨m, e, ⟨vs', secondInsertion.certPubkeys⟩, hm, he, ?_, ⟨hvs', rfl⟩, ?_, ?_, ?_, hkeys, hkeys'⟩
  · cases hm
    rfl
  · intro hsame
    have hlisted : 1 ∈ secondInsertion.certPubkeys.nodeIds := by decide
    have hsame1 := hsame.keys 1 hlisted
    rw [hkeys, hkeys'] at hsame1
    cases hsame1
  · cases hm
    cases he
    decide +kernel
  · cases hvs'
    decide +kernel

end EpochEntry

end MonadBft
