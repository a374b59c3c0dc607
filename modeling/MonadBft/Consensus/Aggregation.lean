/-
  MonadBft.Consensus.Aggregation — signature collections over real aggregation
  (`sigcol.New`, `BlsSignatureCollection.Verify`).

  `SigCol.new` looks at each signature by itself. The source does not: it adds the
  signatures and the keys up and checks the sums, and looks for bad signers only when that
  check fails. The two differ where keys are chosen to cancel, and here signatures are
  points: `Signing` gives the key of each node and the point of each signature.

  Proved: what `New` answers for signatures of distinct members (`new_eq`), that a signer it
  blames supplied a signature that does not verify (`new_blames`), and that what it returns
  passes `Verify` (`verifyCol_ofMap`).
-/
import MonadBft.Lib.Bls
import MonadBft.Validation

namespace MonadBft

open Lib AMap

structure Signing (K S : Type) [AddCommGroup K] [AddCommGroup S] where
  scheme : Bls.Scheme SignedMsg K S
  pubKey : NodeId → K
  point : BlsSignature → S

/-- The collection of the signatures in `seen`. -/
def SigCol.ofMap (mapping : List NodeId) (seen : AMap NodeId BlsSignature) : SigCol :=
  ⟨mapping.map seen.contains, mapping.filterMap seen.get⟩

namespace Signing

variable {K S : Type} [AddCommGroup K] [AddCommGroup S] [DecidableEq S]
variable (b : Signing K S)

/-- The first loop of `New`; signatures are compared by their encoding. -/
def collect (mapping : List NodeId) (seen : AMap NodeId BlsSignature) :
    List (NodeId × BlsSignature) → Except SigColErr (AMap NodeId BlsSignature)
  | [] => .ok seen
  | (id, sig) :: rest =>
    if !mapping.contains id then .error .nodeIdNotInMapping
    else
      match seen.get id with
      | some prev =>
        if b.point prev ≠ b.point sig then .error .conflictingSignatures else collect mapping seen rest
      | none => collect mapping (seen.insert id sig) rest

variable {mapping : List NodeId} {msg : SignedMsg} {seen : AMap NodeId BlsSignature} {sigs : List (NodeId × BlsSignature)}

theorem collect_distinct (hnodup : (seen.keys ++ sigs.map Prod.fst).Nodup)
    (hmem : ∀ x ∈ sigs.map Prod.fst, x ∈ mapping) :
    ∃ out, b.collect mapping seen sigs = .ok out ∧ out.entries = seen.entries ++ sigs := by
  induction sigs generalizing seen with
  | nil => exact ⟨seen, rfl, by simp⟩
  | cons e sigs ih =>
    obtain ⟨id, sig⟩ := e
    have hid : id ∈ mapping := hmem id (by simp)
    have hnew : id ∉ seen.keys := by
      intro hin
      exact List.disjoint_of_nodup_append hnodup hin (by simp)
    have hkeys : (seen.insert id sig).keys = seen.keys ++ [id] := by
      simp [keys, entries_insert_new seen hnew]
    have hrest : ((seen.insert id sig).keys ++ sigs.map Prod.fst).Nodup := by
      rw [hkeys]
      simpa using hnodup
    obtain ⟨out, hout, hentries⟩ := ih hrest fun x hx => hmem x (.tail _ hx)
    refine ⟨out, ?_, ?_⟩
    · simp [collect, hid, get_eq_none.mpr hnew, hout]
    · rw [hentries, entries_insert_new seen hnew]
      simp

theorem collect_ok {out : AMap NodeId BlsSignature} (h : b.collect mapping seen sigs = .ok out) :
    SigCol.Collected mapping seen sigs out := by
  induction sigs generalizing seen with
  | nil =>
    cases h
    exact .nil
  | cons e sigs ih =>
    obtain ⟨id, sig⟩ := e
    simp only [collect] at h
    split at h
    · cases h
    rename_i hid
    split at h
    · rename_i hget
      split at h
      · cases h
      · exact .again (by simpa using hid) (by simp [contains, hget]) (ih h)
    · exact .first (by simpa using hid) (ih h)

theorem collect_error {e : SigColErr}
    (h : b.collect mapping seen sigs = .error e) : e = .nodeIdNotInMapping ∨ e = .conflictingSignatures := by
  induction sigs generalizing seen with
  | nil => cases h
  | cons head sigs ih =>
    obtain ⟨id, sig⟩ := head
    simp only [collect] at h
    split at h
    · cases h
      exact .inl rfl
    split at h
    · split at h
      · cases h
        exact .inr rfl
      · exact ih h
    · exact ih h

variable [DecidableEq K]

/-- `BlsSignature.Verify` under the key of a node. -/
def valid (msg : SignedMsg) (x : NodeId) (sg : BlsSignature) : Bool := b.scheme.verify (b.pubKey x) msg (b.point sg)

def badSigners (msg : SignedMsg) (seen : AMap NodeId BlsSignature) : List NodeId :=
  (seen.entries.filter fun e => !b.valid msg e.1 e.2).map Prod.fst

/-- The aggregate check: the sum of the signatures under the sum of the keys. -/
def aggregateVerifies (msg : SignedMsg) (seen : AMap NodeId BlsSignature) : Bool :=
  b.scheme.verify (seen.entries.map fun e => b.pubKey e.1).sum msg (seen.entries.map fun e => b.point e.2).sum

def new : Aggregator := fun sigs mapping msg => do
  let seen ← b.collect mapping AMap.empty sigs
  if seen.entries = [] ∨ b.aggregateVerifies msg seen then return SigCol.ofMap mapping seen
  else if b.badSigners msg seen = [] then .error .invalidSignatures
  else .error (.invalidSignaturesCreate (b.badSigners msg seen))

def verifyCol (c : SigCol) (mapping : List NodeId) (msg : SignedMsg) : Except SigColErr (List NodeId) :=
  if c.signers.length ≠ mapping.length then .error .signersLenMismatch
  else if c.signers.length > MaxSignersLen then .error .signersLenExceeded
  else
    let signers := SigCol.signersOf mapping c.signers
    let sig := (c.sig.map b.point).sum
    if sig = 0 then
      if signers = [] ∧ c.signers.length = 0 then .ok signers else .error .invalidSignatures
    else if !b.scheme.verify (signers.map b.pubKey).sum msg sig then .error .invalidSignatures
    else .ok signers

def validatorEnv (em : EpochManager) (vals : ValidatorsEpochMapping) (getLeader : Nat → ValidatorSet → NodeId) :
    ValidatorEnv :=
  ⟨em, vals, getLeader, b.verifyCol⟩

/-! ## What `New` answers -/

theorem new_eq (hmem : ∀ x ∈ seen.keys, x ∈ mapping) : b.new seen.entries mapping msg =
      if seen.entries = [] ∨ b.aggregateVerifies msg seen then .ok (SigCol.ofMap mapping seen)
      else if b.badSigners msg seen = [] then .error .invalidSignatures
      else .error (.invalidSignaturesCreate (b.badSigners msg seen)) := by
  have hnodup : ((empty : AMap NodeId BlsSignature).keys ++ seen.entries.map Prod.fst).Nodup := by
    simpa [keys, empty] using seen.nodup
  obtain ⟨out, hout, hentries⟩ := b.collect_distinct hnodup hmem
  obtain rfl : out = seen := by
    obtain ⟨es, hes⟩ := out
    obtain ⟨es', hes'⟩ := seen
    obtain rfl : es = es' := by simpa [empty] using hentries
    rfl
  simp only [new, hout]
  rfl

theorem valid_of_badSigners_nil (h : b.badSigners msg seen = []) : ∀ e ∈ seen.entries, b.valid msg e.1 e.2 = true := by
  intro e he
  by_contra hinv
  have hin : e.1 ∈ b.badSigners msg seen :=
    List.mem_map_of_mem (List.mem_filter.mpr ⟨he, by simpa using hinv⟩)
  rw [h] at hin
  cases hin

theorem new_blames : Aggregator.Blames b.new b.valid := by
  intro sigs mapping msg bad h
  unfold new at h
  cases hcol : b.collect mapping empty sigs with
  | error e =>
    rw [hcol] at h
    cases h
    rcases b.collect_error hcol with h | h <;> cases h
  | ok seen =>
    rw [hcol] at h
    simp only [bind, Except.bind] at h
    split at h
    · cases h
    split at h
    · cases h
    rename_i hne
    cases h
    refine ⟨hne, fun x hx => ?_⟩
    obtain ⟨⟨y, sg⟩, hmem, rfl⟩ := List.mem_map.mp hx
    obtain ⟨hin, hbad⟩ := List.mem_filter.mp hmem
    refine ⟨sg, ?_, by simpa using hbad⟩
    exact ((b.collect_ok hcol).mem (get_eq_some.mpr hin)).resolve_left (by simp)

/-- A collection that comes out is that of the signatures that went in, whose aggregate verifies. -/
theorem new_ok (hne : seen.entries ≠ []) {sc : SigCol} (h : b.new seen.entries mapping msg = .ok sc) :
    (∀ x ∈ seen.keys, x ∈ mapping) ∧ sc = SigCol.ofMap mapping seen ∧ b.aggregateVerifies msg seen := by
  have hmem : ∀ x ∈ seen.keys, x ∈ mapping := by
    obtain ⟨out, hout, -⟩ := bind_eq_ok.mp h
    exact (b.collect_ok hout).members
  rw [b.new_eq hmem] at h
  split at h
  · rename_i hagg
    exact ⟨hmem, (Except.ok.inj h).symm, hagg.resolve_left hne⟩
  split at h <;> cases h

/-! ## What `Verify` answers -/

theorem signersOf_map (mapping : List NodeId) (f : NodeId → Bool) :
    SigCol.signersOf mapping (mapping.map f) = mapping.filter f := by
  induction mapping with
  | nil => rfl
  | cons x mapping ih =>
    have hcons : SigCol.signersOf (x :: mapping) ((x :: mapping).map f) =
        (if f x then [x] else []) ++ SigCol.signersOf mapping (mapping.map f) := by
      cases hx : f x <;> simp [SigCol.signersOf, hx]
    rw [hcons, ih]
    cases hx : f x <;> simp [hx]

theorem signers_perm (hm : mapping.Nodup) (hmem : ∀ x ∈ seen.keys, x ∈ mapping) :
    (mapping.filter seen.contains).Perm seen.keys := by
  refine (List.perm_ext_iff_of_nodup (hm.filter _) seen.nodup).mpr fun x => ?_
  rw [List.mem_filter]
  constructor
  · rintro ⟨-, hx⟩
    by_contra hnot
    simp [contains, get_eq_none.mpr hnot] at hx
  · intro hx
    refine ⟨hmem x hx, ?_⟩
    cases hget : seen.get x with
    | none => exact absurd hx (get_eq_none.mp hget)
    | some sg => simp [contains, hget]

theorem filterMap_get_keys (seen : AMap NodeId BlsSignature) : seen.keys.filterMap seen.get = seen.values := by
  rw [keys, values, List.filterMap_map, ← List.filterMap_eq_map]
  refine List.filterMap_congr fun e he => ?_
  exact get_eq_some.mpr he

theorem sigs_perm (hm : mapping.Nodup) (hmem : ∀ x ∈ seen.keys, x ∈ mapping) :
    (mapping.filterMap seen.get).Perm seen.values := by
  have hfilter : (mapping.filter seen.contains).filterMap seen.get = mapping.filterMap seen.get := by
    rw [List.filterMap_filter]
    refine List.filterMap_congr fun x _ => ?_
    cases hget : seen.get x <;> simp [contains, hget]
  rw [← hfilter, ← filterMap_get_keys]
  exact (signers_perm hm hmem).filterMap _

/-- A collection whose aggregate check passed verifies, unless the set is too large. -/
theorem verifyCol_ofMap (hm : mapping.Nodup) (hmem : ∀ x ∈ seen.keys, x ∈ mapping) (h : b.aggregateVerifies msg seen) :
    b.verifyCol (SigCol.ofMap mapping seen) mapping msg =
      if mapping.length > MaxSignersLen then .error .signersLenExceeded else .ok (mapping.filter seen.contains) := by
  have hkeys : ((mapping.filter seen.contains).map b.pubKey).sum = (seen.entries.map fun e => b.pubKey e.1).sum := by
    rw [((signers_perm hm hmem).map b.pubKey).sum_eq, keys, List.map_map]
    rfl
  have hsig : ((mapping.filterMap seen.get).map b.point).sum = (seen.entries.map fun e => b.point e.2).sum := by
    rw [((sigs_perm hm hmem).map b.point).sum_eq, values, List.map_map]
    rfl
  have hne := b.scheme.ne_zero_of_verify h
  unfold aggregateVerifies at h
  simp only [verifyCol, SigCol.ofMap, List.length_map, signersOf_map, hsig, hkeys, hne, h]
  simp

end Signing

end MonadBft
