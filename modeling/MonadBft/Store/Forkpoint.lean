/-
  MonadBft.Store.Forkpoint — the forkpoint and validator set files (`store.ConfigFile`,
  `store/forkpoint.go`, and `loadPersistedState` of `node/persist.go`).

  `forkpoint.rlp` holds a checkpoint that names the epochs it needs, `validators.rlp` the sets of
  some epochs. They are written by different commands. A new set is merged with the sets on disk,
  and the sets of epochs before the oldest one of the last checkpoint are dropped. Each file is
  replaced as a whole by a rename, so a crash leaves the old or the new content; the backups
  written beside them are never read.

  Proved: what a write of a set does to the sets on disk (`merged_get`, `of_merged_get`,
  `writeValidatorSet_ok`), and that a forkpoint whose epochs have sets loads with them
  (`loadPersistedState_of_covered`, `loadPersistedState_some`).
-/
import Mathlib.Data.List.Sort
import MonadBft.Epoch
import MonadBft.Lib.Except

namespace MonadBft

open Lib AMap List

structure ValidatorSetDataWithEpoch where
  epoch : Nat
  validators : ValidatorSet
  deriving DecidableEq

structure Disk where
  forkpoint : Option Checkpoint
  validators : List ValidatorSetDataWithEpoch

structure ConfigFile where
  lastValSet : Option ValidatorSetDataWithEpoch
  checkpoint : Option Checkpoint

/-- The map by epoch that both readers of `validators.rlp` build: a later set replaces an earlier one. -/
def byEpoch (sets : List ValidatorSetDataWithEpoch) : AMap Nat ValidatorSetDataWithEpoch :=
  sets.foldl (fun m s => m.insert s.epoch s) AMap.empty

/-- The set `validators.rlp` has for an epoch. -/
def Disk.lookup (d : Disk) (epoch : Nat) : Option ValidatorSetDataWithEpoch := (byEpoch d.validators).get epoch

/-- The first locked epoch without a set. -/
structure MissingSet where
  epoch : Nat
  deriving DecidableEq, Repr

/-- The set of an epoch the forkpoint names. -/
def Disk.locked (d : Disk) (le : LockedEpoch) : Except MissingSet ValidatorSetDataWithEpoch :=
  match d.lookup le.epoch with
  | none => .error ⟨le.epoch⟩
  | some s => .ok s

def loadPersistedState (d : Disk) : Except MissingSet (Option (Checkpoint × List ValidatorSetDataWithEpoch)) :=
  match d.forkpoint with
  | none => .ok none
  | some cp => do
    let locked ← cp.validatorSets.mapM d.locked
    return some (cp, locked)

namespace ConfigFile

/-- `LoadPersisted`: the last set is forgotten in a restart. -/
def loadPersisted (d : Disk) : ConfigFile := ⟨none, d.forkpoint⟩

variable (c : ConfigFile)

def writeCheckpoint (d : Disk) (cp : Checkpoint) : ConfigFile × Disk :=
  ({ c with checkpoint := some cp }, { d with forkpoint := some cp })

/-- The oldest epoch the last checkpoint names. -/
def minLocked : Option Nat := c.checkpoint.bind fun cp => (cp.validatorSets.map (·.epoch)).min?

def kept (m : AMap Nat ValidatorSetDataWithEpoch) : List ValidatorSetDataWithEpoch :=
  (m.values.filter fun s => c.minLocked.all (· ≤ s.epoch)).insertionSort (·.epoch ≤ ·.epoch)

structure EpochGap where
  epoch : Nat
  last : Nat
  deriving DecidableEq, Repr

/-- The sets on disk after the merge with a new one. -/
def merged (d : Disk) (vset : ValidatorSetDataWithEpoch) : List ValidatorSetDataWithEpoch :=
  let sets := c.kept ((byEpoch d.validators).insert vset.epoch vset)
  if sets.isEmpty then [vset] else sets

/-- `WriteValidatorSet`: an epoch that has been seen is skipped, and a gap is a panic. -/
def writeValidatorSet (d : Disk) (vset : ValidatorSetDataWithEpoch) : Except EpochGap (ConfigFile × Disk) :=
  let write := ({ c with lastValSet := some vset }, { d with validators := c.merged d vset })
  match c.lastValSet with
  | none => .ok write
  | some last =>
    if vset.epoch ≤ last.epoch then .ok (c, d)
    else if vset.epoch ≠ last.epoch + 1 then .error ⟨vset.epoch, last.epoch⟩
    else .ok write

end ConfigFile

/-! ## Sets by epoch -/

variable {sets : List ValidatorSetDataWithEpoch} {s vset : ValidatorSetDataWithEpoch} {epoch : Nat} {d : Disk}
  {c : ConfigFile} {m : AMap Nat ValidatorSetDataWithEpoch}

theorem byEpoch_get (sets : List ValidatorSetDataWithEpoch) (epoch : Nat) :
    (byEpoch sets).get epoch = sets.reverse.find? (·.epoch = epoch) := by
  induction sets using reverseRecOn with
  | nil => rfl
  | append_singleton sets a ih =>
    have hstep : byEpoch (sets ++ [a]) = (byEpoch sets).insert a.epoch a := by
      simp [byEpoch, foldl_append]
    rw [hstep, get_insert, reverse_append, reverse_singleton, singleton_append, find?_cons]
    by_cases h : epoch = a.epoch
    · simp [h]
    · have hne : ¬a.epoch = epoch := fun heq => h heq.symm
      simp [h, hne, ih]

def Keyed (m : AMap Nat ValidatorSetDataWithEpoch) : Prop := ∀ e ∈ m.entries, e.2.epoch = e.1

theorem byEpoch_keyed (sets : List ValidatorSetDataWithEpoch) : Keyed (byEpoch sets) := by
  intro e he
  have hget := get_eq_some.mpr he
  rw [byEpoch_get] at hget
  simpa using find?_some hget

theorem Keyed.insert (h : Keyed m) (vset : ValidatorSetDataWithEpoch) : Keyed (m.insert vset.epoch vset) := by
  intro e he
  rcases of_get_insert (get_eq_some.mpr he) with hold | ⟨hk, hv⟩
  · exact h e (get_eq_some.mp hold)
  · rw [hk, hv]

/-- With one set for each epoch, the order does not matter. -/
theorem byEpoch_eq_some (h : (sets.map (·.epoch)).Nodup) :
    (byEpoch sets).get epoch = some s ↔ s ∈ sets ∧ s.epoch = epoch := by
  rw [byEpoch_get]
  constructor
  · intro hf
    exact ⟨mem_reverse.mp (mem_of_find?_eq_some hf), by simpa using find?_some hf⟩
  · rintro ⟨hs, rfl⟩
    cases hf : sets.reverse.find? (·.epoch = s.epoch) with
    | none =>
      have := find?_eq_none.mp hf s (mem_reverse.mpr hs)
      simp at this
    | some t =>
      have ht := mem_reverse.mp (mem_of_find?_eq_some hf)
      have heq : t.epoch = s.epoch := by simpa using find?_some hf
      rw [inj_on_of_nodup_map h ht hs heq]

theorem Keyed.nodup (h : Keyed m) : (m.values.map (·.epoch)).Nodup := by
  have hkeys : m.values.map (·.epoch) = m.keys := by
    unfold values AMap.keys
    rw [map_map]
    exact map_congr_left h
  rw [hkeys]
  exact m.nodup

theorem Keyed.mem_values (h : Keyed m) : s ∈ m.values ↔ m.get s.epoch = some s := by
  rw [get_eq_some]
  constructor
  · intro hs
    obtain ⟨e, he, rfl⟩ := mem_map.mp hs
    rw [h e he]
    exact he
  · intro hs
    exact mem_map.mpr ⟨_, hs, rfl⟩

namespace ConfigFile

theorem mem_kept : s ∈ c.kept m ↔ s ∈ m.values ∧ ∀ n ∈ c.minLocked, n ≤ s.epoch := by
  unfold kept
  rw [mem_insertionSort, mem_filter]
  simp [Option.all_eq_true]

theorem kept_get (h : Keyed m) :
    (byEpoch (c.kept m)).get epoch = some s ↔ m.get epoch = some s ∧ ∀ n ∈ c.minLocked, n ≤ epoch := by
  have hnodup : ((c.kept m).map (·.epoch)).Nodup := by
    have hperm := (perm_insertionSort (·.epoch ≤ ·.epoch)
      (m.values.filter fun s => c.minLocked.all (· ≤ s.epoch))).map (·.epoch)
    exact hperm.nodup_iff.mpr (h.nodup.sublist (filter_sublist.map _))
  rw [byEpoch_eq_some hnodup, mem_kept, h.mem_values]
  constructor
  · rintro ⟨⟨hg, hmin⟩, rfl⟩
    exact ⟨hg, hmin⟩
  · rintro ⟨hg, hmin⟩
    have heq : s.epoch = epoch := h _ (get_eq_some.mp hg)
    subst heq
    exact ⟨⟨hg, hmin⟩, rfl⟩

/-- The epochs that are kept have the sets they had, and the new one. -/
theorem merged_get (hmin : ∀ n ∈ c.minLocked, n ≤ epoch) :
    (byEpoch (c.merged d vset)).get epoch = if epoch = vset.epoch then some vset else d.lookup epoch := by
  have hkeyed := (byEpoch_keyed d.validators).insert vset
  rw [Disk.lookup, ← get_insert]
  unfold merged
  by_cases hempty : (c.kept ((byEpoch d.validators).insert vset.epoch vset)).isEmpty = true
  · -- nothing is kept, so neither set is there
    rw [if_pos hempty]
    have hnone : ((byEpoch d.validators).insert vset.epoch vset).get epoch = none := by
      rw [Option.eq_none_iff_forall_ne_some]
      intro s hs
      have hmem := (byEpoch_eq_some ?_).mp ((kept_get hkeyed).mpr ⟨hs, hmin⟩)
      · rw [isEmpty_iff.mp hempty] at hmem
        exact not_mem_nil hmem.1
      · rw [isEmpty_iff.mp hempty]
        exact nodup_nil
    have hne : epoch ≠ vset.epoch := by
      rintro rfl
      rw [get_insert_self] at hnone
      cases hnone
    rw [hnone, byEpoch_get]
    simp [Ne.symm hne]
  · rw [if_neg hempty]
    ext s
    rw [kept_get hkeyed]
    exact ⟨fun h => h.1, fun h => ⟨h, hmin⟩⟩

/-- Every set on disk after the merge is the new one, or was there before. -/
theorem of_merged_get (h : (byEpoch (c.merged d vset)).get epoch = some s) :
    epoch = vset.epoch ∧ s = vset ∨ epoch ≠ vset.epoch ∧ d.lookup epoch = some s := by
  have hkeyed := (byEpoch_keyed d.validators).insert vset
  have hget : ((byEpoch d.validators).insert vset.epoch vset).get epoch = some s := by
    unfold merged at h
    by_cases hempty : (c.kept ((byEpoch d.validators).insert vset.epoch vset)).isEmpty = true
    · have hnodup : ([vset].map (·.epoch)).Nodup := nodup_singleton _
      rw [if_pos hempty, byEpoch_eq_some hnodup] at h
      obtain ⟨hs, rfl⟩ := h
      obtain rfl := mem_singleton.mp hs
      exact get_insert_self _ _ _
    · rw [if_neg hempty, kept_get hkeyed] at h
      exact h.1
  rw [get_insert] at hget
  by_cases he : epoch = vset.epoch
  · rw [if_pos he] at hget
    exact .inl ⟨he, (Option.some.inj hget).symm⟩
  · rw [if_neg he] at hget
    exact .inr ⟨he, hget⟩

/-- What `WriteValidatorSet` does, if it does not panic. -/
theorem writeValidatorSet_ok {c' : ConfigFile} {d' : Disk} (h : c.writeValidatorSet d vset = .ok (c', d')) :
    (∃ last, c.lastValSet = some last ∧ vset.epoch ≤ last.epoch ∧ c' = c ∧ d' = d) ∨
      (∀ last, c.lastValSet = some last → vset.epoch = last.epoch + 1) ∧
        c' = { c with lastValSet := some vset } ∧ d' = { d with validators := c.merged d vset } := by
  unfold writeValidatorSet at h
  cases hl : c.lastValSet with
  | none =>
    rw [hl] at h
    cases h
    refine .inr ⟨?_, rfl, rfl⟩
    intro last hlast
    cases hlast
  | some last =>
    rw [hl] at h
    dsimp only at h
    by_cases hle : vset.epoch ≤ last.epoch
    · rw [if_pos hle] at h
      cases h
      exact .inl ⟨last, rfl, hle, rfl, rfl⟩
    · rw [if_neg hle] at h
      by_cases hgap : vset.epoch ≠ last.epoch + 1
      · rw [if_pos hgap] at h
        cases h
      · rw [if_neg hgap] at h
        cases h
        refine .inr ⟨?_, rfl, rfl⟩
        intro last' hlast
        obtain rfl := Option.some.inj hlast
        exact not_not.mp hgap

end ConfigFile

/-! ## Loading -/

/-- Every epoch the forkpoint names has a set. -/
def Disk.Covered (d : Disk) : Prop :=
  ∀ cp, d.forkpoint = some cp → ∀ le ∈ cp.validatorSets, (d.lookup le.epoch).isSome

theorem locked_eq_ok {le : LockedEpoch} : d.locked le = .ok s ↔ d.lookup le.epoch = some s := by
  unfold Disk.locked
  cases d.lookup le.epoch <;> simp

theorem loadPersistedState_of_covered (h : d.Covered) : ∃ r, loadPersistedState d = .ok r := by
  unfold loadPersistedState
  cases hf : d.forkpoint with
  | none => exact ⟨none, rfl⟩
  | some cp =>
    have hall : ∀ le ∈ cp.validatorSets, ∃ s, d.locked le = .ok s := by
      intro le hle
      obtain ⟨s, hs⟩ := Option.isSome_iff_exists.mp (h cp hf le hle)
      exact ⟨s, locked_eq_ok.mpr hs⟩
    obtain ⟨locked, hlocked⟩ := mapM_ok hall
    exact ⟨some (cp, locked), bind_eq_ok.mpr ⟨locked, hlocked, rfl⟩⟩

theorem loadPersistedState_some {cp : Checkpoint} {locked : List ValidatorSetDataWithEpoch}
    (h : loadPersistedState d = .ok (some (cp, locked))) :
    d.forkpoint = some cp ∧ List.Forall₂ (fun le s => d.lookup le.epoch = some s) cp.validatorSets locked := by
  unfold loadPersistedState at h
  cases hf : d.forkpoint with
  | none =>
    rw [hf] at h
    cases h
  | some cp' =>
    rw [hf] at h
    obtain ⟨sets, hsets, h⟩ := bind_eq_ok.mp h
    cases h
    exact ⟨rfl, (mapM_eq_ok hsets).imp fun _ _ hs => locked_eq_ok.mp hs⟩

theorem lookup_epoch (h : d.lookup epoch = some s) : s.epoch = epoch :=
  byEpoch_keyed d.validators _ (get_eq_some.mp h)

end MonadBft
