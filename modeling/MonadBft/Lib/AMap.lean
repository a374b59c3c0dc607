/-
  MonadBft.Lib.AMap — finite maps as association lists.

  The entries are kept in insertion order, one for each key. `get` is characterised by
  membership (`get_eq_some`), and every update by what it does to `get`
  (`get_insert`, `get_erase`, `get_eraseAll`, `get_filter`, `get_mapVal`). `toFront` and
  `dropLast` change the order.
-/
import Mathlib.Data.List.Basic
import Mathlib.Data.List.Nodup

namespace MonadBft.Lib

/-- A finite map: no key is listed twice. -/
structure AMap (κ α : Type) where
  entries : List (κ × α)
  nodup : (entries.map Prod.fst).Nodup

namespace AMap

variable {κ α : Type} [DecidableEq κ]

instance [DecidableEq α] : DecidableEq (AMap κ α) := fun m n =>
  decidable_of_iff (m.entries = n.entries) (by cases m; cases n; simp)

instance [Repr κ] [Repr α] : Repr (AMap κ α) := ⟨fun m p => reprPrec m.entries p⟩

def empty : AMap κ α := ⟨[], List.nodup_nil⟩

instance : Inhabited (AMap κ α) := ⟨empty⟩

def keys (m : AMap κ α) : List κ := m.entries.map Prod.fst

def values (m : AMap κ α) : List α := m.entries.map Prod.snd

def get (m : AMap κ α) (k : κ) : Option α := m.entries.lookup k

def contains (m : AMap κ α) (k : κ) : Bool := (m.get k).isSome

def filter (m : AMap κ α) (p : κ → α → Bool) : AMap κ α :=
  ⟨m.entries.filter fun e => p e.1 e.2, (m.nodup.sublist ((List.filter_sublist).map _))⟩

def erase (m : AMap κ α) (k : κ) : AMap κ α := m.filter fun k' _ => k' ≠ k

def mapVal {β : Type} (m : AMap κ α) (f : κ → α → β) : AMap κ β :=
  ⟨m.entries.map fun e => (e.1, f e.1 e.2), by simpa [List.map_map, Function.comp_def] using m.nodup⟩

/-- Set the value of a key, at its place if it has one and at the end otherwise. -/
def insert (m : AMap κ α) (k : κ) (a : α) : AMap κ α :=
  if h : k ∈ m.keys then m.mapVal fun k' v => if k' = k then a else v
  else ⟨m.entries ++ [(k, a)], by
    rw [List.map_append, List.nodup_append]
    refine ⟨m.nodup, by simp, ?_⟩
    intro x hx y hy hxy
    obtain rfl : y = k := by simpa using hy
    exact h (hxy ▸ hx)⟩

def modify (m : AMap κ α) (k : κ) (f : α → α) : AMap κ α :=
  m.mapVal fun k' v => if k' = k then f v else v

variable {k k' : κ} {a : α} {m : AMap κ α}

theorem lookup_eq_some {l : List (κ × α)} (hl : (l.map Prod.fst).Nodup) : l.lookup k = some a ↔ (k, a) ∈ l := by
  induction l with
  | nil => simp
  | cons e l ih =>
    obtain ⟨k', b⟩ := e
    simp only [List.map_cons, List.nodup_cons] at hl
    rw [List.lookup_cons]
    by_cases hk : k = k'
    · subst hk
      have hnot : (k, a) ∉ l := fun hm => hl.1 (List.mem_map_of_mem hm)
      simp [hnot, eq_comm]
    · have hb : (k == k') = false := beq_eq_false_iff_ne.mpr hk
      simp [hb, hk, ih hl.2]

theorem get_eq_some : m.get k = some a ↔ (k, a) ∈ m.entries :=
  lookup_eq_some m.nodup

theorem get_eq_none : m.get k = none ↔ k ∉ m.keys := by
  constructor
  · intro h hk
    obtain ⟨⟨k', a⟩, hm, rfl⟩ := List.mem_map.mp hk
    rw [get_eq_some.mpr hm] at h
    cases h
  · intro h
    cases hg : m.get k with
    | none => rfl
    | some a => exact absurd (List.mem_map_of_mem (get_eq_some.mp hg)) h

@[simp] theorem get_empty (k : κ) : (empty : AMap κ α).get k = none := rfl

theorem get_filter (m : AMap κ α) (p : κ → α → Bool) (k : κ) : (m.filter p).get k = (m.get k).filter (p k) := by
  ext a
  rw [get_eq_some, Option.filter_eq_some_iff, get_eq_some]
  simp [filter]

theorem get_erase (m : AMap κ α) (k k' : κ) : (m.erase k).get k' = if k' = k then none else m.get k' := by
  rw [erase, get_filter]
  by_cases h : k' = k
  · simp [h]
  · cases hg : m.get k' <;> simp [h]

def eraseAll (m : AMap κ α) (ks : List κ) : AMap κ α := ks.foldl erase m

theorem get_eraseAll (m : AMap κ α) (ks : List κ) (k : κ) :
    (m.eraseAll ks).get k = if k ∈ ks then none else m.get k := by
  unfold eraseAll
  induction ks generalizing m with
  | nil => simp
  | cons k' ks ih =>
    rw [List.foldl_cons, ih, get_erase]
    by_cases h : k = k' <;> simp [h]

theorem length_erase_lt (h : m.get k = some a) : (m.erase k).entries.length < m.entries.length := by
  refine List.length_filter_lt_length_iff_exists.mpr ⟨(k, a), get_eq_some.mp h, ?_⟩
  simp

theorem get_mapVal {β : Type} (m : AMap κ α) (f : κ → α → β) (k : κ) : (m.mapVal f).get k = (m.get k).map (f k) := by
  ext b
  rw [get_eq_some, Option.map_eq_some_iff]
  simp only [mapVal, List.mem_map, Prod.mk.injEq, Prod.exists]
  constructor
  · rintro ⟨k', a, hm, rfl, rfl⟩
    exact ⟨a, get_eq_some.mpr hm, rfl⟩
  · rintro ⟨a, hg, rfl⟩
    exact ⟨k, a, get_eq_some.mp hg, rfl, rfl⟩

theorem get_modify (m : AMap κ α) (k : κ) (f : α → α) (k' : κ) :
    (m.modify k f).get k' = if k' = k then (m.get k).map f else m.get k' := by
  rw [modify, get_mapVal]
  by_cases h : k' = k <;> simp [h]

theorem get_insert (m : AMap κ α) (k : κ) (a : α) (k' : κ) :
    (m.insert k a).get k' = if k' = k then some a else m.get k' := by
  unfold insert
  split
  · rename_i hk
    rw [get_mapVal]
    by_cases h : k' = k
    · subst h
      cases hg : m.get k' with
      | none => exact absurd hk (get_eq_none.mp hg)
      | some b => simp
    · simp [h]
  · rename_i hk
    ext b
    rw [get_eq_some]
    simp only [List.mem_append, List.mem_singleton, Prod.mk.injEq]
    by_cases h : k' = k
    · subst h
      have hnot : (k', b) ∉ m.entries := fun hm => hk (List.mem_map_of_mem hm)
      simp [hnot, eq_comm]
    · simp [h, get_eq_some]

theorem entries_insert_new (m : AMap κ α) (h : k ∉ m.keys) : (m.insert k a).entries = m.entries ++ [(k, a)] := by
  unfold insert
  rw [dif_neg h]

@[simp] theorem get_insert_self (m : AMap κ α) (k : κ) (a : α) : (m.insert k a).get k = some a := by
  simp [get_insert]

theorem get_insert_ne (m : AMap κ α) (a : α) (h : k' ≠ k) : (m.insert k a).get k' = m.get k' := by
  simp [get_insert, h]

theorem of_get_insert {a' : α} (h : (m.insert k a).get k' = some a') : m.get k' = some a' ∨ k' = k ∧ a' = a := by
  rw [get_insert] at h
  split_ifs at h with hk
  · exact .inr ⟨hk, (Option.some.inj h).symm⟩
  · exact .inl h

theorem ne_of_get (h : m.get k = some a) (h' : m.get k' = none) : k ≠ k' := by
  intro hk
  rw [hk, h'] at h
  cases h

/-- What is inserted under a free key does not hide anything. -/
theorem get_insert_of_free {a' : α} (h : m.get k = none) (h' : m.get k' = some a') :
    (m.insert k a).get k' = some a' :=
  (get_insert_ne m a (ne_of_get h' h)).trans h'

/-! ## Entries in order -/

/-- Set the value of a key, at the front. -/
def toFront (m : AMap κ α) (k : κ) (a : α) : AMap κ α :=
  ⟨(k, a) :: (m.erase k).entries, by
    refine List.nodup_cons.mpr ⟨fun h => ?_, (m.erase k).nodup⟩
    have hnone : (m.erase k).get k = none := by rw [get_erase, if_pos rfl]
    exact get_eq_none.mp hnone h⟩

def dropLast (m : AMap κ α) : AMap κ α :=
  ⟨m.entries.dropLast, m.nodup.sublist ((List.dropLast_sublist _).map _)⟩

theorem get_toFront (m : AMap κ α) (k : κ) (a : α) (k' : κ) :
    (m.toFront k a).get k' = if k' = k then some a else m.get k' := by
  have hcons : (m.toFront k a).get k' = if k' = k then some a else (m.erase k).get k' := by
    simp only [get, toFront, List.lookup_cons]
    by_cases h : k' = k
    · simp [h]
    · simp [h, beq_eq_false_iff_ne.mpr h]
  rw [hcons, get_erase]
  by_cases h : k' = k <;> simp [h]

theorem of_get_dropLast (h : m.dropLast.get k = some a) : m.get k = some a :=
  get_eq_some.mpr ((List.dropLast_sublist _).subset (get_eq_some.mp h))

end AMap

end MonadBft.Lib
