/-
  MonadBft.Lib.Linked — items that name the item before them.

  A store holds items under their ids, and every item names the id of its parent.
  `Linked k l k'` is a path of parents from `k` on to `k'`, and `follow` the loop that walks
  it. When the parent's id is smaller in some measure, no path comes back to where it started
  (`Linked.ne`, `Linked.nodup`), and a walk with steps enough finds the longest path
  (`follow_of_linked`).
-/
import Mathlib.Data.List.Basic
import Mathlib.Data.List.Nodup

namespace MonadBft.Lib

variable {κ α : Type}

/-- The items found by going from an id to the id of the parent, and the first id that was
not followed. -/
def follow (get : κ → Option α) (parent : α → κ) : Nat → κ → List α × κ
  | 0, k => ([], k)
  | n + 1, k =>
    match get k with
    | none => ([], k)
    | some a =>
      let r := follow get parent n (parent a)
      (a :: r.1, r.2)

/-- `l` leads from `k` along the parents to `k'`. -/
inductive Linked (id parent : α → κ) : κ → List α → κ → Prop
  | nil (k : κ) : Linked id parent k [] k
  | cons (a : α) {l : List α} {k : κ} :
      Linked id parent (parent a) l k → Linked id parent (id a) (a :: l) k

variable {id parent : α → κ} {get : κ → Option α} {k k' : κ} {l l' : List α} {a : α} {n : Nat}

theorem follow_length_le (n : Nat) (k : κ) : (follow get parent n k).1.length ≤ n := by
  induction n generalizing k with
  | zero => simp [follow]
  | succ n ih =>
    simp only [follow]
    split
    · simp
    · rename_i a _
      have := ih (parent a)
      simp only [List.length_cons]
      omega

namespace Linked

theorem nil_iff : Linked id parent k [] k' ↔ k = k' := by
  constructor
  · intro h
    cases h
    rfl
  · rintro rfl
    exact nil k

theorem cons_iff : Linked id parent k (a :: l) k' ↔ k = id a ∧ Linked id parent (parent a) l k' := by
  constructor
  · intro h
    cases h with
    | cons _ h => exact ⟨rfl, h⟩
  · rintro ⟨rfl, h⟩
    exact cons a h

theorem append_iff : Linked id parent k (l ++ l') k' ↔ ∃ m, Linked id parent k l m ∧ Linked id parent m l' k' := by
  induction l generalizing k with
  | nil => simp [nil_iff]
  | cons a l ih =>
    simp only [List.cons_append, cons_iff, ih]
    constructor
    · rintro ⟨rfl, m, h, h'⟩
      exact ⟨m, ⟨rfl, h⟩, h'⟩
    · rintro ⟨m, ⟨rfl, h⟩, h'⟩
      exact ⟨rfl, m, h, h'⟩

theorem snoc_iff : Linked id parent k (l ++ [a]) k' ↔ Linked id parent k l (id a) ∧ parent a = k' := by
  rw [append_iff]
  constructor
  · rintro ⟨m, h, h'⟩
    obtain ⟨rfl, hp⟩ := cons_iff.mp h'
    exact ⟨h, nil_iff.mp hp⟩
  · rintro ⟨h, rfl⟩
    exact ⟨id a, h, cons a (nil _)⟩

theorem map_iff {β : Type} {f : β → α} {l : List β} :
    Linked id parent k (l.map f) k' ↔ Linked (fun b => id (f b)) (fun b => parent (f b)) k l k' := by
  induction l generalizing k with
  | nil => simp [nil_iff]
  | cons b l ih => simp [cons_iff, ih]

section Rank

variable {r : κ → Nat} (hrank : ∀ a, r (parent a) < r (id a))
include hrank

theorem rank_le (h : Linked id parent k l k') : r k' + l.length ≤ r k := by
  induction h with
  | nil k => simp
  | cons a _ ih =>
    have := hrank a
    simp only [List.length_cons]
    omega

theorem ne (h : Linked id parent k l k') (hl : l ≠ []) : k ≠ k' := by
  intro hk
  have := rank_le hrank h
  have := List.length_pos_iff.mpr hl
  rw [hk] at *
  omega

theorem rank_mem_le (h : Linked id parent k l k') (ha : a ∈ l) : r (id a) ≤ r k := by
  obtain ⟨l₁, l₂, rfl⟩ := List.append_of_mem ha
  obtain ⟨m, h₁, h₂⟩ := append_iff.mp h
  have := rank_le hrank h₁
  obtain ⟨rfl, _⟩ := cons_iff.mp h₂
  omega

/-- Only the first item of a path has the id it starts from. -/
theorem ne_of_mem_tail {b : α} (h : Linked id parent k (b :: l) k') (ha : a ∈ l) : id a ≠ k := by
  obtain ⟨rfl, h'⟩ := cons_iff.mp h
  have := rank_mem_le hrank h' ha
  have := hrank b
  intro heq
  have := congrArg r heq
  omega

/-- Every item of a path has an id above that of the end. -/
theorem rank_mem (h : Linked id parent k l k') (ha : a ∈ l) : r k' < r (id a) := by
  obtain ⟨l₁, l₂, rfl⟩ := List.append_of_mem ha
  obtain ⟨m, _, h₂⟩ := append_iff.mp h
  have := rank_le hrank h₂
  obtain ⟨rfl, _⟩ := cons_iff.mp h₂
  simp only [List.length_cons] at this
  omega

theorem nodup (h : Linked id parent k l k') : (l.map id).Nodup := by
  induction h with
  | nil k => exact List.nodup_nil
  | cons a h ih =>
    refine List.nodup_cons.mpr ⟨?_, ih⟩
    intro hmem
    obtain ⟨b, hb, hab⟩ := List.mem_map.mp hmem
    obtain ⟨l₁, l₂, rfl⟩ := List.append_of_mem hb
    obtain ⟨m, h₁, h₂⟩ := append_iff.mp h
    obtain ⟨rfl, _⟩ := cons_iff.mp h₂
    have := rank_le hrank h₁
    have := hrank a
    rw [hab] at *
    omega

end Rank

end Linked

/-! ## The walk -/

theorem follow_linked (keyed : ∀ k a, get k = some a → id a = k) (n : Nat) (k : κ) :
    Linked id parent k (follow get parent n k).1 (follow get parent n k).2 := by
  induction n generalizing k with
  | zero => exact Linked.nil k
  | succ n ih =>
    simp only [follow]
    split
    · exact Linked.nil k
    · rename_i a ha
      rw [← keyed _ _ ha]
      exact Linked.cons a (ih (parent a))

theorem get_of_mem_follow (keyed : ∀ k a, get k = some a → id a = k)
    (ha : a ∈ (follow get parent n k).1) : get (id a) = some a := by
  induction n generalizing k with
  | zero => simp [follow] at ha
  | succ n ih =>
    simp only [follow] at ha
    split at ha
    · simp at ha
    · rename_i b hb
      rcases List.mem_cons.mp ha with rfl | ha
      · rw [keyed _ _ hb]
        exact hb
      · exact ih ha

/-- The walk is the longest path from `k` through the store. -/
theorem follow_of_linked (hl : Linked id parent k l k')
    (hget : ∀ a ∈ l, get (id a) = some a) (hend : get k' = none) (hn : l.length < n) :
    follow get parent n k = (l, k') := by
  induction hl generalizing n with
  | nil k =>
    obtain ⟨n, rfl⟩ : ∃ m, n = m + 1 := ⟨n - 1, by omega⟩
    simp [follow, hend]
  | cons a h ih =>
    obtain ⟨n, rfl⟩ : ∃ m, n = m + 1 := ⟨n - 1, by omega⟩
    have ha := hget a (.head _)
    simp only [List.length_cons] at hn
    have hrest := ih (n := n) (fun b hb => hget b (.tail a hb)) hend (by omega)
    simp only [follow, ha, hrest]

end MonadBft.Lib
