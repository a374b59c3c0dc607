/-
  MonadBft.Lib.Bfs — breadth-first search, one generation at a time.

  `levels` lists the generations of a search in order. It does not remember what it has seen.
  What it lists can be reached (`mem_level_reaches`).
-/
import Mathlib.Data.List.Basic
import Mathlib.Logic.Relation

namespace MonadBft.Lib

variable {α : Type}

/-- The generation after so many steps. -/
def level (next : α → List α) : Nat → List α → List α
  | 0, l => l
  | n + 1, l => level next n (l.flatMap next)

/-- The generations before the given one, in order. -/
def levels (next : α → List α) : Nat → List α → List α
  | _, [] => []
  | 0, _ => []
  | n + 1, l => l ++ levels next n (l.flatMap next)

variable {next : α → List α} {l : List α} {n : Nat} {a x : α}

@[simp] theorem levels_nil : levels next n [] = [] := by
  cases n <;> rfl

@[simp] theorem levels_zero : levels next 0 l = [] := by
  cases l <;> rfl

theorem levels_succ : levels next (n + 1) l = l ++ levels next n (l.flatMap next) := by
  cases l with
  | nil => simp
  | cons a l => rfl

theorem level_succ (n : Nat) (l : List α) : level next (n + 1) l = (level next n l).flatMap next := by
  induction n generalizing l with
  | zero => rfl
  | succ n ih => exact ih (l.flatMap next)

/-! ## What is reached -/

theorem mem_levels_iff_level : x ∈ levels next n l ↔ ∃ k, k < n ∧ x ∈ level next k l := by
  induction n generalizing l with
  | zero => simp
  | succ n ih =>
    rw [levels_succ, List.mem_append, ih]
    constructor
    · intro h
      rcases h with h | ⟨k, hk, h⟩
      · exact ⟨0, Nat.succ_pos n, h⟩
      · exact ⟨k + 1, by omega, h⟩
    · intro h
      obtain ⟨k, hk, h⟩ := h
      cases k with
      | zero => exact .inl h
      | succ k => exact .inr ⟨k, by omega, h⟩

abbrev Reaches (next : α → List α) : α → α → Prop := Relation.ReflTransGen fun a x => x ∈ next a

theorem mem_level_reaches (h : x ∈ level next n l) : ∃ a ∈ l, Reaches next a x := by
  induction n generalizing x with
  | zero => exact ⟨x, h, .refl⟩
  | succ n ih =>
    rw [level_succ] at h
    obtain ⟨p, hp, hx⟩ := List.mem_flatMap.mp h
    obtain ⟨a, ha, hreach⟩ := ih hp
    exact ⟨a, ha, hreach.tail hx⟩

end MonadBft.Lib
