/-
  MonadBft.Lib.Machine — machine integers and the order of a range over a map.

  `int64` is the two's complement value a sum of `int`s has, `sub64` and `add64` are the
  difference and the sum of two `uint64`s. A Go map is ranged over in any order: `shuffle` takes the order from a list of
  choices, and every choice gives a permutation (`shuffle_perm`).
-/
import Mathlib.Data.List.Perm.Basic
import Mathlib.Tactic.SplitIfs
import Mathlib.Algebra.Group.Int.Defs
import Mathlib.Algebra.Group.Nat.Defs

namespace MonadBft.Lib

/-- The two's complement value of a sum of `int`s. -/
def int64 (n : Int) : Int := (n + 2 ^ 63) % 2 ^ 64 - 2 ^ 63

variable {n : Nat}

theorem int64_of_lt (h : n < 2 ^ 63) : int64 n = n := by
  unfold int64
  omega

theorem int64_of_ge (h : 2 ^ 63 ≤ n) (hn : n < 2 ^ 64) : int64 n < 0 := by
  unfold int64
  omega

theorem int64_ne_zero (hn : n < 2 ^ 64) (h0 : n ≠ 0) : int64 n ≠ 0 := by
  unfold int64
  omega

/-- The difference of two `uint64`s. -/
def sub64 (a b : Nat) : Nat := (a + 2 ^ 64 - b) % 2 ^ 64

theorem sub64_lt (a b : Nat) : sub64 a b < 2 ^ 64 := Nat.mod_lt _ (by decide)

theorem sub64_of_le {a b : Nat} (h : b ≤ a) (ha : a < 2 ^ 64) : sub64 a b = a - b := by
  unfold sub64
  omega

/-- The sum of two `uint64`s. -/
def add64 (a b : Nat) : Nat := (a + b) % 2 ^ 64

theorem add64_lt (a b : Nat) : add64 a b < 2 ^ 64 := Nat.mod_lt _ (by decide)

theorem add64_of_lt {a b : Nat} (h : a + b < 2 ^ 64) : add64 a b = a + b := Nat.mod_eq_of_lt h

variable {α : Type}

/-- The elements of `l` in the order the choices `ks` give: each takes one of those left. -/
def shuffle : List Nat → List α → List α
  | [], l => l
  | _ :: _, [] => []
  | k :: ks, x :: l =>
    let i := k % (l.length + 1)
    ((x :: l)[i]?).toList ++ shuffle ks ((x :: l).eraseIdx i)

theorem shuffle_perm (ks : List Nat) (l : List α) : (shuffle ks l).Perm l := by
  induction ks generalizing l with
  | nil => exact List.Perm.refl _
  | cons k ks ih =>
    cases l with
    | nil => exact List.Perm.refl _
    | cons x l =>
      have hi : k % (l.length + 1) < (x :: l).length := Nat.mod_lt _ (by simp)
      simp only [shuffle]
      rw [List.getElem?_eq_getElem hi]
      exact ((ih _).cons _).trans (List.getElem_cons_eraseIdx_perm hi)

theorem mem_shuffle {ks : List Nat} {l : List α} {x : α} : x ∈ shuffle ks l ↔ x ∈ l :=
  (shuffle_perm ks l).mem_iff

end MonadBft.Lib
