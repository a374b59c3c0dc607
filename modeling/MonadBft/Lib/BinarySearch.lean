/-
  MonadBft.Lib.BinarySearch — the loop `for lo < hi` over a test that turns true once.

  The test is partial: `none` is an index it cannot be asked at. `binarySearch_eq`: if from
  `lo` to `hi` it is false below `r` and true from `r` on, the loop ends at `r`. Over a list it ends
  at the first element that passes (`binarySearch_findIdx`).
-/
import Mathlib.Tactic.Common

namespace MonadBft.Lib

/-- `n` bounds the number of turns. -/
def binarySearch (p : Nat → Option Bool) : (n lo hi : Nat) → Option Nat
  | 0, lo, hi => if lo < hi then none else some lo
  | n + 1, lo, hi =>
    if lo < hi then
      match p ((lo + hi) / 2) with
      | none => none
      | some true => binarySearch p n lo ((lo + hi) / 2)
      | some false => binarySearch p n ((lo + hi) / 2 + 1) hi
    else some lo

theorem binarySearch_eq {p : Nat → Option Bool} {n lo hi r : Nat} (hlo : lo ≤ r) (hhi : r ≤ hi)
    (hp : ∀ i, lo ≤ i → i < hi → p i = some (decide (r ≤ i))) (hn : hi - lo ≤ n) : binarySearch p n lo hi = some r := by
  induction n generalizing lo hi with
  | zero =>
    have hr : r = lo := by omega
    rw [binarySearch, if_neg (by omega), hr]
  | succ n ih =>
    unfold binarySearch
    by_cases hlt : lo < hi
    · rw [if_pos hlt, hp _ (by omega) (by omega)]
      by_cases hr : r ≤ (lo + hi) / 2
      · rw [decide_eq_true hr]
        exact ih hlo hr (fun i h1 h2 => hp i h1 (by omega)) (by omega)
      · rw [decide_eq_false hr]
        exact ih (by omega) hhi (fun i h1 h2 => hp i (by omega) h2) (by omega)
    · have hr : r = lo := by omega
      rw [if_neg hlt, hr]

theorem binarySearch_findIdx {α : Type} {l : List α} {p : α → Bool} (h : l.Pairwise fun x y => p x → p y) :
    binarySearch (fun i => l[i]?.map p) l.length 0 l.length = some (l.findIdx p) := by
  refine binarySearch_eq (Nat.zero_le _) List.findIdx_le_length ?_ (by omega)
  intro k _ hk
  rw [List.getElem?_eq_getElem hk, Option.map_some, Option.some.injEq, Bool.eq_iff_iff, decide_eq_true_iff]
  constructor
  · intro hp
    refine Nat.le_of_not_lt fun hlt => ?_
    exact absurd hp (by simp [List.not_of_lt_findIdx hlt])
  · intro hle
    have hlen : l.findIdx p < l.length := Nat.lt_of_le_of_lt hle hk
    have hfirst : p l[l.findIdx p] := List.findIdx_getElem
    rcases Nat.eq_or_lt_of_le hle with heq | hlt
    · simpa [← heq] using hfirst
    · exact List.pairwise_iff_getElem.mp h _ k hlen hk hlt hfirst

end MonadBft.Lib
