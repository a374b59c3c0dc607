/-
  MonadBft.Lib.Bls — aggregate signatures over one message.

  Keys and signatures are elements of two groups. A message turns a key into the one
  signature that verifies under it, and does so additively and injectively; a check against
  the zero key fails whatever the signature. A sum of signatures is checked against the sum
  of the keys.

  Proved: when each signature verifies under its own key, the sum verifies under the sum of
  the keys exactly if that sum is not zero (`verify_sum`).
-/
import Mathlib.Algebra.BigOperators.Group.List.Basic
import Mathlib.Algebra.Group.Hom.Basic

namespace MonadBft.Lib.Bls

/-- The messages `M`, the keys `K` and the signatures `S` of a scheme. -/
structure Scheme (M K S : Type) [AddCommGroup K] [AddCommGroup S] where
  sign : M → K →+ S
  sign_injective : ∀ m, Function.Injective (sign m)

namespace Scheme

variable {M K S ι : Type} [AddCommGroup K] [AddCommGroup S] [DecidableEq K] [DecidableEq S]
variable (b : Scheme M K S) {m : M} {key : ι → K} {sig : ι → S} {l : List ι}

def verify (key : K) (m : M) (sig : S) : Bool := decide (key ≠ 0 ∧ sig = b.sign m key)

theorem verify_iff {key : K} {sig : S} : b.verify key m sig = true ↔ key ≠ 0 ∧ sig = b.sign m key :=
  decide_eq_true_iff

theorem ne_zero_of_verify {key : K} {sig : S} (h : b.verify key m sig = true) : sig ≠ 0 := by
  obtain ⟨hkey, rfl⟩ := b.verify_iff.mp h
  intro hzero
  exact hkey (b.sign_injective m (by rw [hzero, map_zero]))

theorem sum_eq_sign (h : ∀ x ∈ l, b.verify (key x) m (sig x) = true) : (l.map sig).sum = b.sign m (l.map key).sum := by
  induction l with
  | nil => simp
  | cons x l ih =>
    have hx := (b.verify_iff.mp (h x (.head _))).2
    have hl := ih fun y hy => h y (.tail x hy)
    simp only [List.map_cons, List.sum_cons, map_add, hx, hl]

theorem verify_sum (h : ∀ x ∈ l, b.verify (key x) m (sig x) = true) :
    b.verify (l.map key).sum m (l.map sig).sum = true ↔ (l.map key).sum ≠ 0 := by
  rw [verify_iff, b.sum_eq_sign h]
  exact ⟨And.left, fun hne => ⟨hne, rfl⟩⟩

end Scheme

end MonadBft.Lib.Bls
