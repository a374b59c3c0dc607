/-
  MonadBft.Rank — the order on timeout evidence (`HighExtendRank.Cmp`).

  `Cmp` is a linear order: ranks are ordered by their leading round (the round of a QC,
  the block round of a tip), a QC above the tips of the same round, and tips of one round
  by the round of the QC they extend.
-/
import MonadBft.Cstypes
import Mathlib.Order.Lattice

namespace MonadBft.HighExtendRank

instance : LE HighExtendRank := ⟨fun a b => a.cmp b ≠ .gt⟩

variable {a b : HighExtendRank} {q q' t : Nat}

theorem le_def : a ≤ b ↔ a.cmp b ≠ .gt := Iff.rfl

@[simp] theorem qc_le_qc : qc q ≤ qc q' ↔ q ≤ q' := by
  simp [le_def, cmp, Nat.compare_eq_gt]

@[simp] theorem qc_le_tip : qc q ≤ tip t q' ↔ q < t := by
  by_cases h : q = t
  · simp [le_def, cmp, h]
  · simp only [le_def, cmp, h, if_false, ne_eq, Nat.compare_eq_gt]
    omega

@[simp] theorem tip_le_qc : tip t q ≤ qc q' ↔ t ≤ q' := by
  by_cases h : t = q'
  · simp [le_def, cmp, h]
  · simp only [le_def, cmp, h, if_false, ne_eq, Nat.compare_eq_gt]
    omega

@[simp] theorem tip_le_tip {t' : Nat} : tip t q ≤ tip t' q' ↔ t < t' ∨ t = t' ∧ q ≤ q' := by
  by_cases h : t = t'
  · simp [le_def, cmp, h, Nat.compare_eq_gt]
  · have hcmp : (tip t q).cmp (tip t' q') = compare t t' := by simp [cmp, h]
    rw [le_def, hcmp, Ne, Nat.compare_eq_gt]
    omega

instance : DecidableLE HighExtendRank := fun a b => inferInstanceAs (Decidable (a.cmp b ≠ .gt))

instance : LinearOrder HighExtendRank where
  le := (· ≤ ·)
  le_refl a := by cases a <;> simp
  le_trans a b c := by cases a <;> cases b <;> cases c <;> simp <;> omega
  le_antisymm a b := by cases a <;> cases b <;> simp <;> omega
  le_total a b := by cases a <;> cases b <;> simp <;> omega
  toDecidableLE := inferInstance

theorem cmp_eq_gt : a.cmp b = .gt ↔ b < a := by
  rw [← not_le, le_def, not_not]

theorem cmp_eq_eq : a.cmp b = .eq ↔ a = b := by
  cases a <;> cases b <;> simp only [cmp]
  · simp
  · split <;> simp_all
  · split <;> simp_all
  · split <;> simp_all

end MonadBft.HighExtendRank
