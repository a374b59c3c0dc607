/-
  MonadBft.Lib.Median — the middle of a sorted list of odd length: whatever `f` of the `2 * f + 1`
  elements are, it lies between two of the others.
-/
import Mathlib.Data.List.Sort

namespace MonadBft.Lib

variable {α : Type} {l rest minority : List α} {f : Nat} {m : α}

/-- Up to the place `f` there are more elements than in the minority. -/
theorem exists_rel {r : α → α → Prop} [DecidableRel r] (hrefl : ∀ x, r x x) (hs : l.Pairwise r) (hm : l[f]? = some m)
    (h : l.Perm (rest ++ minority)) (hf : minority.length ≤ f) : ∃ x ∈ rest, r x m := by
  by_contra hno
  obtain ⟨hlt, rfl⟩ := List.getElem?_eq_some_iff.mp hm
  have hupto : ∀ x ∈ l.take (f + 1), decide (r x l[f]) = true := by
    intro x hx
    rw [List.take_succ_eq_append_getElem hlt, List.mem_append, List.mem_singleton] at hx
    rcases hx with hx | rfl
    · rw [← List.take_append_drop f l, List.pairwise_append, List.drop_eq_getElem_cons hlt] at hs
      exact decide_eq_true (hs.2.2 x hx _ (.head _))
    · exact decide_eq_true (hrefl _)
  have hmany := (List.take_sublist (f + 1) l).countP_le (p := fun x => decide (r x l[f]))
  rw [List.countP_eq_length.mpr hupto, List.length_take_of_le hlt, h.countP_eq, List.countP_append,
    List.countP_eq_zero.mpr fun x hx hr => hno ⟨x, hx, of_decide_eq_true hr⟩] at hmany
  have hfew := List.countP_le_length (p := fun x => decide (r x l[f])) (l := minority)
  omega

theorem middle_between [LinearOrder α] (hs : l.Pairwise (· ≤ ·)) (hlen : l.length = 2 * f + 1) (hm : l[f]? = some m)
    (h : l.Perm (rest ++ minority)) (hf : minority.length ≤ f) : (∃ x ∈ rest, x ≤ m) ∧ ∃ x ∈ rest, m ≤ x := by
  have hback : l.reverse[f]? = some m := by
    rw [List.getElem?_reverse (by omega), show l.length - 1 - f = f by omega, hm]
  exact ⟨exists_rel le_refl hs hm h hf,
    exists_rel (r := (· ≥ ·)) le_refl (List.pairwise_reverse.mpr hs) hback ((List.reverse_perm l).trans h) hf⟩

end MonadBft.Lib
