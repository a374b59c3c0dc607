/-
  MonadBft.Lib.Except — taking a computation that may fail apart.

  `bind_eq_ok` and `bind_eq_error` split a sequence at its first step; `require` is the
  check `if !c { return err }`. A loop is taken through by an invariant of its steps.
-/
import Mathlib.Data.List.Basic

namespace MonadBft.Lib

variable {ε α β : Type} {x : Except ε α} {f : α → Except ε β}

variable {a : α} {b : β} {e : ε} {l : List α} {c : Prop}

theorem ok_bind : (Except.ok a >>= f) = f a := rfl

theorem bind_eq_ok : (x >>= f) = .ok b ↔ ∃ a, x = .ok a ∧ f a = .ok b := by
  cases x <;> simp [bind, Except.bind]

theorem bind_eq_error : (x >>= f) = .error e ↔ x = .error e ∨ ∃ a, x = .ok a ∧ f a = .error e := by
  cases x <;> simp [bind, Except.bind]

theorem pure_eq_ok {b : α} : (pure a : Except ε α) = .ok b ↔ a = b := by
  simp [pure, Except.pure]

theorem pure_ne_error : (pure a : Except ε α) ≠ .error e := by
  simp [pure, Except.pure]

theorem map_eq_ok {g : α → β} : x.map g = .ok b ↔ ∃ a, x = .ok a ∧ g a = b := by
  cases x <;> simp [Except.map]

theorem ite_error_eq_ok [Decidable c] {b : α} : (if c then .ok a else .error e : Except ε α) = .ok b ↔ c ∧ a = b := by
  by_cases hc : c <;> simp [hc]

/-- Go on if `c` holds, fail with `e` otherwise. -/
def require (c : Prop) [Decidable c] (e : ε) : Except ε Unit := if c then .ok () else .error e

theorem require_eq_ok [Decidable c] {u : Unit} : require c e = .ok u ↔ c := by
  unfold require
  split <;> simp_all

theorem require_eq_error [Decidable c] {e' : ε} : require c e = .error e' ↔ ¬c ∧ e = e' := by
  unfold require
  split <;> simp_all

theorem require_congr {c' : Prop} [Decidable c] [Decidable c'] (h : c ↔ c') : require c e = require c' e := by
  by_cases hc : c
  · simp [require, hc, h.mp hc]
  · simp [require, hc, mt h.mpr hc]

theorem require_bind [Decidable c] (k : Unit → Except ε β) (h : c) : (require c e >>= k) = k () := by
  simp [require, h, bind, Except.bind]

theorem toOption_eq_some : x.toOption = some a ↔ x = .ok a := by
  cases x <;> simp [Except.toOption]

/-! ## Loops -/

variable {σ : Type} {step : σ → α → Except ε σ} {I : σ → Prop} {bs : List β}

/-- A loop whose every step succeeds succeeds. -/
theorem foldlM_ok (h : ∀ a ∈ l, ∀ s, ∃ s', step s a = .ok s') (s : σ) : ∃ s', l.foldlM step s = .ok s' := by
  induction l generalizing s with
  | nil => exact ⟨s, rfl⟩
  | cons a l ih =>
    obtain ⟨s₁, hs₁⟩ := h a (.head _) s
    obtain ⟨s', hs'⟩ := ih (fun b hb => h b (.tail a hb)) s₁
    exact ⟨s', by rw [List.foldlM_cons, hs₁]; exact hs'⟩

/-- What every step of a loop keeps, the loop keeps. -/
theorem foldlM_invariant {s s' : σ} (h : ∀ a ∈ l, ∀ s s', step s a = .ok s' → I s → I s')
    (hl : l.foldlM step s = .ok s') (hs : I s) : I s' := by
  induction l generalizing s with
  | nil =>
    obtain rfl : s = s' := by simpa [pure, Except.pure] using hl
    exact hs
  | cons a l ih =>
    rw [List.foldlM_cons] at hl
    obtain ⟨s₁, hs₁, hl'⟩ := bind_eq_ok.mp hl
    exact ih (fun b hb => h b (.tail a hb)) hl' (h a (.head _) s s₁ hs₁ hs)

theorem foldl_invariant {f : σ → α → σ} {s : σ} (h : ∀ a ∈ l, ∀ s, I s → I (f s a)) (hs : I s) : I (l.foldl f s) := by
  induction l generalizing s with
  | nil => exact hs
  | cons a l ih =>
    exact ih (fun b hb => h b (.tail a hb)) (h a (.head _) s hs)

theorem mapM_error (h : l.mapM f = .error e) : ∃ a, f a = .error e := by
  induction l with
  | nil => cases h
  | cons a l ih =>
    rw [List.mapM_cons] at h
    rcases bind_eq_error.mp h with h | ⟨b, -, h⟩
    · exact ⟨a, h⟩
    · rcases bind_eq_error.mp h with h | ⟨bs, -, h⟩
      · exact ih h
      · cases h

theorem mapM_ok (h : ∀ a ∈ l, ∃ b, f a = .ok b) : ∃ bs, l.mapM f = .ok bs := by
  induction l with
  | nil => exact ⟨[], rfl⟩
  | cons a l ih =>
    obtain ⟨b, hb⟩ := h a (.head _)
    obtain ⟨bs, hbs⟩ := ih fun c hc => h c (.tail a hc)
    exact ⟨b :: bs, by rw [List.mapM_cons, hb, hbs]; rfl⟩

theorem mapM_eq_ok (h : l.mapM f = .ok bs) : List.Forall₂ (fun a b => f a = .ok b) l bs := by
  induction l generalizing bs with
  | nil =>
    cases h
    exact .nil
  | cons a l ih =>
    rw [List.mapM_cons] at h
    obtain ⟨b, hb, h⟩ := bind_eq_ok.mp h
    obtain ⟨bs', hbs', h⟩ := bind_eq_ok.mp h
    cases h
    exact .cons hb (ih hbs')

theorem mapM_congr {g : α → Except ε β} (h : ∀ a ∈ l, f a = g a) : l.mapM f = l.mapM g := by
  induction l with
  | nil => rfl
  | cons a l ih =>
    rw [List.mapM_cons, List.mapM_cons, h a (.head _), ih fun b hb => h b (.tail a hb)]

theorem mem_of_mapM_eq_ok (h : l.mapM f = .ok bs) (hb : b ∈ bs) : ∃ a ∈ l, f a = .ok b := by
  have hall := mapM_eq_ok h
  clear h
  induction hall with
  | nil => cases hb
  | cons hab _ ih =>
    rcases List.mem_cons.mp hb with rfl | hb
    · exact ⟨_, .head _, hab⟩
    · obtain ⟨a, ha, hfa⟩ := ih hb
      exact ⟨a, .tail _ ha, hfa⟩

end MonadBft.Lib
