/-
  MonadBft.Lib.Traced — computations on a state, taken apart into elementary steps.

  A handler that returns the next state or fails is `Traced` if its result is reached by
  elementary steps, and if whatever makes it fail can be seen in a state on the way. The rules
  follow the handler's text (`Traced.bind`, `Traced.read`, `Traced.ite`), so that a handler is
  taken apart once; an invariant of the elementary steps then holds of every handler
  (`Traced.reach`).
-/
import MonadBft.Lib.Except
import Mathlib.Logic.Relation

namespace MonadBft.Lib

open Relation

variable {σ ε α β : Type}

/-- The result is reached by steps, or the failure is seen on the way. -/
def Traced (step : σ → σ → Prop) (fails : σ → ε → Prop) (s : σ) : Except ε σ → Prop
  | .ok s' => ReflTransGen step s s'
  | .error e => ∃ s₁, ReflTransGen step s s₁ ∧ fails s₁ e

namespace Traced

variable {step : σ → σ → Prop} {fails : σ → ε → Prop} {s s' s₁ : σ} {x : Except ε σ} {e : ε} {c : Prop}

theorem refl (s : σ) : Traced step fails s (.ok s) := ReflTransGen.refl

theorem single (h : step s s') : Traced step fails s (.ok s') := ReflTransGen.single h

theorem fail (h : fails s e) : Traced step fails s (.error e) := ⟨s, ReflTransGen.refl, h⟩

/-- Steps before the computation. -/
theorem after (h : ReflTransGen step s s₁) (hx : Traced step fails s₁ x) : Traced step fails s x := by
  cases x with
  | ok s' => exact h.trans hx
  | error e =>
    obtain ⟨s₂, hs₂, hf⟩ := hx
    exact ⟨s₂, h.trans hs₂, hf⟩

theorem step_then (h : step s s₁) (hx : Traced step fails s₁ x) : Traced step fails s x :=
  after (ReflTransGen.single h) hx

theorem bind {f : σ → Except ε σ} (hx : Traced step fails s x)
    (hf : ∀ s₁, x = .ok s₁ → ReflTransGen step s s₁ → Traced step fails s₁ (f s₁)) : Traced step fails s (x >>= f) := by
  cases x with
  | ok s₁ => exact after hx (hf s₁ rfl hx)
  | error e => exact hx

/-- A computation that does not return a state. -/
theorem read {y : Except ε α} {f : α → Except ε σ} (herr : ∀ e, y = .error e → fails s e)
    (hf : ∀ a, y = .ok a → Traced step fails s (f a)) : Traced step fails s (y >>= f) := by
  cases y with
  | ok a => exact hf a rfl
  | error e => exact fail (herr e rfl)

theorem ite [Decidable c] {y : Except ε σ} (ht : c → Traced step fails s x)
    (he : ¬c → Traced step fails s y) : Traced step fails s (if c then x else y) := by
  by_cases h : c
  · rw [if_pos h]
    exact ht h
  · rw [if_neg h]
    exact he h

/-- An early return. -/
theorem past [Decidable c] (h : ¬c → Traced step fails s x) : Traced step fails s (if c then .ok s else x) :=
  ite (fun _ => refl s) h

theorem reach {I : σ → Prop} (hI : ∀ s s', step s s' → I s → I s') (h : ReflTransGen step s s') (hs : I s) : I s' := by
  induction h with
  | refl => exact hs
  | tail _ hstep ih => exact hI _ _ hstep ih

end Traced

end MonadBft.Lib
