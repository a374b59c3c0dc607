/-
  MonadBft.Lib.Run — runs of a step relation that emits outputs.

  `Run step s out s'` is a finite run from `s` to `s'` whose steps emit `out`, in order.
  Runs compose (`Run.trans`).
-/
import Mathlib.Data.List.Basic

namespace MonadBft.Lib

variable {σ ε : Type}

inductive Run (step : σ → List ε → σ → Prop) : σ → List ε → σ → Prop
  | nil (s : σ) : Run step s [] s
  | cons {s s₁ s₂ : σ} {out outs : List ε} :
      step s out s₁ → Run step s₁ outs s₂ → Run step s (out ++ outs) s₂

namespace Run

variable {step : σ → List ε → σ → Prop} {s s₁ s₂ : σ} {out outs : List ε}

theorem single (h : step s out s₁) : Run step s out s₁ := by
  simpa using Run.cons h (Run.nil s₁)

theorem trans (h : Run step s out s₁) (h' : Run step s₁ outs s₂) : Run step s (out ++ outs) s₂ := by
  induction h with
  | nil s => exact h'
  | cons hs _ ih =>
    rw [List.append_assoc]
    exact Run.cons hs (ih h')

end Run

end MonadBft.Lib
