/-
  MonadBft.Lib.Steps — runs of a step function that may fail.

  `runAll` applies actions one after the other. An invariant of the steps is one of the runs
  (`runAll_invariant`), and a preorder that every step respects relates the ends of a run
  (`runAll_rel`). When a step keeps an invariant exactly if a condition holds of
  the action in the state before it, the invariant holds after every prefix of a run exactly if
  the condition holds at every action of the run (`Kept`, `prefix_invariant_iff`).
-/
import MonadBft.Lib.Except

namespace MonadBft.Lib

variable {σ α ε : Type} {step : σ → α → Except ε σ} {s s' s₁ : σ} {a : α} {as as' : List α} {I : σ → Prop}
  {K : σ → α → Prop}

def runAll (step : σ → α → Except ε σ) (s : σ) (as : List α) : Except ε σ := as.foldlM step s

theorem runAll_nil : runAll step s [] = .ok s' ↔ s = s' := pure_eq_ok

theorem runAll_cons : runAll step s (a :: as) = .ok s' ↔ ∃ s₁, step s a = .ok s₁ ∧ runAll step s₁ as = .ok s' := by
  unfold runAll
  rw [List.foldlM_cons]
  exact bind_eq_ok

theorem runAll_append (h : runAll step s as = .ok s₁) : runAll step s (as ++ as') = runAll step s₁ as' := by
  unfold runAll at *
  rw [List.foldlM_append, h]
  rfl

theorem runAll_rel {R : σ → σ → Prop} (hrefl : ∀ s, R s s) (htrans : ∀ {a b c}, R a b → R b c → R a c)
    (hstep : ∀ {s a s'}, step s a = .ok s' → R s s') (h : runAll step s as = .ok s') : R s s' := by
  induction as generalizing s with
  | nil =>
    obtain rfl := runAll_nil.mp h
    exact hrefl s
  | cons a as ih =>
    obtain ⟨s₁, h₁, hrest⟩ := runAll_cons.mp h
    exact htrans (hstep h₁) (ih hrest)

theorem runAll_invariant (hstep : ∀ {s a s'}, I s → step s a = .ok s' → I s') (hs : I s)
    (h : runAll step s as = .ok s') : I s' :=
  foldlM_invariant (fun _ _ _ _ hone hI => hstep hI hone) h hs

/-- The condition holds of every action the run gets through, in the state it is applied to. -/
def Kept (step : σ → α → Except ε σ) (K : σ → α → Prop) : σ → List α → Prop
  | _, [] => True
  | s, a :: as => ∀ s', step s a = .ok s' → K s a ∧ Kept step K s' as

/-- A run whose actions all meet the condition gets through, with the invariant. -/
theorem Kept.runs (hok : ∀ {s a}, I s → ∃ s', step s a = .ok s')
    (hkeep : ∀ {s a s'}, I s → K s a → step s a = .ok s' → I s') (hs : I s) (h : Kept step K s as) :
    ∀ done, done <+: as → ∃ s', runAll step s done = .ok s' ∧ I s' := by
  induction as generalizing s with
  | nil =>
    intro done hdone
    obtain rfl := List.prefix_nil.mp hdone
    exact ⟨s, rfl, hs⟩
  | cons a as ih =>
    intro done hdone
    cases done with
    | nil => exact ⟨s, rfl, hs⟩
    | cons b done =>
      obtain ⟨rfl, htail⟩ := List.cons_prefix_cons.mp hdone
      obtain ⟨s₁, h₁⟩ := hok (a := b) hs
      obtain ⟨hK, hkept⟩ := h s₁ h₁
      obtain ⟨s', hrun, hI⟩ := ih (hkeep hs hK h₁) hkept done htail
      exact ⟨s', runAll_cons.mpr ⟨s₁, h₁, hrun⟩, hI⟩

theorem prefix_invariant_iff (hstep : ∀ a ∈ as, ∀ {s s'}, I s → step s a = .ok s' → (I s' ↔ K s a)) (hs : I s) :
    (∀ done s', done <+: as → runAll step s done = .ok s' → I s') ↔ Kept step K s as := by
  induction as generalizing s with
  | nil =>
    refine iff_of_true ?_ trivial
    intro done s' hdone h
    obtain rfl := List.prefix_nil.mp hdone
    obtain rfl := runAll_nil.mp h
    exact hs
  | cons a as ih =>
    have hstep' : ∀ b ∈ as, ∀ {s s'}, I s → step s b = .ok s' → (I s' ↔ K s b) :=
      fun b hb => hstep b (.tail a hb)
    constructor
    · intro h s₁ h₁
      have hI : I s₁ := h [a] s₁ (by simp) (runAll_cons.mpr ⟨s₁, h₁, rfl⟩)
      refine ⟨(hstep a (.head _) hs h₁).mp hI, (ih hstep' hI).mp ?_⟩
      intro done t hdone ht
      exact h (a :: done) t (List.cons_prefix_cons.mpr ⟨rfl, hdone⟩) (runAll_cons.mpr ⟨s₁, h₁, ht⟩)
    · intro h done t hdone ht
      cases done with
      | nil =>
        obtain rfl := runAll_nil.mp ht
        exact hs
      | cons b done =>
        obtain ⟨rfl, htail⟩ := List.cons_prefix_cons.mp hdone
        obtain ⟨s₁, h₁, ht₁⟩ := runAll_cons.mp ht
        obtain ⟨hK, hkept⟩ := h s₁ h₁
        exact (ih hstep' ((hstep b (.head _) hs h₁).mpr hK)).mpr hkept done t htail ht₁

end MonadBft.Lib
