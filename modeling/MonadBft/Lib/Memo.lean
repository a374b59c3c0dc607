/-
  MonadBft.Lib.Memo — checks that remember what they have checked.

  A `Caching` computation may fail and leaves a cache behind either way. It `Refines` a plain
  check under an invariant of the cache when it gives the plain check's verdict from every cache
  that satisfies the invariant, and keeps the invariant. The rules follow the computation: a
  step without the cache (`refines_lift`), one after another (`Refines.bind`), an answer from
  the cache (`Refines.orCached`) and an entry (`refines_remember`). `Preserves` is the half about
  the cache, for invariants that do not depend on verdicts.
-/
import MonadBft.Lib.Except

namespace MonadBft.Lib

/-- A check that reads and writes a cache. -/
def Caching (σ ε α : Type) : Type := σ → Except ε α × σ

namespace Caching

variable {σ ε α β : Type}

def lift (x : Except ε α) : Caching σ ε α := fun s => (x, s)

def andThen (m : Caching σ ε α) (k : α → Caching σ ε β) : Caching σ ε β := fun s =>
  match m s with
  | (.ok a, s') => k a s'
  | (.error e, s') => (.error e, s')

instance : Monad (Caching σ ε) where
  pure a := lift (.ok a)
  bind := andThen

/-- What the cache knows needs no check. -/
def orCached (hit : σ → Bool) (m : Caching σ ε Unit) : Caching σ ε Unit := fun s =>
  if hit s then (.ok (), s) else m s

def remember (put : σ → σ) : Caching σ ε Unit := fun s => (.ok (), put s)

/-- The verdict of the plain check, with the invariant kept. -/
def Refines (I : σ → Prop) (m : Caching σ ε α) (x : Except ε α) : Prop :=
  ∀ s, I s → (m s).1 = x ∧ I (m s).2

variable {I : σ → Prop} {m : Caching σ ε α} {k : α → Caching σ ε β} {x : Except ε α} {f : α → Except ε β}

theorem refines_lift (x : Except ε α) : Refines I (lift x) x := fun _ hs => ⟨rfl, hs⟩

variable {put : σ → σ} {hit : σ → Bool}

theorem refines_remember (h : ∀ s, I s → I (put s)) : Refines I (remember put) (.ok () : Except ε Unit) :=
  fun s hs => ⟨rfl, h s hs⟩

theorem Refines.bind (h : Refines I m x) (hk : ∀ a, x = .ok a → Refines I (k a) (f a)) :
    Refines I (m >>= k) (x >>= f) := by
  intro s hs
  obtain ⟨hv, hI⟩ := h s hs
  show (andThen m k s).1 = _ ∧ I (andThen m k s).2
  unfold andThen
  rcases hm : m s with ⟨r, s'⟩
  rw [hm] at hv hI
  obtain rfl : r = x := hv
  cases r with
  | error e => exact ⟨rfl, hI⟩
  | ok a => exact hk a rfl s' hI

theorem orCached_hit {m : Caching σ ε Unit} {s : σ} (h : hit s = true) : (orCached hit m s).1 = .ok () := by
  rw [orCached, if_pos h]

theorem Refines.orCached {m : Caching σ ε Unit} {x : Except ε Unit} (h : Refines I m x)
    (hhit : ∀ s, I s → hit s = true → x = .ok ()) : Refines I (orCached hit m) x := by
  intro s hs
  unfold Caching.orCached
  by_cases hc : hit s = true
  · rw [if_pos hc]
    exact ⟨(hhit s hs hc).symm, hs⟩
  · rw [if_neg hc]
    exact h s hs

/-- A last step that only writes to the cache. -/
theorem Refines.thenRemember {m : Caching σ ε Unit} {x : Except ε Unit} (h : Refines I m x)
    (hput : x = .ok () → ∀ s, I s → I (put s)) : Refines I (m >>= fun _ => remember put) x := by
  have hx : x = x >>= fun _ => .ok () := by cases x <;> rfl
  rw [hx]
  exact h.bind fun _ hok => refines_remember (hput hok)

/-! ## Invariants of the cache alone -/

/-- An invariant that the check keeps whatever its verdict. -/
def Preserves (I : σ → Prop) (m : Caching σ ε α) : Prop := ∀ s, I s → I (m s).2

theorem preserves_lift (x : Except ε α) : Preserves I (lift x) := fun _ hs => hs

theorem preserves_remember (h : ∀ s, I s → I (put s)) : Preserves I (remember put : Caching σ ε Unit) := h

theorem Preserves.bind (h : Preserves I m) (hk : ∀ a, Preserves I (k a)) : Preserves I (m >>= k) := by
  intro s hs
  have hI := h s hs
  show I (andThen m k s).2
  unfold andThen
  rcases hm : m s with ⟨r, s'⟩
  rw [hm] at hI
  cases r with
  | error e => exact hI
  | ok a => exact hk a s' hI

theorem Preserves.orCached {m : Caching σ ε Unit} (h : Preserves I m) : Preserves I (orCached hit m) := by
  intro s hs
  unfold Caching.orCached
  by_cases hc : hit s = true
  · rw [if_pos hc]
    exact hs
  · rw [if_neg hc]
    exact h s hs

end Caching

end MonadBft.Lib
