/-
  MonadBft.WireAuth.ReplayFilter — the sliding window that refuses replayed counters.

  `check` and `update` are those of the session's replay filter: a counter at or beyond `next`
  is new, one at least `replayWindowBits` behind it is refused, one in between is looked up in
  the bit ring. `Exact f s` is the invariant that says what the filter stands for: `s` is the set
  of accepted counters, `next` is one past the largest of them, and the ring remembers those
  still in the window.

  Proved: `update` keeps `Exact` for every counter that passes `check` (`Exact.update`), and
  under it `check` passes exactly the counters that were not accepted before and are not behind
  the window (`Exact.check_iff`). `Exact.offers` carries both through any sequence of counters.
-/
import MonadBft.Lib.BitRing
import MonadBft.Lib.Except

namespace MonadBft.WireAuth

open MonadBft.Lib

def replayWindowSize : Nat := 128

def replayWindowBits : Nat := replayWindowSize * 64

inductive ReplayErr
  | nonceOutsideWindow (counter next : Nat)
  | nonceDuplicate (counter : Nat)
  deriving DecidableEq, Repr

structure ReplayFilter where
  next : Nat := 0
  bitmap : BitRing 128 64 := BitRing.zero
  deriving DecidableEq

namespace ReplayFilter

def check (f : ReplayFilter) (counter : Nat) : Except ReplayErr Unit :=
  if f.next ≤ counter then .ok ()
  else if replayWindowBits ≤ f.next - counter then .error (.nonceOutsideWindow counter f.next)
  else if f.bitmap.isSet counter then .error (.nonceDuplicate counter)
  else .ok ()

/-- The numbers are those of a `uint64`: `counter + 1` wraps. -/
def update (f : ReplayFilter) (counter : Nat) : ReplayFilter :=
  if f.next ≤ counter then
    let bitmap :=
      if replayWindowBits ≤ counter - f.next then BitRing.zero else f.bitmap.clearRange f.next counter
    { next := (counter + 1) % 2 ^ 64, bitmap := bitmap.set counter }
  else { f with bitmap := f.bitmap.set counter }

/-- Check, and update if the check passes. -/
def offer (f : ReplayFilter) (counter : Nat) : ReplayFilter × Bool :=
  match f.check counter with
  | .ok _ => (f.update counter, true)
  | .error _ => (f, false)

/-- The filter after a sequence of counters, and those it accepted, the last one first. -/
def offers (f : ReplayFilter) (counters : List Nat) : ReplayFilter × List Nat :=
  counters.foldl (fun s c => ((s.1.offer c).1, if (s.1.offer c).2 then c :: s.2 else s.2)) (f, [])

/-! ## What the filter stands for -/

/-- The counter after the largest accepted one. -/
def nextExpected (accepted : List Nat) : Nat := accepted.foldr (fun c n => max (c + 1) n) 0

theorem lt_nextExpected {l : List Nat} {c : Nat} (h : c ∈ l) : c < nextExpected l := by
  induction l with
  | nil => cases h
  | cons d l ih =>
    show c < max (d + 1) (nextExpected l)
    rcases List.mem_cons.mp h with rfl | h
    · omega
    · have := ih h
      omega

structure Exact (f : ReplayFilter) (accepted : List Nat) : Prop where
  next_eq : f.next = nextExpected accepted
  remembers : f.bitmap.Remembers f.next {c | c ∈ accepted}
  nodup : accepted.Nodup

namespace Exact

variable {f : ReplayFilter} {accepted : List Nat} {c : Nat}

theorem start : Exact {} [] := ⟨rfl, BitRing.Remembers.start _, List.nodup_nil⟩

theorem lt_next (h : Exact f accepted) (hc : c ∈ accepted) : c < f.next :=
  h.next_eq ▸ lt_nextExpected hc

/-- The check passes exactly the counters that are new and not behind the window. -/
theorem check_iff (h : Exact f accepted) (c : Nat) :
    f.check c = .ok () ↔ c ∉ accepted ∧ (f.next ≤ c ∨ f.next - c < replayWindowBits) := by
  unfold check
  split_ifs with h1 h2 h3
  · simp only [true_iff]
    exact ⟨fun hc => absurd (h.lt_next hc) (by omega), .inl h1⟩
  · simp only [false_iff]
    rintro ⟨-, hw⟩
    omega
  · have hc : c ∈ accepted := (h.remembers c (by omega) (Nat.lt_of_not_le h2)).mp h3
    simp [hc]
  · have hc : c ∉ accepted := fun hc => h3 ((h.remembers c (by omega) (Nat.lt_of_not_le h2)).mpr hc)
    simp only [true_iff]
    exact ⟨hc, .inr (Nat.lt_of_not_le h2)⟩

theorem setOf_mem_cons (c : Nat) (l : List Nat) : {d | d ∈ c :: l} = insert c {d | d ∈ l} := by
  ext d
  simp

/-- Letting a checked counter through. The bound keeps `next` from wrapping. -/
theorem update (h : Exact f accepted) (hc : f.check c = .ok ()) (hlt : c < 2 ^ 64 - 1) :
    Exact (f.update c) (c :: accepted) := by
  obtain ⟨hnew, hwin⟩ := (h.check_iff c).mp hc
  have hnext : nextExpected (c :: accepted) = max (c + 1) f.next := by rw [h.next_eq]; rfl
  have hbound : ∀ d ∈ {d | d ∈ accepted}, d < f.next := fun d hd => h.lt_next hd
  have hnodup : (c :: accepted).Nodup := List.nodup_cons.mpr ⟨hnew, h.nodup⟩
  unfold ReplayFilter.update
  by_cases hge : f.next ≤ c
  · have hwrap : (c + 1) % 2 ^ 64 = c + 1 := Nat.mod_eq_of_lt (by omega)
    rw [if_pos hge, hwrap]
    have hmax : max (c + 1) f.next = c + 1 := by omega
    refine ⟨(hnext.trans hmax).symm, ?_, hnodup⟩
    -- before the counter is set, the window has moved up to it
    have hmoved : BitRing.Remembers (if replayWindowBits ≤ c - f.next then BitRing.zero
        else f.bitmap.clearRange f.next c) c {d | d ∈ accepted} := by
      split_ifs with hgap
      · exact BitRing.Remembers.jump hbound hgap
      · exact h.remembers.advance hbound hge
    rw [setOf_mem_cons]
    exact hmoved.mark_next
  · rw [if_neg hge]
    have hmax : max (c + 1) f.next = f.next := by omega
    refine ⟨(hnext.trans hmax).symm, ?_, hnodup⟩
    rw [setOf_mem_cons]
    exact h.remembers.mark (by omega) (hwin.resolve_left hge)

theorem offer (h : Exact f accepted) (hlt : c < 2 ^ 64 - 1) :
    Exact (f.offer c).1 (if (f.offer c).2 then c :: accepted else accepted) := by
  unfold ReplayFilter.offer
  cases hc : f.check c with
  | ok u => simpa using h.update hc hlt
  | error e => simpa using h

/-- After any sequence of counters the filter stands for those it accepted. -/
theorem offers (counters : List Nat) (hlt : ∀ c ∈ counters, c < 2 ^ 64 - 1) :
    Exact (ReplayFilter.offers {} counters).1 (ReplayFilter.offers {} counters).2 := by
  unfold ReplayFilter.offers
  exact foldl_invariant (I := fun s : ReplayFilter × List Nat => Exact s.1 s.2) (fun c hc s hs => hs.offer (hlt c hc)) start

end Exact

end ReplayFilter

end MonadBft.WireAuth
