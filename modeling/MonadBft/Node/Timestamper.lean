/-
  MonadBft.Node.Timestamper — the clock adjustment (`node/timestamper.go`).

  A report says how far, and in which direction, the clock is off. It is clamped, signed and
  inserted into the window, which is kept sorted; when the window is full its median is added to
  the offset and the window is emptied. A magnitude that does not fit an `int64` is taken as zero,
  and the sum with the offset wraps.

  - `run_window`: from an empty window, the reports of a window are the sorted list of their deltas
    until the last, which adds the middle one.
  - `minority_resisted`: so the order of the reports does not matter, and whatever a minority of
    them is, the change lies between two deltas of the others, if those fit and do not overflow
    the offset.
-/
import MonadBft.Lib.BinarySearch
import MonadBft.Lib.Machine
import MonadBft.Lib.Median
import Mathlib.Data.List.Induction

namespace MonadBft

open Lib List
open scoped List

inductive TimestampAdjustmentDirection where
  | forward
  | backward
  deriving DecidableEq, Repr

structure TimestampAdjustment where
  delta : Fin (2 ^ 128)
  direction : TimestampAdjustmentDirection
  deriving DecidableEq, Repr

structure TimestampAdjuster where
  adjustment : Int
  adjustmentPeriod : Int
  deltas : List Int
  maxDeltaNs : UInt64
  deriving DecidableEq

namespace TimestampAdjuster

/-- `none` for the panic on a period that is not odd. -/
def newTimestampAdjuster (maxDeltaNs : UInt64) (adjustmentPeriod : Int) : Option TimestampAdjuster :=
  if adjustmentPeriod.tmod 2 ≠ 1 then none else some ⟨0, adjustmentPeriod, [], maxDeltaNs⟩

/-- The magnitude of a report, clamped; its two words are `Lo` and `Hi`. -/
def clamped (maxDeltaNs : UInt64) (t : TimestampAdjustment) : Nat :=
  let delta := t.delta.val % 2 ^ 64
  if t.delta.val / 2 ^ 64 ≠ 0 ∨ maxDeltaNs.toNat < delta then maxDeltaNs.toNat else delta

def signedDelta (maxDeltaNs : UInt64) (t : TimestampAdjustment) : Int :=
  let delta := clamped maxDeltaNs t
  let signed : Int := if 2 ^ 63 - 1 < delta then 0 else delta
  if t.direction = .backward then -signed else signed

/-- What follows the insertion: a full window is folded into the offset. -/
def settle (a : TimestampAdjuster) (deltas : List Int) : Option TimestampAdjuster :=
  if (deltas.length : Int) = a.adjustmentPeriod then
    deltas[deltas.length / 2]?.map fun median => { a with adjustment := int64 (a.adjustment + median), deltas := [] }
  else some { a with deltas := deltas }

/-- `none` for an index out of range. -/
def handleAdjustment (a : TimestampAdjuster) (t : TimestampAdjustment) : Option TimestampAdjuster := do
  let signed := signedDelta a.maxDeltaNs t
  let i ← binarySearch (fun i => a.deltas[i]?.map (decide <| signed ≤ ·)) a.deltas.length 0 a.deltas.length
  a.settle (a.deltas.take i ++ signed :: a.deltas.drop i)

/-- The adjuster after a history of reports. -/
def run (maxDeltaNs : UInt64) (period : Nat) (history : List TimestampAdjustment) : Option TimestampAdjuster := do
  history.foldlM handleAdjustment (← newTimestampAdjuster maxDeltaNs period)

/-- The signed delta of a report, clamped to the configured maximum. -/
def clampedDelta (maxDeltaNs : UInt64) (t : TimestampAdjustment) : Int :=
  let delta := min t.delta.val maxDeltaNs.toNat
  if t.direction = .backward then -delta else delta

/-- It fits an `int64`, alone and added to the offset. -/
def Fits (maxDeltaNs : UInt64) (offset : Int) (t : TimestampAdjustment) : Prop :=
  clamped maxDeltaNs t < 2 ^ 63 ∧ -2 ^ 63 ≤ offset + clampedDelta maxDeltaNs t ∧ offset + clampedDelta maxDeltaNs t < 2 ^ 63

/-! ## One report -/

variable {maxDeltaNs : UInt64} {a : TimestampAdjuster} {t : TimestampAdjustment} {w w' past : List TimestampAdjustment}
  {period : Nat}

theorem signedDelta_eq (h : clamped maxDeltaNs t < 2 ^ 63) : signedDelta maxDeltaNs t = clampedDelta maxDeltaNs t := by
  have hmin : clamped maxDeltaNs t = min t.delta.val maxDeltaNs.toNat := by
    have hmax : maxDeltaNs.toNat < 2 ^ 64 := maxDeltaNs.toNat_lt
    simp only [clamped]
    split <;> omega
  have hle : ¬ 2 ^ 63 - 1 < min t.delta.val maxDeltaNs.toNat := by omega
  simp only [signedDelta, clampedDelta, hmin, if_neg hle]

/-- The search finds where the sorted list takes the delta. -/
theorem handleAdjustment_eq (hs : a.deltas.Pairwise (· ≤ ·)) :
    a.handleAdjustment t = a.settle (a.deltas.orderedInsert (· ≤ ·) (signedDelta a.maxDeltaNs t)) := by
  have hmono : a.deltas.Pairwise fun x y =>
      decide (signedDelta a.maxDeltaNs t ≤ x) → decide (signedDelta a.maxDeltaNs t ≤ y) := by
    refine hs.imp fun hxy hx => ?_
    rw [decide_eq_true_iff] at hx ⊢
    omega
  rw [handleAdjustment, binarySearch_findIdx hmono, orderedInsert_eq_take_drop, takeWhile_eq_take_findIdx_not,
    dropWhile_eq_drop_findIdx_not]
  simp only [decide_not, Bool.not_not]
  rfl

/-! ## A window -/

/-- The window after the reports `w`. -/
def sortedDeltas (maxDeltaNs : UInt64) (w : List TimestampAdjustment) : List Int :=
  (w.reverse.map (signedDelta maxDeltaNs)).insertionSort (· ≤ ·)

theorem sortedDeltas_perm : sortedDeltas maxDeltaNs w ~ w.map (signedDelta maxDeltaNs) :=
  (perm_insertionSort _ _).trans (reverse_perm w |>.map _)

theorem sortedDeltas_pairwise : (sortedDeltas maxDeltaNs w).Pairwise (· ≤ ·) := pairwise_insertionSort _ _

theorem sortedDeltas_congr (h : w ~ w') : sortedDeltas maxDeltaNs w = sortedDeltas maxDeltaNs w' :=
  ((sortedDeltas_perm.trans (h.map _)).trans sortedDeltas_perm.symm).eq_of_pairwise' sortedDeltas_pairwise
    sortedDeltas_pairwise

theorem length_sortedDeltas : (sortedDeltas maxDeltaNs w).length = w.length := by
  rw [sortedDeltas_perm.length_eq, length_map]

theorem sortedDeltas_concat :
    sortedDeltas maxDeltaNs (w ++ [t]) = (sortedDeltas maxDeltaNs w).orderedInsert (· ≤ ·) (signedDelta maxDeltaNs t) := by
  simp [sortedDeltas]

theorem run_window (h : a.deltas = []) (hp : a.adjustmentPeriod = period) (hpos : 0 < period) (hw : w.length ≤ period) :
    w.foldlM handleAdjustment a = a.settle (sortedDeltas a.maxDeltaNs w) := by
  induction w using reverseRecOn with
  | nil =>
    have hne : (0 : Int) ≠ a.adjustmentPeriod := by omega
    exact (congrArg (fun deltas => some { a with deltas := deltas }) h).trans (if_neg hne).symm
  | append_singleton w t ih =>
    rw [length_append, length_singleton] at hw
    have hopen : ((sortedDeltas a.maxDeltaNs w).length : Int) ≠ a.adjustmentPeriod := by rw [length_sortedDeltas]; omega
    rw [foldlM_append, ih (by omega), settle, if_neg hopen]
    simp only [Option.bind_eq_bind, Option.bind_some, foldlM_cons, foldlM_nil, bind_pure]
    rw [handleAdjustment_eq sortedDeltas_pairwise, sortedDeltas_concat]
    rfl

theorem run_full (h : a.deltas = []) (hp : a.adjustmentPeriod = period) (hpos : 0 < period) (hw : w.length = period) :
    ∃ m, (sortedDeltas a.maxDeltaNs w)[period / 2]? = some m ∧
      w.foldlM handleAdjustment a = some { a with adjustment := int64 (a.adjustment + m), deltas := [] } := by
  have hlen : (sortedDeltas a.maxDeltaNs w).length = period := length_sortedDeltas.trans hw
  obtain ⟨m, hm⟩ : ∃ m, (sortedDeltas a.maxDeltaNs w)[period / 2]? = some m := ⟨_, getElem?_eq_getElem (by omega)⟩
  refine ⟨m, hm, ?_⟩
  rw [run_window h hp hpos (by omega), settle, if_pos (by omega), hlen, hm, Option.map_some]

/-- After a whole number of windows the next one is empty. -/
theorem run_windows (h : a.deltas = []) (hp : a.adjustmentPeriod = period) (hpos : 0 < period)
    (hpast : period ∣ past.length) : ∃ b, past.foldlM handleAdjustment a = some b ∧ b.deltas = [] ∧
      b.adjustmentPeriod = period ∧ b.maxDeltaNs = a.maxDeltaNs := by
  obtain ⟨k, hk⟩ := hpast
  induction k generalizing past a with
  | zero =>
    rw [length_eq_zero_iff.mp hk]
    exact ⟨a, rfl, h, hp, rfl⟩
  | succ k ih =>
    have hlen : period ≤ past.length := hk ▸ Nat.le_mul_of_pos_right _ (Nat.succ_pos k)
    obtain ⟨m, -, hfirst⟩ := run_full (w := past.take period) h hp hpos (length_take_of_le hlen)
    have hdrop : (past.drop period).length = period * k := by rw [length_drop, hk, Nat.mul_succ, Nat.add_sub_cancel]
    obtain ⟨b, hrest, hb, hbp, hbm⟩ := ih (a := { a with adjustment := int64 (a.adjustment + m), deltas := [] }) rfl hp hdrop
    refine ⟨b, ?_, hb, hbp, hbm⟩
    rw [← take_append_drop period past, foldlM_append, hfirst]
    exact hrest

/-- The middle delta lies between two of the deltas outside the minority, if those are what was
reported; so the sum with the offset does not wrap either. -/
theorem change_between {rest minority : List TimestampAdjustment} {m : Int} (hodd : period % 2 = 1) (hw : w.length = period)
    (hm : (sortedDeltas maxDeltaNs w)[period / 2]? = some m) (hsplit : w ~ rest ++ minority)
    (hminor : minority.length ≤ (period - 1) / 2) (hfits : ∀ t ∈ rest, Fits maxDeltaNs a.adjustment t) :
    ∃ t ∈ rest, ∃ u ∈ rest, clampedDelta maxDeltaNs t ≤ int64 (a.adjustment + m) - a.adjustment ∧
      int64 (a.adjustment + m) - a.adjustment ≤ clampedDelta maxDeltaNs u := by
  have hperm : sortedDeltas maxDeltaNs w ~ rest.map (signedDelta maxDeltaNs) ++ minority.map (signedDelta maxDeltaNs) := by
    rw [← map_append]
    exact sortedDeltas_perm.trans (hsplit.map _)
  have hlen : (sortedDeltas maxDeltaNs w).length = 2 * (period / 2) + 1 := by rw [length_sortedDeltas]; omega
  obtain ⟨⟨x, hx, hxm⟩, y, hy, hmy⟩ :=
    middle_between sortedDeltas_pairwise hlen hm hperm (by rw [length_map]; omega)
  obtain ⟨t, ht, rfl⟩ := mem_map.mp hx
  obtain ⟨u, hu, rfl⟩ := mem_map.mp hy
  obtain ⟨htf, htlow, -⟩ := hfits t ht
  obtain ⟨huf, -, huhigh⟩ := hfits u hu
  rw [signedDelta_eq htf] at hxm
  rw [signedDelta_eq huf] at hmy
  have hint : int64 (a.adjustment + m) = a.adjustment + m := by unfold int64; omega
  exact ⟨t, ht, u, hu, by omega, by omega⟩

theorem run_eq (hodd : period % 2 = 1) (history : List TimestampAdjustment) :
    run maxDeltaNs period history = history.foldlM handleAdjustment ⟨0, period, [], maxDeltaNs⟩ := by
  have hnew : newTimestampAdjuster maxDeltaNs period = some ⟨0, period, [], maxDeltaNs⟩ :=
    if_neg (by rw [not_not, Int.tmod_eq_emod_of_nonneg (by omega)]; omega)
  rw [run, hnew]
  rfl

/-- The reports `w` complete a window after the reports `past`. -/
theorem minority_resisted (hodd : period % 2 = 1) (hpast : period ∣ past.length) (hw : w.length = period) :
    ∃ a b, run maxDeltaNs period past = some a ∧ a.deltas = [] ∧ run maxDeltaNs period (past ++ w) = some b ∧ b.deltas = [] ∧
      (∀ p, p.length < period → ∃ c, run maxDeltaNs period (past ++ p) = some c ∧ c.adjustment = a.adjustment) ∧
      (∀ w', w' ~ w → run maxDeltaNs period (past ++ w') = some b) ∧
      ∀ rest minority, w ~ rest ++ minority → minority.length ≤ (period - 1) / 2 →
        (∀ t ∈ rest, Fits maxDeltaNs a.adjustment t) → ∃ t ∈ rest, ∃ u ∈ rest,
          clampedDelta maxDeltaNs t ≤ b.adjustment - a.adjustment ∧
            b.adjustment - a.adjustment ≤ clampedDelta maxDeltaNs u := by
  have hpos : 0 < period := by omega
  obtain ⟨a, hpast, ha, hap, ham⟩ := run_windows (a := ⟨0, period, [], maxDeltaNs⟩) rfl rfl hpos hpast
  have hrun : ∀ p, run maxDeltaNs period (past ++ p) = p.foldlM handleAdjustment a := by
    intro p
    rw [run_eq hodd, List.foldlM_append, hpast]
    rfl
  obtain ⟨m, hm, hfull⟩ := run_full ha hap hpos hw
  refine ⟨a, _, (run_eq hodd past).trans hpast, ha, (hrun w).trans hfull, rfl, ?_, ?_, ?_⟩
  · intro p hp
    refine ⟨_, (hrun p).trans ((run_window ha hap hpos (by omega)).trans (if_neg ?_)), rfl⟩
    rw [length_sortedDeltas]
    omega
  · intro w' hperm
    obtain ⟨m', hm', hfull'⟩ := run_full ha hap hpos (hperm.length_eq.trans hw)
    rw [sortedDeltas_congr hperm, hm] at hm'
    rw [hrun, hfull', Option.some.inj hm']
  · intro rest minority hsplit hminor hfits
    rw [ham] at hm
    exact change_between hodd hw hm hsplit hminor hfits

/-- One report of three is a century off; the offset moves by five to seven nanoseconds. -/
theorem minority_resisted_three :
    ∃ b, run 10000000000 3 [⟨5, .forward⟩, ⟨3000000000000000000, .backward⟩, ⟨7, .forward⟩] = some b ∧
      5 ≤ b.adjustment ∧ b.adjustment ≤ 7 := by
  obtain ⟨a, b, ha, -, hb, -, -, -, h⟩ := @minority_resisted 10000000000
    [⟨5, .forward⟩, ⟨3000000000000000000, .backward⟩, ⟨7, .forward⟩] [] 3 rfl (by decide) rfl
  obtain rfl : (⟨0, 3, [], 10000000000⟩ : TimestampAdjuster) = a := Option.some.inj ha
  obtain ⟨t, ht, u, hu, hlow, hhigh⟩ := h [⟨5, .forward⟩, ⟨7, .forward⟩] [⟨3000000000000000000, .backward⟩]
    (by decide) (by decide) (by unfold Fits; decide)
  have hrest : ∀ t ∈ [(⟨5, .forward⟩ : TimestampAdjustment), ⟨7, .forward⟩],
      5 ≤ clampedDelta 10000000000 t ∧ clampedDelta 10000000000 t ≤ 7 := by decide
  rw [Int.sub_zero] at hlow hhigh
  exact ⟨b, hb, (hrest t ht).1.trans hlow, hhigh.trans (hrest u hu).2⟩

/-- A report of `2 ^ 63` that is not clamped moves the clock by nothing; two of `2 ^ 63 - 1` move it backward. -/
theorem report_lost :
    (run 18446744073709551615 1 [⟨9223372036854775808, .forward⟩]).map adjustment = some 0 ∧
      clampedDelta 18446744073709551615 ⟨9223372036854775808, .forward⟩ = 2 ^ 63 ∧
      (run 9223372036854775807 1 [⟨9223372036854775807, .forward⟩, ⟨9223372036854775807, .forward⟩]).map adjustment = some (-2) := by
  decide

end TimestampAdjuster

end MonadBft
