/-
  MonadBft.BlockSync.Sampler — the rejection sampling behind the weighted choice of a peer
  (`blocksync.randomize256`), beside the one of leader election.

  Both draw 256-bit numbers until one is at most a bound and return its remainder by `m`. Leader
  election takes the bound from `2 ^ 256 - 1`; block sync from `2 ^ 256`.

  Proved: a sampler of this form is unbiased exactly if `m` divides the number of draws it accepts
  (`unbiased_iff`). Leader election's always is; block sync's is unless `m` divides `2 ^ 256 + 1`,
  when it rejects nothing (`samplers_unbiased_iff`).
-/
import MonadBft.Election
import Mathlib.Data.Int.CardIntervalMod

namespace MonadBft

/-! ## Unbiased sampling -/

namespace Sampling

/-- The 256-bit numbers that `sample` accepts as its first draw. -/
def accepted (sample : List Nat → Option Nat) : Finset Nat :=
  (Finset.range (2 ^ 256)).filter fun v => (sample [v]).isSome

/-- Some draw is accepted, and each residue comes from the same number of accepted draws. -/
structure Unbiased (sample : List Nat → Option Nat) (m : Nat) : Prop where
  nonempty : (accepted sample).Nonempty
  dvd : m ∣ (accepted sample).card
  uniform : ∀ i < m, ((accepted sample).filter fun v => sample [v] = some i).card = (accepted sample).card / m

variable {sample : List Nat → Option Nat} {m max : Nat}
  (h : ∀ v, sample [v] = if v ≤ max then some (v % m) else none)

include h

theorem accepted_eq : accepted sample = Finset.range (min (max + 1) (2 ^ 256)) := by
  ext v
  rw [accepted, Finset.mem_filter, Finset.mem_range, Finset.mem_range, lt_min_iff, and_comm, h]
  split
  · simp; omega
  · simp; omega

theorem unbiased_iff (hm : 0 < m) : Unbiased sample m ↔ m ∣ min (max + 1) (2 ^ 256) := by
  have hcard : (accepted sample).card = min (max + 1) (2 ^ 256) := by rw [accepted_eq h, Finset.card_range]
  constructor
  · intro hu
    exact hcard ▸ hu.dvd
  · intro hdvd
    refine ⟨?_, hcard ▸ hdvd, ?_⟩
    · rw [accepted_eq h, Finset.nonempty_range_iff]
      omega
    · intro i hi
      -- the accepted draws are an initial segment, so those of one residue are counted by `Nat.count`
      have hres : (accepted sample).filter (fun v => sample [v] = some i) =
          (Finset.range (min (max + 1) (2 ^ 256))).filter fun v => v ≡ i [MOD m] := by
        rw [accepted_eq h]
        refine Finset.filter_congr fun v hv => ?_
        have hle : v ≤ max := by have := Finset.mem_range.mp hv; omega
        rw [h, if_pos hle, Option.some.injEq, Nat.ModEq, Nat.mod_eq_of_lt hi]
      rw [hres, ← Nat.count_eq_card_filter_range, Nat.count_modEq_card _ hm, Nat.mod_eq_zero_of_dvd hdvd, hcard]
      simp

end Sampling

/-! ## The two samplers -/

namespace BlockSync

open Sampling

/-- The largest number that `randomize256` accepts, counted from `two256`. -/
def sampleMax (m : Nat) : Nat := 2 ^ 256 - (2 ^ 256 - m + 1) % m

/-- `randomize256` over the numbers the generator gives; `none` if it accepts none of them. -/
def randomize256 (m : Nat) : List Nat → Option Nat
  | [] => none
  | v :: rest => if v ≤ sampleMax m then some (v % m) else randomize256 m rest

theorem sampleMax_eq {m : Nat} (hfits : m < 2 ^ 256) : sampleMax m = 2 ^ 256 - (2 ^ 256 + 1) % m := by
  have hmod : (2 ^ 256 - m + 1) % m = (2 ^ 256 + 1) % m := by
    rw [show 2 ^ 256 + 1 = (2 ^ 256 - m + 1) + m by omega, Nat.add_mod_right]
  rw [sampleMax, hmod]

theorem dvd_accepted_iff {m : Nat} (hm : 0 < m) (hfits : m < 2 ^ 256) :
    m ∣ min (sampleMax m + 1) (2 ^ 256) ↔ m = 1 ∨ ¬ m ∣ 2 ^ 256 + 1 := by
  have hlt := Nat.mod_lt (2 ^ 256 + 1) hm
  rw [sampleMax_eq hfits]
  by_cases hd : m ∣ 2 ^ 256 + 1
  · -- the bound is above every draw, so all `2 ^ 256` are accepted
    rw [Nat.mod_eq_zero_of_dvd hd, Nat.sub_zero, Nat.min_eq_right (by omega)]
    constructor
    · intro hd'
      exact .inl (Nat.dvd_one.mp ((Nat.dvd_add_right hd').mp hd))
    · rintro (rfl | hnd)
      · exact Nat.one_dvd _
      · exact absurd hd hnd
  · have hpos : (2 ^ 256 + 1) % m ≠ 0 := fun h0 => hd (Nat.dvd_of_mod_eq_zero h0)
    have heq : min (2 ^ 256 - (2 ^ 256 + 1) % m + 1) (2 ^ 256) = 2 ^ 256 + 1 - (2 ^ 256 + 1) % m := by omega
    rw [heq]
    exact ⟨fun _ => .inr hd, fun _ => Nat.dvd_sub_mod _⟩

theorem samplers_unbiased_iff {m : Nat} (hm : 0 < m) (hfits : m < 2 ^ 256) :
    Unbiased (WeightedRoundRobin.randomize256 m) m ∧ (Unbiased (randomize256 m) m ↔ m = 1 ∨ ¬ m ∣ 2 ^ 256 + 1) := by
  constructor
  · refine (unbiased_iff (fun v => rfl) hm).mpr ?_
    have hle : WeightedRoundRobin.sampleMax m + 1 ≤ 2 ^ 256 := by unfold WeightedRoundRobin.sampleMax; omega
    rw [Nat.min_eq_left hle]
    exact WeightedRoundRobin.dvd_sampleMax hm hfits
  · rw [unbiased_iff (fun v => rfl) hm]
    exact dvd_accepted_iff hm hfits

theorem samplers_unbiased_three :
    Unbiased (WeightedRoundRobin.randomize256 3) 3 ∧ Unbiased (randomize256 3) 3 :=
  have h := samplers_unbiased_iff (m := 3) (by decide) (by decide)
  ⟨h.1, h.2.mpr (.inr (by decide))⟩

/-- A prime factor of `2 ^ 256 + 1`: every draw is accepted, and their number is not a multiple of it. -/
theorem sampler_biased : (accepted (randomize256 1238926361552897)).card = 2 ^ 256 ∧ ¬ 1238926361552897 ∣ 2 ^ 256 := by
  constructor
  · rw [accepted_eq fun v => rfl, Finset.card_range]
    decide
  · decide

end BlockSync

end MonadBft
