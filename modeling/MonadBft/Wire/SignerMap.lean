/-
  MonadBft.Wire.SignerMap — the packed signer map (sigcol/sigcol.go) and its two readings.

  The bits of a signer map are packed into whole bytes, so the first byte has up to seven bits
  that belong to no validator. The encoder leaves them clear, the decoder does not look at
  them.

  Proved:
  - `testBit_packSigners`: which bit the packing loop sets;
  - `unpackSigners_packSigners`, `packSigners_unpackSigners`: unpacking inverts packing, and
    packing inverts unpacking if the unused bits are clear.
-/
import MonadBft.Rlp.Codec
import MonadBft.Wire.Encode
import Mathlib.Data.List.GetD

namespace MonadBft.Wire

open Rlp Rlp.Decoder List

/-! ## Packing -/

section pack

variable {bits : List Bool}

theorem testBit_setBit (c : UInt8) {k : Nat} (hk : k < 8) (t : Nat) :
    (c ||| (1 <<< UInt8.ofNat k)).toNat.testBit t = (c.toNat.testBit t || decide (k = t)) := by
  have hone : ((1 : UInt8) <<< UInt8.ofNat k).toNat = 2 ^ k := by
    rw [UInt8.toNat_shiftLeft, UInt8.toNat_ofNat']
    have hmod : k % 2 ^ 8 % 8 = k := by omega
    have hpow : 2 ^ k < 2 ^ 8 := Nat.pow_lt_pow_right (by omega) hk
    rw [hmod, UInt8.toNat_one, Nat.one_shiftLeft, Nat.mod_eq_of_lt hpow]
  rw [UInt8.toNat_or, hone, Nat.testBit_or, Nat.testBit_two_pow]

/-- The packing loop after its first `m` passes. -/
def packed (bits : List Bool) (m : Nat) : Bytes :=
  (List.range m).foldl (fun buf j =>
    if bits.getD (bits.length - 1 - j) false then
      buf.modify ((bits.length + 7) / 8 - 1 - j / 8) (· ||| (1 <<< UInt8.ofNat (j % 8)))
    else buf) (List.replicate ((bits.length + 7) / 8) 0)

theorem packed_succ (bits : List Bool) (m : Nat) : packed bits (m + 1) = if bits.getD (bits.length - 1 - m) false then
      (packed bits m).modify ((bits.length + 7) / 8 - 1 - m / 8) (· ||| (1 <<< UInt8.ofNat (m % 8)))
    else packed bits m := by
  unfold packed
  rw [range_succ, foldl_append]
  rfl

@[simp] theorem packed_length (bits : List Bool) (m : Nat) : (packed bits m).length = (bits.length + 7) / 8 := by
  induction m with
  | zero => simp [packed]
  | succ m ih =>
    rw [packed_succ]
    split
    · rw [length_modify, ih]
    · exact ih

/-- After `m` passes the bits of the last `m` validators are set. -/
theorem testBit_packed {m q t : Nat} (hm : m ≤ bits.length) (hq : q < (bits.length + 7) / 8) (ht : t < 8) :
    ((packed bits m).getD ((bits.length + 7) / 8 - 1 - q) 0).toNat.testBit t =
      (decide (8 * q + t < m) && bits.getD (bits.length - 1 - (8 * q + t)) false) := by
  induction m with
  | zero =>
    have hzero : (packed bits 0).getD ((bits.length + 7) / 8 - 1 - q) 0 = 0 := by
      rw [getD_eq_getElem?_getD]
      have hidx : (bits.length + 7) / 8 - 1 - q < (bits.length + 7) / 8 := by omega
      simp [packed, hidx]
    rw [hzero]
    simp
  | succ m ih =>
    specialize ih (by omega)
    rw [packed_succ]
    by_cases hbit : bits.getD (bits.length - 1 - m) false = true
    · rw [if_pos hbit]
      by_cases hqm : q = m / 8
      · -- the byte of this pass
        have hidx : (bits.length + 7) / 8 - 1 - q < (packed bits m).length := by
          rw [packed_length]
          omega
        rw [← hqm, getD_eq_getElem?_getD, getElem?_modify_eq, getElem?_eq_getElem hidx]
        rw [getD_eq_getElem?_getD, getElem?_eq_getElem hidx, Option.getD_some] at ih
        rw [Option.map_eq_map, Option.map_some, Option.getD_some, testBit_setBit _ (Nat.mod_lt m (by decide)), ih]
        by_cases htm : m % 8 = t
        · have heq : 8 * q + t = m := by omega
          rw [heq, hbit]
          simp [htm]
        · have hlt : 8 * q + t < m + 1 ↔ 8 * q + t < m := by omega
          simp [htm, hlt]
      · have hne : (bits.length + 7) / 8 - 1 - m / 8 ≠ (bits.length + 7) / 8 - 1 - q := by omega
        have hlt : 8 * q + t < m + 1 ↔ 8 * q + t < m := by omega
        rw [getD_eq_getElem?_getD, getElem?_modify_ne _ _ hne, ← getD_eq_getElem?_getD, ih]
        simp only [hlt]
    · rw [if_neg hbit, ih]
      by_cases heq : 8 * q + t = m
      · rw [heq, Bool.eq_false_of_not_eq_true hbit]
        simp
      · have hlt : 8 * q + t < m + 1 ↔ 8 * q + t < m := by omega
        simp only [hlt]

theorem testBit_packSigners (bits : List Bool) {q t : Nat} (hq : q < (bits.length + 7) / 8) (ht : t < 8) :
    ((packSigners bits).getD ((bits.length + 7) / 8 - 1 - q) 0).toNat.testBit t =
      (decide (8 * q + t < bits.length) && bits.getD (bits.length - 1 - (8 * q + t)) false) :=
  testBit_packed le_rfl hq ht

@[simp] theorem packSigners_length (bits : List Bool) : (packSigners bits).length = (bits.length + 7) / 8 :=
  packed_length bits bits.length

end pack

/-! ## Unpacking -/

theorem unpackSigners_length (n : Nat) (b : Fixed ((n + 7) / 8)) : (unpackSigners n b).length = n :=
  length_ofFn

variable {n : Nat} (b : Fixed ((n + 7) / 8))

theorem unpackSigners_getD {j : Nat} (hj : j < n) :
    (unpackSigners n b).getD (n - 1 - j) false = (b.val.getD ((n + 7) / 8 - 1 - j / 8) 0).toNat.testBit (j % 8) := by
  have hk : n - 1 - (n - 1 - j) = j := by omega
  have hidx : (n + 7) / 8 - 1 - j / 8 < b.val.length := by
    rw [b.property]
    omega
  unfold unpackSigners
  rw [List.getD_eq_getElem?_getD, List.getElem?_ofFn, dif_pos (by omega), List.getD_eq_getElem _ _ hidx]
  simp only [hk, List.get_eq_getElem, Option.getD_some]

theorem unpackSigners_packSigners {b : Fixed ((n + 7) / 8)} {bits : List Bool} (hn : n = bits.length)
    (hb : b.val = packSigners bits) : unpackSigners n b = bits := by
  subst hn
  refine ext_getElem (unpackSigners_length _ _) fun i hi hi' => ?_
  have hj : bits.length - 1 - (bits.length - 1 - i) = i := by omega
  have hbit := unpackSigners_getD b (by omega : bits.length - 1 - i < bits.length)
  have hdiv : 8 * ((bits.length - 1 - i) / 8) + (bits.length - 1 - i) % 8 = bits.length - 1 - i := by omega
  rw [hb, testBit_packSigners _ (by omega) (Nat.mod_lt _ (by decide)), hdiv, hj] at hbit
  rw [getD_eq_getElem _ _ hi, getD_eq_getElem _ _ hi'] at hbit
  rw [hbit]
  simp
  omega

/-- The bits of the first byte that belong to no validator are clear. -/
def clearPadding (numBits : Nat) (packed : Bytes) : Bool :=
  numBits % 8 = 0 || (packed.getD 0 0).toNat < 2 ^ (numBits % 8)

theorem byte_ext {c c' : UInt8} (h : ∀ t < 8, c.toNat.testBit t = c'.toNat.testBit t) : c = c' := by
  refine UInt8.toNat_inj.mp (Nat.eq_of_testBit_eq fun t => ?_)
  by_cases ht : t < 8
  · exact h t ht
  · have hpow : 2 ^ 8 ≤ 2 ^ t := Nat.pow_le_pow_right (by decide) (by omega)
    have hc := c.toNat_lt
    have hc' := c'.toNat_lt
    rw [Nat.testBit_lt_two_pow (by omega), Nat.testBit_lt_two_pow (by omega)]

theorem packSigners_clear (bits : List Bool) : clearPadding bits.length (packSigners bits) = true := by
  unfold clearPadding
  rw [Bool.or_eq_true, decide_eq_true_eq, decide_eq_true_eq]
  by_cases hmod : bits.length % 8 = 0
  · exact .inl hmod
  · refine .inr (Nat.lt_pow_two_of_testBit _ fun t ht => ?_)
    by_cases ht8 : t < 8
    · have hq : (bits.length + 7) / 8 - 1 - bits.length / 8 = 0 := by omega
      have hbit := testBit_packSigners bits (q := bits.length / 8) (by omega) ht8
      rw [hq] at hbit
      rw [hbit]
      simp
      omega
    · have hpow : 2 ^ 8 ≤ 2 ^ t := Nat.pow_le_pow_right (by decide) (by omega)
      have := ((packSigners bits).getD 0 0).toNat_lt
      exact Nat.testBit_lt_two_pow (by omega)

theorem packSigners_unpackSigners (h : clearPadding n b.val = true) : packSigners (unpackSigners n b) = b.val := by
  have hn := unpackSigners_length n b
  have hlen : (packSigners (unpackSigners n b)).length = (n + 7) / 8 := by rw [packSigners_length, hn]
  refine ext_getElem (hlen.trans b.property.symm) fun i hi hi' => byte_ext fun t ht => ?_
  have hi8 : i < (n + 7) / 8 := hlen ▸ hi
  have hq : (n + 7) / 8 - 1 - ((n + 7) / 8 - 1 - i) = i := by omega
  have hbit := testBit_packSigners (unpackSigners n b) (q := (n + 7) / 8 - 1 - i) (by rw [hn]; omega) ht
  rw [hn, hq, getD_eq_getElem _ _ hi] at hbit
  rw [hbit]
  by_cases hlt : 8 * ((n + 7) / 8 - 1 - i) + t < n
  · -- the bit of a validator
    have hdiv : (8 * ((n + 7) / 8 - 1 - i) + t) / 8 = (n + 7) / 8 - 1 - i := by omega
    have hmod : (8 * ((n + 7) / 8 - 1 - i) + t) % 8 = t := by omega
    rw [unpackSigners_getD b hlt, hdiv, hmod, hq, getD_eq_getElem _ _ hi']
    simp [hlt]
  · -- an unused bit of the first byte
    obtain rfl : i = 0 := by omega
    rw [clearPadding, Bool.or_eq_true, decide_eq_true_eq, decide_eq_true_eq] at h
    have hfirst : (b.val.getD 0 0).toNat < 2 ^ (n % 8) := h.resolve_left (by omega)
    have hpow : 2 ^ (n % 8) ≤ 2 ^ t := Nat.pow_le_pow_right (by decide) (by omega)
    rw [getD_eq_getElem _ _ hi'] at hfirst
    rw [Nat.testBit_lt_two_pow (by omega : b.val[0].toNat < 2 ^ t), decide_eq_false hlt, Bool.false_and]

end MonadBft.Wire
