/-
  MonadBft.Lib.BitRing — a ring of bits that remembers which numbers of a moving window were seen.

  `n` words of `w` bits hold one bit for each residue modulo `n * w`. `isSet_set`,
  `isSet_clear` and `isSet_clearRange` say what the operations do to a single number's bit.
  `Remembers r next s` is what the ring is for: the numbers of `s` among the last
  `n * w - 1` below `next` are exactly those whose bit is set. Proved: moving the window
  forwards keeps it, whether the numbers passed over are cleared one by one (`advance`) or the
  whole ring is (`jump`), and so does marking a number at the front (`mark_next`) or inside
  the window (`mark`).
-/
import Mathlib.Data.Nat.ModEq
import Mathlib.Data.Set.Insert
import Mathlib.Tactic.Ring

namespace MonadBft.Lib

/-- `n` words of `w` bits. -/
abbrev BitRing (n w : Nat) := Vector (BitVec w) n

namespace BitRing

variable {n w : Nat} [NeZero n] [NeZero w] (i : Nat)

theorem word_lt : i % (n * w) / w < n := by
  have hpos : 0 < n * w := Nat.mul_pos (NeZero.pos n) (NeZero.pos w)
  have hlt : i % (n * w) < w * n := Nat.mul_comm n w ▸ Nat.mod_lt i hpos
  exact Nat.div_lt_of_lt_mul hlt

/-- The word that holds the bit of `i`. -/
def word (n w : Nat) [NeZero n] [NeZero w] (i : Nat) : Fin n := ⟨i % (n * w) / w, word_lt i⟩

/-- The place of that bit in its word. -/
def offset (n w : Nat) (i : Nat) : Nat := i % (n * w) % w

def zero : BitRing n w := Vector.replicate n 0

variable (r : BitRing n w) (j : Nat)

def isSet (i : Nat) : Bool := r[word n w i] >>> offset n w i &&& 1#w == 1#w

def set (r : BitRing n w) (i : Nat) : BitRing n w :=
  Vector.set r (word n w i) (r[word n w i] ||| 1#w <<< offset n w i)

def clear (i : Nat) : BitRing n w :=
  Vector.set r (word n w i) (r[word n w i] &&& ~~~(1#w <<< offset n w i))

/-- `for i := from; i < to; i++ { clear(i) }` -/
def clearRange (a b : Nat) : BitRing n w := (List.range' a (b - a)).foldl clear r

/-! ## One bit -/

omit [NeZero n] in
theorem offset_lt : offset n w i < w := Nat.mod_lt _ (NeZero.pos w)

theorem place_eq_iff {i j : Nat} :
    word n w i = word n w j ∧ offset n w i = offset n w j ↔ i % (n * w) = j % (n * w) := by
  constructor
  · rintro ⟨hw, ho⟩
    have hw' : i % (n * w) / w = j % (n * w) / w := congrArg Fin.val hw
    calc i % (n * w) = w * (i % (n * w) / w) + i % (n * w) % w := (Nat.div_add_mod _ _).symm
      _ = w * (j % (n * w) / w) + j % (n * w) % w := by rw [hw', show i % (n * w) % w = _ from ho]; rfl
      _ = j % (n * w) := Nat.div_add_mod _ _
  · intro h
    simp [word, offset, h]

theorem isSet_eq : isSet r i = r[word n w i].getLsbD (offset n w i) := by
  have hw : 1 < 2 ^ w := Nat.one_lt_two_pow (NeZero.ne w)
  rw [isSet, BitVec.and_one_eq_setWidth_ofBool_getLsbD, BitVec.getLsbD_ushiftRight, Nat.add_zero]
  cases r[word n w i].getLsbD (offset n w i) with
  | true => simp [BitVec.toNat_eq]
  | false => simp [BitVec.toNat_eq, Nat.mod_eq_of_lt hw]

@[simp] theorem isSet_zero : isSet (zero : BitRing n w) i = false := by
  simp [isSet_eq, zero]

theorem isSet_vectorSet (k : Fin n) (x : BitVec w) (j : Nat) :
    isSet (Vector.set r k x) j = if k = word n w j then x.getLsbD (offset n w j) else isSet r j := by
  rw [isSet_eq, isSet_eq]
  by_cases h : k = word n w j
  · simp [h]
  · have hk : (k : Nat) ≠ word n w j := fun e => h (Fin.ext e)
    simp [h, hk]

theorem getLsbD_one_shiftLeft {a b : Nat} (hb : b < w) : (1#w <<< a).getLsbD b = decide (a = b) := by
  have hw : 0 < w := NeZero.pos w
  rw [BitVec.getLsbD_shiftLeft, BitVec.getLsbD_one]
  by_cases h : a = b
  · simp [h, hb, hw]
  · have : b < a ∨ b - a ≠ 0 := by omega
    rcases this with h' | h' <;> simp [h, h']

theorem isSet_set : isSet (set r i) j = (decide (i % (n * w) = j % (n * w)) || isSet r j) := by
  rw [set, isSet_vectorSet, BitVec.getLsbD_or, getLsbD_one_shiftLeft (offset_lt j), isSet_eq]
  by_cases h : word n w i = word n w j
  · simp [h, ← place_eq_iff, Bool.or_comm]
  · simp [h, ← place_eq_iff]

theorem isSet_clear : isSet (clear r i) j = (!decide (i % (n * w) = j % (n * w)) && isSet r j) := by
  rw [clear, isSet_vectorSet, BitVec.getLsbD_and, BitVec.getLsbD_not, getLsbD_one_shiftLeft (offset_lt j), isSet_eq]
  by_cases h : word n w i = word n w j
  · simp [h, ← place_eq_iff, offset_lt, Bool.and_comm]
  · simp [h, ← place_eq_iff]

theorem isSet_foldl_clear (l : List Nat) (r : BitRing n w) (j : Nat) :
    isSet (l.foldl clear r) j = true ↔ isSet r j = true ∧ ∀ i ∈ l, i % (n * w) ≠ j % (n * w) := by
  induction l generalizing r with
  | nil => simp
  | cons i l ih =>
    rw [List.foldl_cons, ih, isSet_clear, List.forall_mem_cons]
    simp only [Bool.and_eq_true, Bool.not_eq_true', decide_eq_false_iff_not]
    tauto

theorem isSet_clearRange (a b j : Nat) : isSet (clearRange r a b) j = true ↔
      isSet r j = true ∧ ∀ i, a ≤ i → i < b → i % (n * w) ≠ j % (n * w) := by
  rw [clearRange, isSet_foldl_clear]
  have hmem : ∀ i, i ∈ List.range' a (b - a) ↔ a ≤ i ∧ i < b := by
    intro i
    rw [List.mem_range'_1]
    omega
  simp only [hmem, and_imp]

/-! ## The window -/

/-- Two numbers less than the ring's size apart have different bits. -/
theorem mod_ne {N i j : Nat} (hij : i < j) (h : j - i < N) : i % N ≠ j % N := by
  intro e
  have hdvd : N ∣ j - i := (Nat.modEq_iff_dvd' hij.le).mp e
  have := Nat.le_of_dvd (by omega) hdvd
  omega

/-- In the window below `next` the set bits are those of the numbers in `s`. -/
def Remembers (next : Nat) (s : Set Nat) : Prop :=
  ∀ c, c < next → next - c < n * w → (isSet r c = true ↔ c ∈ s)

namespace Remembers

variable {r : BitRing n w} {a b c : Nat} {s : Set Nat}

theorem start (s : Set Nat) : Remembers (zero : BitRing n w) 0 s := fun c hc => absurd hc c.not_lt_zero

/-- The window moves forwards: the numbers passed over are cleared. -/
theorem advance (h : Remembers r a s) (hs : ∀ c ∈ s, c < a) (hab : a ≤ b) : Remembers (clearRange r a b) b s := by
  intro c hc hwin
  rw [isSet_clearRange]
  by_cases hca : c < a
  · rw [h c hca (by omega), and_iff_left]
    intro i hai hib
    exact (mod_ne (by omega) (by omega)).symm
  · constructor
    · rintro ⟨-, hne⟩
      exact absurd rfl (hne c (by omega) hc)
    · intro hcs
      exact absurd (hs c hcs) hca

/-- The window moves forwards by at least the ring's size: nothing of the old one is left in it. -/
theorem jump (hs : ∀ c ∈ s, c < a) (hgap : n * w ≤ b - a) : Remembers (zero : BitRing n w) b s := by
  intro c hc hwin
  rw [isSet_zero]
  have hnot : c ∉ s := fun hcs => by
    have := hs c hcs
    omega
  simp [hnot]

/-- The number at the front is marked and the window moves past it. -/
theorem mark_next (h : Remembers r a s) : Remembers (set r a) (a + 1) (insert a s) := by
  intro c hc hwin
  rw [isSet_set, Set.mem_insert_iff]
  by_cases hca : c = a
  · simp [hca]
  · have hne : a % (n * w) ≠ c % (n * w) := (mod_ne (by omega) (by omega)).symm
    simp [hne, hca, h c (by omega) (by omega)]

/-- A number inside the window is marked. -/
theorem mark (h : Remembers r a s) (hba : b < a) (hb : a - b < n * w) : Remembers (set r b) a (insert b s) := by
  intro c hc hwin
  rw [isSet_set, Set.mem_insert_iff]
  by_cases hcb : c = b
  · simp [hcb]
  · have hne : b % (n * w) ≠ c % (n * w) := by
      rcases Nat.lt_or_gt_of_ne hcb with hlt | hlt
      · exact (mod_ne hlt (by omega)).symm
      · exact mod_ne hlt (by omega)
    simp [hne, hcb, h c hc hwin]

end Remembers

end BitRing

end MonadBft.Lib
