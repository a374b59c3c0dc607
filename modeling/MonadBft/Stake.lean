/-
  MonadBft.Stake — 256-bit stakes and the validator set over them (`types.Stake`,
  `validator.NewValidatorSet`).

  A stake is 32 bytes, big-endian. `add` is the byte adder with a carry, `cmp` compares byte
  by byte, thresholds are computed on big integers and written back to 32 bytes
  (`ofBig`, which slices out of bounds on a larger number). `StakeSet` is the set as the code
  keeps it; `ValidatorSet` of `MonadBft.Validator` is what it stands for.

  Proved: the adder adds modulo `2 ^ 256` and the comparison is the one of the numbers
  (`toNat_add`, `cmp_eq`); a set whose stakes sum below `2 ^ 256` counts as the set over
  numbers does (`hasThresholdVotes_toValidatorSet`); and the quorum arithmetic that every
  certificate rests on (`quorum_arithmetic`).
-/
import MonadBft.Rlp.Stream
import MonadBft.Validator
import Mathlib.Data.List.Sort
import Mathlib.Tactic.Linarith

namespace MonadBft

open Lib
open Rlp (Bytes beNat beNat_cons beNat_lt)

/-! ## Big-endian bytes -/

namespace Bytes

/-- The loop of `Stake.Add`, from the last byte to the first: the sum and the carry out of it. -/
def addCarry : Bytes → Bytes → Bytes × Nat
  | a :: as, b :: bs =>
    let low := addCarry as bs
    let sum := a.toNat + b.toNat + low.2
    (UInt8.ofNat sum :: low.1, sum / 256)
  | _, _ => ([], 0)

/-- `bytes.Compare`, on strings of one length. -/
def compareBytes : Bytes → Bytes → Ordering
  | a :: as, b :: bs => if a = b then compareBytes as bs else compare a.toNat b.toNat
  | _, _ => .eq

/-- The low `len` bytes of a number. -/
def ofNat : Nat → Nat → Bytes
  | 0, _ => []
  | len + 1, n => UInt8.ofNat (n / 256 ^ len) :: ofNat len n

theorem addCarry_spec {a b : Bytes} (h : a.length = b.length) : (addCarry a b).1.length = a.length ∧
      beNat (addCarry a b).1 + (addCarry a b).2 * 256 ^ a.length = beNat a + beNat b := by
  induction a generalizing b with
  | nil =>
    obtain rfl : b = [] := List.length_eq_zero_iff.mp h.symm
    simp [addCarry, beNat]
  | cons x a ih =>
    cases b with
    | nil => simp at h
    | cons y b =>
      have hlen : a.length = b.length := by simpa using h
      obtain ⟨hl, hsum⟩ := ih hlen
      refine ⟨by simp [addCarry, hl], ?_⟩
      have hsplit := Nat.mod_add_div (x.toNat + y.toNat + (addCarry a b).2) 256
      have hpow : 256 ^ (x :: a).length = 256 ^ a.length * 256 := Nat.pow_succ ..
      rw [hpow]
      simp only [addCarry, beNat_cons, hl, ← hlen, UInt8.toNat_ofNat', Nat.reducePow]
      -- the byte and the carry out of it weigh what came in
      have hbyte : ((x.toNat + y.toNat + (addCarry a b).2) % 256 +
          256 * ((x.toNat + y.toNat + (addCarry a b).2) / 256)) * 256 ^ a.length =
          (x.toNat + y.toNat + (addCarry a b).2) * 256 ^ a.length := congrArg (· * 256 ^ a.length) hsplit
      linarith

theorem compareBytes_eq {a b : Bytes} (h : a.length = b.length) : compareBytes a b = compare (beNat a) (beNat b) := by
  induction a generalizing b with
  | nil =>
    obtain rfl : b = [] := List.length_eq_zero_iff.mp h.symm
    rfl
  | cons x a ih =>
    cases b with
    | nil => simp at h
    | cons y b =>
      have hlen : a.length = b.length := by simpa using h
      have ha := beNat_lt a
      have hb := beNat_lt b
      rw [compareBytes, beNat_cons, beNat_cons, ← hlen]
      rw [← hlen] at hb
      by_cases hxy : x = y
      · rw [if_pos hxy, ih hlen, hxy]
        simp only [compare, compareOfLessAndEq, Nat.add_lt_add_iff_left, Nat.add_left_cancel_iff]
      · -- the first byte that differs decides, whatever follows
        have hne : x.toNat ≠ y.toNat := fun h => hxy (UInt8.toNat_inj.mp h)
        rw [if_neg hxy]
        rcases Nat.lt_or_gt_of_ne hne with hlt | hgt
        · have hmul : (x.toNat + 1) * 256 ^ a.length ≤ y.toNat * 256 ^ a.length :=
            Nat.mul_le_mul_right _ hlt
          rw [Nat.compare_eq_lt.mpr hlt, Nat.compare_eq_lt.mpr (by linarith)]
        · have hmul : (y.toNat + 1) * 256 ^ a.length ≤ x.toNat * 256 ^ a.length :=
            Nat.mul_le_mul_right _ hgt
          rw [Nat.compare_eq_gt.mpr hgt, Nat.compare_eq_gt.mpr (by linarith)]

theorem ofNat_length (len n : Nat) : (ofNat len n).length = len := by
  induction len with
  | zero => rfl
  | succ len ih => simp [ofNat, ih]

theorem beNat_ofNat (len n : Nat) : beNat (ofNat len n) = n % 256 ^ len := by
  induction len with
  | zero => simp [ofNat, beNat, Nat.mod_one]
  | succ len ih =>
    rw [ofNat, beNat_cons, ofNat_length, ih, UInt8.toNat_ofNat', Nat.pow_succ 256 len, Nat.mod_mul]
    ring

end Bytes

/-! ## Stakes -/

structure Stake where
  bytes : Bytes
  length : bytes.length = 32
  deriving DecidableEq

namespace Stake

def toNat (s : Stake) : Nat := beNat s.bytes

def add (s o : Stake) : Stake :=
  ⟨(Bytes.addCarry s.bytes o.bytes).1, by rw [(Bytes.addCarry_spec (by rw [s.length, o.length])).1, s.length]⟩

def cmp (s o : Stake) : Ordering := Bytes.compareBytes s.bytes o.bytes

/-- The low 32 bytes of a number. -/
def wrap (n : Nat) : Stake := ⟨Bytes.ofNat 32 n, Bytes.ofNat_length 32 n⟩

def zero : Stake := wrap 0

def isZero (s : Stake) : Bool := s = zero

/-- `StakeFromBig`; `none` is the slice out of bounds on a number of more than 32 bytes. -/
def ofBig (n : Nat) : Option Stake := if n < 2 ^ 256 then some (wrap n) else none

theorem toNat_lt (s : Stake) : s.toNat < 2 ^ 256 := by
  have h := beNat_lt s.bytes
  rw [s.length] at h
  exact h

theorem toNat_wrap (n : Nat) : (wrap n).toNat = n % 2 ^ 256 := Bytes.beNat_ofNat 32 n

theorem toNat_inj {s o : Stake} (h : s.toNat = o.toNat) : s = o := by
  have hcmp := Bytes.compareBytes_eq (s.length.trans o.length.symm)
  rw [show beNat s.bytes = beNat o.bytes from h, Nat.compare_eq_eq.mpr rfl] at hcmp
  have heq : ∀ {a b : Bytes}, a.length = b.length → Bytes.compareBytes a b = .eq → a = b := by
    intro a
    induction a with
    | nil => intro b hb _; exact (List.length_eq_zero_iff.mp hb.symm).symm
    | cons x a ih =>
      intro b hb hab
      cases b with
      | nil => simp at hb
      | cons y b =>
        rw [Bytes.compareBytes] at hab
        split_ifs at hab with hxy
        · rw [hxy, ih (by simpa using hb) hab]
        · exact absurd (UInt8.toNat_inj.mp (Nat.compare_eq_eq.mp hab)) hxy
  obtain ⟨a, ha⟩ := s
  obtain ⟨b, hb⟩ := o
  simpa using heq (ha.trans hb.symm) hcmp

theorem isZero_iff {s : Stake} : s.isZero = true ↔ s.toNat = 0 := by
  rw [isZero, decide_eq_true_eq]
  constructor
  · intro h
    rw [h, zero, toNat_wrap, Nat.zero_mod]
  · intro h
    exact toNat_inj (by rw [h, zero, toNat_wrap, Nat.zero_mod])

/-- The adder adds modulo `2 ^ 256`. -/
theorem toNat_add (s o : Stake) : (s.add o).toNat = (s.toNat + o.toNat) % 2 ^ 256 := by
  obtain ⟨hlen, hsum⟩ := Bytes.addCarry_spec (s.length.trans o.length.symm)
  have hlt := toNat_lt (s.add o)
  rw [s.length] at hsum
  show beNat _ = (beNat _ + beNat _) % 2 ^ 256
  rw [← hsum, show (256 : Nat) ^ 32 = 2 ^ 256 from by norm_num, Nat.add_mul_mod_self_right]
  exact (Nat.mod_eq_of_lt hlt).symm

theorem cmp_eq (s o : Stake) : s.cmp o = compare s.toNat o.toNat :=
  Bytes.compareBytes_eq (s.length.trans o.length.symm)

end Stake

/-! ## Validator sets over 256-bit stakes -/

inductive StakeErr where
  | emptyValidatorSet
  | zeroStakeValidator (id : NodeId)
  | duplicateValidator (id : NodeId)
  | sliceBounds
  deriving DecidableEq, Repr

/-- `validator.ValidatorSet`: no stake is zero, and the total is the wrapped sum. -/
structure StakeSet where
  stakes : AMap NodeId Stake
  totalStake : Stake
  pos : ∀ e ∈ stakes.entries, 0 < e.2.toNat
  total : totalStake.toNat = (stakes.values.map Stake.toNat).sum % 2 ^ 256

namespace StakeSet

def empty : StakeSet := ⟨AMap.empty, Stake.zero, by simp [AMap.empty], by decide⟩

/-- One turn of the loop of `NewValidatorSet`, for a new member with a stake. -/
def add (v : StakeSet) (id : NodeId) (stake : Stake) (hz : stake.isZero = false)
    (hnew : id ∉ v.stakes.keys) : StakeSet where
  stakes := v.stakes.insert id stake
  totalStake := v.totalStake.add stake
  pos := by
    rw [AMap.entries_insert_new _ hnew]
    intro e he
    rcases List.mem_append.mp he with he | he
    · exact v.pos e he
    · obtain rfl := List.mem_singleton.mp he
      refine Nat.pos_of_ne_zero fun h0 => ?_
      rw [Stake.isZero_iff.mpr h0] at hz
      cases hz
  total := by
    rw [Stake.toNat_add, v.total]
    simp only [AMap.values, AMap.entries_insert_new _ hnew]
    simp

def addAll (v : StakeSet) : List (NodeId × Stake) → Except StakeErr StakeSet
  | [] => .ok v
  | (id, stake) :: rest =>
    if hz : stake.isZero = true then .error (.zeroStakeValidator id)
    else if hd : id ∈ v.stakes.keys then .error (.duplicateValidator id)
    else addAll (v.add id stake (by simpa using hz) hd) rest

def newValidatorSet (vals : List (NodeId × Stake)) : Except StakeErr StakeSet :=
  if vals = [] then .error .emptyValidatorSet else addAll empty vals

variable (v : StakeSet)

/-- `Members`: sorted by node id. -/
def members : List NodeId := v.stakes.keys.insertionSort (· ≤ ·)

/-- `StakeOf` as a number, zero for a node that is not a member. -/
def stakeOf (id : NodeId) : Nat := ((v.stakes.get id).map Stake.toNat).getD 0

/-- The loop of `CalculateCurrentStake`. -/
def sumStakes (seen : List NodeId) (sum : Stake) : List NodeId → Except StakeErr Stake
  | [] => .ok sum
  | a :: rest =>
    if a ∈ seen then .error (.duplicateValidator a)
    else
      sumStakes (a :: seen)
        (match v.stakes.get a with
        | some s => sum.add s
        | none => sum) rest

variable (addrs : List NodeId)

def calculateCurrentStake : Except StakeErr Stake := v.sumStakes [] Stake.zero addrs

/-- `threshold` with `plusOne`. -/
def threshold (num den : Nat) : Option Stake := Stake.ofBig (v.totalStake.toNat * num / den + 1)

def hasThresholdVotes (thr : Option Stake) : Except StakeErr Bool :=
  match thr with
  | none => .error .sliceBounds
  | some thr => do
    let sum ← v.calculateCurrentStake addrs
    return decide (sum.cmp thr ≠ .lt)

def hasSuperMajorityVotes : Except StakeErr Bool :=
  v.hasThresholdVotes addrs (v.threshold 2 3)

def hasHonestVote : Except StakeErr Bool :=
  v.hasThresholdVotes addrs (v.threshold 1 3)

end StakeSet

/-! ## What the set counts -/

namespace StakeSet

variable {v : StakeSet} {vals : List (NodeId × Stake)}

theorem addAll_entries {w : StakeSet} (h : addAll v vals = .ok w) : w.stakes.entries = v.stakes.entries ++ vals := by
  induction vals generalizing v with
  | nil =>
    cases h
    simp
  | cons e vals ih =>
    obtain ⟨id, stake⟩ := e
    rw [addAll] at h
    split at h
    · cases h
    split at h
    · cases h
    · rename_i hnew
      rw [ih h, add, AMap.entries_insert_new _ hnew]
      simp

theorem newValidatorSet_ok (h : newValidatorSet vals = .ok v) : vals ≠ [] ∧ v.stakes.entries = vals := by
  unfold newValidatorSet at h
  split at h
  · cases h
  · rename_i hne
    exact ⟨hne, addAll_entries h⟩

/-- The set over numbers that `v` stands for. -/
def toValidatorSet (v : StakeSet) (hne : v.stakes.entries ≠ []) : ValidatorSet where
  vals := v.stakes.mapVal fun _ s => s.toNat
  nonempty := by simpa [AMap.mapVal] using hne
  pos := by
    intro e he
    obtain ⟨e', he', rfl⟩ := List.mem_map.mp he
    exact v.pos e' he'

variable {hne : v.stakes.entries ≠ []} {addrs seen : List NodeId} {num : Nat} {sum : Stake}

theorem toValidatorSet_stakeOf (id : NodeId) : (v.toValidatorSet hne).stakeOf id = v.stakeOf id := by
  simp [ValidatorSet.stakeOf, stakeOf, toValidatorSet, AMap.get_mapVal]

theorem toValidatorSet_totalStake : (v.toValidatorSet hne).totalStake = (v.stakes.values.map Stake.toNat).sum := by
  simp [ValidatorSet.totalStake, toValidatorSet, AMap.values, AMap.mapVal, Function.comp_def]

theorem toValidatorSet_members : (v.toValidatorSet hne).members = v.stakes.keys := by
  simp [ValidatorSet.members, toValidatorSet, AMap.keys, AMap.mapVal, Function.comp_def]

theorem mem_members {id : NodeId} : id ∈ v.members ↔ id ∈ (v.toValidatorSet hne).members := by
  rw [toValidatorSet_members, members, List.mem_insertionSort]

theorem members_nodup : v.members.Nodup := (List.perm_insertionSort _ _).nodup_iff.mpr v.stakes.nodup

theorem totalStake_toNat (hfits : (v.toValidatorSet hne).totalStake < 2 ^ 256) :
    v.totalStake.toNat = (v.toValidatorSet hne).totalStake := by
  rw [v.total, ← @toValidatorSet_totalStake v hne, Nat.mod_eq_of_lt hfits]

theorem sumStakes_ok (hn : addrs.Nodup) (hseen : ∀ a ∈ addrs, a ∉ seen) :
    ∃ s, v.sumStakes seen sum addrs = .ok s ∧
      s.toNat = (sum.toNat + (addrs.map (v.toValidatorSet hne).stakeOf).sum) % 2 ^ 256 := by
  induction addrs generalizing seen sum with
  | nil =>
    refine ⟨sum, rfl, ?_⟩
    rw [List.map_nil, List.sum_nil, Nat.add_zero, Nat.mod_eq_of_lt sum.toNat_lt]
  | cons a addrs ih =>
    obtain ⟨ha, hn⟩ := List.nodup_cons.mp hn
    rw [sumStakes, if_neg (hseen a (by simp))]
    obtain ⟨s, hs, hsum⟩ := @ih (a :: seen) (match v.stakes.get a with
      | some s => sum.add s
      | none => sum) hn (by
        intro b hb hmem
        rcases List.mem_cons.mp hmem with rfl | hmem
        · exact ha hb
        · exact hseen b (by simp [hb]) hmem)
    refine ⟨s, hs, ?_⟩
    rw [hsum, List.map_cons, List.sum_cons, toValidatorSet_stakeOf, stakeOf]
    cases hget : v.stakes.get a with
    | none => simp
    | some stake =>
      simp only [Option.map_some, Option.getD_some]
      rw [Stake.toNat_add, Nat.mod_add_mod, Nat.add_assoc]

theorem sumStakes_dup (h : ¬ addrs.Nodup ∨ ∃ a ∈ addrs, a ∈ seen) :
    ∃ a ∈ addrs, v.sumStakes seen sum addrs = .error (.duplicateValidator a) := by
  induction addrs generalizing seen sum with
  | nil => simp at h
  | cons a addrs ih =>
    rw [sumStakes]
    by_cases ha : a ∈ seen
    · exact ⟨a, by simp, if_pos ha⟩
    rw [if_neg ha]
    -- the rest has the duplicate, or repeats `a`
    have hrest : ¬ addrs.Nodup ∨ ∃ b ∈ addrs, b ∈ a :: seen := by
      rcases h with h | ⟨b, hb, hbs⟩
      · by_cases hmem : a ∈ addrs
        · exact .inr ⟨a, hmem, by simp⟩
        · exact .inl fun hn => h (List.nodup_cons.mpr ⟨hmem, hn⟩)
      · rcases List.mem_cons.mp hb with rfl | hb
        · exact absurd hbs ha
        · exact .inr ⟨b, hb, by simp [hbs]⟩
    obtain ⟨b, hb, herr⟩ := ih hrest
    exact ⟨b, by simp [hb], herr⟩

theorem calculateCurrentStake_dup (h : ¬ addrs.Nodup) :
    ∃ a ∈ addrs, v.calculateCurrentStake addrs = .error (.duplicateValidator a) :=
  sumStakes_dup (.inl h)

/-- On lists without duplicates the bytes count as the numbers do. -/
theorem hasThresholdVotes_toValidatorSet {den : Nat} (hfits : (v.toValidatorSet hne).totalStake < 2 ^ 256)
    (hthr : (v.toValidatorSet hne).threshold num den < 2 ^ 256)
    (hn : addrs.Nodup) : v.hasThresholdVotes addrs (v.threshold num den) =
      .ok (decide ((v.toValidatorSet hne).threshold num den ≤ (addrs.map (v.toValidatorSet hne).stakeOf).sum)) := by
  obtain ⟨s, hs, hsum⟩ := @sumStakes_ok v hne addrs [] Stake.zero hn (by simp)
  have hle := ValidatorSet.sum_stakeOf_le (v := v.toValidatorSet hne) hn
  have hzero : Stake.zero.toNat = 0 := by rw [Stake.zero, Stake.toNat_wrap, Nat.zero_mod]
  rw [hzero, Nat.zero_add, Nat.mod_eq_of_lt (lt_of_le_of_lt hle hfits)] at hsum
  unfold ValidatorSet.threshold at hthr ⊢
  unfold hasThresholdVotes threshold calculateCurrentStake
  rw [totalStake_toNat hfits, Stake.ofBig, if_pos hthr, hs]
  show Except.ok (decide (s.cmp (Stake.wrap _) ≠ .lt)) = _
  have hcmp : s.cmp (Stake.wrap ((v.toValidatorSet hne).totalStake * num / den + 1)) ≠ .lt ↔
      (v.toValidatorSet hne).totalStake * num / den + 1 ≤ (addrs.map (v.toValidatorSet hne).stakeOf).sum := by
    rw [Stake.cmp_eq, Stake.toNat_wrap, Nat.mod_eq_of_lt hthr, hsum, ne_eq, Nat.compare_eq_lt, Nat.not_lt]
  rw [decide_eq_decide.mpr hcmp]

/-- A threshold on a list with a duplicate is the same error, whatever the threshold. -/
theorem hasThresholdVotes_dup {thr : Stake} {a : NodeId}
    (h : v.calculateCurrentStake addrs = .error (.duplicateValidator a)) :
    v.hasThresholdVotes addrs (some thr) = .error (.duplicateValidator a) := by
  simp [hasThresholdVotes, h, bind, Except.bind]

/-! ## Quorum arithmetic -/

section Quorums

variable (hfits : (v.toValidatorSet hne).totalStake < 2 ^ 256)

include hfits in
theorem threshold_fits (hnum : num ≤ 2) : (v.toValidatorSet hne).threshold num 3 < 2 ^ 256 := by
  have hpos : 0 < (v.toValidatorSet hne).totalStake := (v.toValidatorSet hne).totalStake_pos
  have hmul : (v.toValidatorSet hne).totalStake * num ≤ (v.toValidatorSet hne).totalStake * 2 :=
    Nat.mul_le_mul_left _ hnum
  have hdiv : (v.toValidatorSet hne).totalStake * num / 3 ≤ (v.toValidatorSet hne).totalStake * 2 / 3 :=
    Nat.div_le_div_right hmul
  unfold ValidatorSet.threshold
  refine lt_of_le_of_lt ?_ hfits
  generalize (v.toValidatorSet hne).totalStake = t at *
  omega

include hfits in
/-- A threshold is met exactly by the lists without duplicates that hold enough stake. -/
theorem hasThresholdVotes_true (hnum : num ≤ 2) :
    v.hasThresholdVotes addrs (v.threshold num 3) = .ok true ↔
      (v.toValidatorSet hne).hasThresholdVotes addrs ((v.toValidatorSet hne).threshold num 3) = .ok true := by
  rw [ValidatorSet.hasThresholdVotes_ok]
  by_cases hn : addrs.Nodup
  · rw [hasThresholdVotes_toValidatorSet hfits (threshold_fits hfits hnum) hn]
    simp [hn]
  · obtain ⟨a, -, herr⟩ := calculateCurrentStake_dup (v := v) hn
    cases hthr : v.threshold num 3 with
    | none => simp [hasThresholdVotes, hn]
    | some thr => simp [hasThresholdVotes_dup herr, hn]

end Quorums

/-- The arithmetic of quorums. Two supermajorities share more than a third of the stake; an
honest-vote quorum holds more than a third; what remains without a minority of less than a
third is a supermajority; and a list with a duplicate is an error for both. -/
theorem quorum_arithmetic (vals : List (NodeId × Stake)) (v : StakeSet) (T : Nat)
    (hnew : newValidatorSet vals = .ok v) (hT : T = (vals.map fun e => e.2.toNat).sum) (hfits : T < 2 ^ 256) :
    (∀ A B, v.hasSuperMajorityVotes A = .ok true → v.hasSuperMajorityVotes B = .ok true →
      T / 3 < ((A.filter (· ∈ B)).map v.stakeOf).sum) ∧
    (∀ A, v.hasHonestVote A = .ok true → T / 3 < (A.map v.stakeOf).sum) ∧
    (∀ Z : List NodeId, Z.Nodup → (∀ z ∈ Z, z ∈ v.members) → (Z.map v.stakeOf).sum ≤ (T - 1) / 3 →
      v.hasSuperMajorityVotes (v.members.filter (· ∉ Z)) = .ok true) ∧ ∀ A : List NodeId, ¬ A.Nodup → ∃ a ∈ A,
      v.hasSuperMajorityVotes A = .error (.duplicateValidator a) ∧
        v.hasHonestVote A = .error (.duplicateValidator a) := by
  obtain ⟨hvals, hentries⟩ := newValidatorSet_ok hnew
  have hne : v.stakes.entries ≠ [] := by rw [hentries]; exact hvals
  have hstake : v.stakeOf = (v.toValidatorSet hne).stakeOf := by
    funext id
    exact (toValidatorSet_stakeOf id).symm
  have htotal : (v.toValidatorSet hne).totalStake = T := by
    rw [toValidatorSet_totalStake, hT, AMap.values, hentries, List.map_map]
    rfl
  have hfits' : (v.toValidatorSet hne).totalStake < 2 ^ 256 := htotal ▸ hfits
  refine ⟨?_, ?_, ?_, ?_⟩
  · intro A B hA hB
    obtain ⟨hnA, hsA⟩ := ValidatorSet.hasThresholdVotes_ok.mp ((hasThresholdVotes_true hfits' le_rfl).mp hA)
    obtain ⟨hnB, hsB⟩ := ValidatorSet.hasThresholdVotes_ok.mp ((hasThresholdVotes_true hfits' le_rfl).mp hB)
    have hshare := ValidatorSet.sum_stakeOf_add_le (v := v.toValidatorSet hne) hnA hnB
    unfold ValidatorSet.threshold at hsA hsB
    rw [hstake]
    rw [htotal] at hsA hsB hshare
    omega
  · intro A hA
    obtain ⟨hnA, hsA⟩ :=
      ValidatorSet.hasThresholdVotes_ok.mp ((hasThresholdVotes_true hfits' (by omega)).mp hA)
    unfold ValidatorSet.threshold at hsA
    rw [hstake]
    rw [htotal] at hsA
    omega
  · intro Z hZ hsub hsmall
    refine (hasThresholdVotes_true hfits' le_rfl).mpr ?_
    have hn : (v.members.filter (· ∉ Z)).Nodup := members_nodup.filter _
    have hsum : ((v.members.filter (· ∉ Z)).map v.stakeOf).sum + (Z.map v.stakeOf).sum = T := by
      rw [hstake, ← htotal, ← ValidatorSet.sum_map_stakeOf_members, ← List.sum_append, ← List.map_append]
      refine (List.Perm.map _ ?_).sum_eq
      -- the rest and `Z` together are the members
      refine (List.perm_ext_iff_of_nodup ?_ ValidatorSet.members_nodup).mpr fun x => ?_
      · refine List.nodup_append.mpr ⟨hn, hZ, ?_⟩
        intro x hx y hy hxy
        exact of_decide_eq_true (List.mem_filter.mp hx).2 (hxy ▸ hy)
      · rw [List.mem_append, List.mem_filter, decide_eq_true_eq, ← mem_members]
        constructor
        · rintro (hx | hx)
          · exact hx.1
          · exact hsub x hx
        · intro hx
          by_cases hxZ : x ∈ Z
          · exact .inr hxZ
          · exact .inl ⟨hx, hxZ⟩
    have hpos : 0 < T := htotal ▸ (v.toValidatorSet hne).totalStake_pos
    refine ValidatorSet.hasThresholdVotes_ok.mpr ⟨hn, ?_⟩
    rw [← hstake, ValidatorSet.threshold, htotal]
    omega
  · intro A hA
    obtain ⟨a, ha, herr⟩ := calculateCurrentStake_dup (v := v) hA
    have hthr : ∀ num, num ≤ 2 → ∃ thr, v.threshold num 3 = some thr := by
      intro num hnum
      have hlt := threshold_fits hfits' hnum
      unfold ValidatorSet.threshold at hlt
      rw [← totalStake_toNat hfits'] at hlt
      exact ⟨_, if_pos hlt⟩
    obtain ⟨two, htwo⟩ := hthr 2 le_rfl
    obtain ⟨one, hone⟩ := hthr 1 (by omega)
    refine ⟨a, ha, ?_, ?_⟩
    · rw [hasSuperMajorityVotes, htwo, hasThresholdVotes_dup herr]
    · rw [hasHonestVote, hone, hasThresholdVotes_dup herr]

def fourUnits : List (NodeId × Stake) := [(2, Stake.wrap 1), (0, Stake.wrap 1), (3, Stake.wrap 1), (1, Stake.wrap 1)]

/-- Without any one of four equal members, the others are a supermajority. -/
theorem quorum_arithmetic_four : ∃ v, newValidatorSet fourUnits = .ok v ∧ v.members = [0, 1, 2, 3] ∧
    v.hasSuperMajorityVotes (v.members.filter (· ∉ [3])) = .ok true := by
  obtain ⟨v, hv⟩ : ∃ v, newValidatorSet fourUnits = .ok v := ⟨_, rfl⟩
  have hmembers : v.members = [0, 1, 2, 3] := by
    rw [members, AMap.keys, (newValidatorSet_ok hv).2]
    rfl
  have hstake : v.stakeOf 3 = 1 := by
    have hget : v.stakes.get 3 = some (Stake.wrap 1) := by
      rw [AMap.get_eq_some, (newValidatorSet_ok hv).2]
      decide
    rw [stakeOf, hget]
    rfl
  refine ⟨v, hv, hmembers, ?_⟩
  refine (quorum_arithmetic fourUnits v 4 hv (by decide) (by norm_num)).2.2.1 [3] (by decide) ?_ ?_
  · rw [hmembers]
    decide
  · simp [hstake]

end StakeSet

end MonadBft
