/-
  MonadBft.Election — the leader of a round (`validator.WeightedRoundRobin`).

  A number below the total stake is drawn from a stream seeded by the round; the members, in
  the order of their ids, share the numbers out by their stakes, and a binary search over the
  cumulative stakes finds whose it is. The stream is an argument.

  Proved: every member owns as many numbers as it has stake (`leaderAt_iff`, `card_leaderAt`),
  a drawn number is below the total (`randomize256_lt`), so the search never ends outside the
  list; and the set does not depend on the order its members were given in
  (`newValidatorSet_perm`). `leader_election` puts them together.
-/
import MonadBft.Stake
import MonadBft.Lib.BinarySearch
import Mathlib.Order.Interval.Finset.Nat

namespace MonadBft

open Lib List

namespace WeightedRoundRobin

inductive Panic where
  /-- `election: no validator has positive stake` -/
  | noPositiveStake
  /-- `bounds` read outside its length -/
  | indexOutOfRange
  deriving DecidableEq, Repr

/-- One turn of the loop over the members: the bounds so far and their total. -/
def addBound (stakeOf : NodeId → Nat) (acc : List (NodeId × Nat) × Nat) (id : NodeId) : List (NodeId × Nat) × Nat :=
  if stakeOf id = 0 then acc else (acc.1 ++ [(id, acc.2 + stakeOf id)], acc.2 + stakeOf id)

/-- The members with the cumulative stakes up to each, and the total. -/
def bounds (members : List NodeId) (stakeOf : NodeId → Nat) : List (NodeId × Nat) × Nat :=
  members.foldl (addBound stakeOf) ([], 0)

/-- The largest number below `2 ^ 256` that `randomize256` accepts. -/
def sampleMax (m : Nat) : Nat := (2 ^ 256 - 1) - (2 ^ 256 - 1 - m + 1) % m

/-- `randomize256` over the numbers the stream gives; `none` if it accepts none of them. -/
def randomize256 (m : Nat) : List Nat → Option Nat
  | [] => none
  | r :: rest => if r ≤ sampleMax m then some (r % m) else randomize256 m rest

/-- The first bound above `stakeIndex`, by binary search; `none` for a read out of range. -/
def leaderAt (bs : List (NodeId × Nat)) (stakeIndex : Nat) : Option NodeId :=
  match binarySearch (fun i => bs[i]?.map fun b => decide (stakeIndex < b.2)) bs.length 0 bs.length with
  | none => none
  | some lo => bs[lo]?.map Prod.fst

/-- `getLeader`: `none` while the stream has given no number that is accepted. -/
def getLeader (stream : List Nat) (members : List NodeId) (stakeOf : NodeId → Nat) : Except Panic (Option NodeId) :=
  let bs := bounds members stakeOf
  if bs.1 = [] then .error .noPositiveStake
  else
    match randomize256 bs.2 stream with
    | none => .ok none
    | some stakeIndex =>
      match leaderAt bs.1 stakeIndex with
      | none => .error .indexOutOfRange
      | some id => .ok (some id)

def getLeaderOf (stream : List Nat) (valSet : StakeSet) : Except Panic (Option NodeId) :=
  getLeader stream valSet.members valSet.stakeOf

/-! ## The bounds -/

variable {stakeOf : NodeId → Nat} {a i m : Nat} {id : NodeId} {ids : List NodeId}

/-- The bounds of `ids` above `a`. -/
def boundsFrom (stakeOf : NodeId → Nat) : Nat → List NodeId → List (NodeId × Nat)
  | _, [] => []
  | a, id :: ids =>
    if stakeOf id = 0 then boundsFrom stakeOf a ids else (id, a + stakeOf id) :: boundsFrom stakeOf (a + stakeOf id) ids

theorem foldl_addBound (bs : List (NodeId × Nat)) (a : Nat) (ids : List NodeId) :
    ids.foldl (addBound stakeOf) (bs, a) = (bs ++ boundsFrom stakeOf a ids, a + (ids.map stakeOf).sum) := by
  induction ids generalizing bs a with
  | nil => simp [boundsFrom]
  | cons id ids ih =>
    rw [foldl_cons, addBound, boundsFrom]
    by_cases hz : stakeOf id = 0
    · rw [if_pos hz, if_pos hz, ih]
      simp [hz]
    · rw [if_neg hz, if_neg hz, ih]
      simp [Nat.add_assoc]

theorem bounds_eq (ids : List NodeId) (stakeOf : NodeId → Nat) :
    bounds ids stakeOf = (boundsFrom stakeOf 0 ids, (ids.map stakeOf).sum) := by
  rw [bounds, foldl_addBound]
  simp

theorem mem_boundsFrom {b : NodeId × Nat} (h : b ∈ boundsFrom stakeOf a ids) : b.1 ∈ ids ∧ 0 < stakeOf b.1 ∧ a < b.2 := by
  induction ids generalizing a with
  | nil => cases h
  | cons id ids ih =>
    unfold boundsFrom at h
    by_cases hz : stakeOf id = 0
    · rw [if_pos hz] at h
      obtain ⟨hm, hpos, hlt⟩ := ih h
      exact ⟨.tail id hm, hpos, hlt⟩
    · rw [if_neg hz] at h
      rcases mem_cons.mp h with rfl | h
      · exact ⟨.head _, Nat.pos_of_ne_zero hz, Nat.lt_add_of_pos_right (Nat.pos_of_ne_zero hz)⟩
      · obtain ⟨hm, hpos, hlt⟩ := ih h
        exact ⟨.tail id hm, hpos, by omega⟩

theorem boundsFrom_pairwise (stakeOf : NodeId → Nat) (a : Nat) (ids : List NodeId) :
    (boundsFrom stakeOf a ids).Pairwise fun b b' => b.2 < b'.2 := by
  induction ids generalizing a with
  | nil => exact List.Pairwise.nil
  | cons id ids ih =>
    unfold boundsFrom
    split
    · exact ih a
    · exact pairwise_cons.mpr ⟨fun b hb => (mem_boundsFrom hb).2.2, ih _⟩

/-! ## Whose a number is -/

theorem leaderAt_eq {bs : List (NodeId × Nat)} (h : bs.Pairwise fun b b' => b.2 < b'.2) (i : Nat) :
    leaderAt bs i = (bs.find? fun b => i < b.2).map Prod.fst := by
  have hmono : bs.Pairwise fun b b' => decide (i < b.2) → decide (i < b'.2) := by
    refine h.imp fun hlt hi => ?_
    rw [decide_eq_true_iff] at hi ⊢
    omega
  unfold leaderAt
  rw [binarySearch_findIdx hmono]
  show bs[bs.findIdx fun b => i < b.2]?.map Prod.fst = _
  rw [find?_eq_getElem?_findIdx]

/-- The stake of the members before `id`, on top of `a`. -/
def below (stakeOf : NodeId → Nat) (id : NodeId) : Nat → List NodeId → Nat
  | a, [] => a
  | a, x :: ids => if x = id then a else below stakeOf id (a + stakeOf x) ids

theorem le_below (stakeOf : NodeId → Nat) (id : NodeId) (a : Nat) (ids : List NodeId) : a ≤ below stakeOf id a ids := by
  induction ids generalizing a with
  | nil => exact le_rfl
  | cons x ids ih =>
    unfold below
    split
    · exact le_rfl
    · have := ih (a + stakeOf x)
      omega

theorem below_add_le (hid : id ∈ ids) (a : Nat) : below stakeOf id a ids + stakeOf id ≤ a + (ids.map stakeOf).sum := by
  induction ids generalizing a with
  | nil => cases hid
  | cons x ids ih =>
    unfold below
    rw [map_cons, sum_cons]
    by_cases hx : x = id
    · rw [if_pos hx, hx]
      omega
    · rw [if_neg hx]
      have := ih ((mem_cons.mp hid).resolve_left (Ne.symm hx)) (a + stakeOf x)
      omega

theorem find_boundsFrom (hn : ids.Nodup) (hid : id ∈ ids) (hi : a ≤ i) :
    ((boundsFrom stakeOf a ids).find? fun b => i < b.2).map Prod.fst = some id ↔
      below stakeOf id a ids ≤ i ∧ i < below stakeOf id a ids + stakeOf id := by
  induction ids generalizing a with
  | nil => cases hid
  | cons x ids ih =>
    obtain ⟨hx, hn⟩ := nodup_cons.mp hn
    -- the numbers of the members after `x` are above those of `x`
    have hrest : ∀ {a'}, id ≠ x → a' ≤ i →
        (((boundsFrom stakeOf a' ids).find? fun b => i < b.2).map Prod.fst = some id ↔
          below stakeOf id a' ids ≤ i ∧ i < below stakeOf id a' ids + stakeOf id) :=
      fun hne hle => ih hn ((mem_cons.mp hid).resolve_left hne) hle
    have hnever : ∀ a', ((boundsFrom stakeOf a' ids).find? fun b => i < b.2).map Prod.fst ≠ some x := by
      intro a' heq
      obtain ⟨b, hb, hbx⟩ := Option.map_eq_some_iff.mp heq
      exact hx (hbx ▸ (mem_boundsFrom (mem_of_find?_eq_some hb)).1)
    unfold boundsFrom below
    by_cases heq : x = id
    · rw [if_pos heq, ← heq]
      by_cases hz : stakeOf x = 0
      · rw [if_pos hz, hz]
        exact iff_of_false (hnever a) (by omega)
      · rw [if_neg hz]
        by_cases hlt : i < a + stakeOf x
        · rw [find?_cons_of_pos (by simpa using hlt)]
          exact iff_of_true rfl ⟨hi, hlt⟩
        · rw [find?_cons_of_neg (by simpa using hlt)]
          exact iff_of_false (hnever _) (by omega)
    · rw [if_neg heq]
      by_cases hz : stakeOf x = 0
      · rw [if_pos hz, hz, Nat.add_zero]
        exact hrest (Ne.symm heq) hi
      · rw [if_neg hz]
        by_cases hlt : i < a + stakeOf x
        · rw [find?_cons_of_pos (by simpa using hlt)]
          have := le_below stakeOf id (a + stakeOf x) ids
          refine iff_of_false ?_ (by omega)
          intro h
          exact heq (Option.some.inj h)
        · rw [find?_cons_of_neg (by simpa using hlt)]
          exact hrest (Ne.symm heq) (by omega)

/-- A member owns the numbers from the stake before it on, as many as it has stake. -/
theorem leaderAt_iff (hn : ids.Nodup) (hid : id ∈ ids) (i : Nat) : leaderAt (bounds ids stakeOf).1 i = some id ↔
    below stakeOf id 0 ids ≤ i ∧ i < below stakeOf id 0 ids + stakeOf id := by
  rw [bounds_eq]
  show leaderAt (boundsFrom stakeOf 0 ids) i = some id ↔ _
  rw [leaderAt_eq (boundsFrom_pairwise stakeOf 0 ids) i]
  exact find_boundsFrom hn hid (Nat.zero_le i)

theorem card_leaderAt (hn : ids.Nodup) (hid : id ∈ ids) :
    ((Finset.range (bounds ids stakeOf).2).filter fun i => leaderAt (bounds ids stakeOf).1 i = some id).card =
      stakeOf id := by
  have hle : below stakeOf id 0 ids + stakeOf id ≤ 0 + (ids.map stakeOf).sum := below_add_le hid 0
  have hset : (Finset.range (bounds ids stakeOf).2).filter (fun i => leaderAt (bounds ids stakeOf).1 i = some id) =
      Finset.Ico (below stakeOf id 0 ids) (below stakeOf id 0 ids + stakeOf id) := by
    ext i
    rw [Finset.mem_filter, Finset.mem_range, Finset.mem_Ico, leaderAt_iff hn hid, bounds_eq]
    omega
  rw [hset, Nat.card_Ico]
  omega

theorem find_boundsFrom_isSome (hi : i < a + (ids.map stakeOf).sum) (ha : a ≤ i) :
    ((boundsFrom stakeOf a ids).find? fun b => i < b.2).isSome := by
  induction ids generalizing a with
  | nil =>
    simp only [map_nil, sum_nil] at hi
    omega
  | cons x ids ih =>
    rw [map_cons, sum_cons] at hi
    unfold boundsFrom
    by_cases hz : stakeOf x = 0
    · rw [if_pos hz]
      exact ih (by omega) ha
    · rw [if_neg hz]
      by_cases hlt : i < a + stakeOf x
      · rw [find?_cons_of_pos (by simpa using hlt)]
        rfl
      · rw [find?_cons_of_neg (by simpa using hlt)]
        exact ih (by omega) (by omega)

/-- Every number below the total is owned, by a member with stake. -/
theorem leaderAt_of_lt (hi : i < (bounds ids stakeOf).2) :
    ∃ id ∈ ids, 0 < stakeOf id ∧ leaderAt (bounds ids stakeOf).1 i = some id := by
  rw [bounds_eq] at hi ⊢
  rw [leaderAt_eq (boundsFrom_pairwise stakeOf 0 ids) i]
  obtain ⟨b, hb⟩ := Option.isSome_iff_exists.mp
    (find_boundsFrom_isSome (a := 0) (by rwa [Nat.zero_add]) (Nat.zero_le i))
  obtain ⟨hm, hpos, -⟩ := mem_boundsFrom (mem_of_find?_eq_some hb)
  exact ⟨b.1, hm, hpos, by rw [hb]; rfl⟩

/-! ## The draw -/

theorem randomize256_lt (hm : 0 < m) {stream : List Nat} (h : randomize256 m stream = some i) : i < m := by
  induction stream with
  | nil => cases h
  | cons r rest ih =>
    unfold randomize256 at h
    split at h
    · rw [← Option.some.inj h]
      exact Nat.mod_lt r hm
    · exact ih h

/-- The accepted numbers fall on every remainder equally often. -/
theorem dvd_sampleMax (hm : 0 < m) (hfits : m < 2 ^ 256) : m ∣ sampleMax m + 1 := by
  have hmod : (2 ^ 256 - 1 - m + 1) % m = 2 ^ 256 % m := by
    have hsub : 2 ^ 256 - 1 - m + 1 = 2 ^ 256 - m := by omega
    rw [hsub, Nat.mod_eq_sub_mod (Nat.le_of_lt hfits)]
  have hlt : 2 ^ 256 % m < 2 ^ 256 := Nat.lt_of_lt_of_le (Nat.mod_lt _ hm) (Nat.le_of_lt hfits)
  have heq : sampleMax m + 1 = 2 ^ 256 - 2 ^ 256 % m := by
    rw [sampleMax, hmod]
    omega
  rw [heq]
  exact Nat.dvd_sub_mod (2 ^ 256)

/-- An accepted draw is looked up in the bounds; neither panic is reached. -/
theorem getLeader_eq (stream : List Nat) (hpos : ∃ id ∈ ids, 0 < stakeOf id) : getLeader stream ids stakeOf =
    .ok ((randomize256 (bounds ids stakeOf).2 stream).bind (leaderAt (bounds ids stakeOf).1)) := by
  have htotal : 0 < (bounds ids stakeOf).2 := by
    obtain ⟨id, hid, hs⟩ := hpos
    rw [bounds_eq]
    exact Nat.lt_of_lt_of_le hs (le_sum_of_mem (mem_map_of_mem hid))
  have hne : (bounds ids stakeOf).1 ≠ [] := by
    intro hnil
    obtain ⟨id, -, -, hlead⟩ := leaderAt_of_lt htotal
    rw [hnil] at hlead
    cases hlead
  unfold getLeader
  rw [if_neg hne]
  cases hr : randomize256 (bounds ids stakeOf).2 stream with
  | none => rfl
  | some i =>
    obtain ⟨id, -, -, hlead⟩ := leaderAt_of_lt (randomize256_lt htotal hr)
    simp only [Option.bind_some, hlead]

end WeightedRoundRobin

/-! ## The order of the members -/

namespace StakeSet

variable {vals vals' : List (NodeId × Stake)} {v v' : StakeSet}

theorem addAll_isOk : (∃ w, addAll v vals = .ok w) ↔
    (∀ e ∈ vals, e.2.isZero = false) ∧ (v.stakes.keys ++ vals.map Prod.fst).Nodup := by
  induction vals generalizing v with
  | nil => simp [addAll, AMap.keys, v.stakes.nodup]
  | cons e vals ih =>
    obtain ⟨id, stake⟩ := e
    unfold addAll
    by_cases hz : stake.isZero = true
    · rw [dif_pos hz]
      simp [hz]
    · rw [dif_neg hz]
      by_cases hd : id ∈ v.stakes.keys
      · rw [dif_pos hd]
        simp only [reduceCtorEq, exists_false, false_iff, not_and]
        intro _ hn
        exact (nodup_append.mp hn).2.2 id hd id (by simp) rfl
      · rw [dif_neg hd, ih]
        have hkeys : (v.add id stake (by simpa using hz) hd).stakes.keys = v.stakes.keys ++ [id] := by
          simp [add, AMap.keys, AMap.entries_insert_new _ hd]
        rw [hkeys]
        simp [hz]

theorem newValidatorSet_isOk : (∃ w, newValidatorSet vals = .ok w) ↔
    vals ≠ [] ∧ (∀ e ∈ vals, e.2.isZero = false) ∧ (vals.map Prod.fst).Nodup := by
  unfold newValidatorSet
  by_cases hne : vals = []
  · simp [hne]
  · rw [if_neg hne, addAll_isOk]
    simp [hne, empty, AMap.keys, AMap.empty]

theorem stakeOf_eq_of_perm (h : v'.stakes.entries.Perm v.stakes.entries) (id : NodeId) : v'.stakeOf id = v.stakeOf id := by
  have hget : v'.stakes.get id = v.stakes.get id := by
    refine Option.ext fun s => ?_
    rw [AMap.get_eq_some, AMap.get_eq_some]
    exact h.mem_iff
  rw [stakeOf, stakeOf, hget]

theorem members_eq_of_perm (h : v'.stakes.entries.Perm v.stakes.entries) : v'.members = v.members := by
  have hsorted : ∀ w : StakeSet, w.members.Pairwise (· ≤ ·) := fun w => pairwise_insertionSort _ _
  have hperm : v'.members.Perm v.members :=
    (perm_insertionSort _ _).trans ((h.map _).trans (perm_insertionSort _ _).symm)
  exact hperm.eq_of_pairwise (fun _ _ _ _ => Nat.le_antisymm) (hsorted v') (hsorted v)

/-- The same members in another order make the same set. -/
theorem newValidatorSet_perm (hnew : newValidatorSet vals = .ok v) (hperm : vals'.Perm vals) :
    ∃ v', newValidatorSet vals' = .ok v' ∧ v'.members = v.members ∧ v'.stakeOf = v.stakeOf := by
  obtain ⟨hne, hpos, hnodup⟩ := newValidatorSet_isOk.mp ⟨v, hnew⟩
  obtain ⟨v', hv'⟩ : ∃ v', newValidatorSet vals' = .ok v' := by
    refine newValidatorSet_isOk.mpr ⟨?_, ?_, (hperm.map _).nodup_iff.mpr hnodup⟩
    · intro hnil
      rw [hnil] at hperm
      exact hne (nil_perm.mp hperm)
    · intro e he
      exact hpos e (hperm.mem_iff.mp he)
  have hentries : v'.stakes.entries.Perm v.stakes.entries := by
    rw [(newValidatorSet_ok hv').2, (newValidatorSet_ok hnew).2]
    exact hperm
  exact ⟨v', hv', members_eq_of_perm hentries, funext fun id => stakeOf_eq_of_perm hentries id⟩

end StakeSet

open WeightedRoundRobin StakeSet

theorem sum_members_stakeOf {vals : List (NodeId × Stake)} {v : StakeSet} (hnew : newValidatorSet vals = .ok v) :
    (v.members.map v.stakeOf).sum = (vals.map fun e => e.2.toNat).sum := by
  obtain ⟨hne, hentries⟩ := newValidatorSet_ok hnew
  have hne' : v.stakes.entries ≠ [] := by
    rw [hentries]
    exact hne
  have hmembers : v.members.Perm (v.toValidatorSet hne').members := by
    rw [toValidatorSet_members]
    exact perm_insertionSort _ _
  have hstake : v.stakeOf = (v.toValidatorSet hne').stakeOf := funext fun id => (toValidatorSet_stakeOf id).symm
  rw [(hmembers.map v.stakeOf).sum_eq, hstake, ValidatorSet.sum_map_stakeOf_members, toValidatorSet_totalStake,
    AMap.values, hentries, map_map]
  rfl

/-- The election over a validator set with total stake `T`. Of the numbers below `T` each member
owns as many as it has stake, and each is owned by a member, so the search stays in range;
the draw favours none of them; `getLeader` returns the owner of the number that is drawn; and the
order the members were given in does not matter. Over any members and stakes, those without stake
are passed over. -/
theorem leader_election (vals : List (NodeId × Stake)) (v : StakeSet) (T : Nat)
    (hnew : newValidatorSet vals = .ok v) (hT : T = (vals.map fun e => e.2.toNat).sum) (hfits : T < 2 ^ 256) :
    (bounds v.members v.stakeOf).2 = T ∧ (∀ id ∈ v.members,
      ((Finset.range T).filter fun i => leaderAt (bounds v.members v.stakeOf).1 i = some id).card = v.stakeOf id) ∧
    (∀ i < T, ∃ id ∈ v.members, leaderAt (bounds v.members v.stakeOf).1 i = some id) ∧ T ∣ sampleMax T + 1 ∧
    (∀ stream, (∀ i, randomize256 T stream = some i → i < T ∧
        getLeaderOf stream v = .ok (leaderAt (bounds v.members v.stakeOf).1 i)) ∧
      ∃ o, getLeaderOf stream v = .ok o ∧ ∀ id, o = some id → id ∈ v.members) ∧
    (∀ vals', vals'.Perm vals → ∃ v', newValidatorSet vals' = .ok v' ∧
      (∀ i, leaderAt (bounds v'.members v'.stakeOf).1 i = leaderAt (bounds v.members v.stakeOf).1 i) ∧
      ∀ stream, getLeaderOf stream v' = getLeaderOf stream v) ∧
    ∀ (members : List NodeId) (stakeOf : NodeId → Nat), members.Nodup →
      (∀ id ∈ members, ((Finset.range (bounds members stakeOf).2).filter fun i =>
        leaderAt (bounds members stakeOf).1 i = some id).card = stakeOf id) ∧
      ∀ i < (bounds members stakeOf).2, ∃ id ∈ members, 0 < stakeOf id ∧
        leaderAt (bounds members stakeOf).1 i = some id := by
  have htotal : (bounds v.members v.stakeOf).2 = T := by
    rw [bounds_eq, hT]
    exact sum_members_stakeOf hnew
  have hpos : ∃ id ∈ v.members, 0 < v.stakeOf id := by
    obtain ⟨hne, hentries⟩ := newValidatorSet_ok hnew
    obtain ⟨e, he⟩ := List.exists_mem_of_ne_nil vals hne
    rw [← hentries] at he
    have hget : v.stakes.get e.1 = some e.2 := AMap.get_eq_some.mpr he
    refine ⟨e.1, ?_, ?_⟩
    · rw [members, List.mem_insertionSort]
      exact List.mem_map_of_mem he
    · rw [stakeOf, hget]
      exact v.pos e he
  have hTpos : 0 < T := by
    obtain ⟨id, hid, hs⟩ := hpos
    rw [← htotal, bounds_eq]
    exact Nat.lt_of_lt_of_le hs (List.le_sum_of_mem (List.mem_map_of_mem hid))
  refine ⟨htotal, ?_, ?_, dvd_sampleMax hTpos hfits, ?_, ?_, ?_⟩
  · intro id hid
    rw [← htotal]
    exact card_leaderAt members_nodup hid
  · intro i hi
    rw [← htotal] at hi
    obtain ⟨id, hid, -, hlead⟩ := leaderAt_of_lt hi
    exact ⟨id, hid, hlead⟩
  · intro stream
    have heq := getLeader_eq stream hpos
    rw [htotal] at heq
    refine ⟨fun i hr => ⟨randomize256_lt hTpos hr, ?_⟩, _, heq, fun id h => ?_⟩
    · rw [getLeaderOf, heq, hr]
      rfl
    · obtain ⟨i, hr, hlead⟩ := Option.bind_eq_some_iff.mp h
      obtain ⟨id', hid, -, hlead'⟩ := leaderAt_of_lt (htotal ▸ randomize256_lt hTpos hr)
      rw [hlead] at hlead'
      exact Option.some.inj hlead' ▸ hid
  · intro vals' hperm
    obtain ⟨v', hv', hmembers, hstake⟩ := newValidatorSet_perm hnew hperm
    refine ⟨v', hv', ?_, ?_⟩
    · intro i
      rw [hmembers, hstake]
    · intro stream
      rw [getLeaderOf, getLeaderOf, hmembers, hstake]
  · intro members stakeOf hn
    exact ⟨fun id hid => card_leaderAt hn hid, fun i hi => leaderAt_of_lt hi⟩

/-- Three members with stakes 1, 2 and 3: the second owns two of the six numbers, and leads when the
number drawn is 8. -/
theorem leader_election_three : ∃ v, newValidatorSet [(2, Stake.wrap 3), (0, Stake.wrap 1), (1, Stake.wrap 2)] = .ok v ∧
    1 ∈ v.members ∧ v.stakeOf 1 = 2 ∧
    ((Finset.range 6).filter fun i => leaderAt (bounds v.members v.stakeOf).1 i = some 1).card = v.stakeOf 1 ∧
    getLeaderOf [8] v = .ok (some 1) := by
  obtain ⟨v, hv⟩ : ∃ v, newValidatorSet [(2, Stake.wrap 3), (0, Stake.wrap 1), (1, Stake.wrap 2)] = .ok v := ⟨_, rfl⟩
  have hentries := (newValidatorSet_ok hv).2
  have hmem : 1 ∈ v.members := by
    rw [members, List.mem_insertionSort, AMap.keys, hentries]
    decide
  have hget : v.stakes.get 1 = some (Stake.wrap 2) := by
    rw [AMap.get_eq_some, hentries]
    decide
  have h := leader_election _ v 6 hv (by decide) (by norm_num)
  refine ⟨v, hv, hmem, ?_, h.2.1 1 hmem, ?_⟩
  · rw [stakeOf, hget]
    rfl
  · rw [((h.2.2.2.2.1 [8]).1 2 (by decide)).2]
    cases hv
    decide

end MonadBft
