/-
  MonadBft.RaptorCast.Shares — who is assigned how many chunks (`assignRoundRobin`).

  Every validator is due its part of the scaled symbols, rounded up (`share`). The chunks are dealt
  one to each validator in turn until all are served. `deal_ends` says that this ends and counts
  the chunks for any set of nodes: what is dealt to the set is what its members are due. The bounds on a subset of the
  validators and on the whole follow from this one count (`assigned_shares`).
-/
import MonadBft.RaptorCast.Build

namespace MonadBft.RaptorCast

open Rlp WireAuth List

/-- What a stake is due of `numScaledSymbols`: its part, rounded up. -/
def share (totalStake numScaledSymbols stake : Nat) : Nat := (stake * numScaledSymbols + totalStake - 1) / totalStake

/-- The obligations of the validators. -/
def StakePartition.shares (p : StakePartition) (n : Nat) : List (NodeId × Nat) :=
  p.validators.map fun v => (v.1, share p.totalStake n v.2)

/-- What the nodes in `P` are obliged to take. -/
def due (P : NodeId → Bool) (l : List (NodeId × Nat)) : Nat := ((l.filter fun e => P e.1).map (·.2)).sum

variable {P : NodeId → Bool} {l os : List (NodeId × Nat)} {fuel total n k : Nat}

theorem due_true (l : List (NodeId × Nat)) : due (fun _ => true) l = (l.map (·.2)).sum := by simp [due]

theorem due_cons (P : NodeId → Bool) (e : NodeId × Nat) (l : List (NodeId × Nat)) :
    due P (e :: l) = (if P e.1 then e.2 else 0) + due P l := by
  unfold due
  rw [filter_cons]
  split_ifs
  · rw [map_cons, sum_cons]
  · rw [Nat.zero_add]

/-- A pass deals what it takes off the obligations. -/
theorem dealPass_countP (P : NodeId → Bool) (l : List (NodeId × Nat)) :
    (dealPass l).1.countP P + due P (dealPass l).2 = due P l := by
  induction l with
  | nil => rfl
  | cons e rest ih =>
    obtain ⟨id, n⟩ := e
    cases n with
    | zero =>
      rw [due_cons, ite_self, Nat.zero_add]
      exact ih
    | succ n =>
      simp only [dealPass, countP_cons, due_cons]
      by_cases hn : n = 0
      · rw [if_pos hn, hn, Nat.zero_add]
        omega
      · rw [if_neg hn, due_cons]
        split_ifs <;> omega

/-- Whoever is left after a pass still has to take as much again. -/
theorem dealPass_left (l : List (NodeId × Nat)) :
    due (fun _ => true) (dealPass l).2 + (dealPass l).2.length ≤ due (fun _ => true) l := by
  induction l with
  | nil => exact le_rfl
  | cons e rest ih =>
    obtain ⟨id, n⟩ := e
    cases n with
    | zero =>
      rw [due_cons]
      exact ih.trans (Nat.le_add_left _ _)
    | succ n =>
      simp only [dealPass, due_cons]
      split_ifs with hn
      · omega
      · simp only [due_cons, length_cons, if_true]
        omega

/-- The loop ends, since every pass takes a chunk or a node away, and then the nodes of every `P` are
dealt what they are due. -/
theorem deal_ends (hfuel : due (fun _ => true) l + l.length < fuel) :
    ∃ a, deal fuel l = some a ∧ ∀ P, a.countP P = due P l := by
  induction fuel generalizing l with
  | zero => omega
  | succ fuel ih =>
    match l with
    | [] => exact ⟨[], rfl, fun _ => rfl⟩
    | [(id, n)] =>
      refine ⟨replicate n id, rfl, fun P => ?_⟩
      rw [due_cons]
      simp [due, countP_replicate]
    | e₁ :: e₂ :: rest =>
      have hleft := dealPass_left (e₁ :: e₂ :: rest)
      rw [length_cons] at hfuel
      obtain ⟨a, ha, hcount⟩ := ih (l := (dealPass (e₁ :: e₂ :: rest)).2) (by omega)
      refine ⟨(dealPass (e₁ :: e₂ :: rest)).1 ++ a, ?_, fun P => ?_⟩
      · show (deal fuel (dealPass (e₁ :: e₂ :: rest)).2).map _ = _
        rw [ha]
        rfl
      · rw [countP_append, hcount, dealPass_countP]

theorem deal_mono {a : ChunkAssignment} (h : deal fuel l = some a) {more : Nat} (hmore : fuel ≤ more) :
    deal more l = some a := by
  induction fuel generalizing l more a with
  | zero => cases h
  | succ fuel ih =>
    obtain ⟨more, rfl⟩ : ∃ m, more = m + 1 := ⟨more - 1, by omega⟩
    match l with
    | [] | [(id, n)] => exact h
    | e₁ :: e₂ :: rest =>
      obtain ⟨a', ha, rfl⟩ := Option.map_eq_some_iff.mp h
      exact Option.map_eq_some_iff.mpr ⟨a', ih ha (by omega), rfl⟩

theorem obligation_ok {stake : Nat} (h : obligation total n stake = some k) : k = share total n stake := by
  have hdiv := Nat.div_add_mod' (stake * n) total
  unfold obligation at h
  simp only at h
  split_ifs at h with hzero hbig hrem
  · rw [← Option.some.inj h]
    refine (Nat.div_eq_of_lt_le ?_ ?_).symm
    · omega
    · rw [Nat.add_mul]
      omega
  · have hlt := Nat.mod_lt (stake * n) (Nat.pos_of_ne_zero fun h => hzero (.inr h))
    rw [← Option.some.inj h]
    refine (Nat.div_eq_of_lt_le ?_ ?_).symm
    · rw [Nat.add_mul]
      omega
    · rw [Nat.add_mul, Nat.add_mul]
      omega

/-- The obligations are the shares, in the order of the validators. -/
theorem obligations_eq (h : (l.mapM fun v => (obligation total n v.2).map fun k => (v.1, k)) = some os) :
    os = l.map fun v => (v.1, share total n v.2) := by
  induction l generalizing os with
  | nil =>
    cases h
    rfl
  | cons v l ih =>
    rw [mapM_cons] at h
    obtain ⟨o, hv, h⟩ := Option.bind_eq_some_iff.mp h
    obtain ⟨rest, hrest, h⟩ := Option.bind_eq_some_iff.mp h
    cases h
    obtain ⟨k, hk, rfl⟩ := Option.map_eq_some_iff.mp hv
    rw [map_cons, ← ih hrest, obligation_ok hk]

variable {p : StakePartition} {numBaseSymbols : Nat} {redundancy : Redundancy} {a : ChunkAssignment}

/-- The chunks of an assignment are the shares of the validators, dealt out. -/
theorem assignRoundRobin_deal (ha : assignRoundRobin p numBaseSymbols redundancy = some a)
    (hscale : scale redundancy numBaseSymbols = some n) : (n ≤ a.length ∧ a.length ≤ n + p.validators.length) ∧
      ∀ fuel, due (fun _ => true) (p.shares n) + p.validators.length < fuel → deal fuel (p.shares n) = some a := by
  obtain ⟨n', hscale', ha⟩ := Option.bind_eq_some_iff.mp ha
  obtain rfl := Option.mem_unique hscale hscale'
  obtain ⟨obligations, hobl, ha⟩ := Option.bind_eq_some_iff.mp ha
  obtain rfl : obligations = p.shares n := obligations_eq hobl
  have hshares : (p.shares n).length = p.validators.length := length_map _
  obtain ⟨dealt, hdeal, ha⟩ := Option.bind_eq_some_iff.mp ha
  split_ifs at ha with hlen
  obtain rfl := Option.some.inj ha
  refine ⟨by omega, fun fuel hfuel => ?_⟩
  have hturns : due (fun _ => true) (p.shares n) + (p.shares n).length < fuel := by omega
  obtain ⟨a, hends, -⟩ := deal_ends hturns
  rw [← due_true] at hdeal
  rw [hends]
  rcases Nat.le_total fuel (due (fun _ => true) (p.shares n) + (p.shares n).length + 1) with hle | hle
  · rw [← deal_mono hends hle, hdeal]
  · rw [← deal_mono hdeal hle, hends]

theorem assignRoundRobin_countP (ha : assignRoundRobin p numBaseSymbols redundancy = some a)
    (hscale : scale redundancy numBaseSymbols = some n) (P : NodeId → Bool) : a.countP P = due P (p.shares n) := by
  have hshares : (p.shares n).length = p.validators.length := length_map _
  obtain ⟨dealt, hdeal, hcount⟩ := deal_ends (l := p.shares n) (Nat.lt_succ_self _)
  rw [hshares, (assignRoundRobin_deal ha hscale).2 _ (Nat.lt_succ_self _)] at hdeal
  obtain rfl := Option.some.inj hdeal
  exact hcount P

theorem due_eq_zero (h : ∀ e ∈ l, P e.1 = false) : due P l = 0 := by
  have hnil : (l.filter fun e => P e.1) = [] := filter_eq_nil_iff.mpr fun e he => by simp [h e he]
  rw [due, hnil]
  rfl

theorem due_one (hl : (l.map (·.1)).Nodup) {e : NodeId × Nat} (he : e ∈ l) : due (· == e.1) l = e.2 := by
  induction l with
  | nil => cases he
  | cons x l ih =>
    rw [map_cons, nodup_cons] at hl
    rw [due_cons]
    rcases mem_cons.mp he with rfl | he
    · have hrest : due (· == e.1) l = 0 := due_eq_zero fun y hy =>
        beq_false_of_ne fun h => hl.1 (h ▸ mem_map_of_mem hy)
      simp [hrest]
    · have hne : x.1 ≠ e.1 := fun h => hl.1 (h ▸ mem_map_of_mem he)
      rw [if_neg (by simpa using hne), Nat.zero_add, ih hl.2 he]

theorem due_shares (htotal : 0 < total) (P : NodeId → Bool) (n : Nat) (l : List (NodeId × Nat)) :
    due P l * n ≤ total * due P (l.map fun v => (v.1, share total n v.2)) := by
  induction l with
  | nil => simp [due]
  | cons v l ih =>
    rw [map_cons, due_cons, due_cons, Nat.add_mul, Nat.mul_add]
    refine Nat.add_le_add ?_ ih
    split_ifs
    · rw [Nat.mul_comm total]
      exact le_ceil_mul htotal
    · simp

/-- If the stakes add up to the total and an assignment is made: the chunks are numbered from zero,
every validator is assigned its share of the `n` scaled symbols, rounded up, and there are at least
`n` chunks and at most one more for each validator. Any validators are assigned at least their part
of `n` together. The loop that deals the chunks ends, with any obligations, after at most as many
passes as there are chunks and nodes. -/
theorem assigned_shares (htotal : (p.validators.map (·.2)).sum = p.totalStake)
    (hscale : scale redundancy numBaseSymbols = some n) (ha : assignRoundRobin p numBaseSymbols redundancy = some a) :
    (∀ chunks, materialize a = .ok chunks → chunks.map (·.chunkID) = List.range a.length) ∧
    ((p.validators.map (·.1)).Nodup → ∀ v ∈ p.validators, a.count v.1 = share p.totalStake n v.2) ∧
    (n ≤ a.length ∧ a.length ≤ n + p.validators.length) ∧
    (∀ P : NodeId → Bool, due P p.validators * n ≤ p.totalStake * a.countP P) ∧
    (∀ fuel, due (fun _ => true) (p.shares n) + p.validators.length < fuel → deal fuel (p.shares n) = some a) ∧
    ∀ obligations fuel, due (fun _ => true) obligations + obligations.length < fuel → (deal fuel obligations).isSome := by
  have hcount := assignRoundRobin_countP ha hscale
  obtain ⟨hlen, hdeal⟩ := assignRoundRobin_deal ha hscale
  refine ⟨?_, ?_, hlen, ?_, hdeal, ?_⟩
  · intro chunks hm
    unfold materialize at hm
    split_ifs at hm
    rw [← Except.ok.inj hm, List.map_map, List.range_eq_range']
    exact List.zipIdx_map_snd 0 a
  · intro hnodup v hv
    rw [List.count, hcount]
    have hids : (p.shares n).map (·.1) = p.validators.map (·.1) := by
      rw [StakePartition.shares, List.map_map]
      rfl
    exact due_one (hids ▸ hnodup) (List.mem_map_of_mem hv)
  · intro P
    rw [hcount]
    rcases Nat.eq_zero_or_pos p.totalStake with hzero | hpos
    · have hdue : due P p.validators ≤ (p.validators.map (·.2)).sum := (List.filter_sublist.map _).sum_le_sum (by simp)
      rw [htotal, hzero] at hdue
      rw [Nat.le_zero.mp hdue, Nat.zero_mul]
      exact Nat.zero_le _
    · exact due_shares hpos P n _
  · intro obligations fuel hfuel
    obtain ⟨dealt, hdealt, -⟩ := deal_ends hfuel
    rw [hdealt]
    rfl

/-- Three equal stakes and two symbols: everyone is assigned one. -/
theorem assigned_shares_three : [1, 2, 3].count 2 = share 3 2 1 :=
  (assigned_shares (p := ⟨[(1, 1), (2, 1), (3, 1)], 3⟩) rfl (by decide : scale 2048 2 = some 2)
    (by decide : _ = some [1, 2, 3])).2.1 (by decide) (2, 1) (by decide)

end MonadBft.RaptorCast
