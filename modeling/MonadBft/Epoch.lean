/-
  MonadBft.Epoch — the epoch manager and the validator sets by epoch
  (`validator.EpochManager`, `validator.ValidatorsEpochMapping`).

  Proved: with ascending starts the epoch of a round is the last one that started by then
  (`getEpoch_eq`), so it depends only on the epochs that started (`getEpoch_congr`), and a
  schedule that is timely leaves the epochs of the rounds up to now alone
  (`scheduleEpochStart_getEpoch`). `Moves` says which rounds any new start takes out of their
  epoch (`insertEpochStart_getEpoch_iff`).
-/
import MonadBft.Panic

namespace MonadBft

open Lib List

def isBoundaryBlock (seqNum epochLength : Nat) : Bool := seqNum % epochLength = epochLength - 1

def toEpoch (seqNum epochLength : Nat) : Nat := seqNum / epochLength + 1

/-- `validator.EpochManager`: the epochs known so far with their start rounds, in
ascending order of epochs. -/
structure EpochManager where
  epochLength : Nat
  epochStartDelay : Nat
  epochStarts : List (Nat × Nat)
  deriving DecidableEq, Repr

namespace EpochManager

variable (em : EpochManager)

def getEpochStart (epoch : Nat) : Option Nat := em.epochStarts.lookup epoch

/-- Put a new epoch at its place in the ascending order. -/
def insertSorted (e : Nat × Nat) : List (Nat × Nat) → List (Nat × Nat)
  | [] => [e]
  | x :: xs => if e.1 < x.1 then e :: x :: xs else x :: insertSorted e xs

def insertEpochStart (epoch round : Nat) : Except Panic EpochManager :=
  match em.getEpochStart epoch with
  | some existing => if existing ≠ round then .error (.conflictingEpochStart epoch existing round) else .ok em
  | none => .ok { em with epochStarts := insertSorted (epoch, round) em.epochStarts }

/-- The start of the epoch after a boundary block; the sum of the source wraps. -/
def startAfter (blockRound : Nat) : Nat := (blockRound + em.epochStartDelay) % 2 ^ 64

/-- `ScheduleEpochStart`: the last block of an epoch schedules the next one. -/
def scheduleEpochStart (blockNum blockRound : Nat) : Except Panic EpochManager :=
  if !isBoundaryBlock blockNum em.epochLength then .ok em
  else em.insertEpochStart (toEpoch blockNum em.epochLength + 1) (em.startAfter blockRound)

/-- The loop of `GetEpoch`: the last epoch before the first one that starts later. -/
def getEpochAux (round : Nat) (found : Option Nat) : List (Nat × Nat) → Option Nat
  | [] => found
  | (e, start) :: rest => if start ≤ round then getEpochAux round (some e) rest else found

def getEpoch (round : Nat) : Option Nat := getEpochAux round none em.epochStarts

variable {found : Option Nat} {starts l : List (Nat × Nat)} {e : Nat × Nat} {ep epoch start : Nat}

theorem getEpochAux_isSome {round found : Nat} : (getEpochAux round (some found) starts).isSome := by
  induction starts generalizing found with
  | nil => rfl
  | cons e starts ih =>
    unfold getEpochAux
    split
    · exact ih
    · rfl

theorem getEpoch_isSome_mono {em : EpochManager} {round round' : Nat} (hle : round ≤ round')
    (h : (em.getEpoch round).isSome) : (em.getEpoch round').isSome := by
  unfold getEpoch at h ⊢
  cases hs : em.epochStarts with
  | nil => simp [hs, getEpochAux] at h
  | cons e starts =>
    rw [hs] at h
    by_cases he : e.2 ≤ round
    · rw [getEpochAux, if_pos (by omega)]
      exact getEpochAux_isSome
    · rw [getEpochAux, if_neg he] at h
      cases h

/-! ## Epochs in ascending order -/

def Ordered : Prop := em.epochStarts.Pairwise fun x y => x.1 < y.1 ∧ x.2 < y.2

/-- The epoch a boundary block starts, and when. -/
def scheduled (blockNum blockRound : Nat) : Nat × Nat :=
  (toEpoch blockNum em.epochLength + 1, em.startAfter blockRound)

/-- The epoch a block finalized in `round` schedules is known, or comes after the known ones and starts
after `round`. -/
def Timely (round blockNum blockRound : Nat) : Prop :=
  isBoundaryBlock blockNum em.epochLength = true → (em.getEpochStart (em.scheduled blockNum blockRound).1).isSome ∨
    round < (em.scheduled blockNum blockRound).2 ∧
      ∀ x ∈ em.epochStarts, x.1 < (em.scheduled blockNum blockRound).1 ∧ x.2 < (em.scheduled blockNum blockRound).2

instance (em : EpochManager) (round blockNum blockRound : Nat) : Decidable (em.Timely round blockNum blockRound) :=
  inferInstanceAs (Decidable (_ → _))

variable {em em' : EpochManager} {round blockNum blockRound r : Nat}

theorem getEpochAux_eq (h : starts.Pairwise fun x y => x.1 < y.1 ∧ x.2 < y.2) :
    getEpochAux round found starts = ((starts.filter fun x => x.2 ≤ round).getLast?.map Prod.fst).or found := by
  induction starts generalizing found with
  | nil => cases found <;> rfl
  | cons x starts ih =>
    obtain ⟨hx, hrest⟩ := pairwise_cons.mp h
    unfold getEpochAux
    by_cases hle : x.2 ≤ round
    · rw [if_pos hle, ih hrest, filter_cons_of_pos (by simpa using hle), getLast?_cons]
      cases (starts.filter fun x => x.2 ≤ round).getLast? <;> rfl
    · -- nothing after a later start has started
      have hnone : (x :: starts).filter (fun x => x.2 ≤ round) = [] := by
        refine filter_eq_nil_iff.mpr fun y hy => ?_
        rcases mem_cons.mp hy with rfl | hy
        · simpa using hle
        · have := (hx y hy).2
          simp only [decide_eq_true_eq]
          omega
      rw [if_neg hle, hnone]
      rfl

/-- The epoch of a round is the last one that started by then. -/
theorem getEpoch_eq (h : em.Ordered) :
    em.getEpoch round = (em.epochStarts.filter fun x => x.2 ≤ round).getLast?.map Prod.fst := by
  unfold getEpoch
  rw [getEpochAux_eq h, Option.or_none]

/-- The epoch of a round depends only on the epochs that started by then. -/
theorem getEpoch_congr (h : em.Ordered) (h' : em'.Ordered)
    (hmem : ∀ x, x.2 ≤ round → (x ∈ em.epochStarts ↔ x ∈ em'.epochStarts)) : em.getEpoch round = em'.getEpoch round := by
  have hnodup : ∀ {m : EpochManager}, m.Ordered → m.epochStarts.Nodup :=
    fun hm => hm.imp fun hxy heq => absurd hxy.1 (by rw [heq]; exact lt_irrefl _)
  have hperm : (em.epochStarts.filter fun x => x.2 ≤ round).Perm (em'.epochStarts.filter fun x => x.2 ≤ round) := by
    refine (perm_ext_iff_of_nodup ((hnodup h).filter _) ((hnodup h').filter _)).mpr fun x => ?_
    simp only [mem_filter, decide_eq_true_eq]
    exact ⟨fun hx => ⟨(hmem x hx.2).mp hx.1, hx.2⟩, fun hx => ⟨(hmem x hx.2).mpr hx.1, hx.2⟩⟩
  rw [getEpoch_eq h, getEpoch_eq h']
  congr 2
  refine hperm.eq_of_pairwise (fun a b _ _ hab hba => ?_) (h.filter _) (h'.filter _)
  have := hab.1
  have := hba.1
  omega

/-! ## Scheduling -/

theorem mem_insertSorted {x : Nat × Nat} : x ∈ insertSorted e l ↔ x = e ∨ x ∈ l := by
  induction l with
  | nil => simp [insertSorted]
  | cons y l ih =>
    unfold insertSorted
    split
    · simp
    · simp only [mem_cons, ih]
      tauto

theorem insertSorted_last (h : ∀ x ∈ l, x.1 < e.1) : insertSorted e l = l ++ [e] := by
  induction l with
  | nil => rfl
  | cons y l ih =>
    have hy := h y (.head _)
    rw [insertSorted, if_neg (by omega), ih fun x hx => h x (.tail y hx)]
    rfl

/-- What `ScheduleEpochStart` does: nothing, or one new epoch. -/
theorem scheduleEpochStart_ok (h : em.scheduleEpochStart blockNum blockRound = .ok em') :
    (isBoundaryBlock blockNum em.epochLength = true → em.scheduled blockNum blockRound ∈ em'.epochStarts) ∧
    (em' = em ∨ isBoundaryBlock blockNum em.epochLength = true ∧
      em.getEpochStart (em.scheduled blockNum blockRound).1 = none ∧
      em' = { em with epochStarts := insertSorted (em.scheduled blockNum blockRound) em.epochStarts }) := by
  unfold scheduleEpochStart at h
  split at h
  · rename_i hb
    cases h
    refine ⟨fun hb' => ?_, .inl rfl⟩
    rw [hb'] at hb
    cases hb
  rename_i hb
  have hb : isBoundaryBlock blockNum em.epochLength = true := by simpa using hb
  unfold insertEpochStart at h
  split at h
  · rename_i existing hex
    split at h
    · cases h
    · rename_i heq
      cases h
      refine ⟨fun _ => ?_, .inl rfl⟩
      rw [not_not.mp heq] at hex
      obtain ⟨l, l', hl, -⟩ := lookup_eq_some_iff.mp hex
      rw [hl]
      simp [scheduled]
  · rename_i hnone
    cases h
    exact ⟨fun _ => mem_insertSorted.mpr (.inl rfl), .inr ⟨hb, hnone, rfl⟩⟩

/-- A timely schedule adds its epoch at the end, if at all. -/
theorem scheduleEpochStart_timely (ht : em.Timely round blockNum blockRound)
    (h : em.scheduleEpochStart blockNum blockRound = .ok em') :
    em' = em ∨ isBoundaryBlock blockNum em.epochLength = true ∧ round < (em.scheduled blockNum blockRound).2 ∧
      (∀ x ∈ em.epochStarts, x.1 < (em.scheduled blockNum blockRound).1 ∧ x.2 < (em.scheduled blockNum blockRound).2) ∧
      em' = { em with epochStarts := em.epochStarts ++ [em.scheduled blockNum blockRound] } := by
  rcases (scheduleEpochStart_ok h).2 with rfl | ⟨hb, hnone, rfl⟩
  · exact .inl rfl
  · rcases ht hb with hknown | ⟨hround, hlast⟩
    · rw [hnone] at hknown
      cases hknown
    · exact .inr ⟨hb, hround, hlast, by rw [insertSorted_last fun x hx => (hlast x hx).1]⟩

theorem scheduleEpochStart_ordered (ho : em.Ordered) (ht : em.Timely round blockNum blockRound)
    (h : em.scheduleEpochStart blockNum blockRound = .ok em') : em'.Ordered := by
  rcases scheduleEpochStart_timely ht h with rfl | ⟨-, -, hlast, rfl⟩
  · exact ho
  · refine pairwise_append.mpr ⟨ho, pairwise_singleton _ _, fun x hx y hy => ?_⟩
    obtain rfl := mem_singleton.mp hy
    exact hlast x hx

/-- The rounds up to now keep their epochs. -/
theorem scheduleEpochStart_getEpoch (ho : em.Ordered) (ht : em.Timely round blockNum blockRound)
    (h : em.scheduleEpochStart blockNum blockRound = .ok em') (hr : r ≤ round) : em'.getEpoch r = em.getEpoch r := by
  refine getEpoch_congr (scheduleEpochStart_ordered ho ht h) ho fun x hx => ?_
  rcases scheduleEpochStart_timely ht h with rfl | ⟨-, hround, -, rfl⟩
  · exact Iff.rfl
  · rw [mem_append, mem_singleton]
    refine ⟨fun hx' => hx'.resolve_right fun heq => ?_, .inl⟩
    rw [heq] at hx
    omega

/-! ## Any new start -/

/-- The epochs are listed in order, whatever rounds they start in. -/
def Ascending (em : EpochManager) : Prop := em.epochStarts.Pairwise fun x y => x.1 < y.1

/-- A new start of `epoch` takes `round` out of `ep`: it splits an epoch before `ep` off too
late, or comes right after `ep` and is over by `round`. -/
def Moves (em : EpochManager) (epoch start round ep : Nat) : Prop :=
  (epoch < ep ∧ round < start) ∨ (ep < epoch ∧ start ≤ round ∧ ∀ x ∈ em.epochStarts, ¬(ep < x.1 ∧ x.1 < epoch))

theorem insertSorted_ascending (h : l.Pairwise fun x y => x.1 < y.1)
    (hnew : ∀ x ∈ l, x.1 ≠ e.1) : (insertSorted e l).Pairwise fun x y => x.1 < y.1 := by
  induction l with
  | nil => exact pairwise_singleton _ _
  | cons y l ih =>
    obtain ⟨hy, hl⟩ := pairwise_cons.mp h
    have hne := hnew y (.head _)
    unfold insertSorted
    by_cases hlt : e.1 < y.1
    · rw [if_pos hlt]
      refine pairwise_cons.mpr ⟨?_, h⟩
      intro x hx
      rcases mem_cons.mp hx with rfl | hx
      · exact hlt
      · have := hy x hx
        omega
    · rw [if_neg hlt]
      refine pairwise_cons.mpr ⟨?_, ih hl fun x hx => hnew x (.tail y hx)⟩
      intro x hx
      rcases mem_insertSorted.mp hx with rfl | hx
      · omega
      · exact hy x hx

theorem getEpochAux_mem (h : getEpochAux round found starts = some ep) : found = some ep ∨ ∃ x ∈ starts, x.1 = ep := by
  induction starts generalizing found with
  | nil => exact .inl h
  | cons x starts ih =>
    unfold getEpochAux at h
    by_cases hx : x.2 ≤ round
    · rw [if_pos hx] at h
      rcases ih h with heq | ⟨y, hy, hep⟩
      · exact .inr ⟨x, .head _, Option.some.inj heq⟩
      · exact .inr ⟨y, .tail x hy, hep⟩
    · rw [if_neg hx] at h
      exact .inl h

-- The loop has read the epochs up to `found`, all before the new one.
theorem getEpochAux_insertSorted {e : Nat} (hasc : starts.Pairwise fun x y => x.1 < y.1) (hnew : ∀ x ∈ starts, x.1 ≠ e)
    (hfound : ∀ f, found = some f → f < e ∧ ∀ x ∈ starts, f < x.1) (h : getEpochAux round found starts = some ep) :
    getEpochAux round found (insertSorted (e, r) starts) = some ep ↔
      ¬((e < ep ∧ round < r) ∨ (ep < e ∧ r ≤ round ∧ ∀ x ∈ starts, ¬(ep < x.1 ∧ x.1 < e))) := by
  induction starts generalizing found with
  | nil =>
    obtain rfl : found = some ep := h
    have := (hfound ep rfl).1
    unfold insertSorted getEpochAux
    by_cases hr : r ≤ round
    · simp only [if_pos hr, getEpochAux, Option.some.injEq, not_mem_nil]
      constructor
      · intro heq
        omega
      · intro hn
        exact absurd (.inr ⟨this, hr, fun _ hx => hx.elim⟩) hn
    · rw [if_neg hr]
      refine iff_of_true rfl ?_
      rintro (⟨hlt, -⟩ | ⟨-, hle, -⟩)
      · omega
      · exact hr hle
  | cons x starts ih =>
    obtain ⟨hx, hrest⟩ := pairwise_cons.mp hasc
    have hne := hnew x (.head _)
    unfold insertSorted
    by_cases hlt : e < x.1
    · rw [if_pos hlt]
      have habove : ∀ y ∈ x :: starts, e < y.1 := by
        intro y hy
        rcases mem_cons.mp hy with rfl | hy
        · exact hlt
        · have := hx y hy
          omega
      have hbetween : ∀ y ∈ x :: starts, ¬(ep < y.1 ∧ y.1 < e) := by
        intro y hy hy'
        have := habove y hy
        omega
      by_cases hs : x.2 ≤ round
      · -- the next epoch has started: the new one is passed over, unless it has not
        rw [getEpochAux, if_pos hs] at h
        have hep : e < ep := by
          rcases getEpochAux_mem h with heq | ⟨y, hy, rfl⟩
          · obtain rfl := Option.some.inj heq
            exact hlt
          · exact habove y (.tail x hy)
        by_cases hr : r ≤ round
        · rw [getEpochAux, if_pos hr, getEpochAux, if_pos hs]
          refine iff_of_true h ?_
          rintro (⟨-, hlate⟩ | ⟨hlt', -⟩) <;> omega
        · rw [getEpochAux, if_neg hr]
          refine iff_of_false ?_ (not_not.mpr (.inl ⟨hep, by omega⟩))
          intro heq
          have := (hfound ep heq).1
          omega
      · rw [getEpochAux, if_neg hs] at h
        have hep := (hfound ep h).1
        by_cases hr : r ≤ round
        · rw [getEpochAux, if_pos hr, getEpochAux, if_neg hs]
          refine iff_of_false ?_ (not_not.mpr (.inr ⟨hep, hr, hbetween⟩))
          intro heq
          have := Option.some.inj heq
          omega
        · rw [getEpochAux, if_neg hr]
          refine iff_of_true h ?_
          rintro (⟨hlt', -⟩ | ⟨-, hle, -⟩) <;> omega
    · rw [if_neg hlt]
      have hx' : x.1 < e := by omega
      by_cases hs : x.2 ≤ round
      · rw [getEpochAux, if_pos hs] at h ⊢
        have hep : ¬ep < x.1 := by
          rcases getEpochAux_mem h with heq | ⟨y, hy, rfl⟩
          · have := Option.some.inj heq
            omega
          · have := hx y hy
            omega
        rw [ih hrest (fun y hy => hnew y (.tail x hy)) ?_ h]
        · simp [hep]
        · intro f hf
          obtain rfl := Option.some.inj hf
          exact ⟨hx', hx⟩
      · rw [getEpochAux, if_neg hs] at h ⊢
        refine iff_of_true h ?_
        have hep := (hfound ep h).2 x (.head _)
        rintro (⟨hlt', -⟩ | ⟨-, -, hnone⟩)
        · omega
        · exact hnone x (.head _) ⟨hep, hx'⟩

theorem getEpochStart_eq_none (h : em.getEpochStart epoch = none) : ∀ x ∈ em.epochStarts, x.1 ≠ epoch := by
  intro x hx heq
  have := lookup_eq_none_iff.mp h x hx
  simp [heq] at this

theorem insertEpochStart_ok (h : em.insertEpochStart epoch start = .ok em') : em' = em ∨ em.getEpochStart epoch = none ∧
      em' = { em with epochStarts := insertSorted (epoch, start) em.epochStarts } := by
  unfold insertEpochStart at h
  cases hk : em.getEpochStart epoch with
  | some existing =>
    rw [hk] at h
    by_cases heq : existing ≠ start
    · simp [heq] at h
    · simp only [heq, if_false] at h
      exact .inl (Except.ok.inj h).symm
  | none =>
    rw [hk] at h
    exact .inr ⟨rfl, (Except.ok.inj h).symm⟩

theorem insertEpochStart_ascending (ha : em.Ascending)
    (h : em.insertEpochStart epoch start = .ok em') : em'.Ascending := by
  rcases insertEpochStart_ok h with rfl | ⟨hnone, rfl⟩
  · exact ha
  · exact insertSorted_ascending ha (getEpochStart_eq_none hnone)

/-- A new start leaves a round in its epoch exactly when it does not move it. -/
theorem insertEpochStart_getEpoch_iff (ha : em.Ascending)
    (h : em.insertEpochStart epoch start = .ok em') (hep : em.getEpoch round = some ep) :
    em'.getEpoch round = some ep ↔ (em.getEpochStart epoch = none → ¬em.Moves epoch start round ep) := by
  rcases insertEpochStart_ok h with rfl | ⟨hnone, rfl⟩
  · refine iff_of_true hep ?_
    intro hnone
    unfold insertEpochStart at h
    rw [hnone] at h
    have := congrArg epochStarts (Except.ok.inj h)
    have hmem : (epoch, start) ∈ em'.epochStarts := by
      rw [← this]
      exact mem_insertSorted.mpr (.inl rfl)
    exact absurd rfl (getEpochStart_eq_none hnone _ hmem)
  · have hiff := getEpochAux_insertSorted (r := start) ha (getEpochStart_eq_none hnone) (fun f hf => by cases hf) hep
    simp only [hnone, forall_const]
    exact hiff

end EpochManager

abbrev ValidatorsEpochMapping := AMap Nat ValidatorSet

/-- `ValidatorsEpochMapping.Insert`: the set of an epoch is never replaced. -/
def ValidatorsEpochMapping.insertSet (m : ValidatorsEpochMapping) (epoch : Nat) (valSet : ValidatorSet) :
    Except Panic ValidatorsEpochMapping :=
  match m.get epoch with
  | some existing => if existing.members = valSet.members then .ok m else .error (.validatorSetMismatch epoch)
  | none => .ok (m.insert epoch valSet)

theorem ValidatorsEpochMapping.insertSet_get {m m' : ValidatorsEpochMapping} {epoch ep : Nat} {valSet v : ValidatorSet}
    (h : m.insertSet epoch valSet = .ok m') (hv : m.get ep = some v) : m'.get ep = some v := by
  unfold ValidatorsEpochMapping.insertSet at h
  cases hk : m.get epoch with
  | some existing =>
    rw [hk] at h
    by_cases heq : existing.members = valSet.members
    · simp only [heq, if_true] at h
      cases h
      exact hv
    · simp [heq] at h
  | none =>
    rw [hk] at h
    cases h
    rw [AMap.get_insert_ne _ _ fun heq => by rw [heq, hk] at hv; cases hv]
    exact hv

theorem ValidatorsEpochMapping.of_insertSet {m m' : ValidatorsEpochMapping} {epoch ep : Nat} {valSet : ValidatorSet}
    (h : m.insertSet epoch valSet = .ok m') (hv : (m'.get ep).isSome) : ep = epoch ∨ (m.get ep).isSome := by
  unfold ValidatorsEpochMapping.insertSet at h
  cases hk : m.get epoch with
  | some existing =>
    rw [hk] at h
    by_cases heq : existing.members = valSet.members
    · simp only [heq, if_true] at h
      cases h
      exact .inr hv
    · simp [heq] at h
  | none =>
    rw [hk] at h
    cases h
    rw [AMap.get_insert] at hv
    by_cases he : ep = epoch
    · exact .inl he
    · rw [if_neg he] at hv
      exact .inr hv

end MonadBft
