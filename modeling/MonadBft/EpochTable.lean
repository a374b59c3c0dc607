/-
  MonadBft.EpochTable — the epochs a node knows, over the finalized chain and across restarts
  (`validator.EpochManager`, `NewEpochManager`, the schedule calls of `maybeStartConsensus` and
  of a commit).

  A node starts from the genesis forkpoint, schedules blocks of one finalized chain in whatever
  order they come, and restarts from the locked epochs of any checkpoint it or another node of
  that chain has taken. Every start it knows is then that of epoch 1 or the one the boundary block of the
  chain gives (`reach_fromChain`), so:
  - no start is in conflict, and an epoch is scheduled by the block that locks it
    (`FromChain.schedule`, `FromChain.restart`);
  - `GetEpoch` grows with the round (`getEpoch_mono`).

  The start of an epoch is a sum that wraps. The starts are strictly ascending in every table
  exactly if the sums of all boundary blocks stay below 2^64 or all go beyond it, and the
  epoch of a round is the greatest one that started exactly if all stay below or all reach it
  (`epoch_table`). With the delay 2^64 - 1 a boundary block of round 1 starts epoch 2 with
  epoch 1 (`epoch_two_starts_at_genesis`).
-/
import Mathlib.Order.Lattice.Nat
import MonadBft.Store.Restart

namespace MonadBft

open Lib List

/-- `types.SeqNum.GetLockedEpoch`; `none` is its panic. -/
def getLockedEpoch (seqNum epochLength : Nat) : Option Nat :=
  if isBoundaryBlock seqNum epochLength then some (toEpoch seqNum epochLength + 1) else none

structure FinalizedChain where
  height : Nat
  round : Nat → Nat
  increasing : ∀ {s t}, 1 ≤ s → s < t → t ≤ height → round s < round t
  positive : ∀ {s}, 1 ≤ s → s ≤ height → 0 < round s
  fits : ∀ {s}, 1 ≤ s → s ≤ height → round s < 2 ^ 64
  /-- The numbers of the epochs fit. -/
  epochsFit : height + 2 < 2 ^ 64

structure FinalizedChain.Boundary (c : FinalizedChain) (epochLength seqNum : Nat) : Prop where
  pos : 1 ≤ seqNum
  le : seqNum ≤ c.height
  boundary : isBoundaryBlock seqNum epochLength = true

def FinalizedChain.Starts (c : FinalizedChain) (L D : Nat) (x : Nat × Nat) : Prop :=
  x = (1, 0) ∨ ∃ s, c.Boundary L s ∧ x = (toEpoch s L + 1, (c.round s + D) % 2 ^ 64)

theorem toEpoch_lt {L s t : Nat} (hL : 1 ≤ L) (hs : isBoundaryBlock s L = true) (ht : isBoundaryBlock t L = true) :
    toEpoch s L < toEpoch t L ↔ s < t := by
  have hs' : s % L = L - 1 := by simpa [isBoundaryBlock] using hs
  have ht' : t % L = L - 1 := by simpa [isBoundaryBlock] using ht
  have hsd := Nat.div_add_mod s L
  have htd := Nat.div_add_mod t L
  unfold toEpoch
  constructor
  · intro hlt
    have := Nat.mul_lt_mul_of_pos_left (show s / L < t / L by omega) hL
    omega
  · intro hlt
    have := (Nat.mul_lt_mul_left hL).mp (show L * (s / L) < L * (t / L) by omega)
    omega

theorem FinalizedChain.Starts.unique {c : FinalizedChain} {L D : Nat} {x y : Nat × Nat} (hL : 1 ≤ L)
    (hx : c.Starts L D x) (hy : c.Starts L D y) (h : x.1 = y.1) : x = y := by
  have hpos : ∀ s, toEpoch s L + 1 ≠ 1 := by
    intro s
    simp [toEpoch]
  rcases hx with rfl | ⟨s, hs, rfl⟩
  · rcases hy with rfl | ⟨t, -, rfl⟩
    · rfl
    · exact absurd h.symm (hpos t)
  · rcases hy with rfl | ⟨t, ht, rfl⟩
    · exact absurd h (hpos s)
    · have hst := toEpoch_lt hL hs.boundary ht.boundary
      have hts := toEpoch_lt hL ht.boundary hs.boundary
      obtain rfl : s = t := by omega
      rfl

namespace EpochManager

/-- `NewEpochManager`, over the known epochs in the order the map is read. -/
def newEpochManager (epochLength epochStartDelay : Nat) (knownEpochs : List (Nat × Nat)) : Except Panic EpochManager :=
  knownEpochs.foldlM (fun em e => em.insertEpochStart e.1 e.2) ⟨epochLength, epochStartDelay, []⟩

inductive Reach (c : FinalizedChain) (epochLength epochStartDelay : Nat) : EpochManager → Prop where
  | genesis : Reach c epochLength epochStartDelay (.new epochLength epochStartDelay forkpointGenesis.getEpochStarts)
  | schedule {em em' : EpochManager} {seqNum : Nat} (h : Reach c epochLength epochStartDelay em) (hpos : 1 ≤ seqNum)
      (hle : seqNum ≤ c.height) (hstep : em.scheduleEpochStart seqNum (c.round seqNum) = .ok em') :
      Reach c epochLength epochStartDelay em'
  | restart {em' : EpochManager} {p : Process} {root : RootInfo} {hc : RoundCertificate} {cp : Checkpoint}
      {known : List (Nat × Nat)} (h : Reach c epochLength epochStartDelay p.epochManager)
      (hcp : p.checkpoint root hc = .ok cp) (hknown : known.Perm cp.getEpochStarts.entries)
      (hstep : newEpochManager epochLength epochStartDelay known = .ok em') : Reach c epochLength epochStartDelay em'

def started (em : EpochManager) (round : Nat) : Set Nat := {epoch | ∃ x ∈ em.epochStarts, x.1 = epoch ∧ x.2 ≤ round}

def WeaklyOrdered (em : EpochManager) : Prop := em.epochStarts.Pairwise fun x y => x.1 < y.1 ∧ x.2 ≤ y.2

variable {c : FinalizedChain} {L D round round' epoch : Nat} {em em' : EpochManager}

/-! ## The lookup -/

variable {found : Option Nat} {starts known : List (Nat × Nat)} {e start s : Nat} {x y : Nat × Nat}
  {p : Process} {hc : RoundCertificate} {root : RootInfo} {cp : Checkpoint}

theorem getEpochAux_mono (hasc : starts.Pairwise fun x y => x.1 < y.1) (hle : round ≤ round')
    (hfound : ∀ f, found = some f → ∀ x ∈ starts, f < x.1)
    (h : getEpochAux round found starts = some e) : ∃ e', getEpochAux round' found starts = some e' ∧ e ≤ e' := by
  induction starts generalizing found with
  | nil => exact ⟨e, h, le_refl e⟩
  | cons x starts ih =>
    obtain ⟨hx, hrest⟩ := pairwise_cons.mp hasc
    unfold getEpochAux at h ⊢
    by_cases hs : x.2 ≤ round
    · rw [if_pos hs] at h
      rw [if_pos (hs.trans hle)]
      refine ih hrest ?_ h
      intro f hf
      obtain rfl := Option.some.inj hf
      exact hx
    · rw [if_neg hs] at h
      by_cases hs' : x.2 ≤ round'
      · -- the loop that goes on only finds later epochs
        rw [if_pos hs']
        have hsome : (getEpochAux round' (some x.1) starts).isSome := getEpochAux_isSome
        obtain ⟨e', he'⟩ := Option.isSome_iff_exists.mp hsome
        refine ⟨e', he', ?_⟩
        have hex := hfound e h x (.head _)
        rcases getEpochAux_mem he' with heq | ⟨y, hy, rfl⟩
        · obtain rfl := Option.some.inj heq
          exact hex.le
        · exact (hex.trans (hx y hy)).le
      · rw [if_neg hs']
        exact ⟨e, h, le_refl e⟩

theorem getEpoch_mono (ha : em.Ascending) (hle : round ≤ round') (h : em.getEpoch round = some epoch) :
    ∃ epoch', em.getEpoch round' = some epoch' ∧ epoch ≤ epoch' :=
  getEpochAux_mono ha hle (fun f hf => by cases hf) h

theorem getEpochAux_greatest (hasc : starts.Pairwise fun x y => x.1 < y.1 ∧ x.2 ≤ y.2) :
    getEpochAux round found starts = some e ↔
      ((∃ x ∈ starts, x.1 = e ∧ x.2 ≤ round) ∧ ∀ y ∈ starts, y.2 ≤ round → y.1 ≤ e) ∨
        (found = some e ∧ ∀ y ∈ starts, ¬y.2 ≤ round) := by
  induction starts generalizing found with
  | nil => simp [getEpochAux]
  | cons x starts ih =>
    obtain ⟨hx, hrest⟩ := pairwise_cons.mp hasc
    unfold getEpochAux
    by_cases hs : x.2 ≤ round
    · rw [if_pos hs, ih hrest]
      constructor
      · intro h
        left
        rcases h with ⟨⟨y, hy, rfl, hle⟩, hmax⟩ | ⟨heq, hnone⟩
        · refine ⟨⟨y, .tail x hy, rfl, hle⟩, ?_⟩
          intro z hz hzle
          rcases mem_cons.mp hz with rfl | hz
          · exact (hx y hy).1.le
          · exact hmax z hz hzle
        · obtain rfl := Option.some.inj heq
          refine ⟨⟨x, .head _, rfl, hs⟩, ?_⟩
          intro z hz hzle
          rcases mem_cons.mp hz with rfl | hz
          · exact le_refl _
          · exact absurd hzle (hnone z hz)
      · intro h
        rcases h with ⟨⟨y, hy, rfl, hle⟩, hmax⟩ | ⟨-, hnone⟩
        · rcases mem_cons.mp hy with rfl | hy
          · by_cases hany : ∃ z ∈ starts, z.2 ≤ round
            · obtain ⟨z, hz, hzle⟩ := hany
              have := hmax z (.tail _ hz) hzle
              have := (hx z hz).1
              omega
            · exact .inr ⟨rfl, fun z hz hzle => hany ⟨z, hz, hzle⟩⟩
          · exact .inl ⟨⟨y, hy, rfl, hle⟩, fun z hz => hmax z (.tail x hz)⟩
        · exact absurd hs (hnone x (.head _))
    · -- nothing after a later start has started
      rw [if_neg hs]
      have hnone : ∀ y ∈ x :: starts, ¬y.2 ≤ round := by
        intro y hy hle
        rcases mem_cons.mp hy with rfl | hy
        · exact hs hle
        · exact hs ((hx y hy).2.trans hle)
      constructor
      · intro h
        exact .inr ⟨h, hnone⟩
      · intro h
        rcases h with ⟨⟨y, hy, -, hle⟩, -⟩ | ⟨heq, -⟩
        · exact absurd hle (hnone y hy)
        · exact heq

/-- With starts that never fall the lookup finds the greatest epoch that has started. -/
theorem getEpoch_isGreatest (h : em.WeaklyOrdered) :
    em.getEpoch round = some epoch ↔ IsGreatest (em.started round) epoch := by
  unfold getEpoch
  rw [getEpochAux_greatest h]
  constructor
  · intro hfound
    rcases hfound with ⟨hmem, hmax⟩ | ⟨heq, -⟩
    · refine ⟨hmem, ?_⟩
      intro e he
      obtain ⟨y, hy, rfl, hle⟩ := he
      exact hmax y hy hle
    · cases heq
  · intro hgreat
    exact .inl ⟨hgreat.1, fun y hy hle => hgreat.2 ⟨y, hy, rfl, hle⟩⟩

/-- An epoch that has not started hides those after it. -/
theorem getEpochAux_lt (hasc : starts.Pairwise fun x y => x.1 < y.1) (hx : x ∈ starts) (hlate : round < x.2)
    (hfound : ∀ f, found = some f → ∀ x ∈ starts, f < x.1) (h : getEpochAux round found starts = some e) : e < x.1 := by
  induction starts generalizing found with
  | nil => cases hx
  | cons y starts ih =>
    obtain ⟨hy, hrest⟩ := pairwise_cons.mp hasc
    unfold getEpochAux at h
    by_cases hs : y.2 ≤ round
    · rw [if_pos hs] at h
      have hx' : x ∈ starts := by
        rcases mem_cons.mp hx with rfl | hx'
        · omega
        · exact hx'
      refine ih hrest hx' ?_ h
      intro f hf
      obtain rfl := Option.some.inj hf
      exact hy
    · rw [if_neg hs] at h
      exact hfound e h x hx

/-- If the lookup always finds the greatest epoch, the starts never fall. -/
theorem le_of_isGreatest (ha : em.Ascending)
    (h : ∀ round epoch, em.getEpoch round = some epoch ↔ IsGreatest (em.started round) epoch)
    (hx : x ∈ em.epochStarts) (hy : y ∈ em.epochStarts) (hlt : x.1 < y.1) : x.2 ≤ y.2 := by
  by_contra hfall
  have hne : (em.started y.2).Nonempty := ⟨y.1, y, hy, rfl, le_refl _⟩
  have hbdd : BddAbove (em.started y.2) := by
    refine ⟨(em.epochStarts.map Prod.fst).sum, ?_⟩
    intro e he
    obtain ⟨z, hz, rfl, -⟩ := he
    exact le_sum_of_mem (mem_map_of_mem hz)
  have hgreat : IsGreatest (em.started y.2) (sSup (em.started y.2)) :=
    ⟨Nat.sSup_mem hne hbdd, fun e he => le_csSup hbdd he⟩
  have hsup : sSup (em.started y.2) < x.1 :=
    getEpochAux_lt ha hx (not_le.mp hfall) (fun f hf => by cases hf) ((h _ _).mpr hgreat)
  have hle := hgreat.2 ⟨y, hy, rfl, le_refl _⟩
  omega

/-! ## The starts the chain gives -/

structure FromChain (c : FinalizedChain) (L D : Nat) (em : EpochManager) : Prop where
  length : em.epochLength = L
  delay : em.epochStartDelay = D
  ascending : em.Ascending
  starts : ∀ x ∈ em.epochStarts, c.Starts L D x

theorem mem_of_getEpochStart (h : em.getEpochStart epoch = some start) : (epoch, start) ∈ em.epochStarts := by
  obtain ⟨l, l', hl, -⟩ := lookup_eq_some_iff.mp h
  rw [hl]
  simp

theorem getEpochStart_of_mem (ha : em.Ascending) (h : (epoch, start) ∈ em.epochStarts) :
    em.getEpochStart epoch = some start := by
  obtain ⟨l, l', hl⟩ := append_of_mem h
  refine lookup_eq_some_iff.mpr ⟨l, l', hl, ?_⟩
  intro x hx
  have hasc := ha
  unfold Ascending at hasc
  rw [hl] at hasc
  have := (pairwise_append.mp hasc).2.2 x hx (epoch, start) (.head _)
  simpa using (Nat.ne_of_lt this).symm

/-- A block of the chain schedules its epoch, or finds it scheduled as it would. -/
theorem FromChain.schedule (hL : 1 ≤ L) (h : em.FromChain c L D) (hpos : 1 ≤ s) (hle : s ≤ c.height) :
    ∃ em', em.scheduleEpochStart s (c.round s) = .ok em' ∧ em'.FromChain c L D := by
  have hstarts : isBoundaryBlock s L = true → c.Starts L D (em.scheduled s (c.round s)) := by
    intro hb
    refine .inr ⟨s, ⟨hpos, hle, hb⟩, ?_⟩
    rw [scheduled, startAfter, h.length, h.delay]
  cases hstep : em.scheduleEpochStart s (c.round s) with
  | ok em' =>
    refine ⟨em', rfl, ?_⟩
    rcases (scheduleEpochStart_ok hstep).2 with rfl | ⟨hb, hnone, rfl⟩
    · exact h
    · rw [h.length] at hb
      refine ⟨h.length, h.delay, insertSorted_ascending h.ascending (getEpochStart_eq_none hnone), ?_⟩
      intro x hx
      rcases mem_insertSorted.mp hx with rfl | hx
      · exact hstarts hb
      · exact h.starts x hx
  | error e =>
    -- the start that is stored is the one the chain gives
    exfalso
    unfold scheduleEpochStart at hstep
    split at hstep
    · cases hstep
    rename_i hb
    have hb : isBoundaryBlock s L = true := by
      rw [h.length] at hb
      simpa using hb
    unfold insertEpochStart at hstep
    split at hstep
    · rename_i existing hex
      have hsame := (h.starts _ (mem_of_getEpochStart hex)).unique hL (hstarts hb) rfl
      have : existing = em.startAfter (c.round s) := congrArg Prod.snd hsame
      simp [this] at hstep
    · cases hstep

/-! ## Restarts -/

theorem insertAll_ok (hn : (known.map Prod.fst).Nodup) (ha : em.Ascending)
    (hnew : ∀ x ∈ known, ∀ y ∈ em.epochStarts, y.1 ≠ x.1) :
    ∃ em', known.foldlM (fun em e => em.insertEpochStart e.1 e.2) em = .ok em' ∧ em'.epochLength = em.epochLength ∧
      em'.epochStartDelay = em.epochStartDelay ∧ em'.Ascending ∧
      ∀ x, x ∈ em'.epochStarts ↔ x ∈ known ∨ x ∈ em.epochStarts := by
  induction known generalizing em with
  | nil => exact ⟨em, rfl, rfl, rfl, ha, by simp⟩
  | cons x known ih =>
    obtain ⟨hx, hn⟩ := nodup_cons.mp hn
    have hnone : em.getEpochStart x.1 = none := by
      refine lookup_eq_none_iff.mpr ?_
      intro y hy
      simpa using (hnew x (.head _) y hy).symm
    have hstep : em.insertEpochStart x.1 x.2 = .ok { em with epochStarts := insertSorted x em.epochStarts } := by
      unfold insertEpochStart
      rw [hnone]
    have hasc' : Ascending { em with epochStarts := insertSorted x em.epochStarts } :=
      insertSorted_ascending ha (hnew x (.head _))
    have hnew' : ∀ z ∈ known, ∀ y ∈ insertSorted x em.epochStarts, y.1 ≠ z.1 := by
      intro z hz y hy
      rcases mem_insertSorted.mp hy with rfl | hy
      · intro heq
        exact hx (heq ▸ mem_map_of_mem hz)
      · exact hnew z (.tail x hz) y hy
    obtain ⟨em', hem', hlen, hdelay, hasc, hmem⟩ := ih hn hasc' hnew'
    refine ⟨em', ?_, hlen, hdelay, hasc, ?_⟩
    · rw [foldlM_cons, hstep]
      exact hem'
    · intro y
      rw [hmem, mem_insertSorted, mem_cons]
      tauto

theorem mem_insertAll {sets : List LockedEpoch} {m : AMap Nat Nat}
    (h : (sets.foldl (fun m le => m.insert le.epoch le.round) m).get epoch = some start) :
    m.get epoch = some start ∨ ⟨epoch, start⟩ ∈ sets := by
  induction sets generalizing m with
  | nil => exact .inl h
  | cons le sets ih =>
    rcases ih h with hget | hmem
    · rcases AMap.of_get_insert hget with hget | ⟨rfl, rfl⟩
      · exact .inl hget
      · exact .inr (.head _)
    · exact .inr (.tail le hmem)

theorem mem_of_getLockedEpoch {le : LockedEpoch} (h : p.getLockedEpoch epoch = some le) :
    (le.epoch, le.round) ∈ p.epochManager.epochStarts := by
  unfold Process.getLockedEpoch at h
  split at h
  · cases h
  · obtain ⟨round, hround, rfl⟩ := Option.map_eq_some_iff.mp h
    exact mem_of_getEpochStart hround

theorem checkpoint_known
    (hcp : p.checkpoint root hc = .ok cp) : ∀ x ∈ cp.getEpochStarts.entries, x ∈ p.epochManager.epochStarts := by
  intro x hx
  have hset : ⟨x.1, x.2⟩ ∈ cp.validatorSets := by
    rcases mem_insertAll (AMap.get_eq_some.mpr hx) with hempty | hmem
    · cases hempty
    · exact hmem
  unfold Process.checkpoint at hcp
  split at hcp
  · cases hcp
  rename_i base hbase
  cases hcp
  rcases mem_cons.mp hset with heq | hnext
  · have := mem_of_getLockedEpoch hbase
    rw [← heq] at this
    exact this
  · exact mem_of_getLockedEpoch (Option.mem_toList.mp hnext)

/-- A restart from a checkpoint meets no conflict, in whatever order the epochs are read, and
knows only what the table knew that the checkpoint was taken from. -/
theorem FromChain.restart (h : p.epochManager.FromChain c L D) (hcp : p.checkpoint root hc = .ok cp)
    (hknown : known.Perm cp.getEpochStarts.entries) :
    ∃ em', newEpochManager L D known = .ok em' ∧ em'.FromChain c L D := by
  have hn : (known.map Prod.fst).Nodup := (hknown.map Prod.fst).nodup_iff.mpr cp.getEpochStarts.nodup
  have hempty : Ascending ⟨L, D, []⟩ := List.Pairwise.nil
  obtain ⟨em', hem', hlen, hdelay, hasc, hmem⟩ := insertAll_ok hn hempty (by simp)
  refine ⟨em', hem', hlen, hdelay, hasc, ?_⟩
  intro x hx
  rcases (hmem x).mp hx with hx | hx
  · exact h.starts x (checkpoint_known hcp x (hknown.mem_iff.mp hx))
  · cases hx

theorem reach_fromChain (hL : 1 ≤ L) (h : Reach c L D em) : em.FromChain c L D := by
  induction h with
  | genesis =>
    refine ⟨rfl, rfl, pairwise_singleton _ _, ?_⟩
    intro x hx
    exact .inl (mem_singleton.mp hx)
  | schedule _ hpos hle hstep ih =>
    obtain ⟨em', hem', hinv⟩ := ih.schedule hL hpos hle
    rw [hem'] at hstep
    cases hstep
    exact hinv
  | restart _ hcp hknown hstep ih =>
    obtain ⟨em', hem', hinv⟩ := ih.restart hcp hknown
    rw [hem'] at hstep
    cases hstep
    exact hinv

/-! ## Ascending starts -/

/-- The starts of two boundary blocks are in order as long as both sums wrap or neither. -/
theorem FromChain.lt (hD : D < 2 ^ 64) (hL : 1 ≤ L) (h : em.FromChain c L D)
    (hfit : (∀ s, c.Boundary L s → c.round s + D < 2 ^ 64) ∨ ∀ s, c.Boundary L s → 2 ^ 64 ≤ c.round s + D)
    (hx : x ∈ em.epochStarts) (hy : y ∈ em.epochStarts) (hlt : x.1 < y.1) : x.2 < y.2 ∨ x = (1, 0) := by
  rcases h.starts x hx with rfl | ⟨s, hs, rfl⟩
  · exact .inr rfl
  · rcases h.starts y hy with rfl | ⟨t, ht, rfl⟩
    · simp [toEpoch] at hlt
    · have hst : s < t := (toEpoch_lt hL hs.boundary ht.boundary).mp (by omega)
      have hround := c.increasing hs.pos hst ht.le
      have hfits := c.fits hs.pos hs.le
      have hfitt := c.fits ht.pos ht.le
      left
      rcases hfit with hbelow | hbeyond
      · have := hbelow s hs
        have := hbelow t ht
        omega
      · have := hbeyond s hs
        have := hbeyond t ht
        omega

theorem FromChain.weaklyOrdered (hD : D < 2 ^ 64) (hL : 1 ≤ L) (h : em.FromChain c L D)
    (hfit : (∀ s, c.Boundary L s → c.round s + D < 2 ^ 64) ∨ ∀ s, c.Boundary L s → 2 ^ 64 ≤ c.round s + D) :
    em.WeaklyOrdered := by
  refine h.ascending.imp_of_mem ?_
  intro x y hx hy hlt
  refine ⟨hlt, ?_⟩
  rcases h.lt hD hL hfit hx hy hlt with hlt | rfl
  · exact hlt.le
  · exact Nat.zero_le _

theorem FromChain.ordered (hD : D < 2 ^ 64) (hL : 1 ≤ L) (h : em.FromChain c L D)
    (hfit : (∀ s, c.Boundary L s → c.round s + D < 2 ^ 64) ∨ ∀ s, c.Boundary L s → 2 ^ 64 < c.round s + D) :
    em.Ordered := by
  refine h.ascending.imp_of_mem ?_
  intro x y hx hy hlt
  refine ⟨hlt, ?_⟩
  rcases h.lt hD hL (hfit.imp_right fun hbeyond s hs => (hbeyond s hs).le) hx hy hlt with hlt | rfl
  · exact hlt
  · -- an epoch after the first does not start with it
    rcases h.starts y hy with rfl | ⟨t, ht, rfl⟩
    · exact absurd hlt (lt_irrefl _)
    · have hpos := c.positive ht.pos ht.le
      have hfits := c.fits ht.pos ht.le
      rcases hfit with hbelow | hbeyond
      · have := hbelow t ht
        omega
      · have := hbeyond t ht
        omega

/-! ## The tables that show the condition is needed -/

theorem Ordered.start_lt (h : em.Ordered) (hx : x ∈ em.epochStarts) (hy : y ∈ em.epochStarts)
    (hlt : x.1 < y.1) : x.2 < y.2 := by
  obtain ⟨l, l', hl⟩ := append_of_mem hx
  unfold Ordered at h
  rw [hl] at h hy
  obtain ⟨-, hright, hleft⟩ := pairwise_append.mp h
  rcases mem_append.mp hy with hy | hy
  · have := hleft y hy x (.head _)
    omega
  · rcases mem_cons.mp hy with rfl | hy
    · omega
    · exact ((pairwise_cons.mp hright).1 y hy).2

theorem FromChain.add (hL : 1 ≤ L) (h : em.FromChain c L D) (hs : c.Boundary L s) :
    ∃ em', em.scheduleEpochStart s (c.round s) = .ok em' ∧ (toEpoch s L + 1, (c.round s + D) % 2 ^ 64) ∈ em'.epochStarts ∧
      ∀ x ∈ em.epochStarts, x ∈ em'.epochStarts := by
  obtain ⟨em', hem', -⟩ := h.schedule hL hs.pos hs.le
  obtain ⟨hmem, hcases⟩ := scheduleEpochStart_ok hem'
  rw [h.length] at hmem
  have hsched := hmem hs.boundary
  rw [scheduled, startAfter, h.length, h.delay] at hsched
  refine ⟨em', hem', hsched, ?_⟩
  intro x hx
  rcases hcases with rfl | ⟨-, -, rfl⟩
  · exact hx
  · exact mem_insertSorted.mpr (.inr hx)

theorem reach_pair {t : Nat} (hL : 1 ≤ L) (hs : c.Boundary L s) (ht : c.Boundary L t) :
    ∃ em, Reach c L D em ∧ (1, 0) ∈ em.epochStarts ∧ (toEpoch s L + 1, (c.round s + D) % 2 ^ 64) ∈ em.epochStarts ∧
      (toEpoch t L + 1, (c.round t + D) % 2 ^ 64) ∈ em.epochStarts := by
  have hgenesis : Reach c L D _ := .genesis
  obtain ⟨em₁, hem₁, hs₁, hkeep₁⟩ := (reach_fromChain hL hgenesis).add hL hs
  have hreach₁ : Reach c L D em₁ := .schedule hgenesis hs.pos hs.le hem₁
  obtain ⟨em₂, hem₂, ht₂, hkeep₂⟩ := (reach_fromChain hL hreach₁).add hL ht
  exact ⟨em₂, .schedule hreach₁ ht.pos ht.le hem₂, hkeep₂ _ (hkeep₁ _ (.head _)), hkeep₂ _ hs₁, ht₂⟩

/-- If one sum stays below 2^64 and another does not, the later epoch starts earlier. -/
theorem fit_of_le (hD : D < 2 ^ 64) (hL : 1 ≤ L)
    (h : ∀ em, Reach c L D em → ∀ x ∈ em.epochStarts, ∀ y ∈ em.epochStarts, x.1 < y.1 → x.2 ≤ y.2) :
    (∀ s, c.Boundary L s → c.round s + D < 2 ^ 64) ∨ ∀ s, c.Boundary L s → 2 ^ 64 ≤ c.round s + D := by
  by_contra hmixed
  obtain ⟨hbelow, hbeyond⟩ := not_or.mp hmixed
  simp only [not_forall] at hbelow hbeyond
  obtain ⟨t, ht, htge⟩ := hbelow
  obtain ⟨s, hs, hslt⟩ := hbeyond
  obtain ⟨em, hreach, -, hmems, hmemt⟩ := reach_pair (D := D) hL hs ht
  have hst : s < t := by
    rcases Nat.lt_trichotomy s t with hst | rfl | hts
    · exact hst
    · omega
    · have := c.increasing ht.pos hts hs.le
      omega
  have hepoch := (toEpoch_lt hL hs.boundary ht.boundary).mpr hst
  have hle := h em hreach _ hmems _ hmemt (by simpa using hepoch)
  have hfitt := c.fits ht.pos ht.le
  omega

/-- The epoch table of a node that follows a finalized chain, whatever it schedules and however
often it restarts. -/
theorem epoch_table (c : FinalizedChain) (L D : Nat) (hL : 1 ≤ L) (hD : D < 2 ^ 64) : (∀ em, Reach c L D em →
      (∀ s, 1 ≤ s → s ≤ c.height → ∃ em', em.scheduleEpochStart s (c.round s) = .ok em' ∧
        (∀ epoch, getLockedEpoch s L = some epoch → em'.getEpochStart epoch = some ((c.round s + D) % 2 ^ 64)) ∧
        ∀ x ∈ em'.epochStarts, x ∈ em.epochStarts ∨ getLockedEpoch s L = some x.1) ∧
      (∀ p root hc cp known, p.epochManager = em → Process.checkpoint p root hc = .ok cp →
        known.Perm cp.getEpochStarts.entries → ∃ em', newEpochManager L D known = .ok em') ∧
      (∀ round round' epoch, round ≤ round' → em.getEpoch round = some epoch →
        ∃ epoch', em.getEpoch round' = some epoch' ∧ epoch ≤ epoch')) ∧ ((∀ em, Reach c L D em → em.Ordered) ↔
      (∀ s, c.Boundary L s → c.round s + D < 2 ^ 64) ∨ ∀ s, c.Boundary L s → 2 ^ 64 < c.round s + D) ∧
    ((∀ em, Reach c L D em → ∀ round epoch, em.getEpoch round = some epoch ↔ IsGreatest (em.started round) epoch) ↔
      (∀ s, c.Boundary L s → c.round s + D < 2 ^ 64) ∨ ∀ s, c.Boundary L s → 2 ^ 64 ≤ c.round s + D) := by
  refine ⟨?_, ⟨?_, ?_⟩, ⟨?_, ?_⟩⟩
  · intro em hreach
    have hinv := reach_fromChain hL hreach
    refine ⟨?_, ?_, fun round round' epoch hle h => getEpoch_mono hinv.ascending hle h⟩
    · intro s hpos hle
      obtain ⟨em', hem', hinv'⟩ := hinv.schedule hL hpos hle
      obtain ⟨hmem, hcases⟩ := scheduleEpochStart_ok hem'
      rw [scheduled, startAfter, hinv.length, hinv.delay] at hmem
      refine ⟨em', hem', ?_, ?_⟩
      · intro epoch hlocked
        unfold getLockedEpoch at hlocked
        split at hlocked
        · rename_i hb
          cases hlocked
          exact getEpochStart_of_mem hinv'.ascending (hmem hb)
        · cases hlocked
      · intro x hx
        rcases hcases with rfl | ⟨hb, -, rfl⟩
        · exact .inl hx
        · rcases mem_insertSorted.mp hx with rfl | hx
          · right
            rw [hinv.length] at hb
            rw [getLockedEpoch, if_pos hb, scheduled, hinv.length]
          · exact .inl hx
    · intro p root hc cp known hp hcp hknown
      subst hp
      obtain ⟨em', hem', -⟩ := hinv.restart hcp hknown
      exact ⟨em', hem'⟩
  · intro hordered
    have hlt : ∀ em, Reach c L D em → ∀ x ∈ em.epochStarts, ∀ y ∈ em.epochStarts, x.1 < y.1 → x.2 < y.2 :=
      fun em hreach x hx y hy => (hordered em hreach).start_lt hx hy
    rcases fit_of_le hD hL (fun em hreach x hx y hy h => (hlt em hreach x hx y hy h).le) with hbelow | hbeyond
    · exact .inl hbelow
    · right
      intro s hs
      obtain ⟨em, hreach, hfirst, hmem, -⟩ := reach_pair (D := D) hL hs hs
      have := hlt em hreach _ hfirst _ hmem (by simp [toEpoch])
      have := hbeyond s hs
      have := c.fits hs.pos hs.le
      omega
  · intro hfit em hreach
    exact (reach_fromChain hL hreach).ordered hD hL hfit
  · intro hgreat
    refine fit_of_le hD hL ?_
    intro em hreach x hx y hy hlt
    exact le_of_isGreatest (reach_fromChain hL hreach).ascending (hgreat em hreach) hx hy hlt
  · intro hfit em hreach round epoch
    exact getEpoch_isGreatest ((reach_fromChain hL hreach).weaklyOrdered hD hL hfit)

def threeRounds : FinalizedChain where
  height := 3
  round := id
  increasing := fun _ h _ => h
  positive := fun h _ => h
  fits := fun {s} _ h => by
    show s < 2 ^ 64
    omega
  epochsFit := by decide

theorem epoch_table_threeRounds : (∀ em, Reach threeRounds 2 10 em → em.Ordered) ∧
    ∃ em, Reach threeRounds 2 10 em ∧ em.epochStarts = [(1, 0), (2, 11), (3, 13)] := by
  refine ⟨(epoch_table threeRounds 2 10 (by decide) (by decide)).2.1.mpr (.inl ?_), ?_⟩
  · intro s hs
    have hle : s ≤ 3 := hs.le
    show s + 10 < 2 ^ 64
    omega
  · exact ⟨⟨2, 10, [(1, 0), (2, 11), (3, 13)]⟩, .schedule (.schedule .genesis (show 1 ≤ 1 by decide) (by decide) rfl)
      (show 1 ≤ 3 by decide) (by decide) rfl, rfl⟩

/-- With two blocks an epoch and the delay 2^64 - 1 the block of round 1 starts epoch 2 in round 0,
with epoch 1. With the delay 2^64 - 3 the first boundary
block does not wrap and the next one does: in round 0 the epoch is 1, though epoch 3 has started. -/
theorem epoch_two_starts_at_genesis :
    (∃ em, Reach threeRounds 2 (2 ^ 64 - 1) em ∧ em.epochStarts = [(1, 0), (2, 0)] ∧ ¬em.Ordered) ∧
    ∃ em, Reach threeRounds 2 (2 ^ 64 - 3) em ∧ em.epochStarts = [(1, 0), (2, 2 ^ 64 - 2), (3, 0)] ∧
      ¬em.Ordered ∧ em.getEpoch 0 = some 1 ∧ 3 ∈ em.started 0 := by
  refine ⟨⟨⟨2, 2 ^ 64 - 1, [(1, 0), (2, 0)]⟩, .schedule .genesis (show 1 ≤ 1 by decide) (by decide) rfl, rfl, ?_⟩,
    ⟨⟨2, 2 ^ 64 - 3, [(1, 0), (2, 2 ^ 64 - 2), (3, 0)]⟩, .schedule (.schedule .genesis (show 1 ≤ 1 by decide) (by decide) rfl)
      (show 1 ≤ 3 by decide) (by decide) rfl, rfl, ?_, rfl, ?_⟩⟩
  · intro hordered
    have := hordered.start_lt (x := (1, 0)) (y := (2, 0)) (by simp) (by simp) (by decide)
    omega
  · intro hordered
    have := hordered.start_lt (x := (1, 0)) (y := (3, 0)) (by simp) (by simp) (by decide)
    omega
  · exact ⟨(3, 0), by simp, rfl, le_refl 0⟩

end EpochManager

end MonadBft
