/-
  MonadBft.Bridge.SetHistory — the validator sets of past heights (`App.ValSetAt`).

  The set after a height is in the in-memory window until `recordCommit` trims it, and in the
  change log of the store if the height changed it. `recordCommit` trims the height
  `tip - retain`; `ValSetAt` asks the log only below that height, and answers the trimmed
  height itself with the latest set.

  Proved: after any commits and with any window, `ValSetAt` gives the genesis set folded with
  the updates below the height, except at the height just trimmed, where it does if the set has
  not changed since (`valSetAt_iff`).
-/
import MonadBft.Bridge.Refinement

namespace MonadBft.Bridge

variable {σ : Type} (e : Setup σ) (retain : Nat)

/-! ## Commits with a window of any size -/

/-- The writes of `recordCommitted` for the next height; `none` is the panic on a refused update. -/
def App.commitNext (a : App σ) (en : ResultEntry) : Option (App σ) :=
  (a.recordCommit retain (a.height + 1) en).applyUpdates e (a.height + 1) en.response.updates

def commits (a : App σ) : List ResultEntry → Option (App σ)
  | [] => some a
  | en :: ens => (commits a ens).bind (·.commitNext e retain en)

def foldSets : List ResultEntry → Option CmtValidatorSet
  | [] => some e.genesisSet
  | en :: ens => (foldSets ens).bind (e.abci.updateWithChangeSet · en.response.updates)

def upTo (h : Nat) (ens : List ResultEntry) : List ResultEntry := ens.drop (ens.length - h)

variable {e retain} {a a' : App σ} {en : ResultEntry} {ens : List ResultEntry} {h : Nat}

theorem upTo_cons (hh : h ≤ ens.length) : upTo h (en :: ens) = upTo h ens := by
  rw [upTo, List.length_cons, Nat.succ_sub hh]
  rfl

theorem upTo_all (hh : ens.length ≤ h) : upTo h ens = ens := by
  rw [upTo, Nat.sub_eq_zero_of_le hh, List.drop_zero]

theorem upTo_zero : upTo 0 ens = [] := List.drop_length

structure Current (e : Setup σ) (a : App σ) (ens : List ResultEntry) : Prop where
  current : foldSets e ens = some a.appSet
  last : a.lastValSet = a.appSet

theorem Current.commitNext (ha : Current e a ens) (h : a.commitNext e retain en = some a') :
    Current e a' (en :: ens) := by
  unfold App.commitNext at h
  obtain ⟨vs, hvs, rfl⟩ := App.applyUpdates_some h ha.last
  refine ⟨?_, rfl⟩
  rw [foldSets, ha.current]
  exact hvs

theorem Current.commits {again : List ResultEntry} (ha : Current e a ens)
    (h : Bridge.commits e retain a again = some a') : Current e a' (again ++ ens) := by
  induction again generalizing a' with
  | nil =>
    cases h
    exact ha
  | cons en again ih =>
    obtain ⟨a₁, h₁, h⟩ := Option.bind_eq_some_iff.mp h
    exact (ih h₁).commitNext h

/-- Where the set after a height is found: in memory above the height just trimmed, and in the log.
The results are in the same window. -/
structure Remembered (e : Setup σ) (retain : Nat) (a : App σ) (ens : List ResultEntry) : Prop
    extends Current e a ens where
  height : a.height = ens.length
  window : ∀ h ≤ ens.length, a.valSets h =
    if h = 0 ∨ retain = 0 ∨ ens.length < h + retain then foldSets e (upTo h ens) else none
  log : ∀ h, (a.valSetBefore h).or (some e.genesisSet) = foldSets e (upTo h ens)
  rows : ∀ h, 0 < h → h ≤ ens.length → retain = 0 ∨ ens.length < h + retain →
    ∃ en, a.results h = some en ∧ upTo h ens = en :: upTo (h - 1) ens

theorem Remembered.init : Remembered e retain (App.init e) [] where
  current := rfl
  last := rfl
  height := rfl
  window h hh := by
    obtain rfl : h = 0 := by simpa using hh
    rfl
  log h := by
    rw [upTo_all (Nat.zero_le h)]
    rfl
  rows h hpos hh := absurd hpos (Nat.not_lt.mpr hh)

theorem Remembered.commitNext (ha : Remembered e retain a ens) (h : a.commitNext e retain en = some a') :
    Remembered e retain a' (en :: ens) := by
  have hcur := ha.toCurrent.commitNext h
  have hn := ha.height
  unfold App.commitNext at h
  obtain ⟨vs, hvs, rfl⟩ := App.applyUpdates_some h ha.last
  refine ⟨hcur, congrArg (· + 1) hn, fun k hk => ?_, fun k => ?_, fun k hpos hk hin => ?_⟩
  · rw [List.length_cons] at hk ⊢
    simp only [App.recordCommit, HeightMap.set, HeightMap.keep, hn]
    by_cases htop : k = ens.length + 1
    · rw [if_pos htop, if_pos (by omega), upTo_all (by simp [htop]), hcur.current]
    rw [if_neg htop, upTo_cons (by omega), ha.window k (by omega)]
    -- the height trimmed now is the one that leaves the window
    simp only [Bool.not_eq_true', Bool.and_eq_false_imp, Bool.and_eq_true, decide_eq_true_eq, beq_eq_false_iff_ne]
    split_ifs <;> first | rfl | omega
  · have hlog := ha.log k
    simp only [App.valSetBefore, App.recordCommit, hn] at hlog ⊢
    by_cases hk : k ≤ ens.length
    · rw [upTo_cons hk, ← hlog]
      split_ifs
      · rw [List.find?_cons_of_neg (by simp; omega)]
      · rfl
    rw [upTo_all (by simp; omega)]
    split_ifs with hne
    · rw [List.find?_cons_of_pos (by simp; omega), hcur.current]
      rfl
    · rw [hlog, upTo_all (by omega), foldSets, not_not.mp hne, ha.current]
      exact (e.abci.update_nil _).symm
  · rw [List.length_cons] at hk hin
    simp only [App.recordCommit, HeightMap.set, HeightMap.keep, hn]
    rw [if_pos (by simp; omega)]
    by_cases htop : k = ens.length + 1
    · exact ⟨en, if_pos htop, by simp [upTo, htop]⟩
    · rw [if_neg htop, upTo_cons (by omega), upTo_cons (by omega)]
      exact ha.rows k hpos (by omega) (by omega)

theorem commits_remembered (h : commits e retain (App.init e) ens = some a) : Remembered e retain a ens := by
  induction ens generalizing a with
  | nil =>
    cases h
    exact .init
  | cons en ens ih =>
    obtain ⟨a₀, ha₀, h⟩ := Option.bind_eq_some_iff.mp h
    exact (ih ha₀).commitNext h

/-- The set that validates a height is the genesis set folded with the updates below it, in or out
of the window, except at the height that the last commit has trimmed: there the latest set is
given. -/
theorem valSetAt_iff (hcommits : commits e retain (App.init e) ens = some a) (hpos : 1 ≤ h) (hh : h ≤ a.height + 1) :
    a.valSetAt retain h = foldSets e (upTo (h - 1) ens) ↔
      (1 < h → 0 < retain → h - 1 + retain = a.height → foldSets e (upTo (h - 1) ens) = foldSets e ens) := by
  have ha := commits_remembered hcommits
  have hgen : a.valSets 0 = some e.genesisSet := by
    rw [ha.window 0 (Nat.zero_le _), if_pos (.inl rfl), upTo_zero]
    rfl
  obtain ⟨vs, hvs⟩ : ∃ vs, foldSets e (upTo (h - 1) ens) = some vs := by
    rw [← ha.log]
    cases a.valSetBefore (h - 1) <;> exact ⟨_, rfl⟩
  rw [App.valSetAt]
  rw [ha.height] at hh ⊢
  by_cases h1 : h ≤ 1
  · obtain rfl : h = 1 := by omega
    rw [if_pos h1, hgen, upTo_zero]
    exact iff_of_true rfl (by omega)
  rw [if_neg h1, ha.window (h - 1) (by omega), hgen, ha.log, hvs]
  by_cases hin : h - 1 = 0 ∨ retain = 0 ∨ ens.length < h - 1 + retain
  · rw [if_pos hin]
    exact iff_of_true rfl (by omega)
  rw [if_neg hin]
  dsimp only
  split_ifs with hbelow
  · exact iff_of_true rfl (by omega)
  · rw [ha.last, ← ha.current]
    exact ⟨fun heq _ _ _ => heq.symm, fun heq => (heq (by omega) (by omega) (by omega)).symm⟩

namespace Window

def quiet : ResultEntry := ⟨GENESIS_BLOCK_ID, finalizeRequest setup Scenario.block1 none none, ⟨0, []⟩⟩

def joins : ResultEntry := { quiet with response := ⟨0, [⟨12, 1⟩]⟩ }

end Window

theorem valSetAt_iff_two : ∃ a, commits Window.setup 1 (App.init Window.setup) [Window.joins, Window.quiet] = some a ∧
    a.valSetAt 1 3 = some ⟨[⟨10, 1⟩, ⟨11, 1⟩, ⟨12, 1⟩]⟩ := by
  obtain ⟨a, ha⟩ : ∃ a, commits Window.setup 1 (App.init Window.setup) [Window.joins, Window.quiet] = some a := ⟨_, rfl⟩
  have hheight : a.height = 2 := (commits_remembered ha).height
  exact ⟨a, ha, (valSetAt_iff (h := 3) ha (by decide) (by omega)).mpr (by omega)⟩

/-- With a window of one, height 1 is trimmed by the commit of height 2, and the set that validates
height 2 is given as the one after it. -/
theorem trimmed_height_gets_latest_set :
    (commits Window.setup 1 (App.init Window.setup) [Window.joins, Window.quiet]).map (·.valSetAt 1 2) =
      some (some ⟨[⟨10, 1⟩, ⟨11, 1⟩, ⟨12, 1⟩]⟩) ∧
    foldSets Window.setup (upTo 1 [Window.joins, Window.quiet]) = some ⟨[⟨10, 1⟩, ⟨11, 1⟩]⟩ := by
  decide

end MonadBft.Bridge
