/-
  MonadBft.Bridge.ValSet — the validator sets handed to consensus (`bridge.ValSet`).

  The notification of a boundary block is handled on the node loop, with the application's
  set as it is at that moment; the commit worker changes that set block by block on its
  own goroutine. The set is that of the boundary block if the worker has come to exactly
  that block when the notification is handled (`Settled`).

  Proved: in every run where it has, the set for an epoch is the one after the finalized
  chain up to the boundary block, and nodes whose finalized chains are on one line hand
  over the same sets (`epoch_sets_agree`). A notification handled before the worker has
  come to the block hands over the set before its updates (`early_notice_differs`).
-/
import MonadBft.Bridge.History
import MonadBft.Bridge.Refinement

namespace MonadBft.Bridge

open Lib Chain

variable {σ : Type} {e : Setup σ} {n epoch : Nat} {l l' : Ledger σ}

/-! ## The sets of the epochs -/

/-- The worker is between the two halves of a commit. -/
def Worker.applying : Worker → Bool
  | .apply _ _ => true
  | _ => false

/-- When the notification of a boundary block is handled, the commit worker has recorded exactly
the blocks up to it and applied their updates. -/
def Settled (n : Nat) (l : Ledger σ) : Action → Prop
  | .notify => ∀ seq ∈ l.notifications.head?, isBoundaryBlock seq n = true →
      l.app.height = seq ∧ l.worker.applying = false
  | _ => True

instance (l : Ledger σ) (a : Action) : Decidable (Settled n l a) := by
  unfold Settled
  split <;> infer_instance

/-- A calm run whose notifications of boundary blocks are handled when the worker is there. -/
abbrev SettledRun (e : Setup σ) (n : Nat) : Ledger σ → Prop :=
  Ledger.Runs e n (fun l a => Calm l a ∧ Settled n l a) (Ledger.init e)

/-- The set for `epoch` is the one after the chain up to its boundary block. -/
def IsEpochSet (e : Setup σ) (n : Nat) (chain : List Block) (epoch : Nat) (data : List ValidatorData) : Prop :=
  ∃ c vs, c <:+ chain ∧ isBoundaryBlock c.length n = true ∧ epoch = toEpoch c.length n + 1 ∧
    setAfter e c = some vs ∧ validatorSetData e.keys vs = .ok data

theorem IsEpochSet.mono {chain chain' : List Block} {data : List ValidatorData} (hchain : chain <:+ chain')
    (h : IsEpochSet e n chain epoch data) : IsEpochSet e n chain' epoch data := by
  obtain ⟨c, vs, hc, hrest⟩ := h
  exact ⟨c, vs, hc.trans hchain, hrest⟩

theorem boundary_unique {s t : Nat} (hs : isBoundaryBlock s n = true) (ht : isBoundaryBlock t n = true)
    (h : toEpoch s n = toEpoch t n) : s = t := by
  have hs' : s % n = n - 1 := by simpa [isBoundaryBlock] using hs
  have ht' : t % n = n - 1 := by simpa [isBoundaryBlock] using ht
  have hdiv : s / n = t / n := by simpa [toEpoch] using h
  rw [← Nat.div_add_mod s n, ← Nat.div_add_mod t n, hs', ht', hdiv]

theorem IsEpochSet.unique {chain : List Block} {data data' : List ValidatorData} (h : IsEpochSet e n chain epoch data)
    (h' : IsEpochSet e n chain epoch data') : data = data' := by
  obtain ⟨c, vs, hc, hb, hepoch, hset, hdata⟩ := h
  obtain ⟨c', vs', hc', hb', hepoch', hset', hdata'⟩ := h'
  have hlen : c.length = c'.length := boundary_unique hb hb' (by omega)
  obtain rfl := suffix_eq hc hc' hlen
  rw [hset] at hset'
  cases hset'
  rw [hdata] at hdata'
  exact Except.ok.inj hdata'

/-- A set handed over when the worker is at the block is that of the epoch. -/
theorem Inv.notify_emits {c v : List Block} (inv : Inv e l c v) (hsettled : Settled n l .notify)
    (h : l.notify e n = some l') : l'.emitted = l.emitted ∨
      ∃ epoch data, l'.emitted = l.emitted ++ [(epoch, data)] ∧ IsEpochSet e n l.finalized epoch data := by
  unfold Ledger.notify at h
  split at h
  · cases h
  rename_i seq rest hnotes
  split at h
  · cases h
    exact .inl rfl
  rename_i hboundary
  rw [Bool.not_eq_true', Bool.not_eq_false] at hboundary
  split at h
  · cases h
  rename_i data hdata
  cases h
  obtain ⟨hheight, happlied⟩ := hsettled seq (by rw [hnotes]; rfl) hboundary
  have hlen : c.length = seq := inv.books.height.symm.trans hheight
  have hset : setAfter e c = some l.app.appSet := by
    have happ : l.worker.applied c = c := by
      cases hw : l.worker with
      | apply b en =>
        rw [hw] at happlied
        cases happlied
      | _ => rfl
    rw [inv.books.current, ← inv.books.last, happ]
  refine .inr ⟨_, data, rfl, c, l.app.appSet, inv.recorded_suffix, ?_, ?_, hset, hdata⟩
  · rw [hlen]
    exact hboundary
  · rw [hlen]

theorem SettledRun.emitted {p : Nat × List ValidatorData} (h : SettledRun e n l) (hp : p ∈ l.emitted) :
    IsEpochSet e n l.finalized p.1 p.2 := by
  induction h with
  | start => cases hp
  | @step l l' a hrun hok hstep ih =>
    obtain ⟨hfin, hem⟩ := Ledger.step_history hstep
    rcases hem with rfl | hem
    · obtain ⟨c, v, inv⟩ := (hrun.mono fun _ _ hok => hok.1).inv
      rcases inv.notify_emits hok.2 hstep with hem | ⟨epoch, data, hem, hset⟩
      · exact (ih (hem ▸ hp)).mono hfin
      · rw [hem, List.mem_append, List.mem_singleton] at hp
        rcases hp with hp | rfl
        · exact (ih hp).mono hfin
        · exact hset.mono hfin
    · exact (ih (hem ▸ hp)).mono hfin

/-! ## Two nodes -/

/-- The same chain on a node that keeps another number of heights. -/
def Setup.withRetain (e : Setup σ) (retain : Nat) (h : retain = 0 ∨ 128 ≤ retain) : Setup σ :=
  { e with retain := retain, retain_ok := h }

theorem run_withRetain {retain : Nat} {h : retain = 0 ∨ 128 ≤ retain} (c : List Block) :
    run (e.withRetain retain h) c = run e c := by
  induction c with
  | nil => rfl
  | cons b c ih =>
    rw [run, ih]
    rfl

/-- The validator set of an epoch is a function of the finalized chain. In every run where
notifications of boundary blocks are handled when the worker is there, each set handed over is
that after the chain up to the boundary block; and two such nodes, which may keep different
numbers of heights, hand over the same set for an epoch if their chains are on one line. -/
theorem epoch_sets_agree (h : SettledRun e n l) : (∀ p ∈ l.emitted, IsEpochSet e n l.finalized p.1 p.2) ∧
    ∀ retain hretain (l₂ : Ledger σ), SettledRun (e.withRetain retain hretain) n l₂ → Alive l.finalized l₂.finalized →
      ∀ p ∈ l.emitted, ∀ q ∈ l₂.emitted, p.1 = q.1 → p.2 = q.2 := by
  refine ⟨fun p hp => h.emitted hp, fun retain hretain l₂ h₂ halive p hp q hq hepoch => ?_⟩
  have hset := h.emitted hp
  have hset₂ : IsEpochSet e n l₂.finalized q.1 q.2 := by
    obtain ⟨c, vs, hc, hb, hep, hset, hdata⟩ := h₂.emitted hq
    refine ⟨c, vs, hc, hb, hep, ?_, hdata⟩
    rwa [setAfter, run_withRetain] at hset
  rw [← hepoch] at hset₂
  rcases halive with hle | hle
  · exact (hset.mono hle).unique hset₂
  · exact hset.unique (hset₂.mono hle)

namespace Notice

def execute : List Action := [.take, .query, .direct, .record, .apply [], .drainEnd]

/-- The first block, then the boundary block is finalized. -/
def toBoundary : List Action :=
  [.finalize Scenario.block1 [], .drainEnd, .notify] ++ execute ++ [.finalize Scenario.block2 [], .drainEnd]

/-- The notification is handled before the worker takes the block, and after it is done. -/
def early : List Action := toBoundary ++ [.notify]

def late : List Action := toBoundary ++ execute ++ [.notify]

def emittedBy (actions : List Action) : Option (List Block × List (Nat × List ValidatorData)) :=
  (Ledger.runAll Window.setup 3 actions.reverse).map fun l => (l.finalized, l.emitted)

end Notice

theorem epoch_sets_agree_late : ∃ l, Ledger.runAll Window.setup 3 Notice.late.reverse = some l ∧
    l.emitted = [(2, [⟨0, 1⟩, ⟨1, 1⟩, ⟨2, 1⟩])] ∧ ∀ p ∈ l.emitted, IsEpochSet Window.setup 3 l.finalized p.1 p.2 := by
  have hsome : (Ledger.runAll Window.setup 3 Notice.late.reverse).map (·.emitted) =
      some [(2, [⟨0, 1⟩, ⟨1, 1⟩, ⟨2, 1⟩])] := by decide +kernel
  obtain ⟨l, hl, hem⟩ := Option.map_eq_some_iff.mp hsome
  exact ⟨l, hl, hem, (epoch_sets_agree (.of_runFrom (by decide +kernel) hl)).1⟩

/-- Two nodes with the same finalized blocks hand over different sets for epoch 2: one handles
the notification of its boundary block before its worker has taken that block. -/
theorem early_notice_differs : Notice.emittedBy Notice.early =
      some ([Scenario.block2, Scenario.block1], [(2, [⟨0, 1⟩, ⟨1, 1⟩])]) ∧ Notice.emittedBy Notice.late =
      some ([Scenario.block2, Scenario.block1], [(2, [⟨0, 1⟩, ⟨1, 1⟩, ⟨2, 1⟩])]) := by
  constructor <;> decide +kernel

end MonadBft.Bridge
