/-
  MonadBft.Bridge.Invariant — the store along one lineage of blocks.

  The store runs along a lineage of blocks that extends what is decided. What a finished job
  leaves in the index, what the canonical side records and the sets both read are those of
  executing that lineage from genesis (`Inv`). A job is built from readings made at several
  moments; it is right for the lineage its parent stands for as long as that lineage is not
  contradicted by a finalized block (`Good`, `Tracks`), and a contradicted lineage is never
  the store's again.

  There is one hole. Between `recordCommit`, which raises the committed height, and
  `applyUpdates`, which stores the set after it, a job that runs on that height resolves the
  set before the updates. `Unread` excludes it.

  Proved: the steps of the node loop, of a drain and of the spec worker keep the invariant,
  the last one if it does not read in that window.
-/
import MonadBft.Bridge.Ledger

namespace MonadBft.Bridge

open Lib Chain SpecApp List

variable {σ : Type} {e : Setup σ}

/-! ## The invariant -/

/-- The result of executing a chain up to height `h`. -/
def Executed (e : Setup σ) (c : List Block) (h : Nat) (en : ResultEntry) : Prop :=
  ∃ b c', b :: c' <:+ c ∧ c'.length + 1 = h ∧ en.blockID = b.getId ∧
    Chain.record e (b :: c') = some (en.request, en.response)

/-- `r` is on one line with `d`. -/
def Alive (r d : List Block) : Prop := r <:+ d ∨ d <:+ r

/-- The block the commit worker has taken and not recorded. -/
def Worker.inHand : Worker → List Block
  | .query b _ | .direct b | .record b _ => [b]
  | _ => []

/-- What can no longer be rewound, when `c` is recorded. -/
def Worker.decided (c : List Block) : Worker → List Block
  | .direct b | .record b _ => b :: c
  | _ => c

/-- What the store has executed: a block to be executed directly is in the lineage `v` before it
is in the store. -/
def Worker.stored (v : List Block) : Worker → List Block
  | .direct _ => v.tail
  | _ => v

/-- What of the recorded chain `c` has its updates applied. -/
def Worker.applied (c : List Block) : Worker → List Block
  | .apply _ _ => c.tail
  | _ => c

/-- The store and the spec index along the lineage `v`, with `d` decided and `p` stored. -/
structure Lineage (e : Setup σ) (store : List σ) (s : SpecApp) (d v p : List Block) : Prop where
  linked : Linked v
  decided : d <:+ v
  store_eq : store = states e p
  runs : (run e p).isSome
  tip : s.tip = v.length
  tipID : s.tipID = headId v
  bySeq : ∀ h en, s.bySeq.get h = some en → d.length < h ∧ Executed e v h en
  known : ∀ h, d.length < h → h ≤ v.length → s.bySeq.contains h = true
  sets : ∀ h vs, s.valSets.get h = some vs → d.length < h ∧ ∃ c, c <:+ v ∧ c.length = h ∧ setAfter e c = some vs

/-- The bookkeeping of the recorded chain `c`, of which `a` is applied. -/
structure Books (e : Setup σ) (app : App σ) (c a : List Block) : Prop where
  height : app.height = c.length
  sets : ∀ d, d <:+ a → d = [] ∨ c.length ≤ d.length + 1 → app.valSets d.length = setAfter e d
  unset : ∀ h, a.length < h → app.valSets h = none
  last : setAfter e a = some app.lastValSet
  current : app.appSet = app.lastValSet
  results : ∀ h en, app.results h = some en → Executed e c h en
  kept : ∀ h, 0 < h → h ≤ c.length → e.retain = 0 ∨ c.length < h + e.retain → (app.results h).isSome

/-- What the commit worker holds. -/
def Worker.Holds (e : Setup σ) (c v : List Block) : Worker → Prop
  | .direct b => v = b :: c
  | .record b en => en.blockID = b.getId ∧ Chain.record e (b :: c) = some (en.request, en.response)
  | .apply b en => en.blockID = b.getId ∧ ∃ c', c = b :: c' ∧ Chain.record e (b :: c') = some (en.request, en.response)
  | _ => True

structure Good (e : Setup σ) (d : List Block) (j : SpecJob) : Prop where
  height : j.req.height = j.block.getSeqNum
  request : ∀ r o, Linked r → headId r = j.block.getParentId → Alive r d → run e r = some o →
    j.req = request e o j.block

/-- If the parent of `b` is still possible, the lineage `v` leads through it. -/
def Tracks (v d : List Block) (b : Block) : Prop :=
  ∀ r, Linked r → headId r = b.getParentId → Alive r d → r <:+ v ∧ r.length + 1 = b.getSeqNum

/-- What a drain has found out about its block, when `c` is recorded. -/
def DrainOk (e : Setup σ) (c v d : List Block) : Reading → Prop
  | .next => True
  | .missed b => c.length < b.getSeqNum
  | .chained b => c.length < b.getSeqNum ∧ Tracks v d b
  | .votes b votesSet => c.length < b.getSeqNum ∧ Tracks v d b ∧
      ∀ vs, votesSet = some vs → ∀ r, Linked r → headId r = b.getParentId → Alive r d → setAfter e r.tail = some vs

/-- The invariant: `c` is the recorded chain and `v` the lineage of the store. -/
structure Inv (e : Setup σ) (l : Ledger σ) (c v : List Block) : Prop where
  lineage : Lineage e l.app.store l.spec (l.worker.decided c) v (l.worker.stored v)
  books : Books e l.app c (l.worker.applied c)
  chain : Linked l.finalized
  queue : l.finalized = l.commitQ.reverse ++ (l.worker.inHand ++ c)
  marks : ∀ h, (l.committed h).isSome ↔ 0 < h ∧ h ≤ l.finalized.length
  holds : l.worker.Holds e c v
  jobs : ∀ j ∈ l.spec.jobs, Good e (l.worker.decided c) j
  drain : ∀ dr, l.drain = some dr → DrainOk e c v (l.worker.decided c) dr.reading ∧ ∀ b en, l.worker ≠ .apply b en

/-! ## Chains on one line -/

variable {d d' c v v' a : List Block} {b : Block} {s : SpecApp} {en : ResultEntry} {j : SpecJob} {h : Nat} (w : Worker)

theorem Alive.of_suffix {r : List Block} (hd : d <:+ d') (h : Alive r d') : Alive r d := by
  rcases h with h | h
  · rcases Nat.le_total r.length d.length with hle | hle
    · exact .inl (suffix_of_suffix_length_le h hd hle)
    · exact .inr (suffix_of_suffix_length_le hd h hle)
  · exact .inr (hd.trans h)

theorem suffix_eq {b : List Block} (ha : a <:+ c) (hb : b <:+ c) (hlen : a.length = b.length) : a = b :=
  (suffix_of_suffix_length_le ha hb hlen.le).eq_of_length hlen

theorem Executed.mono (hcd : c <:+ d) (hex : Executed e c h en) : Executed e d h en := by
  obtain ⟨b, c', hsuf, hrest⟩ := hex
  exact ⟨b, c', hsuf.trans hcd, hrest⟩

theorem Executed.block_eq (hex : Executed e v (c.length + 1) en) (hc : b :: c <:+ v) :
    en.blockID = b.getId ∧ Chain.record e (b :: c) = some (en.request, en.response) := by
  obtain ⟨b', c', hsuf, hlen, hid, hrec⟩ := hex
  have heq : b' :: c' = b :: c := suffix_eq hsuf hc (by simpa using hlen)
  obtain ⟨rfl, rfl⟩ : b' = b ∧ c' = c := by simpa using heq
  exact ⟨hid, hrec⟩

theorem Good.of_suffix (hd : d <:+ d') (h : Good e d j) : Good e d' j :=
  ⟨h.height, fun r o hr hid halive hrun => h.request r o hr hid (halive.of_suffix hd) hrun⟩

theorem Tracks.of_suffix (hd : d <:+ d') (hv : ∀ r, Alive r d' → r <:+ v → r <:+ v')
    (h : Tracks v d b) : Tracks v' d' b := by
  intro r hr hid halive
  obtain ⟨hsuf, hlen⟩ := h r hr hid (halive.of_suffix hd)
  exact ⟨hv r halive hsuf, hlen⟩

theorem DrainOk.of_suffix {rd : Reading} (hd : d <:+ d') (hv : ∀ r, Alive r d' → r <:+ v → r <:+ v')
    (h : DrainOk e c v d rd) : DrainOk e c v' d' rd := by
  cases rd with
  | next => trivial
  | missed b => exact h
  | chained b => exact ⟨h.1, h.2.of_suffix hd hv⟩
  | votes b votesSet =>
    refine ⟨h.1, h.2.1.of_suffix hd hv, fun vs hvs r hr hid halive => ?_⟩
    exact h.2.2 vs hvs r hr hid (halive.of_suffix hd)

theorem setAfter_cons_isSome (h : (setAfter e (b :: c)).isSome) : (setAfter e c).isSome := by
  cases hrun : run e (b :: c) with
  | none => simp [setAfter, hrun] at h
  | some o =>
    obtain ⟨o', ho', hstep⟩ := run_cons hrun
    obtain ⟨r, -, rfl⟩ := Option.map_eq_some_iff.mp hstep
    rw [setAfter_of_run hrun] at h
    rw [setAfter_of_run ho']
    cases hset : o'.setAfter with
    | none => simp [applyValUpdates, hset] at h
    | some vs => rfl

theorem setAfter_suffix (h : c <:+ d) (hd : (setAfter e d).isSome) : (setAfter e c).isSome := by
  induction d with
  | nil =>
    rw [suffix_nil.mp h]
    exact hd
  | cons b d ih =>
    rcases suffix_cons_iff.mp h with rfl | h
    · exact hd
    · exact ih h (setAfter_cons_isSome hd)

theorem setAfter_of_record {q : Request} {r : Response} (h : Chain.record e (b :: c) = some (q, r)) :
    setAfter e (b :: c) = applyValUpdates e (setAfter e c) r.updates := by
  obtain ⟨o, ho, hlast⟩ := Option.bind_eq_some_iff.mp h
  obtain ⟨o', ho', hstep⟩ := run_cons ho
  obtain ⟨res, -, rfl⟩ := Option.map_eq_some_iff.mp hstep
  simp only [Option.some.injEq, Prod.mk.injEq] at hlast
  rw [setAfter_of_run ho, setAfter_of_run ho', ← hlast.2]

/-! ## What a reading of a set returns -/

theorem Worker.suffix_decided (c : List Block) : c <:+ w.decided c := by
  cases w with
  | direct b | record b en => exact suffix_cons b c
  | _ => exact suffix_rfl

theorem Worker.applied_suffix (c : List Block) : w.applied c <:+ c := by
  cases w with
  | apply b en => exact tail_suffix c
  | _ => exact suffix_rfl

theorem Books.valSetAfter_eq {app : App σ} (hb : Books e app c a) (hac : a <:+ c) (hd : d <:+ a)
    (hrecent : c.length ≤ d.length + 1) : s.valSetAfter e app d.length = setAfter e d := by
  have hle : d.length ≤ app.height := by
    rw [hb.height]
    exact (hd.trans hac).length_le
  obtain ⟨vs, hvs⟩ := Option.isSome_iff_exists.mp (setAfter_suffix hd (by rw [hb.last]; rfl))
  rw [valSetAfter, if_pos hle, App.valSetAt]
  by_cases hone : d.length + 1 ≤ 1
  · obtain rfl : d = [] := length_eq_zero_iff.mp (by omega)
    exact hb.sets [] nil_suffix (.inl rfl)
  · rw [if_neg hone, Nat.add_sub_cancel, hb.sets d hd (.inr hrecent), hvs]

/-- A step does not read the set of a height that is recorded and whose updates are not applied. -/
def Unread (l : Ledger σ) (h : Nat) : Prop :=
  match l.worker with
  | .apply _ en => en.response.updates = [] ∨ h ≠ l.app.height
  | _ => True

/-- Every reading of a set along the lineage is that of the lineage. -/
theorem Inv.valSetAfter_some {l : Ledger σ} (inv : Inv e l c v)
    (hunread : Unread l d.length) (hd : d <:+ v) (hrecent : c.length ≤ d.length + 1) {vs : CmtValidatorSet}
    (h : l.spec.valSetAfter e l.app d.length = some vs) : setAfter e d = some vs := by
  have hcv : c <:+ v := (l.worker.suffix_decided c).trans inv.lineage.decided
  by_cases hle : d.length ≤ c.length
  · have hdc : d <:+ c := suffix_of_suffix_length_le hd hcv hle
    by_cases hda : d <:+ l.worker.applied c
    · rw [← inv.books.valSetAfter_eq (l.worker.applied_suffix c) hda hrecent, h]
    · -- only the newest recorded block is not applied, and it has no updates
      have hbooks := inv.books
      have hholds := inv.holds
      unfold Unread at hunread
      cases hw : l.worker with
      | apply b en =>
        rw [hw] at hda hbooks hholds hunread
        obtain ⟨-, c', rfl, hrec⟩ := hholds
        have hbooks' : Books e l.app (b :: c') c' := hbooks
        have heq : d.length = (b :: c').length := by
          rcases Nat.lt_or_ge d.length (b :: c').length with hlt | hge
          · exact absurd (suffix_of_suffix_length_le hdc (suffix_cons b c')
              (by simpa [Nat.lt_succ_iff] using hlt)) hda
          · omega
        obtain rfl : d = b :: c' := hdc.eq_of_length heq
        have hnil : en.response.updates = [] := by
          rcases hunread with hnil | hne
          · exact hnil
          · exact absurd hbooks'.height.symm hne
        rw [setAfter_of_record hrec, hnil, hbooks'.last]
        have hunset := hbooks'.unset (c'.length + 1) (Nat.lt_succ_self _)
        have hlast : l.spec.valSetAfter e l.app (b :: c').length = some l.app.lastValSet := by
          rw [valSetAfter, if_pos hbooks'.height.ge, App.valSetAt, if_neg (by simp)]
          rw [show (b :: c').length + 1 - 1 = c'.length + 1 from rfl, hunset]
          rw [if_neg]
          rw [hbooks'.height, length_cons]
          omega
        rw [hlast] at h
        simpa [applyValUpdates, e.abci.update_nil] using h
      | idle | query b p | direct b | record b en => exact absurd hdc (by simpa [hw, Worker.applied] using hda)
  · rw [valSetAfter, if_neg (by rw [inv.books.height]; exact hle)] at h
    obtain ⟨-, c', hc', hlen, hset⟩ := inv.lineage.sets d.length vs h
    rwa [suffix_eq hd hc' hlen.symm]

/-! ## The node loop -/

section Steps

variable {l l' : Ledger σ} {c v : List Block}

theorem Ledger.not_locked (h : ¬ l.locked = true) : l.drain = none ∧ ∀ b en, l.worker ≠ .apply b en := by
  unfold Ledger.locked at h
  simp only [Bool.or_eq_true, not_or, Option.isSome_iff_ne_none, not_not] at h
  refine ⟨h.1, fun b en hw => ?_⟩
  rw [hw] at h
  exact h.2 rfl

variable {todo p : List Block} {b : Block} {a a' : App σ} {res : Response} {jobs : List SpecJob}

theorem Inv.startDrain (inv : Inv e l c v) (hw : ∀ b en, l.worker ≠ .apply b en)
    (h : l.startDrain todo = some l') : Inv e l' c v := by
  unfold Ledger.startDrain at h
  split at h
  · cases h
    refine { inv with drain := ?_ }
    intro dr hdr
    cases hdr
    exact ⟨trivial, hw⟩
  · cases h

theorem Inv.observe (inv : Inv e l c v) (h : l.observe b todo = some l') : Inv e l' c v := by
  unfold Ledger.observe at h
  split at h
  · cases h
  rename_i hlock
  obtain ⟨hdrain, hw⟩ := Ledger.not_locked hlock
  have hins : Inv e (l.insertBlock b) c v :=
    { inv with }
  split at h
  · cases h
    exact hins
  · have hadd : Inv e ((l.insertBlock b).addPending b) c v :=
      { hins with }
    exact hadd.startDrain hw h

/-- The child of the last finalized block is the one block to enqueue. -/
theorem Inv.collectPending_eq {getBlock : BlockId → Option Block} {pending : List Block} {fuel : Nat}
    (inv : Inv e l c v) (hget : ∀ id b', getBlock id = some b' → b'.getId = id)
    (hparent : b.getParentId = headId l.finalized) (hseq : b.getSeqNum = l.finalized.length + 1)
    (h : collectPending getBlock l.committed (fuel + 2) b = .ok pending) : pending = [b] := by
  have hnew : ¬ (l.committed b.getSeqNum).isSome = true := by
    rw [inv.marks]
    omega
  rw [collectPending, if_neg (by rw [hseq]; exact Nat.succ_ne_zero _), if_neg hnew] at h
  split at h
  · cases h
    rfl
  rename_i hgen
  split at h
  · cases h
  rename_i parent hpar
  -- the parent is the last finalized block, which is marked
  have hid : parent.getId = headId l.finalized := (hget _ _ hpar).trans hparent
  have hmark : (l.committed parent.getSeqNum).isSome = true := by
    have hchain := inv.chain
    rw [inv.marks]
    cases hfin : l.finalized with
    | nil =>
      rw [hparent, hfin] at hgen
      exact absurd rfl hgen
    | cons b' rest =>
      rw [hfin] at hid hchain
      obtain rfl := ConsensusFullBlock.eq_of_getId hid
      cases hchain with
      | cons _ _ hnum =>
        rw [hnum, length_cons]
        omega
  have hstop : collectPending getBlock l.committed (fuel + 1) parent = .ok [] := by
    rw [collectPending, if_pos hmark, ite_self]
  rw [hstop] at h
  cases h
  rfl

theorem Ledger.getBlock_id {id : BlockId} (h : l.getBlock id = some b) : b.getId = id := by
  simpa using find?_some h

theorem Inv.finalize (inv : Inv e l c v) (h : l.finalize b todo = some l') : Inv e l' c v := by
  unfold Ledger.finalize at h
  split at h
  · cases h
  rename_i hlock
  obtain ⟨hdrain, hw⟩ := Ledger.not_locked hlock
  split at h
  · cases h
  rename_i hchild
  push Not at hchild
  obtain ⟨hparent, hseq⟩ := hchild
  obtain ⟨l₁, hcommit, h⟩ := Option.bind_eq_some_iff.mp h
  have hins : Inv e (l.insertBlock b) c v :=
    { inv with }
  unfold Ledger.commitFinalized at hcommit
  split at hcommit
  · cases hcommit
  rename_i pending hpend
  obtain ⟨fuel, hfuel⟩ : ∃ fuel, b.getId.bytes.length = fuel + 1 :=
    Nat.exists_eq_succ_of_ne_zero (Nat.ne_of_gt (Nat.zero_lt_of_lt (getParentId_length_lt b.header)))
  rw [hfuel] at hpend
  obtain rfl := hins.collectPending_eq (fun _ _ => Ledger.getBlock_id) hparent hseq hpend
  cases hcommit
  refine Inv.startDrain ?_ ?_ h
  swap
  · exact hw
  refine { inv with chain := .cons inv.chain hparent hseq, queue := ?_, marks := ?_, drain := ?_ }
  · show b :: l.finalized = (l.commitQ ++ [b]).reverse ++ _
    rw [inv.queue, reverse_append]
    rfl
  · intro h
    show ((l.committed.set b.getSeqNum b) h).isSome ↔ 0 < h ∧ h ≤ (b :: l.finalized).length
    rw [HeightMap.set, length_cons]
    by_cases hh : h = b.getSeqNum
    · rw [if_pos hh]
      simp only [Option.isSome_some, true_iff]
      omega
    · rw [if_neg hh, inv.marks]
      omega
  · intro dr hdr
    have hnone : l.drain = some dr := hdr
    rw [hdrain] at hnone
    cases hnone

theorem Inv.notify {n : Nat} (inv : Inv e l c v) (h : l.notify e n = some l') : Inv e l' c v := by
  unfold Ledger.notify at h
  split at h
  · cases h
  split at h
  · cases h
    exact { inv with }
  · split at h
    · cases h
    · cases h
      exact { inv with }

/-! ## A drain -/

theorem SpecApp.specResultID_snd (s : SpecApp) (id : BlockId) : ∃ m, (s.specResultID id).2 = { s with byID := m } := by
  unfold specResultID
  split
  · exact ⟨s.byID, rfl⟩
  · split
    · exact ⟨s.byID, rfl⟩
    · exact ⟨_, rfl⟩

theorem Inv.drainResult (inv : Inv e l c v) (h : l.drainResult = some l') : Inv e l' c v := by
  unfold Ledger.drainResult at h
  split at h
  · rename_i b todo hdr
    obtain ⟨-, hw⟩ := inv.drain _ hdr
    split at h
    · cases h
      refine { inv with drain := ?_ }
      intro dr hdr'
      cases hdr'
      exact ⟨trivial, hw⟩
    · rename_i hseq
      rw [inv.books.height] at hseq
      split at h
      · cases h
        refine { inv with drain := ?_ }
        intro dr hdr'
        cases hdr'
        exact ⟨trivial, hw⟩
      · rename_i spec hspec
        obtain ⟨m, hm⟩ := l.spec.specResultID_snd b.getId
        obtain rfl : spec = { l.spec with byID := m } := by rw [← hm, hspec]
        cases h
        refine { inv with lineage := { inv.lineage with }, drain := ?_ }
        intro dr hdr'
        cases hdr'
        refine ⟨?_, hw⟩
        split
        · trivial
        · exact Nat.lt_of_not_le hseq
  · cases h

theorem Inv.drainChain (inv : Inv e l c v) (h : l.drainChain = some l') : Inv e l' c v := by
  unfold Ledger.drainChain at h
  split at h
  · rename_i todo b hdr
    obtain ⟨hseq, hw⟩ := inv.drain _ hdr
    cases h
    refine { inv with drain := ?_ }
    intro dr hdr'
    cases hdr'
    refine ⟨?_, hw⟩
    split
    · rename_i hchain
      obtain ⟨hnum, hparent⟩ : b.getSeqNum = l.spec.tip + 1 ∧ b.getParentId = l.spec.tipID := by
        simpa [wouldChain] using hchain
      refine ⟨hseq, fun r hr hid _ => ?_⟩
      -- the tip is the one chain with this id
      rw [hparent, inv.lineage.tipID] at hid
      obtain rfl := headId_inj hr inv.lineage.linked hid
      exact ⟨suffix_rfl, by rw [hnum, inv.lineage.tip]⟩
    · trivial
  · cases h

theorem Unread.of_not_apply (hw : ∀ b en, l.worker ≠ .apply b en) : Unread l h := by
  unfold Unread
  split
  · rename_i b en hb
    exact absurd hb (hw b en)
  · trivial

theorem Inv.drainVotes (inv : Inv e l c v) (h : l.drainVotes e = some l') : Inv e l' c v := by
  unfold Ledger.drainVotes at h
  split at h
  · rename_i todo b hdr
    obtain ⟨⟨hseq, htracks⟩, hw⟩ := inv.drain _ hdr
    cases h
    refine { inv with drain := ?_ }
    intro dr hdr'
    cases hdr'
    refine ⟨⟨hseq, htracks, fun vs hvs r hr hid halive => ?_⟩, hw⟩
    obtain ⟨hsuf, hlen⟩ := htracks r hr hid halive
    have htail : b.getSeqNum - 2 = r.tail.length := by
      rw [length_tail]
      omega
    rw [htail] at hvs
    refine inv.valSetAfter_some (Unread.of_not_apply hw) ((tail_suffix r).trans hsuf) ?_ hvs
    rw [length_tail]
    omega
  · cases h

theorem Inv.drainSubmit (inv : Inv e l c v) (h : l.drainSubmit e = some l') : Inv e l' c v := by
  unfold Ledger.drainSubmit at h
  split at h
  · rename_i todo b votesSet hdr
    obtain ⟨⟨hseq, htracks, hvotes⟩, hw⟩ := inv.drain _ hdr
    dsimp only at h
    split at h
    · cases h
      refine { inv with drain := ?_ }
      intro dr hdr'
      cases hdr'
      exact ⟨trivial, hw⟩
    · rename_i hknown
      push Not at hknown
      obtain ⟨⟨vs, hvs⟩, ⟨ns, hns⟩, -⟩ :=
        And.imp Option.ne_none_iff_exists'.mp (And.imp_left Option.ne_none_iff_exists'.mp) hknown
      cases h
      have hgood : Good e (l.worker.decided c)
          ⟨finalizeRequest e b votesSet (l.spec.valSetAfter e l.app (b.getSeqNum - 1)), b⟩ := by
        refine ⟨rfl, fun r o hr hid halive hrun => ?_⟩
        obtain ⟨hsuf, hlen⟩ := htracks r hr hid halive
        have hr' : b.getSeqNum - 1 = r.length := by omega
        have hnext : setAfter e r = some ns :=
          inv.valSetAfter_some (Unread.of_not_apply hw) hsuf (by omega) (hr' ▸ hns)
        have hbefore : setAfter e r.tail = some vs := hvotes vs hvs r hr hid halive
        rw [setAfter_of_run hrun] at hnext
        rw [run_setBefore hrun] at hbefore
        show finalizeRequest e b votesSet _ = finalizeRequest e b o.setBefore o.setAfter
        rw [hns, hvs, hnext, hbefore]
      refine { inv with lineage := { inv.lineage with }, jobs := ?_, drain := ?_ }
      · intro j hj
        rcases mem_append.mp hj with hj | hj
        · exact inv.jobs j hj
        · obtain rfl := mem_singleton.mp hj
          exact hgood
      · intro dr hdr'
        cases hdr'
        exact ⟨trivial, hw⟩
  · cases h

theorem Inv.drainEnd (inv : Inv e l c v) (h : l.drainEnd = some l') : Inv e l' c v := by
  unfold Ledger.drainEnd at h
  split at h
  · cases h
    refine { inv with drain := ?_ }
    intro dr hdr'
    cases hdr'
  · cases h

/-! ## The spec worker -/

theorem App.execute_some {req : Request} (h : a.execute e req = some (a', res)) :
    ∃ st st', a.store.head? = some st ∧ e.abci.finalizeBlock st req = some (st', res) ∧
      a' = { a with store := st' :: a.store } := by
  obtain ⟨st, hst, h⟩ := Option.bind_eq_some_iff.mp h
  obtain ⟨⟨st', res'⟩, hr, h⟩ := Option.bind_eq_some_iff.mp h
  cases h
  exact ⟨st, st', hst, hr, rfl⟩

/-- Executing the request that belongs to `b` on the lineage `p` makes it `b :: p`. -/
theorem execute_lineage {o : Outcome σ} (hstore : a.store = states e p) (hrun : run e p = some o)
    (h : a.execute e (request e o b) = some (a', res)) :
    a' = { a with store := states e (b :: p) } ∧ (run e (b :: p)).isSome ∧
      setAfter e (b :: p) = applyValUpdates e (setAfter e p) res.updates ∧
      Chain.record e (b :: p) = some (request e o b, res) := by
  obtain ⟨st, st', hst, hfin, rfl⟩ := App.execute_some h
  rw [hstore, states_head hrun] at hst
  cases hst
  obtain ⟨o', ho', hstate, hset, hrec⟩ := run_extend hrun hfin
  refine ⟨?_, by simp [ho'], hset, hrec⟩
  rw [hstore, states, ho']
  simp [hstate]

theorem Lineage.storeTip (hl : Lineage e a.store s d v p) : a.storeTip = p.length := by
  rw [App.storeTip, hl.store_eq, states_length hl.runs, Nat.add_sub_cancel]

theorem Worker.Holds.extend {w : Worker} (h : w.Holds e c v) (hw : ∀ b', w ≠ .direct b') : w.Holds e c (b :: v) := by
  cases w with
  | direct b' => exact absurd rfl (hw b')
  | _ => exact h

/-- A job that extends the lineage and the store extends both as the chain does. -/
theorem Inv.runSpec_extends (inv : Inv e l c v) (hjobs : l.spec.jobs = j :: jobs) (hunread : Unread l l.spec.tip)
    (hheight : j.req.height = l.spec.tip + 1) (hparent : j.block.getParentId = l.spec.tipID)
    (hstore : j.req.height = l.app.storeTip + 1) (hex : l.app.execute e j.req = some (a', res)) :
    Linked (j.block :: v) ∧ a' = { l.app with store := states e (j.block :: v) } ∧
      (run e (j.block :: v)).isSome ∧ (∀ b, l.worker ≠ .direct b) ∧ l.worker.stored v = v ∧
      Chain.record e (j.block :: v) = some (j.req, res) ∧ ∀ vs next, l.spec.valSetAfter e l.app l.spec.tip = some vs →
        e.abci.updateWithChangeSet vs res.updates = some next → setAfter e (j.block :: v) = some next := by
  have hl := inv.lineage
  have hgood := inv.jobs j (by rw [hjobs]; exact (.head _))
  -- a block that waits to be executed directly is ahead of the store
  have hdirect : ∀ b, l.worker ≠ .direct b := by
    intro b hw
    have hholds := inv.holds
    have htip := hl.storeTip
    rw [hw] at hholds htip
    obtain rfl : v = b :: c := hholds
    rw [Worker.stored, tail_cons] at htip
    have := hl.tip
    rw [length_cons] at this
    omega
  have hstored : l.worker.stored v = v := by
    cases hw : l.worker with
    | direct b => exact absurd hw (hdirect b)
    | _ => rfl
  rw [hstored] at hl
  obtain ⟨o, ho⟩ := Option.isSome_iff_exists.mp hl.runs
  have hreq : j.req = request e o j.block :=
    hgood.request v o hl.linked (by rw [hparent, hl.tipID]) (.inr hl.decided) ho
  have hlinked : Linked (j.block :: v) :=
    .cons hl.linked (by rw [hparent, hl.tipID]) (by rw [← hgood.height, hheight, hl.tip])
  rw [hreq] at hex ⊢
  obtain ⟨ha', hruns, hset, hrec⟩ := execute_lineage hl.store_eq ho hex
  refine ⟨hlinked, ha', hruns, hdirect, hstored, hrec, fun vs next hvs hnext => ?_⟩
  have hcv : c.length ≤ v.length := ((l.worker.suffix_decided c).trans hl.decided).length_le
  rw [hl.tip] at hvs hunread
  rw [hset, inv.valSetAfter_some hunread suffix_rfl (by omega) hvs]
  exact hnext

theorem Lineage.extend {store : List σ} {en : SpecEntry} {m : AMap BlockId Nat} {next : Option CmtValidatorSet}
    (hl : Lineage e store s d v v) (hlinked : Linked (b :: v)) (hruns : (run e (b :: v)).isSome)
    (hid : en.blockID = b.getId) (hrec : Chain.record e (b :: v) = some (en.request, en.response))
    (hnext : ∀ vs, next = some vs → setAfter e (b :: v) = some vs) : Lineage e (states e (b :: v))
      ⟨v.length + 1, b.getId, s.bySeq.insert (v.length + 1) en, m,
        next.elim s.valSets (s.valSets.insert (v.length + 1)), jobs⟩ d (b :: v) (b :: v) where
  linked := hlinked
  decided := hl.decided.trans (suffix_cons b v)
  store_eq := rfl
  runs := hruns
  tip := rfl
  tipID := rfl
  bySeq := by
    intro h en' hget
    rw [AMap.get_insert] at hget
    split_ifs at hget with hh
    · cases hget
      exact ⟨by rw [hh]; exact Nat.lt_succ_of_le hl.decided.length_le, b, v, suffix_rfl, hh.symm, hid, hrec⟩
    · obtain ⟨hlt, hex⟩ := hl.bySeq h en' hget
      exact ⟨hlt, hex.mono (suffix_cons b v)⟩
  known := by
    intro h hlt hle
    rw [AMap.contains, AMap.get_insert]
    split_ifs with hh
    · rfl
    · exact hl.known h hlt (by rw [length_cons] at hle; omega)
  sets := by
    have hold : ∀ h vs, s.valSets.get h = some vs →
        d.length < h ∧ ∃ c, c <:+ b :: v ∧ c.length = h ∧ setAfter e c = some vs := by
      intro h vs hget
      obtain ⟨hlt, c, hc, hrest⟩ := hl.sets h vs hget
      exact ⟨hlt, c, hc.trans (suffix_cons b v), hrest⟩
    intro h vs hget
    cases hn : next with
    | none =>
      rw [hn] at hget
      exact hold h vs hget
    | some nx =>
      rw [hn, Option.elim_some, AMap.get_insert] at hget
      split_ifs at hget with hh
      · cases hget
        refine ⟨by rw [hh]; exact Nat.lt_succ_of_le hl.decided.length_le, b :: v, suffix_rfl, hh.symm, ?_⟩
        exact hnext _ hn
      · exact hold h vs hget

theorem SpecApp.runSpec_cases (a : App σ) (s : SpecApp) (j : SpecJob) : s.runSpec e a j = (a, s) ∨
      ∃ a' res, j.req.height = s.tip + 1 ∧ j.block.getParentId = s.tipID ∧ j.req.height = a.storeTip + 1 ∧
        a.execute e j.req = some (a', res) ∧ s.runSpec e a j = (a', ⟨j.req.height, j.block.getId,
          s.bySeq.insert j.req.height ⟨j.block.getId, j.req, res⟩, s.byID.insert j.block.getId j.req.height,
          (applyValUpdates e (s.valSetAfter e a (j.req.height - 1)) res.updates).elim s.valSets
            (s.valSets.insert j.req.height), s.jobs⟩) := by
  unfold runSpec
  by_cases hheight : j.req.height = s.tip + 1
  swap
  · exact .inl (if_pos hheight)
  by_cases hparent : j.block.getParentId = s.tipID
  swap
  · exact .inl (by rw [if_neg (not_not.mpr hheight), if_pos hparent])
  by_cases hstore : j.req.height = a.storeTip + 1
  swap
  · exact .inl (by rw [if_neg (not_not.mpr hheight), if_neg (not_not.mpr hparent), if_pos hstore])
  rw [if_neg (not_not.mpr hheight), if_neg (not_not.mpr hparent), if_neg (not_not.mpr hstore)]
  cases hex : a.execute e j.req with
  | none => exact .inl rfl
  | some r =>
    obtain ⟨a', res⟩ := r
    refine .inr ⟨a', res, hheight, hparent, hstore, rfl, ?_⟩
    obtain ⟨st, st', -, -, rfl⟩ := App.execute_some hex
    -- the sets do not depend on the store
    have hsame : ∀ tip tipID bySeq byID,
        valSetAfter e { a with store := st' :: a.store } ⟨tip, tipID, bySeq, byID, s.valSets, s.jobs⟩
          (j.req.height - 1) = s.valSetAfter e a (j.req.height - 1) := fun _ _ _ _ => rfl
    dsimp only
    rw [hsame]
    cases applyValUpdates e (s.valSetAfter e a (j.req.height - 1)) res.updates <;> rfl

theorem Inv.runSpec (inv : Inv e l c v) (hunread : Unread l l.spec.tip) (h : l.runSpec e = some l') :
    ∃ v', Inv e l' c v' := by
  unfold Ledger.runSpec at h
  split at h
  · rename_i j jobs hjobs hdone
    cases h
    rcases runSpec_cases (e := e) l.app { l.spec with jobs := jobs } j with
      hsame | ⟨a', res, hheight, hparent, hstore, hex, hrun⟩
    · refine ⟨v, ?_⟩
      rw [hsame]
      refine { inv with lineage := { inv.lineage with }, jobs := ?_ }
      intro j' hj'
      exact inv.jobs j' (by rw [hjobs]; exact .tail j hj')
    · obtain ⟨hlinked, rfl, hruns, hdirect, hstored, hrec, hset⟩ :=
        inv.runSpec_extends hjobs hunread hheight hparent hstore hex
      have hl := inv.lineage
      rw [hstored] at hl
      have hheight' : j.req.height = v.length + 1 := by
        rw [hheight]
        exact congrArg (· + 1) hl.tip
      have hstored' : l.worker.stored (j.block :: v) = j.block :: v := by
        cases hw : l.worker with
        | direct b => exact absurd hw (hdirect b)
        | _ => rfl
      refine ⟨j.block :: v, ?_⟩
      rw [hrun]
      refine ⟨?_, { inv.books with }, inv.chain, inv.queue, inv.marks, inv.holds.extend hdirect, ?_, ?_⟩
      · dsimp only
        rw [hstored', hheight', Nat.add_sub_cancel]
        refine hl.extend hlinked hruns rfl hrec fun vs hvs => ?_
        obtain ⟨base, hbase, hnext⟩ := Option.bind_eq_some_iff.mp hvs
        exact hset base vs (by rw [hl.tip]; exact hbase) hnext
      · intro j' hj'
        exact inv.jobs j' (by rw [hjobs]; exact .tail j hj')
      · intro dr hdr
        obtain ⟨hok, hw⟩ := inv.drain dr hdr
        refine ⟨hok.of_suffix suffix_rfl fun r _ hr => ?_, hw⟩
        exact hr.trans (suffix_cons j.block v)
  · cases h

theorem Inv.reportSpec (inv : Inv e l c v) (h : l.reportSpec todo = some l') : Inv e l' c v := by
  unfold Ledger.reportSpec at h
  split at h
  · split at h
    · cases h
    · rename_i hlock
      refine Inv.startDrain ?_ ?_ h
      · exact { inv with }
      · exact (Ledger.not_locked hlock).2
  · cases h

end Steps

end MonadBft.Bridge
