/-
  MonadBft.Bridge.Refinement — speculation refines sequential execution.

  The steps of the commit worker keep the invariant of `Bridge.Invariant`, so it holds after
  every run whose jobs do not run between the two halves of a commit, and whose commits do not
  find the block store closed (`Calm`).

  Proved: in every such run everything recorded is what executing the finalized chain alone
  gives, and so is everything speculated for a finalized block (`speculation_refines`).
  Without it a finalized height is executed with another validator set hash
  (`stale_set_is_hashed`).
-/
import MonadBft.Bridge.Invariant
import MonadBft.Scenario

namespace MonadBft.Bridge

open Lib Chain List

variable {σ : Type} {e : Setup σ} {en : SpecEntry} {h n : Nat} {o : Outcome σ}

/-! ## The spec index under the commit worker -/

namespace SpecApp

theorem get_dropHeights_bySeq (s : SpecApp) (gone : Nat → Bool) (h : Nat) :
    (s.dropHeights gone).bySeq.get h = if gone h then none else s.bySeq.get h := by
  rw [dropHeights, AMap.get_filter]
  cases gone h <;> cases s.bySeq.get h <;> rfl

theorem get_dropHeights_valSets (s : SpecApp) (gone : Nat → Bool) (h : Nat) :
    (s.dropHeights gone).valSets.get h = if gone h && s.bySeq.contains h then none else s.valSets.get h := by
  rw [dropHeights, AMap.get_filter]
  cases gone h && s.bySeq.contains h <;> cases s.valSets.get h <;> rfl

end SpecApp

section Index

variable {store : List σ} {s : SpecApp} {b : Block} {c d v p : List Block}

/-- A speculated height of the lineage has an entry where it has a set. -/
theorem Lineage.contains_of_set (hl : Lineage e store s d v p) {vs : CmtValidatorSet}
    (hset : s.valSets.get h = some vs) : s.bySeq.contains h = true := by
  obtain ⟨hlt, c, hc, rfl, -⟩ := hl.sets h vs hset
  exact hl.known c.length hlt hc.length_le

/-- The canonical side takes over the entries up to what is decided now. -/
theorem Lineage.take_over (hl : Lineage e store s d v p) (hv : b :: d <:+ v) :
    Lineage e store (s.dropHeights (· ≤ d.length + 1)) (b :: d) v p where
  linked := hl.linked
  decided := hv
  store_eq := hl.store_eq
  runs := hl.runs
  tip := hl.tip
  tipID := hl.tipID
  bySeq := by
    intro h en hget
    rw [SpecApp.get_dropHeights_bySeq] at hget
    split_ifs at hget with hgone
    exact ⟨by simpa using hgone, (hl.bySeq h en hget).2⟩
  known := by
    intro h hlt hle
    rw [length_cons] at hlt
    rw [AMap.contains, SpecApp.get_dropHeights_bySeq, if_neg (by simpa using hlt)]
    exact hl.known h (by omega) hle
  sets := by
    intro h vs hget
    rw [SpecApp.get_dropHeights_valSets] at hget
    split_ifs at hget with hgone
    rw [hl.contains_of_set hget, Bool.and_true] at hgone
    exact ⟨by simpa using hgone, (hl.sets h vs hget).2⟩

/-- Rewound to what is decided, the lineage ends there. -/
theorem Lineage.rewound (hl : Lineage e store s d v v) : Lineage e (store.drop (v.length - d.length))
      { s.dropHeights (d.length < ·) with tip := d.length, tipID := headId d } d d d where
  linked := hl.linked.suffix hl.decided
  decided := suffix_rfl
  store_eq := by
    have hdrop : v.drop (v.length - d.length) = d := (suffix_iff_eq_drop.mp hl.decided).symm
    rw [hl.store_eq, states_drop hl.runs (Nat.sub_le _ _), hdrop]
  runs := run_suffix hl.decided hl.runs
  tip := rfl
  tipID := rfl
  bySeq := by
    intro h en hget
    change (s.dropHeights _).bySeq.get h = some en at hget
    rw [SpecApp.get_dropHeights_bySeq] at hget
    split_ifs at hget with hgone
    exact absurd (hl.bySeq h en hget).1 (by simpa using hgone)
  known := fun h hlt hle => absurd hlt (Nat.not_lt.mpr hle)
  sets := by
    intro h vs hget
    change (s.dropHeights _).valSets.get h = some vs at hget
    rw [SpecApp.get_dropHeights_valSets] at hget
    split_ifs at hget with hgone
    rw [hl.contains_of_set hget, Bool.and_true] at hgone
    exact absurd (hl.sets h vs hget).1 (by simpa using hgone)

/-- On a lineage that ends with what is decided, a block to be executed directly moves the tip. -/
theorem Lineage.moveTip (hl : Lineage e store { s with tipID := headId d } d d d) (hlinked : Linked (b :: d)) :
    Lineage e store (s.moveTip (d.length + 1) b.getId) (b :: d) (b :: d) d := by
  have htip : s.tip < d.length + 1 := Nat.lt_succ_of_le hl.tip.le
  rw [SpecApp.moveTip, if_pos htip]
  -- nothing above what was decided is in the index
  have hempty : ∀ h, s.bySeq.get h = none := by
    intro h
    cases hget : s.bySeq.get h with
    | none => rfl
    | some en =>
      obtain ⟨hlt, b', c', hsuf, hlen, -⟩ := hl.bySeq h en hget
      have := hsuf.length_le
      rw [length_cons] at this
      omega
  have hnoset : ∀ h, s.valSets.get h = none := by
    intro h
    cases hget : s.valSets.get h with
    | none => rfl
    | some vs =>
      have hcontains : s.bySeq.contains h = true := hl.contains_of_set hget
      rw [AMap.contains, hempty h] at hcontains
      cases hcontains
  refine ⟨hlinked, suffix_rfl, hl.store_eq, hl.runs, rfl, rfl, ?_, ?_, ?_⟩
  · intro h en hget
    rw [SpecApp.get_dropHeights_bySeq] at hget
    split_ifs at hget
    rw [hempty h] at hget
    cases hget
  · exact fun h hlt hle => absurd hlt (Nat.not_lt.mpr hle)
  · intro h vs hget
    rw [SpecApp.get_dropHeights_valSets] at hget
    split_ifs at hget
    rw [hnoset h] at hget
    cases hget

end Index

/-! ## The commit worker -/

section Steps

variable {l l' : Ledger σ} {c v : List Block} {b : Block} {s : SpecApp} {app : App σ} {store : List σ}

/-- An entry at the height of the next block is for a block of the lineage. -/
theorem Lineage.entry_hit {p : List Block} (hl : Lineage e store s c v p) (hget : s.bySeq.get (c.length + 1) = some en)
    (hid : en.blockID = b.getId) : b :: c <:+ v := by
  obtain ⟨-, b', c', hsuf, hlen, hid', -⟩ := hl.bySeq _ _ hget
  obtain rfl := ConsensusFullBlock.eq_of_getId (hid.symm.trans hid')
  obtain rfl : c' = c := suffix_eq ((suffix_cons b c').trans hsuf) hl.decided (by omega)
  exact hsuf

/-- The request of `finalizeDirect` is the one for its block. -/
theorem Books.request_eq (hbooks : Books e app c c) (hseq : b.getSeqNum = c.length + 1) (hrun : run e c = some o) :
    finalizeRequest e b (s.valSetAfter e app (b.getSeqNum - 2)) (s.valSetAfter e app (b.getSeqNum - 1)) =
      request e o b := by
  have hvotes : s.valSetAfter e app (b.getSeqNum - 2) = o.setBefore := by
    rw [show b.getSeqNum - 2 = c.tail.length by rw [length_tail]; omega, ← run_setBefore hrun]
    exact hbooks.valSetAfter_eq suffix_rfl (tail_suffix c) (by rw [length_tail]; omega)
  have hnext : s.valSetAfter e app (b.getSeqNum - 1) = o.setAfter := by
    rw [show b.getSeqNum - 1 = c.length by omega, ← setAfter_of_run hrun]
    exact hbooks.valSetAfter_eq suffix_rfl suffix_rfl (Nat.le_succ _)
  rw [hvotes, hnext]
  rfl

theorem Books.recordCommit {en : ResultEntry} (hbooks : Books e app c c) (hseq : b.getSeqNum = c.length + 1)
    (hid : en.blockID = b.getId) (hrec : Chain.record e (b :: c) = some (en.request, en.response)) :
    Books e (app.recordCommit e.retain b.getSeqNum en) (b :: c) c where
  height := hseq
  sets := by
    intro d hd hrecent
    have hold := hbooks.sets d hd (hrecent.imp_right fun hle => by rw [length_cons] at hle; omega)
    rw [← hold]
    have hkept : ¬ (0 < b.getSeqNum - e.retain ∧ 0 < e.retain ∧ d.length = b.getSeqNum - e.retain) := by
      have hretain := e.retain_ok
      rcases hrecent with rfl | hle
      · rw [length_nil]
        omega
      · rw [length_cons] at hle
        omega
    simp only [App.recordCommit, HeightMap.keep]
    rw [if_pos]
    simp only [Bool.not_eq_true', Bool.and_eq_false_iff, decide_eq_false_iff_not, beq_eq_false_iff_ne]
    tauto
  unset := by
    intro h hlt
    simp only [App.recordCommit, HeightMap.keep]
    rw [hbooks.unset h hlt, ite_self]
  last := hbooks.last
  current := hbooks.current
  results := by
    intro h en' hget
    simp only [App.recordCommit, HeightMap.keep] at hget
    split_ifs at hget
    rw [HeightMap.set] at hget
    split_ifs at hget with hh
    · cases hget
      exact ⟨b, c, suffix_rfl, by rw [hh, hseq], hid, hrec⟩
    · exact (hbooks.results h en' hget).mono (suffix_cons b c)
  kept := by
    intro h hpos hle hrecent
    rw [length_cons] at hle hrecent
    simp only [App.recordCommit, HeightMap.keep]
    rw [if_pos]
    · rw [HeightMap.set]
      split_ifs with hh
      · rfl
      · exact hbooks.kept h hpos (by omega) (by omega)
    · simp only [Bool.not_eq_true', Bool.and_eq_false_iff, decide_eq_false_iff_not, beq_eq_false_iff_ne]
      omega

/-- Applying the updates of the recorded block makes the set that of the chain. -/
theorem Books.applyUpdates {app' : App σ} {en : ResultEntry} (hbooks : Books e app (b :: c) c)
    (hrec : Chain.record e (b :: c) = some (en.request, en.response))
    (h : app.applyUpdates e (c.length + 1) en.response.updates = some app') : Books e app' (b :: c) (b :: c) := by
  obtain ⟨appSet, hupd, rfl⟩ := App.applyUpdates_some h hbooks.current.symm
  rw [hbooks.current] at hupd
  have hset : setAfter e (b :: c) = some appSet := by
    rw [setAfter_of_record hrec, hbooks.last]
    exact hupd
  refine ⟨hbooks.height, ?_, ?_, hset, rfl, hbooks.results, hbooks.kept⟩
  · intro d hd hrecent
    show HeightMap.set app.valSets (c.length + 1) appSet d.length = _
    rw [HeightMap.set]
    split_ifs with hh
    · rw [hd.eq_of_length hh, hset]
    · rcases suffix_cons_iff.mp hd with rfl | hd
      · exact absurd rfl hh
      · exact hbooks.sets d hd hrecent
  · intro h hlt
    show HeightMap.set app.valSets (c.length + 1) appSet h = none
    rw [length_cons] at hlt
    rw [HeightMap.set, if_neg (by omega)]
    exact hbooks.unset h (by omega)

theorem App.applyUpdates_same {a a' : App σ} {updates : List ValidatorUpdate}
    (happ : a.applyUpdates e h updates = some a') :
    a'.store = a.store ∧ a'.height = a.height ∧ a'.results = a.results := by
  obtain ⟨appSet, -, happ⟩ := Option.bind_eq_some_iff.mp happ
  cases happ
  exact ⟨rfl, rfl, rfl⟩

section

variable (inv : Inv e l c v) {parent : BlockId}

include inv

theorem Inv.take (h : l.take = some l') : Inv e l' c v := by
  unfold Ledger.take at h
  split at h
  · rename_i b q hw hq
    have hqueue := inv.queue
    rw [hw, hq, reverse_cons, append_assoc] at hqueue
    have hsuf : b :: c <:+ l.finalized := ⟨q.reverse, hqueue.symm⟩
    have hseq := (inv.chain.suffix hsuf).seqNum
    split at h
    · cases h
    split at h
    · rename_i hle
      rw [inv.books.height] at hle
      omega
    split at h
    · cases h
    cases h
    have hl := inv.lineage
    have hbooks := inv.books
    have hjobs := inv.jobs
    have hdrain := inv.drain
    rw [hw] at hl hbooks hjobs hdrain
    refine ⟨hl, hbooks, inv.chain, hqueue, inv.marks, trivial, hjobs, fun dr hdr => ?_⟩
    exact ⟨(hdrain dr hdr).1, fun _ _ => Worker.noConfusion⟩
  · cases h

/-- The queried block was executed: its entry is taken over. -/
theorem Inv.query_hit (hw : l.worker = .query b parent) (hget : l.spec.bySeq.get b.getSeqNum = some en)
    (hid : en.blockID = b.getId) :
    Inv e { l with spec := l.spec.dropHeights (· ≤ b.getSeqNum), worker := .record b en } c v := by
  have hl := inv.lineage
  have hbooks := inv.books
  have hqueue := inv.queue
  rw [hw] at hl hbooks hqueue
  have hl' : Lineage e l.app.store l.spec c v v := hl
  have hseq : b.getSeqNum = c.length + 1 := (inv.chain.suffix ⟨_, hqueue.symm⟩).seqNum
  rw [hseq] at hget ⊢
  have hsuf := hl'.entry_hit hget hid
  obtain ⟨-, hrec⟩ := (hl'.bySeq _ _ hget).2.block_eq hsuf
  refine ⟨hl'.take_over hsuf, hbooks, inv.chain, hqueue, inv.marks, ⟨hid, hrec⟩, ?_, ?_⟩
  · intro j hj
    have hgood := inv.jobs j hj
    rw [hw] at hgood
    exact hgood.of_suffix (suffix_cons b c)
  · intro dr hdr
    have hok := (inv.drain dr hdr).1
    rw [hw] at hok
    exact ⟨hok.of_suffix (suffix_cons b c) fun _ _ hr => hr, fun _ _ => Worker.noConfusion⟩

/-- The queried block was not executed: the worker will, on the lineage that ends before it. -/
theorem Inv.query_miss (hw : l.worker = .query b parent) (hl : Lineage e store { s with tipID := headId c } c c c)
    (hjobs : s.jobs = l.spec.jobs) (hv : v = c ∨ ¬ b :: c <:+ v) : Inv e { l with
      app := { l.app with store := store }
      spec := s.moveTip b.getSeqNum b.getId
      worker := .direct b } c (b :: c) := by
  have hbooks := inv.books
  have hqueue := inv.queue
  rw [hw] at hbooks hqueue
  have hlinked : Linked (b :: c) := inv.chain.suffix ⟨_, hqueue.symm⟩
  have hseq := hlinked.seqNum
  have hjobs' : (s.moveTip b.getSeqNum b.getId).jobs = s.jobs := by
    rw [SpecApp.moveTip]
    split <;> rfl
  refine ⟨?_, { hbooks with }, inv.chain, hqueue, inv.marks, rfl, ?_, ?_⟩
  · rw [hseq]
    exact hl.moveTip hlinked
  · intro j hj
    change j ∈ (s.moveTip b.getSeqNum b.getId).jobs at hj
    rw [hjobs', hjobs] at hj
    have hgood := inv.jobs j hj
    rw [hw] at hgood
    exact hgood.of_suffix (suffix_cons b c)
  · intro dr hdr
    have hok := (inv.drain dr hdr).1
    rw [hw] at hok
    refine ⟨hok.of_suffix (suffix_cons b c) fun r halive hr => ?_, fun _ _ => Worker.noConfusion⟩
    -- what is still possible and was in the lineage is in what is decided
    rcases halive with halive | halive
    · exact halive
    · rcases hv with rfl | hv
      · exact hr.trans (suffix_cons b v)
      · exact absurd (halive.trans hr) hv

theorem Inv.query (h : l.query = some l') : ∃ v', Inv e l' c v' := by
  unfold Ledger.query at h
  split at h
  swap
  · cases h
  rename_i b parent hw
  have hl := inv.lineage
  have hqueue := inv.queue
  rw [hw] at hl hqueue
  have hl' : Lineage e l.app.store l.spec c v v := hl
  have hseq : b.getSeqNum = c.length + 1 := (inv.chain.suffix ⟨_, hqueue.symm⟩).seqNum
  unfold SpecApp.committedResult at h
  cases hget : l.spec.bySeq.get b.getSeqNum with
  | none =>
    rw [hget] at h
    cases h
    -- without an entry for the height the lineage ends before it
    have hend : v = c := by
      have hlen : ¬ c.length + 1 ≤ v.length := by
        intro hle
        have hcontains := hl'.known (c.length + 1) (Nat.lt_succ_self _) hle
        rw [← hseq, AMap.contains, hget] at hcontains
        cases hcontains
      exact (hl'.decided.eq_of_length_le (by omega)).symm
    subst hend
    refine ⟨b :: v, inv.query_miss hw ?_ rfl (.inl rfl)⟩
    rw [← hl'.tipID]
    exact hl'
  | some en =>
    rw [hget] at h
    dsimp only at h
    by_cases hid : en.blockID = b.getId
    · rw [if_pos hid] at h
      cases h
      exact ⟨v, inv.query_hit hw hget hid⟩
    · rw [if_neg hid, SpecApp.rewind] at h
      split at h
      · cases h
      cases h
      have hother : ¬ b :: c <:+ v := by
        intro hsuf
        rw [hseq] at hget
        exact hid ((hl'.bySeq _ _ hget).2.block_eq hsuf).1
      refine ⟨b :: c, ?_⟩
      have hrewound := hl'.rewound
      rw [show c.length = b.getSeqNum - 1 by omega, ← hl'.storeTip] at hrewound
      exact inv.query_miss hw hrewound rfl (.inr hother)

theorem Inv.direct (h : l.direct e = some l') : Inv e l' c v := by
  unfold Ledger.direct at h
  split at h
  swap
  · cases h
  rename_i b hw
  have ⟨hl, hbooks, _, hqueue, _, hholds, hjobs, _⟩ := inv
  rw [hw] at hl hbooks hqueue hholds hjobs
  obtain rfl : v = b :: c := hholds
  have hbooks' : Books e l.app c c := hbooks
  have hl' : Lineage e l.app.store l.spec (b :: c) (b :: c) c := hl
  have hseq : b.getSeqNum = c.length + 1 := (inv.chain.suffix ⟨_, hqueue.symm⟩).seqNum
  obtain ⟨o, hrun⟩ := Option.isSome_iff_exists.mp hl'.runs
  obtain ⟨⟨l₁, en⟩, hfin, h⟩ := Option.map_eq_some_iff.mp h
  obtain ⟨⟨a', res⟩, hex, hfin⟩ := Option.bind_eq_some_iff.mp hfin
  rw [hbooks'.request_eq hseq hrun] at hex hfin
  obtain ⟨rfl, hruns, -, hrec⟩ := execute_lineage hl'.store_eq hrun hex
  cases hfin
  cases h
  refine ⟨{ hl' with store_eq := rfl, runs := hruns }, { hbooks with }, inv.chain, hqueue, inv.marks, ⟨rfl, hrec⟩, hjobs, fun dr hdr => ?_⟩
  have hok := (inv.drain dr hdr).1
  rw [hw] at hok
  exact ⟨hok, fun _ _ => Worker.noConfusion⟩

theorem Inv.record (h : l.record e = some l') : ∃ c', Inv e l' c' v := by
  unfold Ledger.record at h
  split at h
  swap
  · cases h
  rename_i b en hw
  split at h
  · cases h
  rename_i hlock
  cases h
  have ⟨hl, hbooks, _, hqueue, _, hholds, hjobs, _⟩ := inv
  rw [hw] at hl hbooks hqueue hholds hjobs
  obtain ⟨hid, hrec⟩ := hholds
  have hsuf : b :: c <:+ l.finalized := ⟨_, hqueue.symm⟩
  have hseq := (inv.chain.suffix hsuf).seqNum
  refine ⟨b :: c, hl, Books.recordCommit hbooks hseq hid hrec, inv.chain, hqueue, ?_,
    ⟨hid, c, rfl, hrec⟩, hjobs, fun dr hdr => ?_⟩
  · intro h
    have hle : c.length + 1 ≤ l.finalized.length := hsuf.length_le
    show ((l.committed.set b.getSeqNum b) h).isSome ↔ _
    rw [HeightMap.set]
    split_ifs with hh
    · simp only [Option.isSome_some, true_iff]
      omega
    · exact inv.marks h
  · have hnone := (Ledger.not_locked hlock).1
    change l.drain = some dr at hdr
    rw [hnone] at hdr
    cases hdr

theorem Inv.apply {todo : List Block} (hopen : l.storeClosed = false) (h : l.apply e todo = some l') : Inv e l' c v := by
  unfold Ledger.apply at h
  split at h
  swap
  · cases h
  rename_i b en hw
  rw [hopen] at h
  obtain ⟨app, happ, h⟩ := Option.bind_eq_some_iff.mp h
  have ⟨hl, hbooks, _, hqueue, _, hholds, hjobs, _⟩ := inv
  rw [hw] at hl hbooks hqueue hholds hjobs
  obtain ⟨-, c', rfl, hrec⟩ := hholds
  have hsuf : b :: c' <:+ l.finalized := ⟨_, hqueue.symm⟩
  rw [(inv.chain.suffix hsuf).seqNum] at happ
  refine Inv.startDrain ?_ ?_ h
  · refine ⟨?_, Books.applyUpdates hbooks hrec happ, inv.chain, hqueue, inv.marks, trivial, hjobs, fun dr hdr => ?_⟩
    · rw [(App.applyUpdates_same happ).1]
      exact hl
    · exact absurd hw ((inv.drain dr hdr).2 b en)
  · exact fun _ _ => Worker.noConfusion

end

end Steps

/-! ## Runs -/

/-- The spec worker does not run a job on a height whose updates are being applied, and the commit
worker does not record a block after the block store is closed. -/
def Calm (l : Ledger σ) : Action → Prop
  | .runSpec => Unread l l.spec.tip
  | .apply _ => l.storeClosed = false
  | _ => True

instance (l : Ledger σ) (h : Nat) : Decidable (Unread l h) := by
  unfold Unread
  split <;> infer_instance

instance (l : Ledger σ) (a : Action) : Decidable (Calm l a) := by
  unfold Calm
  split <;> infer_instance

theorem Inv.init : Inv e (Ledger.init e) [] [] where
  lineage := by
    refine ⟨.nil, suffix_rfl, rfl, rfl, rfl, rfl, fun h en hget => ?_, ?_, fun h vs hget => ?_⟩
    · cases hget
    · exact fun h hlt hle => absurd hlt (Nat.not_lt.mpr hle)
    · cases hget
  books := by
    refine ⟨rfl, ?_, ?_, rfl, rfl, fun h en hget => ?_, fun h hpos hle => absurd hpos (Nat.not_lt.mpr hle)⟩
    · intro d hd _
      rw [suffix_nil.mp hd]
      rfl
    · intro h hlt
      exact if_neg (Nat.ne_of_gt hlt)
    · cases hget
  chain := .nil
  queue := rfl
  marks := by
    intro h
    have hle : h ≤ (Ledger.init e).finalized.length ↔ h = 0 := Nat.le_zero
    rw [hle]
    simp only [Ledger.init, Option.isSome_none, Bool.false_eq_true, false_iff]
    omega
  holds := trivial
  jobs := fun j hj => by cases hj
  drain := fun dr hdr => by cases hdr

theorem Inv.step {l l' : Ledger σ} {c v : List Block} {a : Action} (inv : Inv e l c v) (hcalm : Calm l a)
    (h : l.step e n a = some l') : ∃ c' v', Inv e l' c' v' := by
  cases a with
  | observe b todo => exact ⟨c, v, inv.observe h⟩
  | finalize b todo => exact ⟨c, v, inv.finalize h⟩
  | notify => exact ⟨c, v, inv.notify h⟩
  | closeStore =>
    cases h
    exact ⟨c, v, { inv with }⟩
  | drainResult => exact ⟨c, v, inv.drainResult h⟩
  | drainChain => exact ⟨c, v, inv.drainChain h⟩
  | drainVotes => exact ⟨c, v, inv.drainVotes h⟩
  | drainSubmit => exact ⟨c, v, inv.drainSubmit h⟩
  | drainEnd => exact ⟨c, v, inv.drainEnd h⟩
  | runSpec => exact ⟨c, inv.runSpec hcalm h⟩
  | reportSpec todo => exact ⟨c, v, inv.reportSpec h⟩
  | take => exact ⟨c, v, inv.take h⟩
  | query => exact ⟨c, inv.query h⟩
  | direct => exact ⟨c, v, inv.direct h⟩
  | record =>
    obtain ⟨c', inv'⟩ := inv.record h
    exact ⟨c', v, inv'⟩
  | apply todo => exact ⟨c, v, inv.apply hcalm h⟩

theorem Ledger.Runs.inv {l : Ledger σ} (h : Ledger.Runs e n Calm (Ledger.init e) l) : ∃ c v, Inv e l c v := by
  induction h with
  | start => exact ⟨[], [], Inv.init⟩
  | step a _ hcalm hstep ih =>
    obtain ⟨c, v, inv⟩ := ih
    exact inv.step hcalm hstep

/-! ## The refinement -/

section Final

variable {l : Ledger σ} {c v : List Block}

theorem Inv.recorded_suffix (inv : Inv e l c v) : c <:+ l.finalized := by
  rw [inv.queue, ← append_assoc]
  exact suffix_append _ _

theorem Inv.decided_suffix (inv : Inv e l c v) : l.worker.decided c <:+ l.finalized := by
  have hqueue := inv.queue
  cases hw : l.worker with
  | direct b =>
    rw [hw] at hqueue
    exact ⟨_, hqueue.symm⟩
  | record b en =>
    rw [hw] at hqueue
    exact ⟨_, hqueue.symm⟩
  | _ => exact inv.recorded_suffix

/-- A speculated block that is finalized is executed on the finalized chain. -/
theorem Inv.speculated (inv : Inv e l c v) (hget : l.spec.bySeq.get h = some en)
    (hfin : ∃ b ∈ l.finalized, b.getId = en.blockID) : Executed e l.finalized h en := by
  obtain ⟨-, b, c', hsuf, hlen, hid, hrec⟩ := inv.lineage.bySeq h en hget
  obtain ⟨b', hmem, hid'⟩ := hfin
  obtain rfl := ConsensusFullBlock.eq_of_getId (hid'.trans hid)
  obtain ⟨s, t, hst⟩ := append_of_mem hmem
  have hsuf' : b' :: t <:+ l.finalized := ⟨s, hst.symm⟩
  have heq : b' :: t = b' :: c' := headId_inj (inv.chain.suffix hsuf') (inv.lineage.linked.suffix hsuf) rfl
  exact ⟨b', c', heq ▸ hsuf', hlen, hid, hrec⟩

/-- A job for a finalized block asks what the canonical side asks. -/
theorem Inv.job_request (inv : Inv e l c v) {j : SpecJob} (hj : j ∈ l.spec.jobs) {r : List Block}
    (hsuf : j.block :: r <:+ l.finalized) (hrun : run e r = some o) : j.req = request e o j.block := by
  have hlinked := inv.chain.suffix hsuf
  have hparent : headId r = j.block.getParentId := by
    cases hlinked with
    | cons _ hparent _ => exact hparent.symm
  have hr : r <:+ l.finalized := (suffix_cons _ r).trans hsuf
  have halive : Alive r (l.worker.decided c) := Alive.of_suffix inv.decided_suffix (.inl hr)
  exact (inv.jobs j hj).request r o hlinked.tail hparent halive hrun

end Final

/-- Speculation refines sequential execution. After every calm run, what is recorded at a height
is the request and the response of executing the finalized chain alone, and nothing in the
kept window is missing; what is speculated for a finalized block, and what is asked for one, is
the same. -/
theorem speculation_refines (n : Nat) (l : Ledger σ) (h : Ledger.Runs e n Calm (Ledger.init e) l) :
    (∀ k en, l.app.results k = some en → Executed e l.finalized k en) ∧
    (∀ k, 0 < k → k ≤ l.app.height → e.retain = 0 ∨ l.app.height < k + e.retain → (l.app.results k).isSome) ∧
    (∀ k en, l.spec.bySeq.get k = some en → (∃ b ∈ l.finalized, b.getId = en.blockID) → Executed e l.finalized k en) ∧
    (∀ j ∈ l.spec.jobs, ∀ r o, j.block :: r <:+ l.finalized → run e r = some o → j.req = request e o j.block) := by
  obtain ⟨c, v, inv⟩ := h.inv
  refine ⟨fun k en hget => ?_, ?_, fun k en => inv.speculated, fun j hj r o => inv.job_request hj⟩
  · exact (inv.books.results k en hget).mono inv.recorded_suffix
  · rw [inv.books.height]
    exact inv.books.kept

/-! ## A job between the two halves of a commit -/

namespace Window

/-- An application whose only updates come with height 2, where a validator joins. -/
def abci : Abci Nat where
  finalizeBlock s req := some (s + 1, ⟨req.nextValidatorsHash.getD 0, if req.height = 2 then [⟨12, 1⟩] else []⟩)
  updateWithChangeSet vs updates := some ⟨vs.validators ++ updates.map fun u => ⟨u.address, u.power⟩⟩
  setHash vs := vs.validators.length
  update_nil vs := by simp

def setup : Setup Nat := ⟨abci, threeKeys, 0, ⟨[⟨10, 1⟩, ⟨11, 1⟩]⟩, 0, .inl rfl⟩

def block3 : Block := Scenario.blockOf 3 (Scenario.qcOf Scenario.block2.header 2 [0, 1, 2]) 3

def block4 : Block := Scenario.blockOf 4 (Scenario.qcOf block3.header 3 [0, 1, 2]) 4

def submit (b : Block) : List Action :=
  [.observe b [b], .drainResult, .drainChain, .drainVotes, .drainSubmit, .drainEnd]

/-- Run the next job and report it, when only its block is pending. -/
def speculate (b : Block) : List Action := [.runSpec, .reportSpec [b], .drainResult, .drainEnd]

/-- Finalize the next block, which was speculated, and record it. -/
def commit (b : Block) : List Action := [.finalize b [], .drainEnd, .take, .query, .record]

/-- The first block is executed directly and the second speculated on; a job for the third waits. -/
def before : List Action :=
  [.finalize Scenario.block1 [], .drainEnd, .take, .query, .direct, .record, .apply [], .drainEnd] ++
    submit Scenario.block2 ++ speculate Scenario.block2 ++ submit block3

/-- The second block is taken over from the spec index. -/
def takeOver : List Action :=
  [.finalize Scenario.block2 [block3], .drainResult, .drainEnd, .take, .query, .record]

/-- The job for the third block runs between the two halves of the commit of the second. -/
def actions : List Action :=
  before ++ takeOver ++ [.runSpec, .apply [block3], .drainResult, .drainEnd, .reportSpec [], .drainEnd] ++
    submit block4 ++ speculate block4 ++ commit block3 ++ [.apply [], .drainEnd] ++ commit block4

/-- Nothing is speculated on. The node stops while the second block is being recorded and the third waits. -/
def stopping : List Action :=
  [.finalize Scenario.block1 [], .drainEnd, .take, .query, .direct, .record, .apply [], .drainEnd,
    .finalize Scenario.block2 [], .drainEnd, .finalize block3 [], .drainEnd, .take, .query, .direct, .record,
    .closeStore, .apply [], .drainEnd, .take, .query, .direct, .record]

end Window

theorem speculation_refines_two : ∃ l, Ledger.runAll Window.setup 10 (Window.before ++ Window.takeOver).reverse = some l ∧
    (l.app.results 2).isSome ∧ ∀ k en, l.app.results k = some en → Executed Window.setup l.finalized k en := by
  have hsome : (Ledger.runAll Window.setup 10 (Window.before ++ Window.takeOver).reverse).map
      (fun l => (l.app.results 2).isSome) = some true := by decide +kernel
  obtain ⟨l, hl, htwo⟩ := Option.map_eq_some_iff.mp hsome
  exact ⟨l, hl, htwo, (speculation_refines 10 l (.of_runFrom (by decide +kernel) hl)).1⟩

/-- The job for the third block resolves the set before the second block's updates, so the
request for the fourth carries its hash: two validators where the chain has three. If the node stops
while the second block is being recorded, the request for the third carries it. -/
theorem stale_set_is_hashed : (Ledger.runAll Window.setup 10 Window.actions.reverse).map (fun l =>
      (l.finalized.length, (l.app.results 4).map (·.request.nextValidatorsHash),
        (Chain.record Window.setup l.finalized).map (·.1.nextValidatorsHash))) =
      some (4, some (some 2), some (some 3)) ∧
    (Ledger.runAll Window.setup 10 Window.stopping.reverse).map (fun l =>
      (l.finalized.length, (l.app.results 3).map (·.request.nextValidatorsHash),
        (Chain.record Window.setup l.finalized).map (·.1.nextValidatorsHash))) =
      some (3, some (some 2), some (some 3)) := by
  constructor <;> decide +kernel

end MonadBft.Bridge
