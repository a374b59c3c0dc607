/-
  MonadBft.BlockTree.Coherency — coherent blocks rest on coherent blocks, and `Prune` is exact.

  `TryUpdateCoherency` marks a block after its parent, so the parent of a coherent block is the
  root, or coherent, or cut off: `Severed` ids are those below the root's round that cannot come
  back into the tree, and the blocks above them (`Closed`, kept along every run:
  `reach_closed`). A severed block has no path to the root (`Severed.no_path`). So whatever the
  order in which blocks arrive and come back, every block on the path from a coherent block to
  the root is coherent (`path_coherent`), and `Prune` of it goes through (`prune_exact`).

  The queue of `TryUpdateCoherency` is bounded in the model; `coherencyLevels_queue` says that
  the bound never cuts it short.
-/
import MonadBft.BlockTree.Invariant

namespace MonadBft

open Lib Linked ConsensusFullBlock List

namespace BlockTree

variable {U : ConsensusFullBlock → Prop} {t t' : BlockTree} {root root' : RootInfo} {id : BlockId}
  {e : BlockTreeEntry} {b vb : ConsensusFullBlock} {l : List ConsensusFullBlock}

/-- No block with this id can be in a tree over `root`. -/
def Buried (U : ConsensusFullBlock → Prop) (root : RootInfo) (id : BlockId) : Prop :=
  id ≠ root.blockId ∧ ∀ b, U b → b.getId = id → b.header.blockRound ≤ root.round

/-- Cut off from the root: buried, or on top of a severed block. -/
inductive Severed (U : ConsensusFullBlock → Prop) (root : RootInfo) : BlockId → Prop
  | buried {id : BlockId} : Buried U root id → Severed U root id
  | above {b : ConsensusFullBlock} : Severed U root b.getParentId → b.getId ≠ root.blockId → Severed U root b.getId

theorem Severed.ne_root (h : Severed U root id) : id ≠ root.blockId := by
  cases h with
  | buried hb => exact hb.1
  | above _ hne => exact hne

theorem Severed.parent (h : Severed U root b.getId) (hU : U b) (habove : root.round < b.header.blockRound) :
    Severed U root b.getParentId := by
  generalize hid : b.getId = id at h
  cases h with
  | buried hb =>
    have := hb.2 b hU hid
    omega
  | above hp _ =>
    rw [eq_of_getId hid]
    exact hp

/-- No path of the tree leads from a severed block to the root. -/
theorem Severed.no_path (h : Inv U t) (hs : Severed U t.root id)
    (hmem : ∀ vb ∈ l, t.getBlock vb.getId = some vb) : ¬BlockPath id l t.root.blockId := by
  intro hpath
  induction l generalizing id with
  | nil => exact hs.ne_root (nil_iff.mp hpath)
  | cons vb l ih =>
    obtain ⟨rfl, hrest⟩ := cons_iff.mp hpath
    have hvb := hmem vb (.head _)
    exact ih (hs.parent (h.added hvb) (h.above hvb)) (fun b hb => hmem b (.tail vb hb)) hrest

/-- The parent of a coherent block is the root or coherent, unless it is cut off. -/
def Closed (U : ConsensusFullBlock → Prop) (t : BlockTree) : Prop :=
  ∀ vb, t.CoherentEntry vb → t.isCoherent vb.getParentId = true ∨ Severed U t.root vb.getParentId

theorem isCoherent_iff : t.isCoherent id = true ↔
    id = t.root.blockId ∨ ∃ e, t.tree.get id = some e ∧ e.isCoherent = true := by
  unfold isCoherent
  cases t.tree.get id <;> simp

theorem coherentEntry_of_isCoherent (hc : t.isCoherent vb.getId = true) (hne : vb.getId ≠ t.root.blockId)
    (hvb : t.getBlock vb.getId = some vb) : t.CoherentEntry vb := by
  obtain ⟨e, he, rfl⟩ := Option.map_eq_some_iff.mp hvb
  rcases isCoherent_iff.mp hc with hroot | ⟨e', he', hcoh⟩
  · exact absurd hroot hne
  · rw [he] at he'
    obtain rfl := Option.some.inj he'
    exact ⟨e, he, rfl, hcoh⟩

/-- Every block on the path from a coherent block to the root is coherent. -/
theorem path_coherent (h : Inv U t) (hclosed : Closed U t) (hc : t.isCoherent id = true)
    (hpath : BlockPath id l t.root.blockId)
    (hmem : ∀ vb ∈ l, t.getBlock vb.getId = some vb) : ∀ vb ∈ l, t.CoherentEntry vb := by
  induction l generalizing id with
  | nil => simp
  | cons b l ih =>
    have hne : id ≠ t.root.blockId := ne rank_lt hpath (by simp)
    obtain ⟨rfl, hrest⟩ := cons_iff.mp hpath
    have hmem' : ∀ vb ∈ l, t.getBlock vb.getId = some vb := fun vb hvb => hmem vb (.tail b hvb)
    have hb := coherentEntry_of_isCoherent hc hne (hmem b (.head _))
    intro vb hvb
    rcases mem_cons.mp hvb with rfl | hvb
    · exact hb
    · rcases hclosed b hb with hparent | hsev
      · exact ih hparent hrest hmem' vb hvb
      · exact absurd hrest (hsev.no_path h hmem')

/-! ## Add -/

variable (order : BlockId → List Nat)

theorem coherentEntry_insert (hnew : t.getBlock b.getId = none) :
    (t.insert order b).CoherentEntry vb ↔ t.CoherentEntry vb := by
  unfold CoherentEntry
  simp only [get_insert]
  have hnone : t.tree.get b.getId = none := getBlock_eq_none.mp hnew
  by_cases hid : vb.getId = b.getId
  · simp [hid, hnone]
  · simp [hid]

theorem isCoherent_insert (hc : t.isCoherent id = true)
    (hnew : t.getBlock b.getId = none) : (t.insert order b).isCoherent id = true := by
  rw [isCoherent_iff] at hc ⊢
  rcases hc with hroot | ⟨e, he, hcoh⟩
  · exact .inl hroot
  · have hid : id ≠ b.getId := by
      rintro rfl
      rw [getBlock_eq_none.mp hnew] at he
      cases he
    rw [get_insert, if_neg hid, he]
    exact .inr ⟨_, rfl, hcoh⟩

theorem coherentEntry_add : (t.add order b).CoherentEntry vb ↔ t.CoherentEntry vb := by
  by_cases hv : t.isValidToInsert b.header
  · rw [add_of_valid order hv]
    exact coherentEntry_insert order (isValidToInsert_iff.mp hv).1
  · rw [add_of_invalid order hv]

theorem isCoherent_add (hc : t.isCoherent id = true) : (t.add order b).isCoherent id = true := by
  by_cases hv : t.isValidToInsert b.header
  · rw [add_of_valid order hv]
    exact isCoherent_insert order hc (isValidToInsert_iff.mp hv).1
  · rw [add_of_invalid order hv]
    exact hc

theorem Closed.add (hclosed : Closed U t) (order : BlockId → List Nat) : Closed U (t.add order b) := by
  intro vb hvb
  rw [root_add]
  rcases hclosed vb ((coherentEntry_add order).mp hvb) with hc | hs
  · exact .inl (isCoherent_add order hc)
  · exact .inr hs

/-! ## TryUpdateCoherency -/

section Update

variable {policy : BlockPolicy} {sr : StateRead} {out path : List ConsensusFullBlock}

theorem head_getId {k k' : BlockId} (hpath : BlockPath k l.reverse k')
    (hlast : l.getLast? = some vb) : vb.getId = k := by
  rw [← head?_reverse] at hlast
  cases hr : l.reverse with
  | nil => simp [hr] at hlast
  | cons b rest =>
    rw [hr] at hpath hlast
    obtain rfl := Option.some.inj hlast
    exact (cons_iff.mp hpath).1.symm

theorem checkNext_some {kids : List BlockId} (h : t.checkNext policy sr id = .ok (some (b, kids))) :
    b.getId = id ∧ t.getBlock id = some b ∧ kids = t.children id := by
  unfold checkNext at h
  split at h
  · cases h
  · rename_i path hpath
    split at h
    · cases h
    · rename_i nextBlock hlast
      obtain ⟨r, -, h⟩ := bind_eq_ok.mp h
      split at h
      · obtain ⟨rfl, rfl⟩ := Prod.mk.inj (Option.some.inj (pure_eq_ok.mp h))
        obtain ⟨hl, hmem⟩ := getBlocksOnPathFromRoot_eq_some.mp hpath
        have hid := head_getId hl hlast
        refine ⟨hid, ?_, rfl⟩
        rw [← hid]
        exact hmem _ (mem_of_getLast? hlast)
      · cases pure_eq_ok.mp h

variable {n m : Nat} {level : List BlockId}

/-- One level of the queue: what passes, and the levels below it. -/
theorem coherencyLevels_ok (h : t.coherencyLevels policy sr (n + 1) level = .ok out) :
    ∃ (passed : List (ConsensusFullBlock × List BlockId)) (rest : List ConsensusFullBlock),
      (∀ p ∈ passed, ∃ id ∈ level, t.checkNext policy sr id = .ok (some p)) ∧
      t.coherencyLevels policy sr n (passed.flatMap (·.2)) = .ok rest ∧ out = passed.map (·.1) ++ rest := by
  cases level with
  | nil =>
    obtain rfl : [] = out := by simpa [coherencyLevels] using h
    exact ⟨[], [], by simp, by cases n <;> rfl, rfl⟩
  | cons id level =>
    unfold coherencyLevels at h
    obtain ⟨checked, hchecked, h⟩ := bind_eq_ok.mp h
    obtain ⟨rest, hrest, h⟩ := bind_eq_ok.mp h
    refine ⟨checked.reduceOption, rest, ?_, hrest, (pure_eq_ok.mp h).symm⟩
    intro p hp
    obtain ⟨o, ho, hop⟩ := mem_filterMap.mp hp
    obtain rfl : o = some p := hop
    exact mem_of_mapM_eq_ok hchecked ho

theorem checkNext_child (hi : Inv U t) {id c : BlockId} {p : ConsensusFullBlock × List BlockId}
    (h : t.checkNext policy sr id = .ok (some p)) (hc : c ∈ p.2) :
    ∃ vb, t.getBlock c = some vb ∧ vb.getParentId = p.1.getId := by
  obtain ⟨rfl, hget, hkids⟩ := checkNext_some h
  obtain ⟨e, he, -⟩ := Option.map_eq_some_iff.mp hget
  rw [hkids, show t.children p.1.getId = e.childrenBlocks by simp [children, he]] at hc
  exact ((hi.children he).2 _).mp hc

theorem coherencyLevels_mem (hi : Inv U t) (h : t.coherencyLevels policy sr n level = .ok out) (hvb : vb ∈ out) :
    t.getBlock vb.getId = some vb ∧ (vb.getId ∈ level ∨ vb.getParentId ∈ out.map (·.getId)) := by
  induction n generalizing level out with
  | zero =>
    obtain rfl : [] = out := by cases level <;> simpa [coherencyLevels] using h
    cases hvb
  | succ n ih =>
    obtain ⟨passed, rest, hpassed, hrest, rfl⟩ := coherencyLevels_ok h
    rw [map_append]
    rcases mem_append.mp hvb with hvb | hvb
    · obtain ⟨p, hp, rfl⟩ := mem_map.mp hvb
      obtain ⟨id, hmem, hid⟩ := hpassed p hp
      obtain ⟨rfl, hget, -⟩ := checkNext_some hid
      exact ⟨hget, .inl hmem⟩
    · obtain ⟨hget, hkid | hparent⟩ := ih hrest hvb
      · -- the next level is made of the children of what passed
        obtain ⟨p, hp, hkid⟩ := mem_flatMap.mp hkid
        obtain ⟨id, -, hid⟩ := hpassed p hp
        obtain ⟨vb', hvb', hparent⟩ := checkNext_child hi hid hkid
        obtain rfl := eq_of_getId (getBlock_keyed hvb')
        rw [hparent]
        exact ⟨hget, .inr (mem_append_left _ (mem_map_of_mem (mem_map_of_mem hp)))⟩
      · exact ⟨hget, .inr (mem_append_right _ hparent)⟩

/-- The queue after some levels. -/
def levelAfter (t : BlockTree) (policy : BlockPolicy) (sr : StateRead) : Nat → List BlockId → Except Panic (List BlockId)
  | 0, level => .ok level
  | n + 1, level => do
    let passed ← level.mapM (t.checkNext policy sr)
    t.levelAfter policy sr n (passed.reduceOption.flatMap (·.2))

/-- Every id in `level` is that of a block at the end of a path of `k` blocks in the tree. -/
def AtDepth (t : BlockTree) (k : Nat) (level : List BlockId) : Prop :=
  ∀ c ∈ level, ∃ l b', l.length = k ∧ BlockPath c l b' ∧ ∀ vb ∈ l, t.getBlock vb.getId = some vb

/-- The queue goes down one level of the tree at a time. -/
theorem AtDepth.next {k : Nat} {checked : List (Option (ConsensusFullBlock × List BlockId))} (hi : Inv U t)
    (hlevel : t.AtDepth k level) (hchecked : level.mapM (t.checkNext policy sr) = .ok checked) :
    t.AtDepth (k + 1) (checked.reduceOption.flatMap (·.2)) := by
  intro c hc
  obtain ⟨p, hp, hkid⟩ := mem_flatMap.mp hc
  obtain ⟨o, ho, hop⟩ := mem_filterMap.mp hp
  obtain rfl : o = some p := hop
  obtain ⟨id, hid, hnext⟩ := mem_of_mapM_eq_ok hchecked ho
  obtain ⟨vb, hvb, hparent⟩ := checkNext_child hi hnext hkid
  obtain ⟨rfl, -, -⟩ := checkNext_some hnext
  obtain ⟨l, b', hlen, hl, hmem⟩ := hlevel _ hid
  have hvbid := getBlock_keyed hvb
  refine ⟨vb :: l, b', by simp [hlen], cons_iff.mpr ⟨hvbid.symm, by rw [hparent]; exact hl⟩, ?_⟩
  intro b hb
  rcases mem_cons.mp hb with rfl | hb
  · rw [hvbid]
    exact hvb
  · exact hmem b hb

theorem AtDepth.eq_nil {k : Nat} (hlevel : t.AtDepth k level) (hk : t.tree.entries.length < k) : level = [] := by
  refine eq_nil_iff_forall_not_mem.mpr fun c hc => ?_
  obtain ⟨l, b', hlen, hl, hmem⟩ := hlevel c hc
  have := length_le_of_path hl hmem
  omega

theorem AtDepth.levelAfter {k : Nat} {last : List BlockId} (hi : Inv U t) (hlevel : t.AtDepth k level)
    (h : t.levelAfter policy sr n level = .ok last) : t.AtDepth (k + n) last := by
  induction n generalizing k level with
  | zero =>
    cases h
    exact hlevel
  | succ n ih =>
    obtain ⟨checked, hchecked, h⟩ := bind_eq_ok.mp h
    rw [show k + (n + 1) = k + 1 + n by omega]
    exact ih (hlevel.next hi hchecked) h

theorem coherencyLevels_enough (hi : Inv U t) {k : Nat} (hlevel : t.AtDepth k level)
    (hn : t.tree.entries.length < n + k) (hm : t.tree.entries.length < m + k) :
    t.coherencyLevels policy sr n level = t.coherencyLevels policy sr m level := by
  induction n generalizing k m level with
  | zero =>
    rw [hlevel.eq_nil (by omega)]
    cases m <;> rfl
  | succ n ih =>
    cases level with
    | nil => cases m <;> rfl
    | cons c level =>
      have hle : ¬t.tree.entries.length < k := fun hlt => by cases hlevel.eq_nil hlt
      obtain ⟨m, rfl⟩ : ∃ m', m = m' + 1 := ⟨m - 1, by omega⟩
      unfold coherencyLevels
      cases hchecked : (c :: level).mapM (t.checkNext policy sr) with
      | error p => rfl
      | ok checked =>
        show (t.coherencyLevels policy sr n _ >>= _) = (t.coherencyLevels policy sr m _ >>= _)
        rw [ih (m := m) (hlevel.next hi hchecked) (by omega) (by omega)]

/-- `TryUpdateCoherency` runs its queue to the end: after as many levels as the tree has entries the queue
is empty, and a larger bound changes nothing. -/
theorem coherencyLevels_queue (hi : Inv U t) (hb : t.getBlock b.getId = some b) :
    (∀ last, t.levelAfter policy sr t.tree.entries.length [b.getId] = .ok last → last = []) ∧
    ∀ m, t.tree.entries.length ≤ m → t.coherencyLevels policy sr m [b.getId] =
      t.coherencyLevels policy sr (t.tree.entries.length + 1) [b.getId] := by
  have hlevel : t.AtDepth 1 [b.getId] := by
    intro c hc
    obtain rfl := mem_singleton.mp hc
    refine ⟨[b], b.getParentId, rfl, cons b (nil _), ?_⟩
    intro vb hvb
    obtain rfl := mem_singleton.mp hvb
    exact hb
  exact ⟨fun last h => (hlevel.levelAfter hi h).eq_nil (by omega),
    fun m hm => coherencyLevels_enough hi hlevel (by omega) (by omega)⟩

open Scenario in
theorem coherencyLevels_queue_twoBlocks : twoBlocks.levelAfter passthru liveEnv.stateRead 2 [block1.getId] = .ok [] ∧
    twoBlocks.coherencyLevels passthru liveEnv.stateRead 9 [block1.getId] =
      twoBlocks.coherencyLevels passthru liveEnv.stateRead 3 [block1.getId] := by
  have hi := reach_inv roundsGrow_firstTwo reach_twoBlocks
  exact ⟨by decide +kernel, (coherencyLevels_queue hi rfl).2 9 (by decide)⟩

/-- The parent of the first incoherent block on the path from the root is coherent. -/
theorem first_incoherent_parent (hpath : t.getBlocksOnPathFromRoot id = some path)
    (hfind : path.find? (fun b => !((t.tree.get b.getId).map (·.isCoherent)).getD false) = some b) :
    t.isCoherent b.getParentId = true := by
  obtain ⟨hl, hmem⟩ := getBlocksOnPathFromRoot_eq_some.mp hpath
  obtain ⟨-, before, after, rfl, hbefore⟩ := find?_eq_some_iff_append.mp hfind
  rw [reverse_append, reverse_cons, append_assoc] at hl
  obtain ⟨k, -, hl⟩ := append_iff.mp hl
  obtain ⟨-, hl⟩ := cons_iff.mp hl
  rw [isCoherent_iff]
  cases hr : before.reverse with
  | nil =>
    rw [hr] at hl
    exact .inl (nil_iff.mp hl)
  | cons p rest =>
    rw [hr] at hl
    have hp : p ∈ before := by
      rw [← mem_reverse, hr]
      exact .head _
    have hcoh := hbefore p hp
    obtain ⟨e, he, -⟩ := Option.map_eq_some_iff.mp (hmem p (mem_append_left _ hp))
    rw [(cons_iff.mp hl).1]
    exact .inr ⟨e, he, by simpa [he] using hcoh⟩

theorem isCoherent_mark (out : List ConsensusFullBlock)
    (hc : t.isCoherent id = true ∨ id ∈ out.map (·.getId) ∧ (t.tree.get id).isSome) :
    (out.foldl (fun t b => t.setCoherent b.getId) t).isCoherent id = true := by
  rw [isCoherent_iff, (setCoherent_foldl_frame t out).1, get_setCoherent_foldl]
  rcases hc with hc | ⟨hmem, hsome⟩
  · rcases isCoherent_iff.mp hc with hroot | ⟨e, he, hcoh⟩
    · exact .inl hroot
    · exact .inr ⟨_, by rw [he]; rfl, by simp [hcoh]⟩
  · obtain ⟨e, he⟩ := Option.isSome_iff_exists.mp hsome
    exact .inr ⟨_, by rw [he]; rfl, by simp only [hmem, decide_true, Bool.or_true]⟩

theorem marked_parent (hi : Inv U t) (h : t.tryUpdateCoherency policy sr id = .ok (t', out)) (hvb : vb ∈ out) :
    t.isCoherent vb.getParentId = true ∨ vb.getParentId ∈ out.map (·.getId) ∧ (t.tree.get vb.getParentId).isSome := by
  unfold BlockTree.tryUpdateCoherency at h
  split at h
  · obtain ⟨-, rfl⟩ := Prod.mk.inj (Except.ok.inj h)
    cases hvb
  · rename_i path hpath
    split at h
    · obtain ⟨-, rfl⟩ := Prod.mk.inj (Except.ok.inj h)
      cases hvb
    · rename_i b hfind
      obtain ⟨out', hlevels, h⟩ := bind_eq_ok.mp h
      obtain ⟨-, rfl⟩ := Prod.mk.inj (pure_eq_ok.mp h)
      rcases (coherencyLevels_mem hi hlevels hvb).2 with hfirst | hparent
      · obtain rfl := eq_of_getId (mem_singleton.mp hfirst)
        exact .inl (first_incoherent_parent hpath hfind)
      · obtain ⟨p, hp, hpid⟩ := mem_map.mp hparent
        obtain ⟨e, he, -⟩ := Option.map_eq_some_iff.mp (coherencyLevels_mem hi hlevels hp).1
        exact .inr ⟨hparent, by rw [← hpid, he]; rfl⟩

theorem coherentEntry_mark (out : List ConsensusFullBlock)
    (h : (out.foldl (fun t b => t.setCoherent b.getId) t).CoherentEntry vb) : t.CoherentEntry vb ∨ vb ∈ out := by
  obtain ⟨e, he, hblock, hcoh⟩ := h
  rw [get_setCoherent_foldl] at he
  obtain ⟨e', he', rfl⟩ := Option.map_eq_some_iff.mp he
  obtain rfl : e'.validatedBlock = vb := hblock
  by_cases hold : e'.isCoherent
  · exact .inl ⟨e', he', rfl, hold⟩
  · have hmem : e'.validatedBlock.getId ∈ out.map (·.getId) := by simpa [hold] using hcoh
    obtain ⟨b, hb, hid⟩ := mem_map.mp hmem
    obtain rfl := eq_of_getId hid
    exact .inr hb

theorem Closed.tryUpdateCoherency (hi : Inv U t) (hclosed : Closed U t)
    (h : t.tryUpdateCoherency policy sr id = .ok (t', out)) : Closed U t' := by
  obtain rfl := tryUpdateCoherency_ok h
  intro vb hvb
  rw [(setCoherent_foldl_frame t out).1]
  rcases coherentEntry_mark out hvb with hold | hnew
  · rcases hclosed vb hold with hc | hs
    · exact .inl (isCoherent_mark out (.inl hc))
    · exact .inr hs
  · exact .inl (isCoherent_mark out (marked_parent hi h hnew))

end Update

/-! ## Prune -/

section Prune

variable {newRoot : BlockId} {path : List ConsensusFullBlock} (hU : RoundsGrow U) (h : Inv U t)
  (he : t.tree.get newRoot = some e) (hpath : BlockPath newRoot path t.root.blockId)
  (hmem : ∀ vb ∈ path, t.getBlock vb.getId = some vb)
include hU h he hpath hmem

omit hU in
/-- What is severed stays so: the new root has a path to the old one, which nothing severed has. -/
theorem Severed.committed (hs : Severed U t.root id) : Severed U (rootOf e.validatedBlock) id := by
  have hid : e.validatedBlock.getId = newRoot := t.keyed he
  have hnot : ¬Severed U t.root newRoot := fun hs => hs.no_path h hmem hpath
  have hround := h.above (show t.getBlock newRoot = some e.validatedBlock by simp [getBlock, he])
  induction hs with
  | buried hb =>
    refine .buried ⟨?_, ?_⟩
    · rintro rfl
      refine hnot ?_
      rw [← hid]
      exact .buried hb
    · intro b hbU hbid
      have := hb.2 b hbU hbid
      show b.header.blockRound ≤ e.validatedBlock.header.blockRound
      omega
  | @above b hp hne ih =>
    refine .above ih ?_
    intro heq
    refine hnot ?_
    rw [← hid]
    have hb : b.getId = e.validatedBlock.getId := heq
    rw [← hb]
    exact .above hp hne

/-- The old root is below the QC of the block that the path has on it. -/
theorem root_buried (hne : newRoot ≠ t.root.blockId) : Buried U (rootOf e.validatedBlock) t.root.blockId := by
  refine ⟨?_, ?_⟩
  · show t.root.blockId ≠ e.validatedBlock.getId
    rw [t.keyed he]
    exact hne.symm
  · intro b hbU hbid
    show b.header.blockRound ≤ e.validatedBlock.header.blockRound
    rcases eq_nil_or_concat path with rfl | ⟨init, c, rfl⟩
    · exact absurd (nil_iff.mp hpath) hne
    · have hc : c ∈ init.concat c := by simp
      have hparent : c.getParentId = t.root.blockId := by
        rw [concat_eq_append] at hpath
        exact (snoc_iff.mp hpath).2
      have := (hU c (h.added (hmem c hc))).2 b hbU (by rw [hbid, hparent])
      have := path_qc_lt hU h he hpath hmem hc
      omega

omit hpath hmem in
/-- A block whose QC is below the new root's round: the parent is below that round too. -/
theorem severed_of_qc_lt (hbU : U b) (hlt : b.header.qc.getRound < e.validatedBlock.header.blockRound)
    (hne : b.getId ≠ newRoot) : Severed U (rootOf e.validatedBlock) b.getId := by
  have hroot : t.getBlock newRoot = some e.validatedBlock := by simp [getBlock, he]
  have hid := getBlock_keyed hroot
  have hparent : ∀ p, U p → p.getId = b.getParentId → p.header.blockRound ≤ b.header.qc.getRound :=
    (hU b hbU).2
  refine .above (.buried ⟨?_, ?_⟩) ?_
  · intro heq
    have := hparent e.validatedBlock (h.added hroot) heq.symm
    omega
  · intro p hp hpid
    have := hparent p hp hpid
    show p.header.blockRound ≤ e.validatedBlock.header.blockRound
    omega
  · show b.getId ≠ e.validatedBlock.getId
    rw [hid]
    exact hne

theorem Closed.committed (hne : newRoot ≠ t.root.blockId) (hclosed : Closed U t) : Closed U (t.committed e path) := by
  have hid : e.validatedBlock.getId = newRoot := t.keyed he
  have hget := get_committed_eq hU h he hpath hmem
  rintro vb ⟨e₁, he₁, rfl, hcoh⟩
  rw [hget, Option.filter_eq_some_iff] at he₁
  show _ ∨ Severed U (rootOf e.validatedBlock) _
  rcases hclosed _ ⟨e₁, he₁.1, rfl, hcoh⟩ with hc | hs
  · rcases isCoherent_iff.mp hc with hroot | ⟨p, hp, hpc⟩
    · rw [hroot]
      exact .inr (.buried (root_buried hU h he hpath hmem hne))
    · by_cases hkept : e.validatedBlock.header.blockRound ≤ p.validatedBlock.header.qc.getRound
      · left
        rw [isCoherent_iff, hget, hp, Option.filter_some, if_pos (by simpa using hkept)]
        exact .inr ⟨p, rfl, hpc⟩
      · by_cases hnew : e₁.validatedBlock.getParentId = newRoot
        · left
          rw [isCoherent_iff]
          exact .inl (hnew.trans hid.symm)
        · right
          have hpid := t.keyed hp
          have hpget : t.getBlock e₁.validatedBlock.getParentId = some p.validatedBlock := by simp [getBlock, hp]
          rw [← hpid]
          refine severed_of_qc_lt hU h he (h.added hpget) (by omega) ?_
          rw [hpid]
          exact hnew
  · exact .inr (hs.committed h he hpath hmem)

end Prune

theorem Closed.prune (hU : RoundsGrow U) (h : Inv U t) (hclosed : Closed U t) {newRoot : BlockId}
    {commit : List ConsensusFullBlock} (ht : t.prune newRoot = .ok (t', commit)) : Closed U t' := by
  refine prune_cases ht hclosed fun e path hroot he hpath hmem => ?_
  exact Closed.committed hU h he hpath (fun vb hvb => (hmem vb hvb).getBlock) hroot hclosed

theorem reach_closed (hU : RoundsGrow U) (h : Reach U root t) : Closed U t := by
  induction h with
  | new =>
    rintro vb ⟨e, he, -⟩
    cases he
  | add order _ _ ih => exact ih.add order
  | tryUpdateCoherency hr ht ih => exact ih.tryUpdateCoherency (reach_inv hU hr) ht
  | prune hr ht ih => exact ih.prune hU (reach_inv hU hr) ht

/-! ## Prune is exact -/

/-- The blocks of the tree from which parents lead to `id`. -/
def Descendant (t : BlockTree) (id c : BlockId) : Prop :=
  ∃ l, l ≠ [] ∧ BlockPath c l id ∧ ∀ vb ∈ l, t.getBlock vb.getId = some vb

/-- The child list of a block of the tree, or of the root. -/
def childList (t : BlockTree) (id : BlockId) : List BlockId :=
  if id = t.root.blockId then t.rootKids else t.children id

theorem descendant_kept (hU : RoundsGrow U) (h : Inv U t) {newRoot c : BlockId} {path : List ConsensusFullBlock}
    (he : t.tree.get newRoot = some e) (hpath : BlockPath newRoot path t.root.blockId)
    (hmem : ∀ vb ∈ path, t.getBlock vb.getId = some vb) (hc : t.Descendant newRoot c) :
    (t.committed e path).tree.get c = t.tree.get c := by
  obtain ⟨l, hl, hcl, hlmem⟩ := hc
  cases l with
  | nil => exact absurd rfl hl
  | cons b rest =>
    obtain ⟨rfl, -⟩ := cons_iff.mp hcl
    have hroot : t.getBlock newRoot = some e.validatedBlock := by simp [getBlock, he]
    -- the new root closes the path, so its round is at most that of the descendant's QC
    have hwhole : BlockPath b.getId (b :: (rest ++ [e.validatedBlock])) e.validatedBlock.getParentId := by
      rw [← cons_append]
      refine snoc_iff.mpr ⟨?_, rfl⟩
      rw [getBlock_keyed hroot]
      exact hcl
    have hall : ∀ vb ∈ b :: (rest ++ [e.validatedBlock]), U vb := by
      intro vb hvb
      rw [← cons_append] at hvb
      rcases mem_append.mp hvb with hvb | hvb
      · exact h.added (hlmem vb hvb)
      · rw [mem_singleton.mp hvb]
        exact h.added hroot
    have hle : e.validatedBlock.header.blockRound ≤ b.header.qc.getRound :=
      path_round_le hU hwhole hall (by simp)
    obtain ⟨e', he', hb⟩ := Option.map_eq_some_iff.mp (hlmem b (.head _))
    rw [get_committed_eq hU h he hpath hmem, he', Option.filter_some, if_pos]
    rw [hb]
    simpa using hle

/-- `Prune` of a coherent block with a path to the root, in any tree reached with blocks whose
rounds grow along the chain. -/
theorem prune_exact (hU : RoundsGrow U) (h : Reach U root t) {newRoot : BlockId}
    {path : List ConsensusFullBlock} (hc : t.isCoherent newRoot = true)
    (hpath : t.getBlocksOnPathFromRoot newRoot = some path) : ∃ t', t.prune newRoot = .ok (t', path) ∧
      (∀ vb ∈ path, t'.getBlock vb.getId = none) ∧
      t'.root = (path.getLast?.map rootOf).getD t.root ∧ t'.root.blockId = newRoot ∧ t'.rootKids = t.childList newRoot ∧
      (∀ c, t.Descendant newRoot c → t'.tree.get c = t.tree.get c) ∧
      ∀ c e, t'.tree.get c = some e → t.tree.get c = some e := by
  have hi := reach_inv hU h
  obtain ⟨hl, hmem⟩ := getBlocksOnPathFromRoot_eq_some.mp hpath
  by_cases hroot : newRoot = t.root.blockId
  · -- nothing to commit
    have hnil : path = [] := by
      have hle := Linked.rank_le (r := BlockId.rank) ConsensusFullBlock.rank_lt hl
      rw [hroot, List.length_reverse] at hle
      exact List.length_eq_zero_iff.mp (by omega)
    subst hnil
    refine ⟨t, by rw [hroot, prune_root], by simp, rfl, hroot.symm, ?_, fun _ _ => rfl, fun _ _ he => he⟩
    simp [childList, hroot]
  · have hmem' : ∀ vb ∈ path.reverse, t.getBlock vb.getId = some vb :=
      fun vb hvb => hmem vb (List.mem_reverse.mp hvb)
    have hcoh := path_coherent hi (reach_closed hU h) hc hl hmem'
    obtain ⟨e, he, -⟩ : ∃ e, t.tree.get newRoot = some e ∧ e.isCoherent = true :=
      (isCoherent_iff.mp hc).resolve_left hroot
    have hid := t.keyed he
    refine ⟨t.committed e path.reverse, (prune_eq_ok hroot).mpr ⟨e, path.reverse, he, hl, hcoh, by simp, rfl⟩,
      ?_, ?_, hid, ?_, ?_, ?_⟩
    · intro vb hvb
      unfold getBlock
      rw [get_committed, if_pos (by simpa using ⟨vb, hvb, rfl⟩)]
      rfl
    · cases hlast : path.getLast? with
      | none =>
        rw [List.getLast?_eq_none_iff] at hlast
        subst hlast
        exact absurd (Linked.nil_iff.mp hl) hroot
      | some vb =>
        have hvb := hmem vb (List.mem_of_getLast? hlast)
        rw [head_getId hl hlast] at hvb
        have : e.validatedBlock = vb := by simpa [getBlock, he] using hvb
        rw [← this]
        rfl
    · show e.childrenBlocks = _
      simp [childList, hroot, children, he]
    · intro c hdesc
      exact descendant_kept hU hi he hl hmem' hdesc
    · intro c e' he'
      rw [get_committed_eq hU hi he hl hmem', Option.filter_eq_some_iff] at he'
      exact he'.1

section Example

open Scenario

/-- Both blocks are found coherent, and the first has a path to the root. -/
def twoBlocksCoherent : Bool :=
  match twoBlocks.tryUpdateCoherency passthru liveEnv.stateRead block2.getId with
  | .ok (t, _) => t.isCoherent block1.getId && decide (t.getBlocksOnPathFromRoot block1.getId = some [block1])
  | .error _ => false

theorem prune_exact_twoBlocks : ∃ t t' : BlockTree, t.prune block1.getId = .ok (t', [block1]) ∧
    t'.root.blockId = block1.getId ∧ t'.getBlock block1.getId = none := by
  have hcheck : twoBlocksCoherent = true := by decide +kernel
  unfold twoBlocksCoherent at hcheck
  cases hu : twoBlocks.tryUpdateCoherency passthru liveEnv.stateRead block2.getId with
  | error p =>
    rw [hu] at hcheck
    cases hcheck
  | ok r =>
    obtain ⟨t, out⟩ := r
    rw [hu] at hcheck
    simp only [Bool.and_eq_true, decide_eq_true_eq] at hcheck
    obtain ⟨t', hprune, hgone, -, hroot, -⟩ :=
      prune_exact roundsGrow_firstTwo (reach_twoBlocks.tryUpdateCoherency hu) hcheck.1 hcheck.2
    exact ⟨t, t', hprune, hroot, hgone block1 (by simp)⟩

end Example

end BlockTree

end MonadBft
