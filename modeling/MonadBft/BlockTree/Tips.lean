/-
  MonadBft.BlockTree.Tips — the searches of the block tree
  (`GetHighCommittableQc`, `highestRoundCoherentDescendant`, `GetCanonicalCoherentTip`).

  All three follow child lists. Whatever blocks a tree has had, an id that is listed is that of
  a child, and the children in the tree are listed (`reach_listed`): a list may name blocks that
  were pruned, and a block that came back may be listed twice. So `GetHighCommittableQc` sees
  exactly the blocks with a path to the root (`mem_visit_children`) and returns the highest QC
  that commits a coherent block (`getHighCommittableQc_eq_some`, `getHighCommittableQc_eq_none`).

  `GetCanonicalCoherentTip` stays with the block of the QC if that has its path to the root;
  otherwise it starts from the root (`canonical_tip`). A coherent block that has lost its path
  is passed over (`severed_block_passed_over`).
-/
import MonadBft.BlockTree.Connected
import MonadBft.Lib.Bfs

namespace MonadBft

open Lib List

namespace BlockTree

variable {U : ConsensusFullBlock → Prop} {t t' : BlockTree} {root : RootInfo} {id c x : BlockId}
  {b vb : ConsensusFullBlock} {e : BlockTreeEntry} (ids : List BlockId)

theorem path_length_le {path : List ConsensusFullBlock} (h : t.getBlocksOnPathFromRoot id = some path) :
    path.length ≤ t.tree.entries.length := by
  obtain ⟨hl, hmem⟩ := getBlocksOnPathFromRoot_eq_some.mp h
  have := length_le_of_path hl fun vb hvb => hmem vb (mem_reverse.mp hvb)
  rwa [length_reverse] at this

/-! ## Child lists over any blocks -/

/-- Every id of `l` is that of a child of `id`, and the children that the store has are in `l`. -/
def Names (get : BlockId → Option ConsensusFullBlock) (id : BlockId) (l : List BlockId) : Prop :=
  (∀ vb : ConsensusFullBlock, vb.getId ∈ l → vb.getParentId = id) ∧
    ∀ vb, get vb.getId = some vb → vb.getParentId = id → vb.getId ∈ l

section Names

variable {get get' : BlockId → Option ConsensusFullBlock} {l : List BlockId}

theorem Names.mono (h : Names get id l) (hsub : ∀ c vb, get' c = some vb → get c = some vb) : Names get' id l :=
  ⟨h.1, fun vb hvb => h.2 vb (hsub _ vb hvb)⟩

theorem Names.insert (h : Names get id l) (hget : ∀ c, get' c = if c = b.getId then some b else get c) :
    Names get' id (if b.getParentId = id then l ++ [b.getId] else l) := by
  by_cases hp : b.getParentId = id
  · rw [if_pos hp]
    refine ⟨?_, ?_⟩
    · intro vb hvb
      rcases mem_append.mp hvb with hvb | hvb
      · exact h.1 vb hvb
      · rw [ConsensusFullBlock.eq_of_getId (mem_singleton.mp hvb)]
        exact hp
    · intro vb hvb hparent
      rw [hget] at hvb
      by_cases hid : vb.getId = b.getId
      · simp [hid]
      · rw [if_neg hid] at hvb
        exact mem_append_left _ (h.2 vb hvb hparent)
  · rw [if_neg hp]
    refine ⟨h.1, ?_⟩
    intro vb hvb hparent
    rw [hget] at hvb
    by_cases hid : vb.getId = b.getId
    · rw [ConsensusFullBlock.eq_of_getId hid] at hparent
      exact absurd hparent hp
    · rw [if_neg hid] at hvb
      exact h.2 vb hvb hparent

end Names

structure Listed (t : BlockTree) : Prop where
  children : ∀ {id e}, t.tree.get id = some e → Names t.getBlock id e.childrenBlocks
  rootChildren : Names t.getBlock t.root.blockId t.rootKids

theorem names_childrenOf (t : BlockTree) (b : ConsensusFullBlock) : Names t.getBlock b.getId (t.childrenOf b.getId) := by
  refine ⟨?_, fun vb hvb hparent => mem_childrenOf.mpr ⟨vb, hvb, hparent⟩⟩
  intro vb hvb
  obtain ⟨vb', hvb', hparent⟩ := mem_childrenOf.mp hvb
  rw [← ConsensusFullBlock.eq_of_getId (getBlock_keyed hvb')]
  exact hparent

theorem Listed.add (h : t.Listed) (order : BlockId → List Nat) (b : ConsensusFullBlock) : (t.add order b).Listed := by
  by_cases hv : t.isValidToInsert b.header
  · have hget := getBlock_insert t order b
    rw [add_of_valid order hv]
    refine ⟨?_, h.rootChildren.insert hget⟩
    intro id e he
    change (t.insert order b).tree.get id = some e at he
    show Names (t.insert order b).getBlock id e.childrenBlocks
    rw [get_insert] at he
    by_cases hid : id = b.getId
    · rw [if_pos hid] at he
      obtain rfl := Option.some.inj he
      have hnames := (names_childrenOf t b).insert hget
      rw [if_neg (getId_ne_getParentId b).symm] at hnames
      rw [hid]
      have hperm := shuffle_perm (order b.getId) (t.childrenOf b.getId)
      exact ⟨fun vb hvb => hnames.1 vb (hperm.mem_iff.mp hvb), fun vb hvb hp => hperm.mem_iff.mpr (hnames.2 vb hvb hp)⟩
    · rw [if_neg hid] at he
      obtain ⟨e', he', rfl⟩ := Option.map_eq_some_iff.mp he
      exact (h.children he').insert hget
  · rw [add_of_invalid order hv]
    exact h

theorem Listed.mark (h : t.Listed) (out : List ConsensusFullBlock) :
    (out.foldl (fun t b => t.setCoherent b.getId) t).Listed := by
  obtain ⟨hroot, hkids, -⟩ := setCoherent_foldl_frame t out
  refine ⟨?_, ?_⟩
  · intro id e he
    rw [get_setCoherent_foldl] at he
    obtain ⟨e', he', rfl⟩ := Option.map_eq_some_iff.mp he
    rw [getBlock_setCoherent_foldl]
    show Names t.getBlock id e'.childrenBlocks
    exact h.children he'
  · rw [getBlock_setCoherent_foldl, hroot, hkids]
    exact h.rootChildren

theorem Listed.committed (h : t.Listed) {newRoot : BlockId} (he : t.tree.get newRoot = some e)
    (path : List ConsensusFullBlock) : (t.committed e path).Listed := by
  have hkept : ∀ id e', (t.committed e path).tree.get id = some e' → t.tree.get id = some e' := by
    intro id e' he'
    rw [get_committed] at he'
    split_ifs at he'
    exact (Option.filter_eq_some_iff.mp he').1
  have hsub : ∀ c vb, (t.committed e path).getBlock c = some vb → t.getBlock c = some vb := by
    intro c vb hvb
    obtain ⟨e', he', rfl⟩ := Option.map_eq_some_iff.mp hvb
    rw [getBlock, hkept c e' he']
    rfl
  refine ⟨fun he' => (h.children (hkept _ _ he')).mono hsub, ?_⟩
  show Names _ e.validatedBlock.getId e.childrenBlocks
  rw [t.keyed he]
  exact (h.children he).mono hsub

theorem reach_listed (h : Reach U root t) : t.Listed := by
  induction h with
  | new =>
    refine ⟨?_, ?_, ?_⟩
    · intro id e he
      cases he
    · intro vb hvb
      cases hvb
    · intro vb hvb
      cases hvb
  | add order _ _ ih => exact ih.add order _
  | tryUpdateCoherency _ ht ih =>
    obtain rfl := tryUpdateCoherency_ok ht
    exact ih.mark _
  | prune _ ht ih => exact prune_cases ht ih fun e path _ he _ _ => ih.committed he path

/-! ## What the searches visit -/

theorem visit_eq_levels (next : BlockId → List BlockId) (n : Nat) (l : List BlockId) : visit next n l = levels next n l := by
  induction n generalizing l with
  | zero => cases l <;> rfl
  | succ n ih =>
    cases l with
    | nil => rfl
    | cons a l => exact congrArg (a :: l ++ ·) (ih _)

theorem mem_children (h : t.Listed) (hc : vb.getId ∈ t.children id) :
    vb.getParentId = id ∧ ∃ e, t.tree.get id = some e := by
  unfold children at hc
  cases he : t.tree.get id with
  | none => simp [he] at hc
  | some e => exact ⟨(h.children he).1 vb (by simpa [he] using hc), e, rfl⟩

theorem path_of_reaches_children (h : t.Listed) {a : BlockId} (ha : a ∈ t.rootKids) (hreach : Reaches t.children a x)
    (hid : b.getId = x) (hb : t.getBlock b.getId = some b) : ∃ path, t.getBlocksOnPathFromRoot b.getId = some (path ++ [b]) := by
  induction hreach generalizing b with
  | refl =>
    rw [← hid] at ha
    have hroot := getBlocksOnPathFromRoot_root t
    rw [← h.rootChildren.1 b ha] at hroot
    exact ⟨[], (child_path hb hroot).2⟩
  | @tail z x _ hx ih =>
    rw [← hid] at hx
    obtain ⟨hparent, e, he⟩ := mem_children h hx
    have hz : t.getBlock e.validatedBlock.getId = some e.validatedBlock := by
      rw [t.keyed he, getBlock, he]
      rfl
    obtain ⟨path, hp⟩ := ih (t.keyed he) hz
    rw [t.keyed he, ← hparent] at hp
    exact ⟨_, (child_path hb hp).2⟩

theorem level_of_path (h : t.Listed) {path : List ConsensusFullBlock}
    (hp : t.getBlocksOnPathFromRoot b.getId = some (path ++ [b])) :
    b.getId ∈ level t.children path.length t.rootKids := by
  induction path using reverseRecOn generalizing b with
  | nil =>
    obtain ⟨hl, hmem⟩ := getBlocksOnPathFromRoot_eq_some.mp hp
    exact h.rootChildren.2 b (hmem b (by simp)) (Linked.nil_iff.mp (Linked.cons_iff.mp hl).2)
  | append_singleton path c ih =>
    obtain ⟨hget, -, hne⟩ := getBlock_of_path hp
    obtain ⟨path', hparent, hpath⟩ := (getBlocksOnPathFromRoot_snoc hne hget).mp hp
    obtain ⟨rfl, -⟩ := append_inj' hpath rfl
    obtain ⟨hcget, hcid, -⟩ := getBlock_of_path hparent
    rw [← hcid] at hparent hcget
    rw [length_append]
    show b.getId ∈ level t.children (path.length + 1) t.rootKids
    rw [level_succ]
    refine mem_flatMap.mpr ⟨c.getId, ih hparent, ?_⟩
    obtain ⟨e, he, -⟩ := Option.map_eq_some_iff.mp hcget
    rw [children, he]
    exact (h.children he).2 b hget hcid.symm

/-- `GetHighCommittableQc` goes through the blocks that have their path to the root. -/
theorem mem_visit_children (h : t.Listed) (hb : t.getBlock b.getId = some b) :
    b.getId ∈ visit t.children (t.tree.entries.length + 1) t.rootKids ↔
      ∃ path, t.getBlocksOnPathFromRoot b.getId = some (path ++ [b]) := by
  rw [visit_eq_levels, mem_levels_iff_level]
  constructor
  · intro hlevel
    obtain ⟨k, -, hk⟩ := hlevel
    obtain ⟨a, ha, hreach⟩ := mem_level_reaches hk
    exact path_of_reaches_children h ha hreach rfl hb
  · intro hpath
    obtain ⟨path, hp⟩ := hpath
    have hlen := path_length_le hp
    rw [length_append, length_singleton] at hlen
    exact ⟨path.length, by omega, level_of_path h hp⟩

/-! ## The highest committable QC -/

/-- The QC commits a coherent block: it follows, in the next round, the QC of the block it is for,
and the block of that QC is coherent and not the root. -/
def CommitsCoherent (t : BlockTree) (qc : QuorumCertificate) : Prop :=
  ∃ parent, t.getBlock qc.getBlockId = some parent ∧ qc.getRound = parent.header.qc.getRound + 1 ∧
    parent.getParentId ≠ t.root.blockId ∧ t.isCoherent parent.getParentId = true

theorem committable_iff {qc : QuorumCertificate} : t.committable qc = true ↔ t.CommitsCoherent qc := by
  unfold committable CommitsCoherent
  cases hget : t.getBlock qc.getBlockId with
  | none => simp
  | some parent =>
    have hid : qc.getBlockId = parent.header.getId := (getBlock_keyed hget).symm
    have hne : ¬qc.getBlockId ≠ parent.header.getId := not_not.mpr hid
    simp only [QuorumCertificate.getCommittableIdForHeader, if_neg hne]
    by_cases hround : qc.info.round = parent.header.qc.info.round + 1
    · rw [if_pos hround]
      simp only [Bool.and_eq_true, decide_eq_true_eq]
      constructor
      · intro hc
        exact ⟨parent, rfl, hround, hc⟩
      · intro hc
        obtain ⟨p, hp, -, hc⟩ := hc
        obtain rfl := Option.some.inj hp
        exact hc
    · rw [if_neg hround]
      constructor
      · intro hc
        cases hc
      · intro hc
        obtain ⟨p, hp, hround', -⟩ := hc
        obtain rfl := Option.some.inj hp
        exact absurd hround' hround

/-- One turn of `GetHighCommittableQc`. -/
def raise (t : BlockTree) (high : Option QuorumCertificate) (bid : BlockId) : Option QuorumCertificate :=
  match t.getBlock bid with
  | none => high
  | some b =>
    if (high.any fun h => b.header.qc.getRound ≤ h.getRound) || !t.committable b.header.qc then high
    else some b.header.qc

theorem getHighCommittableQc_eq_foldl (t : BlockTree) :
    t.getHighCommittableQc = (visit t.children (t.tree.entries.length + 1) t.rootKids).foldl t.raise none := rfl

/-- What a turn leaves: a QC from before, or a higher one that commits. -/
theorem raise_cases (high : Option QuorumCertificate) (bid : BlockId) :
    (t.raise high bid = high ∧ ∀ b, t.getBlock bid = some b → t.CommitsCoherent b.header.qc →
        ∃ h, high = some h ∧ b.header.qc.getRound ≤ h.getRound) ∨
      ∃ b, t.getBlock bid = some b ∧ t.CommitsCoherent b.header.qc ∧ t.raise high bid = some b.header.qc ∧
        ∀ h, high = some h → h.getRound < b.header.qc.getRound := by
  unfold raise
  cases hget : t.getBlock bid with
  | none => exact .inl ⟨rfl, by simp⟩
  | some b =>
    simp only [Bool.or_eq_true, Bool.not_eq_true', Option.some.injEq, forall_eq']
    by_cases hlow : (high.any fun h => decide (b.header.qc.getRound ≤ h.getRound)) = true
    · left
      rw [if_pos (.inl hlow)]
      refine ⟨rfl, ?_⟩
      intro _
      cases high with
      | none => simp at hlow
      | some h => exact ⟨h, rfl, by simpa using hlow⟩
    · by_cases hcommit : t.committable b.header.qc
      · right
        rw [if_neg (by simp [hlow, hcommit])]
        refine ⟨b, rfl, committable_iff.mp hcommit, rfl, ?_⟩
        intro h hh
        rw [hh] at hlow
        simpa using hlow
      · left
        rw [if_pos (.inr (by simpa using hcommit))]
        exact ⟨rfl, fun hc => absurd (committable_iff.mpr hc) hcommit⟩

/-- The QC that is left after some turns, and that none of them had a higher one. -/
theorem foldl_raise (high : Option QuorumCertificate) :
    (ids.foldl t.raise high = high ∨ ∃ bid ∈ ids, ∃ b, t.getBlock bid = some b ∧ t.CommitsCoherent b.header.qc ∧
        ids.foldl t.raise high = some b.header.qc) ∧
      (∀ h, high = some h → ∃ h', ids.foldl t.raise high = some h' ∧ h.getRound ≤ h'.getRound) ∧
      ∀ bid ∈ ids, ∀ b, t.getBlock bid = some b → t.CommitsCoherent b.header.qc →
        ∃ h, ids.foldl t.raise high = some h ∧ b.header.qc.getRound ≤ h.getRound := by
  induction ids generalizing high with
  | nil => exact ⟨.inl rfl, fun h hh => ⟨h, hh, Nat.le_refl _⟩, by simp⟩
  | cons bid ids ih =>
    obtain ⟨hfrom, hkeep, hmax⟩ := ih (t.raise high bid)
    rw [foldl_cons]
    -- what the first turn leaves is a lower bound for the rest
    have hstep := raise_cases (t := t) high bid
    refine ⟨?_, ?_, ?_⟩
    · rcases hfrom with hsame | ⟨bid', hmem, hrest⟩
      · rcases hstep with ⟨heq, -⟩ | ⟨b, hb, hc, heq, -⟩
        · exact .inl (hsame.trans heq)
        · exact .inr ⟨bid, .head _, b, hb, hc, hsame.trans heq⟩
      · exact .inr ⟨bid', .tail bid hmem, hrest⟩
    · intro h hh
      rcases hstep with ⟨heq, -⟩ | ⟨b, -, -, heq, hlt⟩
      · exact hkeep h (heq.trans hh)
      · obtain ⟨h', hh', hle⟩ := hkeep _ heq
        exact ⟨h', hh', (hlt h hh).le.trans hle⟩
    · intro bid' hmem b hb hc
      rcases mem_cons.mp hmem with rfl | hmem
      · rcases hstep with ⟨heq, hlow⟩ | ⟨b', hb', -, heq, -⟩
        · obtain ⟨h, hh, hle⟩ := hlow b hb hc
          obtain ⟨h', hh', hle'⟩ := hkeep h (heq.trans hh)
          exact ⟨h', hh', hle.trans hle'⟩
        · rw [hb] at hb'
          obtain rfl := Option.some.inj hb'
          exact hkeep _ heq
      · exact hmax bid' hmem b hb hc

/-! ## The canonical tip -/

theorem mem_coherentChildren (h : t.Listed) (hx : x ∈ t.coherentChildren id) :
    ∃ vb, t.getBlock x = some vb ∧ vb.getParentId = id ∧ t.isCoherent x = true := by
  obtain ⟨hlisted, hkeep⟩ := mem_filter.mp hx
  rw [Bool.and_eq_true] at hkeep
  obtain ⟨hcoh, hin⟩ := hkeep
  obtain ⟨e, he⟩ : ∃ e, t.tree.get x = some e := Option.isSome_iff_exists.mp hin
  obtain rfl := t.keyed he
  refine ⟨e.validatedBlock, by rw [getBlock, he]; rfl, ?_, hcoh⟩
  split at hlisted
  · rename_i hroot
    rw [hroot]
    exact h.rootChildren.1 _ hlisted
  · exact (mem_children h hlisted).1

theorem descendant_of_reaches (h : t.Listed) (hreach : Reaches t.coherentChildren id x) :
    x = id ∨ t.isCoherent x = true ∧ t.Descendant id x := by
  induction hreach with
  | refl => exact .inl rfl
  | @tail z x _ hx ih =>
    obtain ⟨vb, hvb, hparent, hcoh⟩ := mem_coherentChildren h hx
    obtain rfl := getBlock_keyed hvb
    refine .inr ⟨hcoh, ?_⟩
    rcases ih with rfl | ⟨-, l, -, hl, hmem⟩
    · refine ⟨[vb], by simp, Linked.cons vb (by rw [hparent]; exact Linked.nil _), ?_⟩
      intro c hc
      obtain rfl := mem_singleton.mp hc
      exact hvb
    · refine ⟨vb :: l, by simp, Linked.cons vb (by rw [hparent]; exact hl), ?_⟩
      exact forall_mem_cons.mpr ⟨hvb, hmem⟩

theorem foldl_best_mem (best : BlockId × Nat) : (ids.foldl (fun best c =>
      match t.getBlock c with
      | none => best
      | some b => if best.2 < b.header.blockRound then (c, b.header.blockRound) else best) best).1 ∈ best.1 :: ids := by
  induction ids generalizing best with
  | nil => exact .head _
  | cons c ids ih =>
    rw [foldl_cons]
    have hrest := ih (match t.getBlock c with
      | none => best
      | some b => if best.2 < b.header.blockRound then (c, b.header.blockRound) else best)
    rcases mem_cons.mp hrest with heq | hmem
    · rw [heq]
      split
      · exact .head _
      · split
        · simp
        · exact .head _
    · exact .tail _ (.tail c hmem)

/-- `highestRoundCoherentDescendant` returns where it started or a coherent descendant. -/
theorem highestRoundCoherentDescendant_spec (h : t.Listed) (id : BlockId) : t.highestRoundCoherentDescendant id = id ∨
      t.isCoherent (t.highestRoundCoherentDescendant id) = true ∧ t.Descendant id (t.highestRoundCoherentDescendant id) := by
  unfold highestRoundCoherentDescendant
  cases t.roundOf id with
  | none => exact .inl rfl
  | some round =>
    simp only
    generalize hbest : (foldl _ (id, round) _).1 = best
    have hmem : best ∈ id :: (visit t.coherentChildren (t.tree.entries.length + 2) [id]).tail := by
      rw [← hbest]
      exact foldl_best_mem _ _
    rcases mem_cons.mp hmem with rfl | hmem
    · exact .inl rfl
    · have hvisit := mem_of_mem_tail hmem
      rw [visit_eq_levels, mem_levels_iff_level] at hvisit
      obtain ⟨k, -, hk⟩ := hvisit
      obtain ⟨a, ha, hreach⟩ := mem_level_reaches hk
      obtain rfl := mem_singleton.mp ha
      exact descendant_of_reaches h hreach

theorem Descendant.path {path : List ConsensusFullBlock} (h : t.Descendant id x)
    (hp : t.getBlocksOnPathFromRoot id = some path) : (t.getBlocksOnPathFromRoot x).isSome := by
  obtain ⟨l, -, hl, hmem⟩ := h
  obtain ⟨hpath, hpmem⟩ := getBlocksOnPathFromRoot_eq_some.mp hp
  have hx : t.getBlocksOnPathFromRoot x = some (path ++ l.reverse) := by
    refine getBlocksOnPathFromRoot_eq_some.mpr ⟨?_, ?_⟩
    · rw [reverse_append, reverse_reverse]
      exact Linked.append_iff.mpr ⟨id, hl, hpath⟩
    · intro c hc
      rcases mem_append.mp hc with hc | hc
      · exact hpmem c hc
      · exact hmem c (mem_reverse.mp hc)
  rw [hx]
  rfl

/-- The highest coherent block on a path, or the root if there is none. -/
def HighestCoherent (t : BlockTree) (path : List ConsensusFullBlock) (tip : BlockId) : Prop :=
  (tip = t.root.blockId ∧ ∀ b ∈ path, t.isCoherent b.getId = false) ∨
    ∃ pre b rest, path = pre ++ b :: rest ∧ b.getId = tip ∧ t.isCoherent tip = true ∧
      ∀ c ∈ rest, t.isCoherent c.getId = false

/-- The search from the end of a path finds its highest coherent block. -/
theorem highestCoherent_of_find {path : List ConsensusFullBlock}
    (h : path.reverse.find? (fun b => t.isCoherent b.getId) = some b) :
    t.isCoherent b.getId = true ∧ ∃ pre rest, path = pre ++ b :: rest ∧ ∀ c ∈ rest, t.isCoherent c.getId = false := by
  obtain ⟨hcoh, rest, pre, hsplit, hrest⟩ := find?_eq_some_iff_append.mp h
  refine ⟨hcoh, pre.reverse, rest.reverse, ?_, ?_⟩
  · rw [← reverse_reverse path, hsplit, reverse_append, reverse_cons, append_assoc]
    rfl
  · intro c hc
    have := hrest c (mem_reverse.mp hc)
    simpa using this

theorem canonical_tip (h : t.Listed) (qc : QuorumCertificate) :
    (t.getCanonicalCoherentTip qc = t.root.blockId ∨ t.isCoherent (t.getCanonicalCoherentTip qc) = true ∧
      (t.getBlocksOnPathFromRoot (t.getCanonicalCoherentTip qc)).isSome) ∧
    ∀ path, t.getBlocksOnPathFromRoot qc.getBlockId = some path →
      (t.isCoherent qc.getBlockId = true → t.getCanonicalCoherentTip qc = qc.getBlockId ∨
        t.Descendant qc.getBlockId (t.getCanonicalCoherentTip qc)) ∧
      (t.isCoherent qc.getBlockId = false → t.HighestCoherent path (t.getCanonicalCoherentTip qc)) := by
  generalize htip : t.getCanonicalCoherentTip qc = tip
  unfold getCanonicalCoherentTip at htip
  cases hpath : t.getBlocksOnPathFromRoot qc.getBlockId with
  | none =>
    rw [hpath] at htip
    simp only at htip
    refine ⟨?_, by simp⟩
    have hspec := highestRoundCoherentDescendant_spec h t.root.blockId
    rw [htip] at hspec
    rcases hspec with hroot | ⟨hcoh, hdesc⟩
    · exact .inl hroot
    · exact .inr ⟨hcoh, hdesc.path (getBlocksOnPathFromRoot_root t)⟩
  | some path =>
    rw [hpath] at htip
    simp only [Option.some.injEq, forall_eq'] at htip ⊢
    obtain ⟨hl, hmem⟩ := getBlocksOnPathFromRoot_eq_some.mp hpath
    cases hfind : path.reverse.find? fun b => t.isCoherent b.getId with
    | none =>
      rw [hfind] at htip
      subst htip
      have hnone : ∀ b ∈ path, t.isCoherent b.getId = false := by
        intro b hb
        have := find?_eq_none.mp hfind b (mem_reverse.mpr hb)
        simpa using this
      refine ⟨.inl rfl, ?_, fun _ => .inl ⟨rfl, hnone⟩⟩
      intro hcoh
      left
      rcases eq_nil_or_concat path with rfl | ⟨init, b, rfl⟩
      · exact (Linked.nil_iff.mp hl).symm
      · rw [concat_eq_append] at hpath hnone
        have hb := hnone b (by simp)
        rw [(getBlock_of_path hpath).2.1, hcoh] at hb
        cases hb
    | some b =>
      rw [hfind] at htip
      simp only at htip
      obtain ⟨hcoh, pre, rest, rfl, hrest⟩ := highestCoherent_of_find hfind
      have hb := path_split hpath
      by_cases hself : b.getId = qc.getBlockId
      · rw [if_pos hself] at htip
        have hspec := highestRoundCoherentDescendant_spec h b.getId
        rw [htip] at hspec
        refine ⟨?_, ?_, ?_⟩
        · right
          rcases hspec with rfl | ⟨htcoh, hdesc⟩
          · exact ⟨hcoh, by rw [hb]; rfl⟩
          · exact ⟨htcoh, hdesc.path hb⟩
        · intro _
          rw [← hself]
          rcases hspec with hsame | ⟨-, hdesc⟩
          · exact .inl hsame
          · exact .inr hdesc
        · intro hinc
          rw [← hself, hcoh] at hinc
          cases hinc
      · rw [if_neg hself] at htip
        subst htip
        refine ⟨.inr ⟨hcoh, by rw [hb]; rfl⟩, ?_, fun _ => .inr ⟨pre, b, rest, rfl, rfl, hcoh, hrest⟩⟩
        intro hqc
        exfalso
        -- the block of the QC ends the path, and it is not the one that was found
        rcases eq_nil_or_concat rest with rfl | ⟨init, c, rfl⟩
        · exact hself (getBlock_of_path hpath).2.1
        · rw [concat_eq_append] at hpath hrest
          have hc := hrest c (by simp)
          have hpath' : t.getBlocksOnPathFromRoot qc.getBlockId = some (pre ++ b :: init ++ [c]) := by
            rw [hpath]
            simp
          rw [(getBlock_of_path hpath').2.1, hqc] at hc
          cases hc

/-- The searches, in any tree that `Add`, `TryUpdateCoherency` and `Prune` lead to, whatever the
blocks. -/
theorem high_qc_and_tip (h : Reach U root t) (qc : QuorumCertificate) : (∀ high, t.getHighCommittableQc = some high →
      (∃ b path, t.getBlocksOnPathFromRoot b.getId = some (path ++ [b]) ∧ b.header.qc = high ∧ t.CommitsCoherent high) ∧
      ∀ b path, t.getBlocksOnPathFromRoot b.getId = some (path ++ [b]) → t.CommitsCoherent b.header.qc →
        b.header.qc.getRound ≤ high.getRound) ∧
    (t.getHighCommittableQc = none → ∀ b path, t.getBlocksOnPathFromRoot b.getId = some (path ++ [b]) →
      ¬t.CommitsCoherent b.header.qc) ∧
    (t.getCanonicalCoherentTip qc = t.root.blockId ∨ t.isCoherent (t.getCanonicalCoherentTip qc) = true ∧
      (t.getBlocksOnPathFromRoot (t.getCanonicalCoherentTip qc)).isSome) ∧
    ∀ path, t.getBlocksOnPathFromRoot qc.getBlockId = some path →
      (t.isCoherent qc.getBlockId = true → t.getCanonicalCoherentTip qc = qc.getBlockId ∨
        t.Descendant qc.getBlockId (t.getCanonicalCoherentTip qc)) ∧
      (t.isCoherent qc.getBlockId = false → t.HighestCoherent path (t.getCanonicalCoherentTip qc)) := by
  have hlisted := reach_listed h
  obtain ⟨hfrom, -, hmax⟩ := foldl_raise (t := t) (visit t.children (t.tree.entries.length + 1) t.rootKids) none
  rw [← getHighCommittableQc_eq_foldl] at hfrom hmax
  have hseen : ∀ b path, t.getBlocksOnPathFromRoot b.getId = some (path ++ [b]) → t.CommitsCoherent b.header.qc →
      ∃ high, t.getHighCommittableQc = some high ∧ b.header.qc.getRound ≤ high.getRound := by
    intro b path hp hc
    have hb := (getBlock_of_path hp).1
    exact hmax b.getId ((mem_visit_children hlisted hb).mpr ⟨path, hp⟩) b hb hc
  refine ⟨?_, ?_, canonical_tip hlisted qc⟩
  · intro high hhigh
    refine ⟨?_, ?_⟩
    · rcases hfrom with hnone | ⟨bid, hmem, b, hb, hc, heq⟩
      · rw [hnone] at hhigh
        cases hhigh
      · rw [hhigh] at heq
        obtain rfl := Option.some.inj heq
        obtain rfl := getBlock_keyed hb
        obtain ⟨path, hp⟩ := (mem_visit_children hlisted hb).mp hmem
        exact ⟨b, path, hp, rfl, hc⟩
    · intro b path hp hc
      obtain ⟨high', hhigh', hle⟩ := hseen b path hp hc
      rw [hhigh] at hhigh'
      obtain rfl := Option.some.inj hhigh'
      exact hle
  · intro hnone b path hp hc
    obtain ⟨high, hhigh, -⟩ := hseen b path hp hc
    rw [hnone] at hhigh
    cases hhigh

section Runs

open Scenario

/-- With three blocks found coherent the QC in the third commits the first. -/
theorem high_qc_and_tip_three : ∃ (t : BlockTree) (high : QuorumCertificate), t.getHighCommittableQc = some high ∧ t.CommitsCoherent high ∧
    (t.getCanonicalCoherentTip high = high.getBlockId ∨ t.Descendant high.getBlockId (t.getCanonicalCoherentTip high)) := by
  have hcheck : ((twoBlocks.add (fun _ => []) block3).tryUpdateCoherency passthru liveEnv.stateRead block3.getId).toOption.any
      (fun r => decide (r.1.getHighCommittableQc = some block3.header.qc) && r.1.isCoherent block3.header.qc.getBlockId &&
        (r.1.getBlocksOnPathFromRoot block3.header.qc.getBlockId).isSome) = true := by decide +kernel
  obtain ⟨⟨t, out⟩, hrun, hcheck⟩ := (Option.any_eq_true ..).mp hcheck
  have hrun := toOption_eq_some.mp hrun
  simp only [Bool.and_eq_true, decide_eq_true_eq] at hcheck
  obtain ⟨⟨hhigh, hcoh⟩, hpath⟩ := hcheck
  obtain ⟨path, hpath⟩ := Option.isSome_iff_exists.mp hpath
  have hthree : Reach (fun _ => True) genesisRoot (twoBlocks.add (fun _ => []) block3) :=
    .add _ (.add _ (.add _ .new trivial) trivial) trivial
  obtain ⟨hqc, -, -, htip⟩ := high_qc_and_tip (hthree.tryUpdateCoherency hrun) block3.header.qc
  obtain ⟨⟨-, -, -, -, hcommits⟩, -⟩ := hqc _ hhigh
  exact ⟨t, block3.header.qc, hhigh, hcommits, (htip path hpath).1 hcoh⟩

/-- The block on the fork is coherent and has no path to the root. With a QC for it the tip is the
root, which does not descend from it. -/
theorem severed_block_passed_over : ∃ t : BlockTree, RoundsGrow theForked ∧ Reach theForked genesisRoot t ∧
    t.isCoherent (qcOf forkChild.header 3 [0, 1, 2]).getBlockId = true ∧
    t.getCanonicalCoherentTip (qcOf forkChild.header 3 [0, 1, 2]) = t.root.blockId ∧
    t.root.blockId ≠ forkChild.getId ∧ ¬t.Descendant forkChild.getId t.root.blockId := by
  have hcheck : (match forkedPruned with
    | .ok t => t.isCoherent (qcOf forkChild.header 3 [0, 1, 2]).getBlockId &&
        decide (t.getCanonicalCoherentTip (qcOf forkChild.header 3 [0, 1, 2]) = t.root.blockId) &&
        decide (t.root.blockId = block1.getId) && (t.getBlock block1.getId).isNone
    | .error _ => false) = true := by decide +kernel
  cases hrun : forkedPruned with
  | error p =>
    rw [hrun] at hcheck
    cases hcheck
  | ok t =>
    rw [hrun] at hcheck
    simp only [Bool.and_eq_true, decide_eq_true_eq, Option.isNone_iff_eq_none] at hcheck
    obtain ⟨⟨⟨hcoh, htip⟩, hroot⟩, hgone⟩ := hcheck
    refine ⟨t, roundsGrow_theForked, reach_forkedPruned hrun, hcoh, htip, ?_, ?_⟩
    · rw [hroot]
      decide +kernel
    · intro hdesc
      obtain ⟨l, hne, hl, hmem⟩ := hdesc
      obtain ⟨b, rest, rfl⟩ := List.exists_cons_of_ne_nil hne
      have hb := hmem b (.head _)
      rw [← (Linked.cons_iff.mp hl).1, hroot, hgone] at hb
      cases hb

end Runs

end BlockTree

end MonadBft
