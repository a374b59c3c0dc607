/-
  MonadBft.BlockTree.Invariant — the representation of the block tree.

  The tree is filled in any order with blocks whose rounds grow along the chain
  (`RoundsGrow`): the QC of a block is below its round, and the block it certifies has at most
  the round of the QC. Blocks are inserted, marked coherent and pruned (`Reach`).

  In every tree reached (`reach_inv`): every entry is above the root; the child list of an
  entry, and that of the root, holds exactly the blocks of the tree that name it as their
  parent, each once; the payload index holds exactly the bodies of the blocks of the tree, each
  with the blocks that have it.

  `Prune` edits no child list, so this rests on the rounds: a block that is kept has its QC at
  or above the new root's round, and a child of it has its own QC above that (`kept_children`).
  So no kept entry loses a child, and a block that comes back is not in its parent's list yet.
-/
import MonadBft.BlockTree.Prune
import MonadBft.Scenario

namespace MonadBft

open Lib

namespace BlockTree

/-- Rounds grow along the chain of the blocks in `U`. -/
def RoundsGrow (U : ConsensusFullBlock → Prop) : Prop :=
  ∀ b, U b → b.header.qc.getRound < b.header.blockRound ∧
    ∀ p, U p → p.getId = b.getParentId → p.header.blockRound ≤ b.header.qc.getRound

inductive Reach (U : ConsensusFullBlock → Prop) (root : RootInfo) : BlockTree → Prop
  | new : Reach U root (new root)
  | add {t : BlockTree} (order : BlockId → List Nat) {block : ConsensusFullBlock} :
      Reach U root t → U block → Reach U root (t.add order block)
  | tryUpdateCoherency {t t' : BlockTree} {policy : BlockPolicy} {sr : StateRead} {id : BlockId}
      {out : List ConsensusFullBlock} :
      Reach U root t → t.tryUpdateCoherency policy sr id = .ok (t', out) → Reach U root t'
  | prune {t t' : BlockTree} {newRoot : BlockId} {commit : List ConsensusFullBlock} :
      Reach U root t → t.prune newRoot = .ok (t', commit) → Reach U root t'

variable {U : ConsensusFullBlock → Prop} {t t' : BlockTree} {id c : BlockId} {e : BlockTreeEntry}
  {b vb : ConsensusFullBlock} {l : List BlockId} {out : List ConsensusFullBlock} {policy : BlockPolicy} {sr : StateRead}
  (order : BlockId → List Nat)

/-! ## Child lists -/

/-- `l` lists the blocks that name `id` as their parent, each once. -/
def Lists (get : BlockId → Option ConsensusFullBlock) (id : BlockId) (l : List BlockId) : Prop :=
  l.Nodup ∧ ∀ c, c ∈ l ↔ ∃ vb, get c = some vb ∧ vb.getParentId = id

section Lists

variable {get get' : BlockId → Option ConsensusFullBlock}

theorem Lists.mono (h : Lists get id l) (hsub : ∀ c vb, get' c = some vb → get c = some vb)
    (hkeep : ∀ c vb, get c = some vb → vb.getParentId = id → get' c = some vb) : Lists get' id l := by
  refine ⟨h.1, ?_⟩
  intro c
  rw [h.2]
  constructor
  · rintro ⟨vb, hvb, hp⟩
    exact ⟨vb, hkeep c vb hvb hp, hp⟩
  · rintro ⟨vb, hvb, hp⟩
    exact ⟨vb, hsub c vb hvb, hp⟩

theorem Lists.insert (h : Lists get id l) (hnew : get b.getId = none)
    (hget : ∀ c, get' c = if c = b.getId then some b else get c) :
    Lists get' id (if b.getParentId = id then l ++ [b.getId] else l) := by
  have hnot : b.getId ∉ l := by
    intro hm
    obtain ⟨vb, hvb, -⟩ := (h.2 _).mp hm
    rw [hnew] at hvb
    cases hvb
  have hmem : ∀ c, (∃ vb, get' c = some vb ∧ vb.getParentId = id) ↔ c ∈ l ∨ c = b.getId ∧ b.getParentId = id := by
    intro c
    rw [hget c, h.2]
    by_cases hc : c = b.getId
    · simp [hc, hnew]
    · simp [hc]
  by_cases hp : b.getParentId = id
  · rw [if_pos hp]
    refine ⟨?_, ?_⟩
    · rw [List.nodup_append]
      refine ⟨h.1, by simp, ?_⟩
      intro x hx y hy hxy
      obtain rfl := List.mem_singleton.mp hy
      exact hnot (hxy ▸ hx)
    · intro c
      rw [hmem]
      simp [hp]
  · rw [if_neg hp]
    refine ⟨h.1, ?_⟩
    intro c
    rw [hmem]
    simp [hp]

end Lists

/-! ## The payload index -/

/-- The blocks that an index lists for a body. -/
def activeOf (payloads : AMap BodyId BlockBodyIndex) (pid : BodyId) : List BlockId :=
  ((payloads.get pid).map (·.activeBlocks)).getD []

/-- The index lists the blocks of the tree by their bodies, and nothing else. -/
structure Indexed (get : BlockId → Option ConsensusFullBlock) (payloads : AMap BodyId BlockBodyIndex) :
    Prop where
  nodup : ∀ pid, (activeOf payloads pid).Nodup
  mem : ∀ pid id, id ∈ activeOf payloads pid ↔ ∃ vb, get id = some vb ∧ vb.header.blockBodyId = pid
  live : ∀ {pid idx}, payloads.get pid = some idx → idx.activeBlocks ≠ []

section Index

variable {get get' : BlockId → Option ConsensusFullBlock} {payloads : AMap BodyId BlockBodyIndex} {pid : BodyId}

theorem get_unindex (payloads : AMap BodyId BlockBodyIndex) (pid : BodyId) (id : BlockId) (p : BodyId) :
    (unindex payloads pid id).get p = if p = pid then
      ((payloads.get p).map fun idx => { idx with activeBlocks := idx.activeBlocks.filter (· ≠ id) }).filter
        fun idx => !idx.activeBlocks.isEmpty
      else payloads.get p := by
  rw [unindex, AMap.get_filter, AMap.get_modify]
  by_cases hp : p = pid
  · simp [hp]
  · cases payloads.get p with
    | none => simp [hp]
    | some idx => simp [hp, Option.filter_some]

theorem activeOf_unindex (payloads : AMap BodyId BlockBodyIndex) (pid : BodyId) (id : BlockId) (p : BodyId) :
    activeOf (unindex payloads pid id) p =
      if p = pid then (activeOf payloads p).filter (· ≠ id) else activeOf payloads p := by
  unfold activeOf
  rw [get_unindex]
  by_cases hp : p = pid
  · rw [if_pos hp, if_pos hp]
    cases payloads.get p with
    | none => simp
    | some idx =>
      by_cases hempty : idx.activeBlocks.filter (· ≠ id) = []
      · rw [Option.map_some, Option.filter_some, if_neg (by simpa using hempty)]
        simpa using hempty.symm
      · rw [Option.map_some, Option.filter_some, if_pos (by simpa using hempty)]
        rfl
  · rw [if_neg hp, if_neg hp]

theorem Indexed.unindex (h : Indexed get payloads) (hb : get b.getId = some b)
    (hget : ∀ c, get' c = if c = b.getId then none else get c) :
    Indexed get' (unindex payloads b.header.blockBodyId b.getId) := by
  have hmem : ∀ p c, c ∈ activeOf (BlockTree.unindex payloads b.header.blockBodyId b.getId) p ↔
      c ∈ activeOf payloads p ∧ c ≠ b.getId := by
    intro p c
    rw [activeOf_unindex]
    by_cases hp : p = b.header.blockBodyId
    · simp [hp]
    · -- the block is listed under its own body only
      rw [if_neg hp]
      refine ⟨fun hc => ⟨hc, ?_⟩, And.left⟩
      rintro rfl
      obtain ⟨vb, hvb, rfl⟩ := (h.mem p _).mp hc
      rw [hb] at hvb
      exact hp (by rw [Option.some.inj hvb])
  refine ⟨?_, ?_, ?_⟩
  · intro p
    rw [activeOf_unindex]
    split_ifs
    · exact (h.nodup p).filter _
    · exact h.nodup p
  · intro p c
    rw [hmem, h.mem, hget c]
    by_cases hc : c = b.getId <;> simp [hc]
  · intro p idx hidx
    rw [get_unindex] at hidx
    split_ifs at hidx with hp
    · have := (Option.filter_eq_some_iff.mp hidx).2
      simpa using this
    · exact h.live hidx

theorem get_index (payloads : AMap BodyId BlockBodyIndex) (b : ConsensusFullBlock) (p : BodyId) :
    (index payloads b).get p = if p = b.header.blockBodyId then
      some ⟨((payloads.get p).map (·.body)).getD b.body,
        if b.getId ∈ activeOf payloads p then activeOf payloads p else activeOf payloads p ++ [b.getId]⟩
      else payloads.get p := by
  unfold index activeOf
  simp only
  cases hg : payloads.get b.header.blockBodyId with
  | none =>
    rw [AMap.get_insert]
    by_cases hp : p = b.header.blockBodyId
    · simp [hp, hg]
    · simp [hp]
  | some idx =>
    rw [AMap.get_insert]
    by_cases hp : p = b.header.blockBodyId
    · simp [hp, hg]
    · simp [hp]

theorem Indexed.index (h : Indexed get payloads) (hb : get b.getId = none)
    (hget : ∀ c, get' c = if c = b.getId then some b else get c) : Indexed get' (index payloads b) := by
  have hnot : ∀ p, b.getId ∉ activeOf payloads p := by
    intro p hm
    obtain ⟨vb, hvb, -⟩ := (h.mem p _).mp hm
    rw [hb] at hvb
    cases hvb
  have hactive : ∀ p, activeOf (BlockTree.index payloads b) p =
      if p = b.header.blockBodyId then activeOf payloads p ++ [b.getId] else activeOf payloads p := by
    intro p
    show (((BlockTree.index payloads b).get p).map (·.activeBlocks)).getD [] = _
    rw [get_index]
    by_cases hp : p = b.header.blockBodyId
    · rw [if_pos hp, if_pos hp, if_neg (hnot p)]
      rfl
    · rw [if_neg hp, if_neg hp]
      rfl
  refine ⟨?_, ?_, ?_⟩
  · intro p
    rw [hactive]
    split_ifs with hp
    · rw [List.nodup_append]
      refine ⟨h.nodup p, by simp, ?_⟩
      intro x hx y hy hxy
      obtain rfl := List.mem_singleton.mp hy
      exact hnot p (hxy ▸ hx)
    · exact h.nodup p
  · intro p c
    rw [hactive, hget c]
    by_cases hc : c = b.getId
    · by_cases hp : p = b.header.blockBodyId
      · simp [hc, hp]
      · simp [hc, hp, hnot p, eq_comm]
    · rw [if_neg hc, ← h.mem p c]
      by_cases hp : p = b.header.blockBodyId
      · simp [hp, hc]
      · simp [hp]
  · intro p idx hidx
    rw [get_index] at hidx
    split_ifs at hidx with hp hm
    · exact absurd hm (hnot p)
    · rw [← Option.some.inj hidx]
      simp
    · exact h.live hidx

end Index

/-! ## The invariant -/

structure Inv (U : ConsensusFullBlock → Prop) (t : BlockTree) : Prop where
  added : ∀ {id vb}, t.getBlock id = some vb → U vb
  above : ∀ {id vb}, t.getBlock id = some vb → t.root.round < vb.header.blockRound
  children : ∀ {id e}, t.tree.get id = some e → Lists t.getBlock id e.childrenBlocks
  rootChildren : Lists t.getBlock t.root.blockId t.rootKids
  indexed : Indexed t.getBlock t.payloads

theorem new_inv (root : RootInfo) : Inv U (new root) where
  added h := by cases h
  above h := by cases h
  children h := by cases h
  rootChildren := ⟨List.nodup_nil, by simp [new, getBlock]⟩
  indexed := ⟨fun _ => List.nodup_nil, by simp [activeOf, new, getBlock], fun h => by cases h⟩

/-! ### Add -/

theorem getBlock_eq_none : t.getBlock id = none ↔ t.tree.get id = none := Option.map_eq_none_iff

theorem mem_childrenOf : c ∈ t.childrenOf id ↔ ∃ vb, t.getBlock c = some vb ∧ vb.getParentId = id := by
  unfold childrenOf getBlock
  simp only [List.mem_map, List.mem_filter, decide_eq_true_eq, Prod.exists, exists_and_right, exists_eq_right,
    ← AMap.get_eq_some, Option.map_eq_some_iff, exists_exists_and_eq_and]

theorem lists_childrenOf (t : BlockTree) (id : BlockId) : Lists t.getBlock id (t.childrenOf id) :=
  ⟨t.tree.nodup.sublist ((List.filter_sublist).map _), fun _ => mem_childrenOf⟩

theorem Lists.perm {get : BlockId → Option ConsensusFullBlock} {l' : List BlockId} (h : Lists get id l)
    (hl : l'.Perm l) : Lists get id l' :=
  ⟨hl.nodup_iff.mpr h.1, fun c => hl.mem_iff.trans (h.2 c)⟩

theorem getId_ne_getParentId (b : ConsensusFullBlock) : b.getId ≠ b.getParentId := by
  intro h
  have := b.rank_lt
  rw [h] at this
  exact Nat.lt_irrefl _ this

theorem get_insert (t : BlockTree) (order : BlockId → List Nat) (b : ConsensusFullBlock) (id : BlockId) :
    (t.insert order b).tree.get id = if id = b.getId then
      some ⟨b, false, shuffle (order b.getId) (t.childrenOf b.getId)⟩
      else (t.tree.get id).map fun e =>
        { e with childrenBlocks := if b.getParentId = id then e.childrenBlocks ++ [b.getId] else e.childrenBlocks } := by
  show (AMap.modify _ _ _).get id = _
  rw [AMap.get_modify]
  by_cases hp : id = b.getParentId
  · rw [if_pos hp, hp, if_neg (getId_ne_getParentId b).symm, AMap.get_insert, if_neg (getId_ne_getParentId b).symm]
    simp
  · rw [if_neg hp, AMap.get_insert]
    by_cases hid : id = b.getId
    · simp [hid]
    · cases t.tree.get id with
      | none => simp [hid]
      | some e => simp [hid, Ne.symm hp]

theorem getBlock_insert (t : BlockTree) (order : BlockId → List Nat) (b : ConsensusFullBlock) (id : BlockId) :
    (t.insert order b).getBlock id = if id = b.getId then some b else t.getBlock id := by
  unfold getBlock
  rw [get_insert]
  by_cases hid : id = b.getId
  · simp [hid]
  · simp [hid, Function.comp_def]

structure Consistent (t : BlockTree) : Prop where
  children : ∀ {id e}, t.tree.get id = some e → Lists t.getBlock id e.childrenBlocks
  rootChildren : Lists t.getBlock t.root.blockId t.rootKids

theorem Inv.consistent (h : Inv U t) : t.Consistent := ⟨h.children, h.rootChildren⟩

theorem Consistent.insert (h : t.Consistent) (order : BlockId → List Nat) (hnew : t.getBlock b.getId = none) :
    Consistent { t.insert order b with
      rootKids := if b.getParentId = t.root.blockId then t.rootKids ++ [b.getId] else t.rootKids } := by
  have hget : ∀ c, (t.insert order b).getBlock c = if c = b.getId then some b else t.getBlock c :=
    getBlock_insert t order b
  refine ⟨?_, h.rootChildren.insert hnew hget⟩
  intro id e he
  change (t.insert order b).tree.get id = some e at he
  show Lists (t.insert order b).getBlock id e.childrenBlocks
  rw [get_insert] at he
  by_cases hid : id = b.getId
  · -- the new entry takes the blocks that were waiting for it
    rw [if_pos hid] at he
    obtain rfl := Option.some.inj he
    have hlist := (lists_childrenOf t b.getId).insert hnew hget
    rw [if_neg (getId_ne_getParentId b).symm] at hlist
    rw [hid]
    exact hlist.perm (shuffle_perm _ _)
  · rw [if_neg hid] at he
    obtain ⟨e', he', rfl⟩ := Option.map_eq_some_iff.mp he
    exact (h.children he').insert hnew hget

theorem Inv.insert (h : Inv U t) (order : BlockId → List Nat) (hU : U b) (hnew : t.getBlock b.getId = none)
    (habove : t.root.round < b.header.blockRound) : Inv U { t.insert order b with
      rootKids := if b.getParentId = t.root.blockId then t.rootKids ++ [b.getId] else t.rootKids } := by
  have hget : ∀ c, (t.insert order b).getBlock c = if c = b.getId then some b else t.getBlock c :=
    getBlock_insert t order b
  obtain ⟨hchildren, hrootChildren⟩ := h.consistent.insert order hnew
  refine ⟨?_, ?_, hchildren, hrootChildren, h.indexed.index hnew hget⟩
  · intro id vb hvb
    change (t.insert order b).getBlock id = some vb at hvb
    rw [hget] at hvb
    split_ifs at hvb with hid
    · exact Option.some.inj hvb ▸ hU
    · exact h.added hvb
  · intro id vb hvb
    change (t.insert order b).getBlock id = some vb at hvb
    rw [hget] at hvb
    split_ifs at hvb with hid
    · exact Option.some.inj hvb ▸ habove
    · exact h.above hvb

theorem isValidToInsert_iff : t.isValidToInsert b.header = true ↔
    t.getBlock b.getId = none ∧ t.root.round < b.header.blockRound := by
  unfold isValidToInsert
  rw [getBlock_eq_none]
  show _ ↔ t.tree.get b.header.getId = none ∧ _
  simp [AMap.contains]

theorem add_of_valid (hv : t.isValidToInsert b.header = true) :
    t.add order b = { t.insert order b with
      rootKids := if b.getParentId = t.root.blockId then t.rootKids ++ [b.getId] else t.rootKids } := by
  unfold add
  rw [if_pos hv]
  by_cases hp : b.getParentId = t.root.blockId
  · simp only [if_pos hp]
    rfl
  · simp only [if_neg hp]
    rfl

theorem add_of_invalid (hv : ¬t.isValidToInsert b.header = true) : t.add order b = t := by
  unfold add
  rw [if_neg hv]

theorem root_add (t : BlockTree) (order : BlockId → List Nat) (b : ConsensusFullBlock) :
    (t.add order b).root = t.root := by
  by_cases hv : t.isValidToInsert b.header
  · rw [add_of_valid order hv]
    rfl
  · rw [add_of_invalid order hv]

theorem getBlock_add (t : BlockTree) (order : BlockId → List Nat) (b : ConsensusFullBlock) (id : BlockId) :
    (t.add order b).getBlock id =
      if id = b.getId ∧ t.root.round < b.header.blockRound then some b else t.getBlock id := by
  by_cases hv : t.isValidToInsert b.header
  · have habove := (isValidToInsert_iff.mp hv).2
    rw [add_of_valid order hv]
    show (t.insert order b).getBlock id = _
    simp only [getBlock_insert, habove, and_true]
  · rw [add_of_invalid order hv]
    split_ifs with hid
    · -- it is there already
      obtain ⟨rfl, habove⟩ := hid
      obtain ⟨b', hb'⟩ : ∃ b', t.getBlock b.getId = some b' := by
        rw [← Option.ne_none_iff_exists']
        intro hnew
        exact hv (isValidToInsert_iff.mpr ⟨hnew, habove⟩)
      rw [hb', ConsensusFullBlock.eq_of_getId (getBlock_keyed hb')]
    · rfl

theorem Inv.add (h : Inv U t) (order : BlockId → List Nat) (hU : U b) : Inv U (t.add order b) := by
  by_cases hv : t.isValidToInsert b.header
  · obtain ⟨hnew, habove⟩ := isValidToInsert_iff.mp hv
    rw [add_of_valid order hv]
    exact h.insert order hU hnew habove
  · rw [add_of_invalid order hv]
    exact h

/-! ### TryUpdateCoherency -/

theorem get_setCoherent_foldl (t : BlockTree) (out : List ConsensusFullBlock) (id : BlockId) :
    (out.foldl (fun t b => t.setCoherent b.getId) t).tree.get id =
      (t.tree.get id).map fun e => { e with isCoherent := e.isCoherent || decide (id ∈ out.map (·.getId)) } := by
  induction out generalizing t with
  | nil => simp
  | cons b out ih =>
    rw [List.foldl_cons, ih]
    show ((t.tree.modify b.getId _).get id).map _ = _
    rw [AMap.get_modify]
    by_cases hid : id = b.getId
    · rw [if_pos hid, ← hid]
      cases t.tree.get id with
      | none => rfl
      | some e => simp [hid]
    · cases t.tree.get id <;> simp [hid]

theorem setCoherent_foldl_frame (t : BlockTree) (out : List ConsensusFullBlock) :
    (out.foldl (fun t b => t.setCoherent b.getId) t).root = t.root ∧
      (out.foldl (fun t b => t.setCoherent b.getId) t).rootKids = t.rootKids ∧
      (out.foldl (fun t b => t.setCoherent b.getId) t).payloads = t.payloads := by
  induction out generalizing t with
  | nil => exact ⟨rfl, rfl, rfl⟩
  | cons b out ih => exact ih _

theorem tryUpdateCoherency_ok
    (h : t.tryUpdateCoherency policy sr id = .ok (t', out)) : t' = out.foldl (fun t b => t.setCoherent b.getId) t := by
  unfold tryUpdateCoherency at h
  split at h
  · obtain ⟨rfl, rfl⟩ := Prod.mk.inj (Except.ok.inj h)
    rfl
  · split at h
    · obtain ⟨rfl, rfl⟩ := Prod.mk.inj (Except.ok.inj h)
      rfl
    · obtain ⟨out', -, h⟩ := bind_eq_ok.mp h
      obtain ⟨rfl, rfl⟩ := Prod.mk.inj (pure_eq_ok.mp h)
      rfl

theorem getBlock_setCoherent_foldl (t : BlockTree) (out : List ConsensusFullBlock) :
    (out.foldl (fun t b => t.setCoherent b.getId) t).getBlock = t.getBlock := by
  funext id
  unfold getBlock
  rw [get_setCoherent_foldl, Option.map_map]
  rfl

theorem Consistent.mark (h : t.Consistent) (out : List ConsensusFullBlock) :
    (out.foldl (fun t b => t.setCoherent b.getId) t).Consistent := by
  obtain ⟨hroot, hkids, -⟩ := setCoherent_foldl_frame t out
  refine ⟨?_, ?_⟩
  · intro id e he
    rw [get_setCoherent_foldl] at he
    obtain ⟨e', he', rfl⟩ := Option.map_eq_some_iff.mp he
    rw [getBlock_setCoherent_foldl]
    show Lists t.getBlock id e'.childrenBlocks
    exact h.children he'
  · rw [getBlock_setCoherent_foldl, hroot, hkids]
    exact h.rootChildren

theorem Inv.tryUpdateCoherency (h : Inv U t) (ht : t.tryUpdateCoherency policy sr id = .ok (t', out)) : Inv U t' := by
  obtain rfl := tryUpdateCoherency_ok ht
  obtain ⟨hroot, -, hpay⟩ := setCoherent_foldl_frame t out
  obtain ⟨hchildren, hrootChildren⟩ := h.consistent.mark out
  have hget := getBlock_setCoherent_foldl t out
  refine ⟨?_, ?_, hchildren, hrootChildren, ?_⟩
  · intro id vb hvb
    rw [hget] at hvb
    exact h.added hvb
  · intro id vb hvb
    rw [hget] at hvb
    rw [hroot]
    exact h.above hvb
  · rw [hget, hpay]
    exact h.indexed

/-! ### Prune -/

theorem indexed_drop (h : Indexed t.getBlock t.payloads) (id : BlockId) :
    Indexed (t.drop id).getBlock (t.drop id).payloads := by
  cases hg : t.tree.get id with
  | none =>
    have hdrop : t.drop id = t := by
      unfold drop remove
      rw [hg]
    rw [hdrop]
    exact h
  | some e =>
    have hpay : (t.drop id).payloads = unindex t.payloads e.validatedBlock.header.blockBodyId id := by
      unfold drop remove
      rw [hg]
    have hid := t.keyed hg
    have hget : ∀ c, (t.drop id).getBlock c = if c = e.validatedBlock.getId then none else t.getBlock c := by
      intro c
      unfold getBlock
      rw [get_drop, hid]
      by_cases hc : c = id <;> simp [hc]
    have hun := h.unindex (b := e.validatedBlock) (by simp [getBlock, hid, hg]) hget
    rw [hid] at hun
    rw [hpay]
    exact hun

theorem indexed_dropAll (h : Indexed t.getBlock t.payloads) (ids : List BlockId) :
    Indexed (t.dropAll ids).getBlock (t.dropAll ids).payloads := by
  unfold dropAll
  induction ids generalizing t with
  | nil => exact h
  | cons id ids ih => exact ih (indexed_drop h id)

/-- Along a path every later block is at most at the round of the QC of the first. -/
theorem path_round_le (hU : RoundsGrow U) {k k' : BlockId} {rest : List ConsensusFullBlock}
    (hpath : BlockPath k (b :: rest) k') (hmem : ∀ vb ∈ b :: rest, U vb) (hvb : vb ∈ rest) :
    vb.header.blockRound ≤ b.header.qc.getRound := by
  induction rest generalizing b k with
  | nil => cases hvb
  | cons b₁ rest ih =>
    obtain ⟨-, hpath⟩ := Linked.cons_iff.mp hpath
    have hid := (Linked.cons_iff.mp hpath).1
    have hb := hmem b (.head _)
    have hb₁ := hmem b₁ (.tail b (.head _))
    have hle := (hU b hb).2 b₁ hb₁ hid.symm
    rcases List.mem_cons.mp hvb with rfl | hvb
    · exact hle
    · have hrest := ih hpath (fun vb h => hmem vb (.tail b h)) hvb
      have := (hU b₁ hb₁).1
      omega

section Prune

variable {newRoot : BlockId} {path : List ConsensusFullBlock} (hU : RoundsGrow U) (h : Inv U t)
  (he : t.tree.get newRoot = some e) (hpath : BlockPath newRoot path t.root.blockId)
  (hmem : ∀ vb ∈ path, t.getBlock vb.getId = some vb)
include hU h he hpath hmem

/-- The QCs on the commit path are below the new root's round. -/
theorem path_qc_lt (hvb : vb ∈ path) : vb.header.qc.getRound < e.validatedBlock.header.blockRound := by
  cases path with
  | nil => cases hvb
  | cons b rest =>
    have hid := (Linked.cons_iff.mp hpath).1
    have hb : b = e.validatedBlock := by
      have hget := hmem b (.head _)
      rw [← hid] at hget
      simpa [getBlock, he, eq_comm] using hget
    have hall : ∀ vb ∈ b :: rest, U vb := fun vb hvb => h.added (hmem vb hvb)
    have hlt := (hU b (hall b (.head _))).1
    have hvblt := (hU vb (hall vb hvb)).1
    rcases List.mem_cons.mp hvb with rfl | hrest
    · rw [← hb]
      exact hlt
    · have := path_round_le hU hpath hall hrest
      rw [← hb]
      omega

/-- So the entries that stay are those the garbage collection spares. -/
theorem get_committed_eq (id : BlockId) : (t.committed e path).tree.get id = (t.tree.get id).filter fun e' =>
      e.validatedBlock.header.blockRound ≤ e'.validatedBlock.header.qc.getRound := by
  rw [get_committed]
  split_ifs with hid
  · obtain ⟨vb, hvb, rfl⟩ := List.mem_map.mp hid
    obtain ⟨e', he', rfl⟩ := Option.map_eq_some_iff.mp (hmem vb hvb)
    have hlt := path_qc_lt hU h he hpath hmem hvb
    rw [he', Option.filter_some, if_neg]
    simpa using hlt
  · rfl

theorem getBlock_committed : (t.committed e path).getBlock id = some vb ↔
    t.getBlock id = some vb ∧ e.validatedBlock.header.blockRound ≤ vb.header.qc.getRound := by
  unfold getBlock
  rw [get_committed_eq hU h he hpath hmem]
  simp only [Option.map_eq_some_iff, Option.filter_eq_some_iff, decide_eq_true_eq]
  constructor
  · rintro ⟨e', ⟨hget, hle⟩, rfl⟩
    exact ⟨⟨e', hget, rfl⟩, hle⟩
  · rintro ⟨⟨e', hget, rfl⟩, hle⟩
    exact ⟨e', ⟨hget, hle⟩, rfl⟩

/-- The children of the new root, and of every block that stays, stay. -/
theorem kept_children {p : ConsensusFullBlock} (hp : t.getBlock id = some p)
    (hkept : e.validatedBlock.header.blockRound ≤ p.header.blockRound) (hvb : t.getBlock c = some vb)
    (hparent : vb.getParentId = id) : (t.committed e path).getBlock c = some vb := by
  refine (getBlock_committed hU h he hpath hmem).mpr ⟨hvb, ?_⟩
  have hid := getBlock_keyed hp
  have := (hU vb (h.added hvb)).2 p (h.added hp) (by rw [hid, hparent])
  omega

theorem Inv.committed : Inv U (t.committed e path) := by
  have hsub : ∀ c vb, (t.committed e path).getBlock c = some vb → t.getBlock c = some vb :=
    fun c vb hc => ((getBlock_committed hU h he hpath hmem).mp hc).1
  have hroot : t.getBlock newRoot = some e.validatedBlock := by simp [getBlock, he]
  refine ⟨?_, ?_, ?_, ?_, ?_⟩
  · intro id vb hvb
    exact h.added (hsub id vb hvb)
  · intro id vb hvb
    obtain ⟨hget, hle⟩ := (getBlock_committed hU h he hpath hmem).mp hvb
    have := (hU vb (h.added hget)).1
    show e.validatedBlock.header.blockRound < vb.header.blockRound
    omega
  · intro id e' he'
    rw [get_committed_eq hU h he hpath hmem, Option.filter_eq_some_iff] at he'
    obtain ⟨hget, hle⟩ := he'
    have hp : t.getBlock id = some e'.validatedBlock := by simp [getBlock, hget]
    have hlt := (hU _ (h.added hp)).1
    have hle : e.validatedBlock.header.blockRound ≤ e'.validatedBlock.header.qc.getRound := by simpa using hle
    refine (h.children hget).mono hsub ?_
    intro c vb hvb hparent
    exact kept_children hU h he hpath hmem hp (by omega) hvb hparent
  · show Lists _ e.validatedBlock.getId e.childrenBlocks
    rw [t.keyed he]
    refine (h.children he).mono hsub ?_
    intro c vb hvb hparent
    exact kept_children hU h he hpath hmem hroot (Nat.le_refl _) hvb hparent
  · exact indexed_dropAll (indexed_dropAll h.indexed _) _

end Prune

theorem Inv.prune (hU : RoundsGrow U) (h : Inv U t) {newRoot : BlockId} {commit : List ConsensusFullBlock}
    (ht : t.prune newRoot = .ok (t', commit)) : Inv U t' := by
  refine prune_cases ht h fun e path _ he hpath hmem => ?_
  exact Inv.committed hU h he hpath fun vb hvb => (hmem vb hvb).getBlock

theorem reach_inv (hU : RoundsGrow U) {root : RootInfo} (h : Reach U root t) : Inv U t := by
  induction h with
  | new => exact new_inv root
  | add order _ hb ih => exact ih.add order hb
  | tryUpdateCoherency _ ht ih => exact ih.tryUpdateCoherency ht
  | prune _ ht ih => exact ih.prune hU ht

/-! ## The representation -/

/-- Of the ids in `l`, those of the tree are the blocks that name `id` as their parent, each once. -/
def ChildList (t : BlockTree) (id : BlockId) (l : List BlockId) : Prop :=
  (l.filter t.tree.contains).Nodup ∧
    ∀ c, c ∈ l.filter t.tree.contains ↔ ∃ vb, t.getBlock c = some vb ∧ vb.getParentId = id

theorem Lists.childList (h : Lists t.getBlock id l) : ChildList t id l := by
  have hfilter : l.filter t.tree.contains = l := by
    rw [List.filter_eq_self]
    intro c hc
    obtain ⟨vb, hvb, -⟩ := (h.2 c).mp hc
    obtain ⟨e, he, -⟩ := Option.map_eq_some_iff.mp hvb
    simp [AMap.contains, he]
  unfold ChildList
  rw [hfilter]
  exact h

theorem body_eq_iff {idx : BlockBodyIndex} {pid : BodyId} (hidx : t.payloads.get pid = some idx) :
    vb.body = idx.body ↔ vb.header.blockBodyId = pid := by
  have hid := t.bodies hidx
  rw [← vb.bodyId, ← hid]
  constructor
  · intro h
    rw [h]
  · intro h
    have htxs : vb.body.txs = idx.body.txs := congrArg BodyId.bytes h
    calc vb.body = ⟨vb.body.txs⟩ := rfl
      _ = idx.body := by rw [htxs]

/-- In every tree reached with blocks whose rounds grow along the chain, child lists and the
payload index are exact. -/
theorem tree_representation (hU : RoundsGrow U) {root : RootInfo} (h : Reach U root t) :
    (∀ id e, t.tree.get id = some e → ChildList t id e.childrenBlocks) ∧ ChildList t t.root.blockId t.rootKids ∧
      (∀ id vb, t.getBlock id = some vb → t.getPayload vb.header.blockBodyId = some vb.body) ∧
      ∀ pid idx, t.payloads.get pid = some idx → (∃ id vb, t.getBlock id = some vb ∧ vb.body = idx.body) ∧
        idx.activeBlocks.Nodup ∧ ∀ id, id ∈ idx.activeBlocks ↔ ∃ vb, t.getBlock id = some vb ∧ vb.body = idx.body := by
  have hi := reach_inv hU h
  have hactive : ∀ {pid idx}, t.payloads.get pid = some idx → activeOf t.payloads pid = idx.activeBlocks := by
    intro pid idx hidx
    simp [activeOf, hidx]
  refine ⟨fun id e he => (hi.children he).childList, hi.rootChildren.childList, ?_, ?_⟩
  · intro id vb hvb
    have hmem := (hi.indexed.mem vb.header.blockBodyId id).mpr ⟨vb, hvb, rfl⟩
    cases hidx : t.payloads.get vb.header.blockBodyId with
    | none => simp [activeOf, hidx] at hmem
    | some idx => simp [getPayload, hidx, (body_eq_iff hidx).mpr rfl]
  · intro pid idx hidx
    have hmem : ∀ id, id ∈ idx.activeBlocks ↔ ∃ vb, t.getBlock id = some vb ∧ vb.body = idx.body := by
      intro id
      rw [← hactive hidx, hi.indexed.mem]
      simp only [body_eq_iff hidx]
    refine ⟨?_, by rw [← hactive hidx]; exact hi.indexed.nodup pid, hmem⟩
    obtain ⟨id, hid⟩ := List.exists_mem_of_ne_nil _ (hi.indexed.live hidx)
    obtain ⟨vb, hvb⟩ := (hmem id).mp hid
    exact ⟨id, vb, hvb⟩

section Example

open Scenario

def firstTwo (b : ConsensusFullBlock) : Prop := b ∈ [block1, block2]

theorem roundsGrow_firstTwo : RoundsGrow firstTwo := by
  unfold RoundsGrow firstTwo
  decide +kernel

theorem reach_twoBlocks : Reach firstTwo genesisRoot twoBlocks :=
  .add _ (.add _ .new (by simp [firstTwo])) (by simp [firstTwo])

/-- A block that extends genesis, like the first. -/
def rival : ConsensusFullBlock := blockOf 4 GenesisQC 1

def andThird (b : ConsensusFullBlock) : Prop := b ∈ [block1, block2, block3, rival]

/-- The second block comes after its child. -/
def outOfOrder : BlockTree :=
  ((oneBlock.add (fun _ => []) block3).add (fun _ => []) rival).add (fun _ => []) block2

theorem reach_outOfOrder : Reach andThird genesisRoot outOfOrder :=
  .add _ (.add _ (.add _ (.add _ .new (by simp [andThird])) (by simp [andThird])) (by simp [andThird]))
    (by simp [andThird])

/-- Then the first is committed. -/
def lateParent : Except Panic BlockTree := do
  let (t, _) ← outOfOrder.tryUpdateCoherency passthru liveEnv.stateRead block1.getId
  let (t, _) ← t.prune block1.getId
  return t

theorem lateParent_representation : ∃ t, lateParent = .ok t ∧ t.root.blockId = block1.getId ∧
    t.rootKids = [block2.getId] ∧ t.tree.keys = [block3.getId, block2.getId] ∧
    ChildList t t.root.blockId t.rootKids ∧ ∀ id e, t.tree.get id = some e → ChildList t id e.childrenBlocks := by
  have hcheck : (match lateParent with
    | .ok t => decide (t.root.blockId = block1.getId ∧ t.rootKids = [block2.getId] ∧
        t.tree.keys = [block3.getId, block2.getId])
    | .error _ => false) = true := by decide +kernel
  cases hrun : lateParent with
  | error p =>
    rw [hrun] at hcheck
    cases hcheck
  | ok t =>
    rw [hrun] at hcheck
    obtain ⟨hroot, hkids, hkeys⟩ := of_decide_eq_true hcheck
    obtain ⟨⟨t₁, out⟩, h₁, hrun⟩ := bind_eq_ok.mp hrun
    obtain ⟨⟨t₂, commit⟩, h₂, hrun⟩ := bind_eq_ok.mp hrun
    obtain rfl := pure_eq_ok.mp hrun
    have hU : RoundsGrow andThird := by
      unfold RoundsGrow andThird
      decide +kernel
    have hreach := (reach_outOfOrder.tryUpdateCoherency h₁).prune h₂
    obtain ⟨hchildren, hrootKids, -⟩ := tree_representation hU hreach
    exact ⟨t₂, rfl, hroot, hkids, hkeys, hrootKids, hchildren⟩

end Example

end BlockTree

end MonadBft
