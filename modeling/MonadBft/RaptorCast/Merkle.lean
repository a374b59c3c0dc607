/-
  MonadBft.RaptorCast.Merkle — the tree over a batch of chunks (`net/raptorcast/merkle.go`).

  The tree is an array in heap order: the children of entry `i` are `2 i + 1` and `2 i + 2`, and the
  leaves are its last entries, zero where there is no chunk. `entry h i` is entry `i`, `h` levels
  above the leaves.

  Proved (`computeRoot_proof`): the walk from a leaf with the siblings of its proof ends at the root.
  Conversely (`merkle_batch`), a walk that ends at the root starts from the entry at its index, as
  long as nothing hashed on the way collides with what was hashed for the tree.
-/
import MonadBft.RaptorCast.Parse

namespace MonadBft.RaptorCast

open Rlp

structure MerkleTree where
  leafStartIdx : Nat
  leaves : List Bytes
  deriving DecidableEq, Repr

def newMerkleTreeWithDepth (leaves : List Bytes) (depth : Nat) : MerkleTree :=
  ⟨2 * 2 ^ (depth - 1) - 1 - 2 ^ (depth - 1), leaves.map Hashing.hashToMerkle⟩

namespace MerkleTree

variable (H : Hashing) (t : MerkleTree)

def entry : Nat → Nat → Bytes
  | 0, idx => t.leaves.getD (idx - t.leafStartIdx) (List.replicate merkleHashLen 0)
  | h + 1, idx => H.node (entry h (2 * idx + 1)) (entry h (2 * idx + 2))

def root (depth : Nat) : Bytes := t.entry H (depth - 1) 0

/-- The other child of the parent. -/
def siblingOf (idx : Nat) : Nat :=
  let parent := (idx - 1) / 2
  if 2 * parent + 1 = idx then 2 * parent + 2 else 2 * parent + 1

/-- The loop of `proof`: the siblings on the way up, `n` levels from level `h` on. -/
def siblings : Nat → Nat → Nat → List Bytes
  | 0, _, _ => []
  | n + 1, h, idx => t.entry H h (siblingOf idx) :: siblings n (h + 1) ((idx - 1) / 2)

def proof (depth leafIdx : Nat) : List Bytes := (t.siblings H (depth - 1) 0 (t.leafStartIdx + leafIdx)).reverse

variable {H t}

theorem length_siblings (n h idx : Nat) : (t.siblings H n h idx).length = n := by
  induction n generalizing h idx with
  | zero => rfl
  | succ n ih => rw [siblings, List.length_cons, ih]

theorem length_proof (depth leafIdx : Nat) : (t.proof H depth leafIdx).length = depth - 1 := by
  rw [proof, List.length_reverse, length_siblings]

theorem length_entry (ht : ∀ l ∈ t.leaves, l.length = merkleHashLen) (h idx : Nat) :
    (t.entry H h idx).length = merkleHashLen := by
  cases h with
  | zero =>
    rw [entry, List.getD_eq_getElem?_getD]
    cases hl : t.leaves[idx - t.leafStartIdx]? with
    | none => exact List.length_replicate
    | some l => exact ht l (List.mem_of_getElem? hl)
  | succ h => exact H.length_hashToMerkle _

theorem length_mem_siblings (ht : ∀ l ∈ t.leaves, l.length = merkleHashLen) {n h idx : Nat} {b : Bytes}
    (hb : b ∈ t.siblings H n h idx) : b.length = merkleHashLen := by
  induction n generalizing h idx with
  | zero => cases hb
  | succ n ih =>
    rcases List.mem_cons.mp hb with rfl | hb
    · exact length_entry ht h _
    · exact ih hb

/-- One step of the walk: an entry and its sibling give the parent. -/
theorem entry_parent {h idx : Nat} (hidx : 0 < idx) :
    (if idx % 2 = 1 then H.node (t.entry H h idx) (t.entry H h (siblingOf idx))
      else H.node (t.entry H h (siblingOf idx)) (t.entry H h idx)) = t.entry H (h + 1) ((idx - 1) / 2) := by
  rw [entry]
  by_cases hodd : idx % 2 = 1
  · have hleft : 2 * ((idx - 1) / 2) + 1 = idx := by omega
    rw [if_pos hodd, siblingOf, if_pos hleft, hleft]
  · have hleft : 2 * ((idx - 1) / 2) + 1 ≠ idx := by omega
    have hright : 2 * ((idx - 1) / 2) + 2 = idx := by omega
    rw [if_neg hodd, siblingOf, if_neg hleft, hright]

/-- The walk from an entry `n` levels below the root. -/
theorem merkleWalk_siblings {n h idx : Nat} (hlo : 2 ^ n ≤ idx + 1) (hhi : idx + 1 < 2 ^ (n + 1)) :
    merkleWalk H (t.entry H h idx) idx (t.siblings H n h idx) = some (t.entry H (h + n) 0) := by
  induction n generalizing h idx with
  | zero =>
    obtain rfl : idx = 0 := by omega
    rfl
  | succ n ih =>
    have htwo : 2 ^ (n + 1) = 2 * 2 ^ n := by rw [pow_succ, mul_comm]
    have hpos : 0 < 2 ^ n := Nat.two_pow_pos n
    rw [siblings, merkleWalk, if_neg (by omega), entry_parent (by omega), ih]
    · rw [Nat.add_assoc, Nat.add_comm 1 n]
    · omega
    · rw [pow_succ, htwo] at hhi
      omega

/-- What the tree hashes for entry `i`, `h + 1` levels above the leaves. -/
def inputAt (H : Hashing) (t : MerkleTree) (h i : Nat) : Bytes := t.entry H h (2 * i + 1) ++ t.entry H h (2 * i + 2)

/-- Nothing in `inputs` has the truncated hash of another string that was hashed for the tree. -/
def CollisionFree (H : Hashing) (t : MerkleTree) (depth : Nat) (inputs : List Bytes) : Prop :=
  ∀ x ∈ inputs, ∀ n h i, n + h + 1 = depth - 1 → 2 ^ n ≤ i + 1 → i + 1 < 2 ^ (n + 1) →
    Hashing.hashToMerkle (H.sum256 x) = Hashing.hashToMerkle (H.sum256 (t.inputAt H h i)) → x = t.inputAt H h i

end MerkleTree

/-- What `merkleWalk` hashes. -/
def walkInputs (H : Hashing) (cur : Bytes) (idx : Nat) : List Bytes → List Bytes
  | [] => []
  | sib :: rest =>
    let input := if idx % 2 = 1 then cur ++ sib else sib ++ cur
    input :: walkInputs H (Hashing.hashToMerkle (H.sum256 input)) ((idx - 1) / 2) rest

/-- A walk that ends at the root has started from the entry at its index. -/
theorem entry_of_merkleWalk {H : Hashing} {t : MerkleTree} {depth h idx : Nat} {cur : Bytes} {sibs : List Bytes}
    (ht : ∀ l ∈ t.leaves, l.length = merkleHashLen) (hcur : cur.length = merkleHashLen)
    (hsibs : ∀ s ∈ sibs, s.length = merkleHashLen) (hlevel : sibs.length + h = depth - 1)
    (hlo : 2 ^ sibs.length ≤ idx + 1) (hhi : idx + 1 < 2 ^ (sibs.length + 1))
    (hfree : t.CollisionFree H depth (walkInputs H cur idx sibs))
    (hwalk : merkleWalk H cur idx sibs = some (t.root H depth)) : cur = t.entry H h idx := by
  induction sibs generalizing h idx cur with
  | nil =>
    obtain rfl : idx = 0 := by simp at hhi; omega
    obtain rfl : h = depth - 1 := by simpa using hlevel
    exact Option.some.inj hwalk
  | cons sib sibs ih =>
    have htwo : 2 ^ (sibs.length + 1) = 2 * 2 ^ sibs.length := by rw [pow_succ, mul_comm]
    have hpos : 0 < 2 ^ sibs.length := Nat.two_pow_pos _
    rw [List.length_cons] at hlevel hlo hhi
    rw [pow_succ, htwo] at hhi
    have hlo' : 2 ^ sibs.length ≤ (idx - 1) / 2 + 1 := by omega
    have hhi' : (idx - 1) / 2 + 1 < 2 ^ (sibs.length + 1) := by omega
    rw [merkleWalk, if_neg (by omega)] at hwalk
    have hup : (if idx % 2 = 1 then H.node cur sib else H.node sib cur) =
        Hashing.hashToMerkle (H.sum256 (if idx % 2 = 1 then cur ++ sib else sib ++ cur)) := by
      split_ifs <;> rfl
    rw [hup] at hwalk
    have hparent := ih (h := h + 1) (H.length_hashToMerkle _) (fun s hs => hsibs s (.tail _ hs))
      (by omega) hlo' hhi' (fun x hx => hfree x (.tail _ hx)) hwalk
    -- the parent's hash is the tree's, so it was made of the same two strings
    have hinput := hfree _ (.head _) sibs.length h ((idx - 1) / 2) (by omega) hlo' hhi' hparent
    have hsib := hsibs sib (.head _)
    split_ifs at hinput with hodd
    · have hleft := (List.append_inj hinput (hcur.trans (MerkleTree.length_entry ht h _).symm)).1
      rw [hleft]
      congr 1
      omega
    · have hright := (List.append_inj hinput (hsib.trans (MerkleTree.length_entry ht h _).symm)).2
      rw [hright]
      congr 1
      omega

theorem leafStartIdx_eq (leaves : List Bytes) (depth : Nat) :
    (newMerkleTreeWithDepth leaves depth).leafStartIdx = 2 ^ (depth - 1) - 1 := by
  show 2 * 2 ^ (depth - 1) - 1 - 2 ^ (depth - 1) = _
  omega

theorem computeRoot_proof {H : Hashing} {leaves : List Bytes} {depth i : Nat} {leaf : Bytes} (hdepth : depth ≤ merkleMaxDepth)
    (hleaf : leaves[i]? = some leaf) (hi : i < 2 ^ (depth - 1)) (hpos : 1 ≤ depth) :
    merkleProofComputeRoot H leaf ((newMerkleTreeWithDepth leaves depth).proof H depth i) i =
      some ((newMerkleTreeWithDepth leaves depth).root H depth) := by
  have hstart := leafStartIdx_eq leaves depth
  have hentry : (newMerkleTreeWithDepth leaves depth).entry H 0 (2 ^ (depth - 1) - 1 + i) = Hashing.hashToMerkle leaf := by
    rw [MerkleTree.entry, hstart, Nat.add_sub_cancel_left, List.getD_eq_getElem?_getD]
    simp [newMerkleTreeWithDepth, hleaf]
  have hwalk : merkleWalk H ((newMerkleTreeWithDepth leaves depth).entry H 0 (2 ^ (depth - 1) - 1 + i))
      (2 ^ (depth - 1) - 1 + i) ((newMerkleTreeWithDepth leaves depth).siblings H (depth - 1) 0 (2 ^ (depth - 1) - 1 + i)) =
      some ((newMerkleTreeWithDepth leaves depth).entry H (0 + (depth - 1)) 0) := by
    refine MerkleTree.merkleWalk_siblings (by omega) ?_
    rw [pow_succ]
    omega
  rw [merkleProofComputeRoot, MerkleTree.length_proof, if_neg (by omega)]
  rw [if_neg (by omega), MerkleTree.proof, List.reverse_reverse, hstart, MerkleTree.root]
  have hidx : 2 * 2 ^ (depth - 1) - 1 - 2 ^ (depth - 1) + i = 2 ^ (depth - 1) - 1 + i := by omega
  rw [hidx, ← hentry, hwalk, Nat.zero_add]

/-- For a tree of a batch: the proof of a leaf leads from it to the root; whatever leads to the root
at index `i`, without a collision, has the truncated hash that the tree has there; and no index that
is too large for the proof leads anywhere. -/
theorem merkle_batch (H : Hashing) (leaves : List Bytes) (depth : Nat) (hpos : 1 ≤ depth) (hdepth : depth ≤ merkleMaxDepth)
    (hleaves : ∀ l ∈ leaves, l.length = 32) (hcount : leaves.length ≤ 2 ^ (depth - 1)) :
    (∀ i leaf, leaves[i]? = some leaf →
      merkleProofComputeRoot H leaf ((newMerkleTreeWithDepth leaves depth).proof H depth i) i =
        some ((newMerkleTreeWithDepth leaves depth).root H depth)) ∧
    (∀ leaf siblings i, leaf.length = 32 → siblings.length = depth - 1 → (∀ s ∈ siblings, s.length = merkleHashLen) →
      (newMerkleTreeWithDepth leaves depth).CollisionFree H depth
        (walkInputs H (Hashing.hashToMerkle leaf) (2 ^ (depth - 1) - 1 + i) siblings.reverse) →
      merkleProofComputeRoot H leaf siblings i = some ((newMerkleTreeWithDepth leaves depth).root H depth) →
      (leaves.map Hashing.hashToMerkle).getD i (List.replicate merkleHashLen 0) = Hashing.hashToMerkle leaf) ∧
    ∀ leaf siblings i, 2 ^ siblings.length ≤ i → merkleProofComputeRoot H leaf siblings i = none := by
  have htrunc : ∀ l : Bytes, l.length = 32 → (Hashing.hashToMerkle l).length = merkleHashLen := by
    intro l hl
    rw [Hashing.hashToMerkle, List.length_take, hl]
    rfl
  refine ⟨?_, ?_, ?_⟩
  · intro i leaf hleaf
    obtain ⟨hi, -⟩ := List.getElem?_eq_some_iff.mp hleaf
    exact computeRoot_proof hdepth hleaf (hi.trans_le hcount) hpos
  · intro leaf siblings i hlen hsibs hsize hfree hroot
    rw [merkleProofComputeRoot, hsibs, if_neg (by omega)] at hroot
    dsimp only at hroot
    split_ifs at hroot with hi
    have hidx : 2 * 2 ^ (depth - 1) - 1 - 2 ^ (depth - 1) + i = 2 ^ (depth - 1) - 1 + i := by omega
    have htwo : 2 ^ (depth - 1 + 1) = 2 * 2 ^ (depth - 1) := by rw [pow_succ, mul_comm]
    have hrev : siblings.reverse.length = depth - 1 := by rw [List.length_reverse, hsibs]
    rw [hidx] at hroot
    have hentry := entry_of_merkleWalk (h := 0) (by simpa [newMerkleTreeWithDepth] using fun l hl => htrunc l (hleaves l hl))
      (htrunc leaf hlen) (by simpa using hsize) (by omega) (by rw [hrev]; omega) (by rw [hrev]; omega) hfree hroot
    rw [hentry, MerkleTree.entry, leafStartIdx_eq, Nat.add_sub_cancel_left]
    rfl
  · intro leaf siblings i hi
    rw [merkleProofComputeRoot]
    rw [if_pos hi, ite_self]

/-- Two leaves under a constant hash: the first is where its proof says. -/
theorem merkle_batch_pair : List.replicate 20 (1 : UInt8) = Hashing.hashToMerkle (List.replicate 32 1) := by
  have h := merkle_batch ⟨fun _ => List.replicate 32 0, fun _ => rfl, fun _ => []⟩ [List.replicate 32 1, List.replicate 32 2] 2
    (by decide) (by decide) (by decide) (by decide)
  refine h.2.1 (List.replicate 32 1) [List.replicate 20 2] 0 rfl rfl (by decide) ?_ (by decide)
  intro x hx n h i hn hlo hhi _
  obtain ⟨rfl, rfl⟩ : n = 0 ∧ h = 0 := by omega
  obtain rfl : i = 0 := by simp at hhi; omega
  exact List.mem_singleton.mp hx

end MonadBft.RaptorCast
