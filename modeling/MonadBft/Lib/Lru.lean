/-
  MonadBft.Lib.Lru — a bounded map that drops the entry whose use is longest ago.

  The entries are listed with the most recently used first. `peek` is the content, and every
  operation is characterised by what it does to it; a bound of zero is none.
-/
import MonadBft.Lib.AMap

namespace MonadBft.Lib

structure Lru (κ α : Type) where
  cap : Nat
  items : AMap κ α

namespace Lru

variable {κ α : Type} [DecidableEq κ]

def empty (cap : Nat) : Lru κ α := ⟨cap, AMap.empty⟩

variable (l : Lru κ α) {k : κ}

def len : Nat := l.items.entries.length

def peek (k : κ) : Option α := l.items.get k

/-- Looking a key up counts as a use. -/
def touch (k : κ) : Lru κ α :=
  match l.peek k with
  | none => l
  | some a => { l with items := l.items.toFront k a }

def removeOldest : Lru κ α := { l with items := l.items.dropLast }

/-- A new key may push the oldest entry out. -/
def put (k : κ) (a : α) : Lru κ α :=
  let l' := { l with items := l.items.toFront k a }
  if (l.peek k).isNone ∧ 0 < l.cap ∧ l.cap < l'.len then l'.removeOldest else l'

def remove (k : κ) : Lru κ α := { l with items := l.items.erase k }

/-- Change a value where it is. -/
def update (k : κ) (f : α → α) : Lru κ α := { l with items := l.items.modify k f }

def oldest : Option κ := l.items.entries.getLast?.map (·.1)

@[simp] theorem peek_touch (k k' : κ) : (l.touch k).peek k' = l.peek k' := by
  unfold touch
  cases h : l.peek k with
  | none => rfl
  | some a =>
    show (l.items.toFront k a).get k' = l.items.get k'
    rw [AMap.get_toFront]
    by_cases hk : k' = k
    · rw [if_pos hk, hk]
      exact h.symm
    · rw [if_neg hk]

theorem peek_remove (k k' : κ) : (l.remove k).peek k' = if k' = k then none else l.peek k' :=
  AMap.get_erase l.items k k'

theorem peek_update (k : κ) (f : α → α) (k' : κ) :
    (l.update k f).peek k' = if k' = k then (l.peek k).map f else l.peek k' := AMap.get_modify l.items k f k'

theorem of_peek_removeOldest {l : Lru κ α} {a : α} (h : l.removeOldest.peek k = some a) :
    l.peek k = some a := AMap.of_get_dropLast h

theorem peek_put_self (k : κ) (a : α) : (l.put k a).peek k = some a := by
  unfold put
  dsimp only
  split_ifs with h
  · obtain ⟨-, hcap, hlen⟩ := h
    have hpos : (l.items.erase k).entries ≠ [] := by
      intro hnil
      simp only [len, AMap.toFront, hnil, List.length_singleton] at hlen
      omega
    show (l.items.toFront k a).dropLast.entries.lookup k = some a
    simp [AMap.dropLast, AMap.toFront, List.dropLast_cons_of_ne_nil hpos]
  · show (l.items.toFront k a).get k = some a
    rw [AMap.get_toFront, if_pos rfl]

theorem of_peek_put {l : Lru κ α} {k' : κ} {a a' : α} (h : (l.put k a).peek k' = some a') :
    (k' = k ∧ a' = a) ∨ (k' ≠ k ∧ l.peek k' = some a') := by
  have hfront : (l.items.toFront k a).get k' = some a' := by
    unfold put at h
    dsimp only at h
    split_ifs at h
    · exact of_peek_removeOldest h
    · exact h
  rw [AMap.get_toFront] at hfront
  by_cases hk : k' = k
  · rw [if_pos hk] at hfront
    exact .inl ⟨hk, (Option.some.inj hfront).symm⟩
  · rw [if_neg hk] at hfront
    exact .inr ⟨hk, hfront⟩

theorem cap_put (k : κ) (a : α) : (l.put k a).cap = l.cap := by
  unfold put
  dsimp only
  split_ifs <;> rfl

theorem len_toFront (a : α) :
    (l.items.toFront k a).entries.length ≤ if (l.peek k).isNone then l.len + 1 else l.len := by
  have hle : (l.items.erase k).entries.length ≤ l.items.entries.length := List.length_filter_le _ _
  cases hp : l.peek k with
  | none =>
    simp only [AMap.toFront, List.length_cons, Option.isNone_none, if_true, len]
    omega
  | some b =>
    have := AMap.length_erase_lt hp
    simp only [AMap.toFront, List.length_cons, Option.isNone_some, len]
    simp only [Bool.false_eq_true, if_false]
    omega

theorem len_put_le {l : Lru κ α} (k : κ) (a : α) (hcap : 0 < l.cap) (h : l.len ≤ l.cap) : (l.put k a).len ≤ l.cap := by
  have hlen := len_toFront l (k := k) a
  unfold put
  dsimp only
  split_ifs with hfull
  · rw [if_pos hfull.1] at hlen
    show (l.items.toFront k a).entries.dropLast.length ≤ l.cap
    rw [List.length_dropLast]
    omega
  · show (l.items.toFront k a).entries.length ≤ l.cap
    by_cases hnew : (l.peek k).isNone = true
    · by_contra hgt
      exact hfull ⟨hnew, hcap, Nat.lt_of_not_le hgt⟩
    · rw [if_neg hnew] at hlen
      omega

end Lru

end MonadBft.Lib
