/-
  MonadBft.Rlp.Session — stream operations in any order.

  A caller starts with one stream over its input. Each call names a stream it holds and an
  operation; `List` gives it one more. An operation that fails leaves the caller free to go
  on, with the stream where the operation left it; only a panic ends the session.

  Proved:
  - `step_safe` / `step_panics`: one call panics exactly on an overlong header of the kind it
    reads; otherwise it leaves the streams the exact session has, every slice it returns lies
    inside the input, and a successful read shortens its stream.
  - `run_safe_iff`: the same over every session.
-/
import MonadBft.Rlp.Decoder

namespace MonadBft.Rlp

inductive Op where
  | bytes
  | list
  | uint64
  | uint32
  | uint16
  | uint8
  | uint128
  | bool
  | fixedBytes (n : Nat)
  | done
  | remaining
  | raw
  deriving DecidableEq, Repr

/-- What an operation returns. A sub-stream is named by its index and shown by its bytes. -/
inductive Val where
  | bytes (b : Bytes)
  | stream (index : Nat) (b : Bytes)
  | uint (n : Nat)
  | bool (b : Bool)
  | unit
  deriving DecidableEq, Repr

/-- The slices of the input that a returned value holds. -/
def Val.slices : Val → List Bytes
  | .bytes b => [b]
  | .stream _ b => [b]
  | _ => []

/-- Whether the operation reads an item, and if so whether it reads a list. -/
def Op.kind : Op → Option Bool
  | .list => some true
  | .done | .remaining | .raw => none
  | _ => some false

/-- What an operation that reads makes of the payload; `next` is the index of a new stream. -/
def Op.value (next : Nat) (p : Bytes) : Op → Except Err Val
  | .list => .ok (.stream next p)
  | .uint64 => (leftPadUint64 p).map fun v => .uint v.toNat
  | .uint32 => (leftPadUint32 p).map fun v => .uint v.toNat
  | .uint16 => (leftPadUint16 p).map fun v => .uint v.toNat
  | .uint8 => (leftPadUint8 p).map fun v => .uint v.toNat
  | .uint128 => (leftPadUint128 p).map fun v => .uint (v.1.toNat * 2 ^ 64 + v.2.toNat)
  | .bool => (leftPadBool p).map .bool
  | .fixedBytes n => (asFixed n p).map fun b => .bytes b.val
  | _ => .ok (.bytes p)

/-- What an operation that only looks at the stream returns. -/
def Op.look (s : Bytes) : Op → Except Err Val
  | .done => if s = [] then .ok .unit else .error .unexpectedLength
  | .remaining => .ok (.uint s.length)
  | _ => .ok (.bytes s)

def liftErr {α : Type} : Except Err α → Except Fault α
  | .ok x => .ok x
  | .error e => .error (.err e)

/-- One call on stream `i`, which holds `s`: the result, and the streams afterwards. -/
def step (a : Arith) (ss : List Bytes) (i : Nat) (s : Bytes) (op : Op) : Except Fault Val × List Bytes :=
  match op.kind with
  | none => (liftErr (op.look s), ss)
  | some w =>
    match readItem a w s with
    | .error f => (.error f, ss)
    | .ok (p, r) => (liftErr (op.value ss.length p), ss.set i r ++ if w then [p] else [])

structure Entry where
  op : Op
  before : Bytes
  result : Except Fault Val
  after : Bytes

/-- The calls of a session until the first panic. An index that names no stream is no call. -/
def run (a : Arith) : List Bytes → List (Nat × Op) → List Entry
  | _, [] => []
  | ss, (i, op) :: cs =>
    match ss[i]? with
    | none => run a ss cs
    | some s =>
      let out := step a ss i s op
      ⟨op, s, out.1, (out.2[i]?).getD []⟩ ::
        match out.1 with
        | .error .panic => []
        | _ => run a out.2 cs

/-- The items a session reads when no sum wraps. -/
def items : List Bytes → List (Nat × Op) → List Item
  | _, [] => []
  | ss, (i, op) :: cs =>
    match ss[i]? with
    | none => items ss cs
    | some s => (op.kind.map (Item.mk · s)).toList ++ items (step .exact ss i s op).2 cs

/-- A call on a stream over part of `b` does not panic, what it returns lies inside `b`, and a
successful read takes something off its stream. -/
def Entry.Safe (b : Bytes) (e : Entry) : Prop :=
  e.result ≠ .error .panic ∧ ∀ v, e.result = .ok v →
    (∀ t ∈ v.slices, t <:+: b) ∧ (e.op.kind ≠ none → e.after.length < e.before.length)

/-! ## One call -/

section call

variable {b s : Bytes} {ss : List Bytes} {i : Nat} {op : Op} {v : Val} {α : Type} {a : Arith}

theorem liftErr_ne_panic (x : Except Err α) : liftErr x ≠ .error .panic := by
  cases x <;> simp [liftErr]

theorem liftErr_eq_ok {x : Except Err α} {y : α} : liftErr x = .ok y ↔ x = .ok y := by
  cases x <;> simp [liftErr]

theorem look_slices (h : op.look s = .ok v) : ∀ t ∈ v.slices, t = s := by
  intro t ht
  cases op with
  | done =>
    simp only [Op.look] at h
    split_ifs at h
    rw [← Except.ok.inj h] at ht
    simp [Val.slices] at ht
  | remaining =>
    rw [← Except.ok.inj h] at ht
    simp [Val.slices] at ht
  | _ =>
    rw [← Except.ok.inj h] at ht
    simpa [Val.slices] using ht

theorem value_slices {n : Nat} {p : Bytes} (h : op.value n p = .ok v) : ∀ t ∈ v.slices, t = p := by
  intro t ht
  cases op with
  | fixedBytes m =>
    obtain ⟨q, hq, rfl⟩ := Lib.map_eq_ok.mp h
    have hqp : q.val = p := by
      unfold asFixed at hq
      split_ifs at hq
      rw [← Except.ok.inj hq]
    simpa [Val.slices, hqp] using ht
  | uint64 | uint32 | uint16 | uint8 | uint128 | bool =>
    obtain ⟨q, -, rfl⟩ := Lib.map_eq_ok.mp h
    simp [Val.slices] at ht
  | bytes | list | done | remaining | raw =>
    obtain rfl := Except.ok.inj h
    simpa [Val.slices] using ht

theorem step_panics {w : Bool} (hk : op.kind = some w) (h : overlong w s = true) :
    (step .go ss i s op).1 = .error .panic := by
  simp [step, hk, readItem_go_of_overlong h]

/-- A call whose header is not overlong: the machine's streams are those of the exact session. -/
theorem step_streams (hs : s.length < 2 ^ 63) (h : ∀ w, op.kind = some w → overlong w s = false) :
    (step .go ss i s op).2 = (step .exact ss i s op).2 := by
  cases hk : op.kind with
  | none => simp [step, hk]
  | some w =>
    have heq := (readItem_go hs (h w hk)).2
    simp only [step, hk]
    cases hgo : readItem .go w s with
    | ok v =>
      rw [hgo] at heq
      rw [Lib.toOption_eq_some.mp heq.symm]
    | error f =>
      cases hex : readItem .exact w s with
      | ok v => rw [hgo, hex] at heq; exact absurd heq (by simp [Except.toOption])
      | error f' => rfl

theorem step_ne_panic (hs : s.length < 2 ^ 63) (h : ∀ w, op.kind = some w → overlong w s = false) :
    (step .go ss i s op).1 ≠ .error .panic := by
  cases hk : op.kind with
  | none => simpa [step, hk] using liftErr_ne_panic _
  | some w =>
    have hf := (readItem_go hs (h w hk)).1
    simp only [step, hk]
    cases hgo : readItem .go w s with
    | ok v => simpa [hgo] using liftErr_ne_panic _
    | error f =>
      obtain ⟨e, rfl⟩ := hf f hgo
      simp

theorem step_within (hss : ∀ t ∈ ss, t <:+: b) (hi : ss[i]? = some s) : ∀ t ∈ (step a ss i s op).2, t <:+: b := by
  have hsb : s <:+: b := hss s (List.mem_of_getElem? hi)
  intro t ht
  unfold step at ht
  split at ht
  · exact hss t ht
  · rename_i w hk
    split at ht
    · exact hss t ht
    · rename_i p r hr
      obtain ⟨hd, rfl, -⟩ := readItem_ok hr
      rcases List.mem_append.mp ht with ht | ht
      · rcases List.mem_or_eq_of_mem_set ht with ht | rfl
        · exact hss t ht
        · exact (List.suffix_append _ _).isInfix.trans hsb
      · split_ifs at ht
        · rw [List.mem_singleton.mp ht]
          exact (List.infix_append _ _ _).trans hsb
        · simp at ht

theorem step_ok (hss : ∀ t ∈ ss, t <:+: b) (hi : ss[i]? = some s)
    (hv : (step a ss i s op).1 = .ok v) : (∀ t ∈ v.slices, t <:+: b) ∧
      (op.kind ≠ none → (((step a ss i s op).2[i]?).getD []).length < s.length) := by
  have hsb : s <:+: b := hss s (List.mem_of_getElem? hi)
  have hlt : i < ss.length := (List.getElem?_eq_some_iff.mp hi).1
  cases hk : op.kind with
  | none =>
    simp only [step, hk] at hv
    refine ⟨fun t ht => ?_, fun h => absurd rfl h⟩
    rw [look_slices (liftErr_eq_ok.mp hv) t ht]
    exact hsb
  | some w =>
    simp only [step, hk] at hv ⊢
    cases hr : readItem a w s with
    | error f => simp [hr] at hv
    | ok q =>
      obtain ⟨p, r⟩ := q
      simp only [hr] at hv ⊢
      obtain ⟨hd, rfl, hpos⟩ := readItem_ok hr
      refine ⟨fun t ht => ?_, fun _ => ?_⟩
      · rw [value_slices (liftErr_eq_ok.mp hv) t ht]
        exact (List.infix_append _ _ _).trans hsb
      · have hlt' : i < (ss.set i r).length := by simpa using hlt
        rw [List.getElem?_append_left hlt', List.getElem?_set_self hlt, Option.getD_some]
        simp only [List.length_append] at hpos ⊢
        omega

end call

/-! ## Sessions -/

section sessions

variable {a : Arith} {ss : List Bytes} {i : Nat} {s : Bytes} {op : Op} {cs : List (Nat × Op)}

theorem run_cons_of_panic (hi : ss[i]? = some s) (h : (step a ss i s op).1 = .error .panic) : run a ss ((i, op) :: cs) =
      [⟨op, s, .error .panic, ((step a ss i s op).2[i]?).getD []⟩] := by
  simp [run, hi, h]

theorem run_cons_of_ne_panic (hi : ss[i]? = some s) (h : (step a ss i s op).1 ≠ .error .panic) :
    run a ss ((i, op) :: cs) = ⟨op, s, (step a ss i s op).1, ((step a ss i s op).2[i]?).getD []⟩ ::
        run a (step a ss i s op).2 cs := by
  simp only [run, hi]

theorem forall_items_cons (hi : ss[i]? = some s) {P : Item → Prop} : (∀ it ∈ items ss ((i, op) :: cs), P it) ↔
      (∀ w, op.kind = some w → P ⟨w, s⟩) ∧ ∀ it ∈ items (step .exact ss i s op).2 cs, P it := by
  simp only [items, hi, List.forall_mem_append]
  cases op.kind <;> simp

end sessions

/-- Sessions over any streams inside `b`. -/
theorem run_safe_iff_of_infix {b : Bytes} (hb : b.length < 2 ^ 63) {cs : List (Nat × Op)}
    {ss : List Bytes} (hss : ∀ t ∈ ss, t <:+: b) :
    (∀ e ∈ run .go ss cs, e.Safe b) ↔ ∀ it ∈ items ss cs, it.overlong = false := by
  induction cs generalizing ss with
  | nil => simp [run, items]
  | cons c cs ih =>
    obtain ⟨i, op⟩ := c
    cases hi : ss[i]? with
    | none => simpa [run, items, hi] using ih hss
    | some s =>
      have hs : s.length < 2 ^ 63 :=
        lt_of_le_of_lt (hss s (List.mem_of_getElem? hi)).length_le hb
      rw [forall_items_cons hi]
      by_cases hov : ∀ w, op.kind = some w → overlong w s = false
      · -- The call goes through, and both sessions hold the same streams after it.
        have hnp : (step .go ss i s op).1 ≠ .error .panic := step_ne_panic hs hov
        have hhead : Entry.Safe b ⟨op, s, (step .go ss i s op).1,
            ((step .go ss i s op).2[i]?).getD []⟩ := ⟨hnp, fun v hv => step_ok hss hi hv⟩
        have htail := ih (step_within hss hi : ∀ t ∈ (step .go ss i s op).2, t <:+: b)
        rw [run_cons_of_ne_panic hi hnp, List.forall_mem_cons, htail, ← step_streams hs hov]
        simp only [Item.overlong, hhead, true_and]
        exact ⟨fun h => ⟨hov, h⟩, fun h => h.2⟩
      · -- The call panics, and its item is the overlong one.
        obtain ⟨w, hk, hw⟩ : ∃ w, op.kind = some w ∧ overlong w s ≠ false := by
          simpa only [not_forall, exists_prop] using hov
        replace hw : overlong w s = true := by simpa using hw
        rw [run_cons_of_panic hi (step_panics hk hw)]
        constructor
        · intro h
          exact absurd rfl (h _ (List.mem_singleton_self _)).1
        · intro h
          exact absurd h.1 hov

/-- A session on input `b` is safe exactly if none of the items it reads is overlong. -/
theorem run_safe_iff {b : Bytes} (hb : b.length < 2 ^ 63) (cs : List (Nat × Op)) :
    (∀ e ∈ run .go [b] cs, e.Safe b) ↔ ∀ it ∈ items [b] cs, it.overlong = false :=
  run_safe_iff_of_infix hb (by simp)

end MonadBft.Rlp
