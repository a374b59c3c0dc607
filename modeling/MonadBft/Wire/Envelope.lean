/-
  MonadBft.Wire.Envelope — the two entry points for bytes from the network:
  `glue.DecodeMonadMessage` and raptorcast's `decodeRouterEnvelope`.

  Both are decoders, so that they return, and panic only on an overlong item, is in their
  type. What is left is where the slices they return come from.

  Proved:
  - `decoding_safe_iff`: for an input of any length, every session of stream operations and both
    entry points return a value or an error, with slices that lie inside the input, exactly if
    none of the items they read has an overlong header; `nine_bytes_panic` is such an input.
-/
import MonadBft.Rlp.Session
import MonadBft.Wire.Messages

namespace MonadBft.Wire

open Rlp Rlp.Decoder StateSyncNetworkMessage
open Lib (int64)

structure MonadVersion where
  protocolVersion : UInt32
  clientVersionMaj : UInt16
  clientVersionMin : UInt16
  hashVersion : UInt16
  serializeVersion : UInt16
  deriving DecidableEq, Repr

def MonadVersion.decode : Decoder MonadVersion := list do
  let pv ← uint64
  let maj ← uint64
  let min ← uint64
  let hv ← uint64
  let sv ← uint64
  done
  pure ⟨pv.toUInt32, maj.toUInt16, min.toUInt16, hv.toUInt16, sv.toUInt16⟩

def MaxForwardedTxsPerMessage : Nat := 5000

section message

variable (bls : Pairing) (ep : Protocol)

inductive MonadMessage where
  | consensus (m : Unverified ep)
  | blockSyncRequest (m : RequestMessage)
  | blockSyncResponse (m : ResponseMessage ep)
  | forwardedTx (txs : List Bytes)
  | stateSync (m : StateSyncNetworkMessage)

def decodeForwardedTx : Decoder (List Bytes) := do
  let txs ← list do
    let txs ← many bytes (item_strict false)
    done
    pure txs
  check (txs.length ≤ MaxForwardedTxsPerMessage) .custom
  pure txs

/-- `glue.DecodeMonadMessage`. What follows the list is not looked at. -/
def decodeMonadMessage : Decoder (MonadMessage ep) := list do
  let _ ← MonadVersion.decode
  let tag ← uint64
  let m ← (match tag.toNat with
    | 1 => MonadMessage.consensus <$> Unverified.decode bls ep
    | 2 => MonadMessage.blockSyncRequest <$> RequestMessage.decode
    | 3 => MonadMessage.blockSyncResponse <$> ResponseMessage.decode bls ep
    | 4 => MonadMessage.forwardedTx <$> decodeForwardedTx
    | 5 => MonadMessage.stateSync <$> StateSyncNetworkMessage.decode
    | _ => fail .custom)
  done
  pure m

end message

/-! ## The router envelope -/

/-- The length bytes of a long item, summed up in `int`. -/
def rlpLongItemLen (b : Bytes) (ll : Nat) : Except Err Int := do
  Lib.require (1 + ll ≤ b.length) .tooShort
  let l := int64 (beNat ((b.drop 1).take ll))
  Lib.require (int64 (1 + ll + l) ≤ b.length) .tooShort
  pure (int64 (1 + ll + l))

def rlpShortItemLen (b : Bytes) (l : Nat) : Except Err Int := do
  Lib.require (1 + l ≤ b.length) .tooShort
  pure ((1 + l : Nat) : Int)

def rlpItemLen (b : Bytes) : Except Err Int :=
  match b with
  | [] => .error .tooShort
  | c :: _ =>
    let b0 := c.toNat
    if b0 ≤ 0x7f then .ok 1
    else if b0 ≤ 0xb7 then rlpShortItemLen b (b0 - 0x80)
    else if b0 ≤ 0xbf then rlpLongItemLen b (b0 - 0xb7)
    else if b0 ≤ 0xf7 then rlpShortItemLen b (b0 - 0xc0)
    else rlpLongItemLen b (b0 - 0xf7)

structure RouterMessage where
  kind : UInt8
  payload : Bytes
  deriving DecidableEq, Repr

def MaxMessageSize : Nat := 3 * 1024 * 1024

/-- The version list: only the uncompressed form is known. -/
def decodeNetworkMessageVersion : Decoder Unit := list do
  let _ ← uint32
  let compression ← uint8
  check (compression = 1) .unknownMessageType
  done

/-- The payload is `raw[:itemLen]`, cut after `itemLen` has been compared with `len(raw)`. -/
def decodeRouterMessage : Decoder RouterMessage := list do
  decodeNetworkMessageVersion
  let kind ← uint8
  check (kind = 1 ∨ kind = 2 ∨ kind = 3) .unknownMessageType
  let s ← raw
  let itemLen ← lift (rlpItemLen s)
  check (itemLen = s.length) .extraData
  pure ⟨kind, s.take itemLen.toNat⟩

def decodeRouterEnvelope : Decoder RouterMessage := do
  let size ← remaining
  check (size ≤ MaxMessageSize) .appMessageTooLarge
  let m ← decodeRouterMessage
  let left ← remaining
  check (left = 0) .inputTooLong
  pure m

/-! ## The slices a message holds -/

def StateSyncNetworkMessage.slices : StateSyncNetworkMessage → List Bytes
  | .response r => r.response.map (·.data)
  | _ => []

/-- The byte slices of a decoded message that share the input's memory. Byte arrays and
execution bodies are copies. -/
def MonadMessage.slices {ep : Protocol} : MonadMessage ep → List Bytes
  | .forwardedTx txs => txs
  | .stateSync m => m.slices
  | _ => []

def RouterMessage.slices (m : RouterMessage) : List Bytes := [m.payload]

theorem decodeForwardedTx_slices : Slices [] decodeForwardedTx id := by
  have hmany : Slices [] (many bytes (item_strict false)) id := by
    intro a s x r h t ht
    refine slices_many slices_bytes a s x r h t ?_
    simpa using ht
  have hlist : Slices [] (list do let txs ← many bytes (item_strict false); done; pure txs) id :=
    slices_list (slices_bind hmany fun x => slices_then fun _ => slices_pure fun _ ht => ht)
  exact slices_bind hlist fun x => slices_then fun _ => slices_pure fun _ ht => ht

theorem Upsert.decode_slices : Slices [] Upsert.decode fun u => [u.data] :=
  slices_list (slices_then fun _ => slices_bind slices_bytes fun _ => slices_then fun _ =>
    slices_pure fun _ ht => ht)

theorem StateSyncResponse.decode_slices : Slices [] StateSyncResponse.decode fun r => r.response.map (·.data) := by
  have hups : Slices [] (list do let ups ← many Upsert.decode (list_strict _); done; pure ups)
      fun ups => ups.flatMap fun u => [u.data] :=
    slices_list (slices_bind (slices_many Upsert.decode_slices) fun x => slices_then fun _ =>
      slices_pure fun _ ht => ht)
  refine slices_list (slices_then fun _ => slices_then fun _ => slices_then fun _ =>
    slices_then fun _ => slices_bind hups fun x => slices_then fun _ => slices_then fun _ =>
    slices_then fun _ => slices_pure fun t ht => ?_)
  simpa [eq_comm] using ht

theorem StateSyncNetworkMessage.decode_slices :
    Slices [] decode slices := by
  refine slices_list (slices_then fun _ => slices_then fun tag => slices_bind ?_ fun m =>
    slices_then fun _ => slices_pure fun _ ht => List.mem_append_right _ ht)
  split
  · exact slices_map (slices_none fun _ => rfl) fun _ => rfl
  · exact slices_map StateSyncResponse.decode_slices fun _ => rfl
  · exact slices_map (slices_none fun _ => rfl) fun _ => rfl
  · exact slices_map (slices_none fun _ => rfl) fun _ => rfl
  · exact slices_pure (by simp [slices])
  · exact slices_fail

theorem decodeMonadMessage_slices (bls : Pairing) (ep : Protocol) :
    Slices [] (decodeMonadMessage bls ep) MonadMessage.slices := by
  refine slices_list (slices_then fun _ => slices_then fun tag => slices_bind ?_ fun m =>
    slices_then fun _ => slices_pure fun _ ht => List.mem_append_right _ ht)
  split
  · exact slices_map (slices_none fun _ => rfl) fun _ => rfl
  · exact slices_map (slices_none fun _ => rfl) fun _ => rfl
  · exact slices_map (slices_none fun _ => rfl) fun _ => rfl
  · exact slices_map decodeForwardedTx_slices fun _ => rfl
  · exact slices_map decode_slices fun _ => rfl
  · exact slices_fail

theorem decodeRouterMessage_slices : Slices [] decodeRouterMessage RouterMessage.slices := by
  refine slices_list (slices_then fun _ => slices_then fun kind => slices_then fun _ => ?_)
  intro a s m r h t ht
  -- The payload is the whole of what is left after the kind.
  obtain ⟨⟨s', r'⟩, hraw, h⟩ := Lib.bind_eq_ok.mp h
  obtain ⟨rfl, rfl⟩ := Prod.mk.inj (Except.ok.inj hraw)
  obtain ⟨⟨itemLen, r''⟩, -, h⟩ := Lib.bind_eq_ok.mp h
  obtain ⟨_, -, h⟩ := Lib.bind_eq_ok.mp h
  obtain ⟨rfl, -⟩ := Prod.mk.inj (Except.ok.inj h)
  rw [List.mem_singleton.mp ht]
  exact .inr (List.take_prefix _ _).isInfix

theorem decodeRouterEnvelope_slices : Slices [] decodeRouterEnvelope RouterMessage.slices :=
  slices_then fun _ => slices_then fun _ => slices_bind decodeRouterMessage_slices fun _ =>
    slices_then fun _ => slices_then fun _ => slices_pure fun _ ht => ht

/-! ## Untrusted input -/

/-- A byte slice of the machine. -/
abbrev Input := { b : Bytes // b.length < 2 ^ 63 }

/-- The decoder returns a value whose slices lie inside the input, or an error. -/
def Returns {α : Type} (d : Decoder α) (sl : α → List Bytes) (b : Bytes) : Prop :=
  (∃ x r, d.run .go b = .ok (x, r) ∧ ∀ t ∈ sl x, t <:+: b) ∨ ∃ e, d.run .go b = .error (.err e)

theorem returns_iff {α : Type} {d : Decoder α} {sl : α → List Bytes} (h : Slices [] d sl)
    (b : Input) : Returns d sl b.val ↔ ∀ i ∈ d.items b.val, i.overlong = false := by
  have hag := d.agrees b.property
  constructor
  · intro hret
    by_contra hov
    obtain ⟨i, hi, hov⟩ : ∃ i ∈ d.items b.val, i.overlong = true := by simpa using hov
    have hpanic := hag.panics ⟨i, hi, hov⟩
    rcases hret with ⟨x, r, hr, -⟩ | ⟨e, he⟩
    · simp [hpanic] at hr
    · simp [hpanic] at he
  · intro hall
    cases hr : d.run .go b.val with
    | error f =>
      obtain ⟨e, rfl⟩ := hag.go_faults hall f hr
      exact .inr ⟨e, hr⟩
    | ok v =>
      refine .inl ⟨v.1, v.2, hr, fun t ht => ?_⟩
      simpa using h _ _ _ _ hr t ht

/-- Decoding is safe exactly on the inputs in which no item that is read announces
`2 ^ 64 - 9` bytes or more. -/
theorem decoding_safe_iff (bls : Pairing) (ep : Protocol) (b : Input) :
    (∀ calls, (∀ e ∈ run .go [b.val] calls, e.Safe b.val) ↔ ∀ i ∈ items [b.val] calls, i.overlong = false) ∧
    (Returns (decodeMonadMessage bls ep) MonadMessage.slices b.val ↔
      ∀ i ∈ (decodeMonadMessage bls ep).items b.val, i.overlong = false) ∧
    (Returns decodeRouterEnvelope RouterMessage.slices b.val ↔
      ∀ i ∈ decodeRouterEnvelope.items b.val, i.overlong = false) :=
  ⟨run_safe_iff b.property, returns_iff (decodeMonadMessage_slices bls ep) b,
    returns_iff decodeRouterEnvelope_slices b⟩

/-- Nine bytes `0xFF` panic both entry points, and nine bytes that start with `0xBF` panic
`Bytes`. -/
theorem nine_bytes_panic : (decodeMonadMessage mockPairing mock).run .go (List.replicate 9 0xFF) = .error .panic ∧
    decodeRouterEnvelope.run .go (List.replicate 9 0xFF) = .error .panic ∧
    (run .go [0xBF :: List.replicate 8 0xFF] [(0, .bytes)]).map (·.result) = [.error .panic] := by
  refine ⟨?_, ?_, ?_⟩ <;> rfl

-- A forwarded-transactions message with no transactions.
example : (decodeMonadMessage mockPairing mock).run .go
    [0xC8, 0xC5, 0x01, 0x80, 0x01, 0x01, 0x01, 0x04, 0xC0] = .ok (.forwardedTx [], []) := rfl

end MonadBft.Wire
