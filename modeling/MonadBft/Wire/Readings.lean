/-
  MonadBft.Wire.Readings — the codec law of the fields every wire type is made of.

  Numbers, byte arrays and signatures have one spelling. A signer map with a set padding bit
  and a version above `2 ^ 32` are second spellings, which the code's reading
  (`Reading.go`) accepts and the plain one (`Reading.plain`) refuses.

  Proved:
  - `Reading.go_lawful`: what is encoded is read back by the code's reading;
  - `Reading.plain_lawful`: and the plain reading accepts nothing else.
-/
import MonadBft.Wire.SignerMap

namespace MonadBft.Wire

open Rlp Rlp.Decoder SignerMap

variable {canon : Prop} {n : Nat} (name : String)

/-! ## Numbers and byte strings -/

theorem asFixed_ok {b : Bytes} {x : Fixed n} : asFixed n b = .ok x ↔ b = x.val := by
  unfold asFixed
  split
  · rw [Except.ok.injEq, ← Subtype.val_inj]
  · rename_i hb
    simp only [reduceCtorEq, false_iff]
    intro hbx
    exact hb (hbx ▸ x.property)

theorem codes_fixed (n : Nat) : Codes canon (fixedBytes n) encodeFixed fun _ => True :=
  Codes.bytesAs fun b x => by rw [asFixed_ok, true_and]

theorem codes_name : Codes canon (decodeName name) (fun _ => appendString (ascii name)) fun _ => True where
  writes {a x r} _ hlen := by
    exact run_bind_ok.mpr ⟨ascii name, r, run_bytes_append hlen, run_check_ok.mpr ⟨rfl, rfl⟩⟩
  yields {s x r} hr := by
    obtain ⟨b, t, hb, hcheck⟩ := run_bind_ok.mp hr
    obtain ⟨rfl, rfl⟩ := run_check_ok.mp hcheck
    exact ⟨trivial, fun _ => readItem_canonical hb⟩

/-- The payload after the name of a self-describing message. -/
theorem fields_named {α : Type} {ok : α → Prop} {k : Decoder α} {es : α → List Bytes}
    (hk : Fields canon ok (fun _ => True) k fun x => (es x).flatten) :
    Fields canon ok (fun _ => True) (do decodeName name; k) fun x => (appendString (ascii name) :: es x).flatten := by
  refine .any (codes_name name) (fun _ => ()) fun _ => ?_
  simpa only [and_self] using hk

/-- A version that is cut down is read back, but so is every number that ends in it. -/
theorem codes_truncated : Codes False (UInt64.toUInt32 <$> uint64) (fun v => appendUint64 v.toUInt64) fun _ => True where
  writes {a x r} _ hlen := by
    refine run_map_ok.mpr ⟨x.toUInt64, (codes_uint64 : Codes False _ _ _).writes trivial hlen, ?_⟩
    refine UInt32.toNat_inj.mp ?_
    have := x.toNat_lt
    rw [UInt64.toNat_toUInt32, UInt32.toNat_toUInt64]
    exact (Nat.mod_eq_of_lt (by omega)).symm
  yields _ := ⟨trivial, False.elim⟩

/-! ## Signatures -/

variable (bls : Pairing)

/-- The pairing library finds the point in its compressed form. -/
def BlsSignature.Ok (s : BlsSignature) : Prop := bls.uncompress (bls.compress s) = some s

theorem codes_blsSignature {bls : Pairing} (hbls : bls.Canonical) :
    Codes canon (decodeBlsSignature bls) (BlsSignature.encode bls) (BlsSignature.Ok bls) := by
  refine (codes_fixed 96).lift bls.compress (fun b s _ => ?_) fun _ _ => trivial
  unfold blsSignatureUncompress BlsSignature.Ok
  rw [dif_pos b.property]
  split
  · rename_i s' hb
    rw [Except.ok.injEq]
    constructor
    · rintro rfl
      have hcompress := hbls _ _ hb
      exact ⟨hcompress ▸ hb, hcompress.symm⟩
    · rintro ⟨hs, rfl⟩
      exact Option.some.inj (hb.symm.trans hs)
  · rename_i hb
    simp only [reduceCtorEq, false_iff, not_and]
    rintro hs rfl
    exact Option.some_ne_none s (hs.symm.trans hb)

theorem fixedBytes_strict (n : Nat) : (fixedBytes n).Strict := by
  intro a s x r hr
  obtain ⟨b, t, hb, hx⟩ := run_bind_ok.mp hr
  obtain ⟨-, rfl⟩ := run_lift_ok.mp hx
  exact item_strict false hb

theorem blsSignature_strict : (decodeBlsSignature bls).Strict := by
  intro a s x r hr
  obtain ⟨b, t, hb, hx⟩ := run_bind_ok.mp hr
  obtain ⟨-, rfl⟩ := run_lift_ok.mp hx
  exact fixedBytes_strict 96 hb

/-- The last byte is a recovery id. -/
def SecpSignature.Ok (s : SecpSignature) : Prop := (s.val.get ⟨64, by have := s.property; omega⟩).toNat ≤ 3

theorem codes_secpSignature : Codes canon decodeSecpSignature encodeFixed SecpSignature.Ok := by
  refine (codes_fixed 65).lift id (fun b s _ => ?_) fun _ _ => trivial
  unfold secpSignatureFromBytes SecpSignature.Ok
  rw [dif_pos b.property]
  split
  · rename_i hb
    simp only [reduceCtorEq, false_iff, not_and]
    intro hs heq
    subst heq
    exact Nat.not_le_of_lt hb hs
  · rename_i hb
    rw [Except.ok.injEq]
    constructor
    · intro h
      obtain rfl := h
      exact ⟨Nat.le_of_not_lt hb, rfl⟩
    · intro h
      exact h.2

/-! ## Signature collections -/

/-- A map of no more validators than the decoder takes. -/
def SignerMap.Ok (m : SignerMap) : Prop := m.bits.length ≤ MaxSignersLen

/-- `SignerMap.decode` with a check of the padding. -/
def SignerMap.decodePlain : Decoder SignerMap := list do
  let numBits64 ← uint64
  check (numBits64.toNat ≤ MaxSignersLen) .custom
  let numBits := numBits64.toNat
  let decoded ← bytes
  let packed ← lift (asFixed ((numBits + 7) / 8) decoded)
  done
  check (clearPadding numBits packed.val = true) .custom
  pure ⟨unpackSigners numBits packed⟩

section signers

variable {a : Arith} {s r : Bytes} {m : SignerMap}

structure SignerMap.ReadFrom (a : Arith) (p : Bytes) (n : UInt64) (b : Fixed ((n.toNat + 7) / 8)) : Prop where
  len : n.toNat ≤ MaxSignersLen
  reads : ∃ t, uint64.run a p = .ok (n, t) ∧ Decoder.bytes.run a t = .ok (b.val, [])

theorem SignerMap.run_decode : decode.run a s = .ok (m, r) ↔
    ∃ p n b, readItem a true s = .ok (p, r) ∧ SignerMap.ReadFrom a p n b ∧ m = ⟨unpackSigners n.toNat b⟩ := by
  unfold decode
  simp only [run_list_ok, run_bind_ok, run_check_ok, run_lift_ok, run_done_ok, run_pure_ok, asFixed_ok]
  constructor
  · intro h
    obtain ⟨p, q, hp, n, t, hn, u, t', ⟨hlen, rfl⟩, c, t'', hc, b, t₃, ⟨rfl, rfl⟩, u', t₄, ⟨rfl, rfl⟩, rfl, rfl⟩ := h
    exact ⟨p, n, b, hp, ⟨hlen, t', hn, hc⟩, rfl⟩
  · intro h
    obtain ⟨p, n, b, hp, ⟨hlen, t, hn, hb⟩, rfl⟩ := h
    exact ⟨p, [], hp, n, t, hn, (), t, ⟨hlen, rfl⟩, b.val, [], hb, b, [], ⟨rfl, rfl⟩, (), [], ⟨rfl, rfl⟩, rfl, rfl⟩

theorem SignerMap.run_decodePlain : decodePlain.run a s = .ok (m, r) ↔
    ∃ p n b, readItem a true s = .ok (p, r) ∧ SignerMap.ReadFrom a p n b ∧
      clearPadding n.toNat b.val = true ∧ m = ⟨unpackSigners n.toNat b⟩ := by
  unfold decodePlain
  simp only [run_list_ok, run_bind_ok, run_check_ok, run_lift_ok, run_done_ok, run_pure_ok, asFixed_ok]
  constructor
  · intro h
    obtain ⟨p, q, hp, n, t, hn, u, t', ⟨hlen, rfl⟩, c, t'', hc, b, t₃, ⟨rfl, rfl⟩, u', t₄, ⟨rfl, rfl⟩,
      u'', t₅, ⟨hpad, rfl⟩, rfl, rfl⟩ := h
    exact ⟨p, n, b, hp, ⟨hlen, t', hn, hc⟩, hpad, rfl⟩
  · intro h
    obtain ⟨p, n, b, hp, ⟨hlen, t, hn, hb⟩, hpad, rfl⟩ := h
    exact ⟨p, [], hp, n, t, hn, (), t, ⟨hlen, rfl⟩, b.val, [], hb, b, [], ⟨rfl, rfl⟩, (), [], ⟨rfl, rfl⟩,
      (), [], ⟨hpad, rfl⟩, rfl, rfl⟩

theorem toNat_numBits (h : n ≤ MaxSignersLen) : (UInt32.ofNat n).toUInt64.toNat = n := by
  unfold MaxSignersLen at h
  rw [UInt32.toNat_toUInt64, UInt32.toNat_ofNat']
  exact Nat.mod_eq_of_lt (by omega)

/-- The encoding of a map is read from its number of bits and its packed bits. -/
theorem SignerMap.read_encode (hm : m.Ok) (hlen : (m.encode ++ r).length < 2 ^ 63) :
    ∃ p n b, readItem a true (m.encode ++ r) = .ok (p, r) ∧ SignerMap.ReadFrom a p n b ∧
      clearPadding n.toNat b.val = true ∧ m = ⟨unpackSigners n.toNat b⟩ := by
  have hn := toNat_numBits hm
  have hb : (packSigners m.bits).length = ((UInt32.ofNat m.bits.length).toUInt64.toNat + 7) / 8 := by
    rw [packSigners_length, hn]
  have hpay : (appendUint64 (UInt32.ofNat m.bits.length).toUInt64 ++ (appendString (packSigners m.bits) ++ [])).length <
      2 ^ 63 := by
    have hle : _ ≤ m.encode.length := appendItem_length true _
    rw [List.length_append] at hlen
    exact lt_of_le_of_lt hle (by omega)
  have hclear : clearPadding (UInt32.ofNat m.bits.length).toUInt64.toNat (packSigners m.bits) = true := by
    rw [hn]
    exact packSigners_clear m.bits
  refine ⟨_, _, ⟨packSigners m.bits, hb⟩, readItem_append true hlen,
    ⟨hn.symm ▸ (hm : m.bits.length ≤ _), appendString (packSigners m.bits) ++ [], ?_, ?_⟩, hclear, ?_⟩
  · exact (codes_uint64 : Codes True _ _ _).writes trivial hpay
  · rw [List.length_append] at hpay
    exact run_bytes_append (by omega)
  · cases m
    rw [unpackSigners_packSigners hn rfl]

theorem SignerMap.ok_of_read {p : Bytes} {n : UInt64} {b : Fixed ((n.toNat + 7) / 8)}
    (h : SignerMap.ReadFrom a p n b) : SignerMap.Ok ⟨unpackSigners n.toNat b⟩ := by
  unfold SignerMap.Ok
  rw [unpackSigners_length]
  exact h.len

theorem SignerMap.codes_go : Codes False decode encode SignerMap.Ok where
  writes hm hlen := by
    obtain ⟨p, n, b, hp, hread, -, hm'⟩ := read_encode hm hlen
    exact run_decode.mpr ⟨p, n, b, hp, hread, hm'⟩
  yields hr := by
    obtain ⟨p, n, b, -, hread, rfl⟩ := run_decode.mp hr
    exact ⟨ok_of_read hread, False.elim⟩

theorem SignerMap.codes_plain : Codes True decodePlain encode SignerMap.Ok where
  writes hm hlen := run_decodePlain.mpr (read_encode hm hlen)
  yields {s m r} hr := by
    obtain ⟨p, n, b, hp, hread, hpad, rfl⟩ := run_decodePlain.mp hr
    refine ⟨ok_of_read hread, fun _ => ?_⟩
    obtain ⟨hlen, t, hn, hb⟩ := hread
    have ht : t = appendString b.val ++ [] := readItem_canonical hb
    have hp' : p = appendUint64 n ++ t := (codes_uint64.yields hn).2 trivial
    have hnum : (UInt32.ofNat n.toNat).toUInt64 = n := UInt64.toNat_inj.mp (toNat_numBits hlen)
    rw [readItem_canonical hp, hp', ht]
    unfold encode
    rw [unpackSigners_length, hnum, packSigners_unpackSigners b hpad]
    rfl

end signers

structure SigCol.Ok (bls : Pairing) (c : SigCol) : Prop where
  signers : c.signers.Ok
  parsed : c.sig = (blsSignatureUncompress bls c.rawSig.val).toOption

theorem SigCol.codes_of {sm : Decoder SignerMap} (h : Codes canon sm SignerMap.encode SignerMap.Ok) :
    Codes canon (list do
      let signers ← sm
      let sigBytes ← fixedBytes 96
      done
      pure ⟨signers, sigBytes, (blsSignatureUncompress bls sigBytes.val).toOption⟩)
      SigCol.encode (SigCol.Ok bls) := by
  refine .list ?_
  refine .field h SigCol.signers (fun _ hc => hc.signers) fun signers hs => ?_
  refine .any (codes_fixed 96) SigCol.rawSig fun rawSig => ?_
  refine .stop ⟨hs, rfl⟩ fun c hc => ?_
  -- the third field follows from the second
  obtain ⟨signers', rawSig', sig⟩ := c
  obtain rfl : sig = (blsSignatureUncompress bls rawSig'.val).toOption := hc.parsed
  constructor
  · intro h
    obtain ⟨⟨-, rfl⟩, rfl⟩ := h
    rfl
  · intro h
    obtain ⟨rfl, rfl, -⟩ := SigCol.mk.inj h
    exact ⟨⟨trivial, rfl⟩, rfl⟩

/-- `SigCol.decode` with a check of the padding. -/
def SigCol.decodePlain (bls : Pairing) : Decoder SigCol := list do
  let signers ← SignerMap.decodePlain
  let sigBytes ← fixedBytes 96
  done
  pure ⟨signers, sigBytes, (blsSignatureUncompress bls sigBytes.val).toOption⟩

/-! ## The two readings -/

structure Reading.Lawful (canon : Prop) (rd : Reading) : Prop where
  bls : rd.bls.Canonical
  sigCol : Codes canon rd.sigCol SigCol.encode (SigCol.Ok rd.bls)
  version : Codes canon rd.version (fun v => appendUint64 v.toUInt64) fun _ => True

theorem Reading.go_lawful {bls : Pairing} (hbls : bls.Canonical) : (Reading.go bls).Lawful False :=
  ⟨hbls, SigCol.codes_of bls codes_go, codes_truncated⟩

/-- The reading that refuses a set padding bit and a version that does not fit. -/
def Reading.plain : Reading := ⟨bls, SigCol.decodePlain bls, uint32⟩

theorem Reading.plain_lawful {bls : Pairing} (hbls : bls.Canonical) : (Reading.plain bls).Lawful True :=
  ⟨hbls, SigCol.codes_of bls codes_plain, codes_uint32⟩

end MonadBft.Wire
