/-
  MonadBft.Tcp.Authentication — whom a TCP handshake authenticates.

  An end proves its identity by signing the other end's nonce. The signature names neither the
  other end nor the connection, so the attacker can take the nonce of one connection to a node on
  another one and carry the answer back (`relayed_handshake`): the identity that the handshake
  returns is not the one at the other end, and the attacker's frames are attributed to it.

  Proved: if the attacker never puts the nonce of an honest end into a hello of its own
  (`Action.OwnNonce`), then a handshake that returns an honest identity has that node at the other
  end of its connection, which has taken it for its own partner, and every frame attributed to
  that identity was written there (`handshake_authenticates`).
-/
import MonadBft.Tcp.Transport
import MonadBft.WireAuth.Agreement

namespace MonadBft.Tcp

open MonadBft.Lib AMap
open MonadBft.WireAuth (Octets PubKey append_toList_inj)
open Rlp (Bytes)

/-! ## What every step keeps -/

def Net.NotDrawn (s : Net) (nonce : Nonce) : Prop := ∀ e ep, s.ends.get e = some ep → nonce ≠ ep.nonce

/-- The attacker's hello has a nonce of its own: none that an honest end has drawn. -/
def Action.OwnNonce (s : Net) : Action → Prop
  | .inject _ (.hello _ _ nonce) => s.NotDrawn nonce
  | _ => True

namespace Net

/-- What an end may have written. -/
def Wrote (s : Net) (e : End) (ep : Endpoint) : Wire → Prop
  | .hello _ id nonce => id = ep.self ∧ nonce = ep.nonce
  | .proof _ sig => ∃ id nonce, s.heard.get e = some (id, nonce) ∧ sig = some ⟨ep.self, .tcpAuth, authMsg ep.self nonce⟩
  | .frame _ => True

/-- The other end is an honest one, with this identity and nonce. -/
def OtherIs (s : Net) (e : End) (id : PubKey) (nonce : Nonce) : Prop :=
  ∃ ep, s.ends.get (other e) = some ep ∧ ep.self = id ∧ ep.nonce = nonce

/-- The other end is `id`'s, and has this end for its partner. -/
def Partner (s : Net) (e : End) (ep : Endpoint) (id : PubKey) : Prop :=
  ∃ ep', s.ends.get (other e) = some ep' ∧ ep'.self = id ∧ s.heard.get (other e) = some (ep.self, ep.nonce)

structure Inv (honest : PubKey → Bool) (s : Net) : Prop where
  owned : ∀ e ep, s.ends.get e = some ep → s.owners.get e = some (ep.self, ep.want)
  owners_count : ∀ e, s.owners.get e ≠ none → e.1 < s.count
  drawn : ∀ e ep, s.ends.get e = some ep → ep.nonce ∈ s.seen
  nonce_unique : ∀ e e' ep ep', s.ends.get e = some ep → s.ends.get e' = some ep' → ep.nonce = ep'.nonce → e = e'
  wrote : ∀ e m, (e, m) ∈ s.sent → ∃ ep, s.ends.get e = some ep ∧ s.Wrote e ep m
  inbox : ∀ e l m, s.inbox.get e = some l → m ∈ l → (other e, m) ∈ s.sent
  started : ∀ e, s.ends.get e = none → s.heard.get e = none ∧ s.returned.get e = none
  heard : ∀ e id nonce, s.heard.get e = some (id, nonce) → nonce ∈ s.seen ∧ (s.OtherIs e id nonce ∨ s.NotDrawn nonce)
  reading_hello : ∀ e, s.phases.get e = some .readingHello → s.heard.get e = none ∧ s.returned.get e = none
  reading_proof : ∀ e id nonce, s.phases.get e = some (.readingProof id nonce) → s.returned.get e = none
  serving : ∀ e id, s.phases.get e = some (.serving id) → s.returned.get e = some id
  returned : ∀ e ep id, s.ends.get e = some ep → s.returned.get e = some id → honest id = true → s.Partner e ep id
  handled : ∀ e id payload, (e, id, payload) ∈ s.handled →
    s.returned.get e = some id ∧ (s.owners.get (other e) ≠ none → (other e, .frame payload) ∈ s.sent)

variable {honest validPubKey : PubKey → Bool} {maxMessage : Nat} {s s' : Net} {e : End} {ep : Endpoint}

theorem other_other (e : End) : other (other e) = e := by
  simp [other]

theorem Inv.start : Inv honest {} := by
  constructor <;> simp

variable {id : PubKey} {m : Wire} {nonce : Nonce}

/-- A signature of `id` over this end's nonce comes from the other end, which has heard this end. -/
theorem Inv.partner_of_sent (h : Inv honest s) (hep : s.ends.get e = some ep) {e' : End} {n : UInt16}
    (hsent : (e', .proof n (some ⟨id, .tcpAuth, authMsg id ep.nonce⟩)) ∈ s.sent) : s.Partner e ep id := by
  obtain ⟨ep', hep', id', nonce, hheard, hsig⟩ := h.wrote e' _ hsent
  simp only [Option.some.injEq, Signature.mk.injEq, true_and] at hsig
  obtain ⟨rfl, hmsg⟩ := hsig
  obtain ⟨-, rfl⟩ := append_toList_inj hmsg
  -- the nonce was drawn by this end, so it is the other end of the one that signed
  rcases (h.heard e' id' _ hheard).2 with ⟨ep₁, hep₁, rfl, hnonce⟩ | hnot
  · obtain rfl := h.nonce_unique _ _ _ _ hep₁ hep hnonce
    obtain rfl : ep₁ = ep := Option.mem_unique hep₁ hep
    refine ⟨ep', ?_, rfl, ?_⟩
    · rw [other_other]
      exact hep'
    · rw [other_other]
      exact hheard
  · exact absurd rfl (hnot e ep hep)

/-! ## Updates -/

section

variable (h : Inv honest s)

include h

/-- Connections may be forgotten. -/
theorem Inv.setConns (conns : AMap (PubKey × PubKey) End) : Inv honest { s with conns } :=
  { h with }

theorem Inv.closed (e : End) : Inv honest (s.setPhase e .closed) := by
  have hphase : ∀ e' p, (s.phases.insert e .closed).get e' = some p → p ≠ .closed → s.phases.get e' = some p := by
    intro e' p hp hne
    rcases of_get_insert hp with hp | ⟨-, rfl⟩
    · exact hp
    · exact absurd rfl hne
  refine { h with reading_hello := ?_, reading_proof := ?_, serving := ?_ }
  · intro e' hp
    exact h.reading_hello e' (hphase e' _ hp (by simp))
  · intro e' id nonce hp
    exact h.reading_proof e' id nonce (hphase e' _ hp (by simp))
  · intro e' id hp
    exact h.serving e' id (hphase e' _ hp (by simp))

theorem Inv.close (e : End) (ep : Endpoint) : Inv honest (s.close e ep) := by
  unfold Net.close
  split
  · split_ifs
    · exact (h.setConns _).closed e
    · exact h.closed e
  · exact h.closed e

theorem Inv.send (hep : s.ends.get e = some ep) (hm : s.Wrote e ep m) : Inv honest (s.send e m) := by
  refine { h with wrote := ?_, inbox := ?_, handled := ?_ }
  · intro e' m' hmem
    rcases List.mem_append.mp hmem with hmem | hmem
    · exact h.wrote e' m' hmem
    · obtain ⟨rfl, rfl⟩ : e' = e ∧ m' = m := by simpa using hmem
      exact ⟨ep, hep, hm⟩
  · intro e' l m' hl hm'
    rcases of_get_insert hl with hl | ⟨rfl, rfl⟩
    · exact List.mem_append_left _ (h.inbox e' l m' hl hm')
    · rcases List.mem_append.mp hm' with hm' | hm'
      · cases hin : s.inbox.get (other e) with
        | none => simp [hin] at hm'
        | some l =>
          rw [hin] at hm'
          exact List.mem_append_left _ (h.inbox _ l m' hin hm')
      · obtain rfl : m' = m := by simpa using hm'
        refine List.mem_append_right _ ?_
        simp [other_other]
  · intro e' id payload hmem
    obtain ⟨h1, h2⟩ := h.handled e' id payload hmem
    exact ⟨h1, fun ho => List.mem_append_left _ (h2 ho)⟩

theorem Inv.begin {self : PubKey} {want : Option PubKey} (hown : s.owners.get e = some (self, want))
    (hnew : s.ends.get e = none) (hfresh : nonce ∉ s.seen) :
    Inv honest ({ s with ends := s.ends.insert e ⟨self, want, nonce⟩, seen := nonce :: s.seen }.setPhase e
      .readingHello) := by
  obtain ⟨hheard, hret⟩ := h.started e hnew
  have hkeep : ∀ e' ep', s.ends.get e' = some ep' → (s.ends.insert e ⟨self, want, nonce⟩).get e' = some ep' :=
    fun _ _ => get_insert_of_free hnew
  have hphase : ∀ e' p, (s.phases.insert e .readingHello).get e' = some p → s.phases.get e' = some p ∨
      e' = e ∧ p = .readingHello := fun e' p hp => of_get_insert hp
  refine { h with owned := ?_, drawn := ?_, nonce_unique := ?_, wrote := ?_, started := ?_, heard := ?_
                  reading_hello := ?_, reading_proof := ?_, serving := ?_, returned := ?_ }
  · intro e' ep' hep'
    rcases of_get_insert hep' with hep' | ⟨rfl, rfl⟩
    · exact h.owned e' ep' hep'
    · exact hown
  · intro e' ep' hep'
    rcases of_get_insert hep' with hep' | ⟨rfl, rfl⟩
    · exact .tail _ (h.drawn e' ep' hep')
    · exact .head _
  · intro e₁ e₂ ep₁ ep₂ h₁ h₂ heq
    have hnew' : ∀ e' ep', s.ends.get e' = some ep' → ep'.nonce ≠ nonce :=
      fun e' ep' hep' heq => hfresh (heq ▸ h.drawn e' ep' hep')
    rcases of_get_insert h₁ with h₁' | ⟨he₁, rfl⟩
    · rcases of_get_insert h₂ with h₂' | ⟨-, rfl⟩
      · exact h.nonce_unique e₁ e₂ ep₁ ep₂ h₁' h₂' heq
      · exact absurd heq (hnew' e₁ ep₁ h₁')
    · rcases of_get_insert h₂ with h₂' | ⟨he₂, -⟩
      · exact absurd heq.symm (hnew' e₂ ep₂ h₂')
      · rw [he₁, he₂]
  · intro e' m hmem
    obtain ⟨ep', hep', hw⟩ := h.wrote e' m hmem
    exact ⟨ep', hkeep e' ep' hep', hw⟩
  · intro e' he'
    have he' : (s.ends.insert e ⟨self, want, nonce⟩).get e' = none := he'
    rw [get_insert_ne _ _ (ne_of_get (get_insert_self ..) he').symm] at he'
    exact h.started e' he'
  · intro e' id n hn
    obtain ⟨hseen, hor⟩ := h.heard e' id n hn
    refine ⟨.tail _ hseen, ?_⟩
    rcases hor with ⟨ep', hep', h1⟩ | hnot
    · exact .inl ⟨ep', hkeep _ _ hep', h1⟩
    · right
      intro e₁ ep₁ h₁
      rcases of_get_insert h₁ with h₁ | ⟨rfl, rfl⟩
      · exact hnot e₁ ep₁ h₁
      · intro heq
        rw [heq] at hseen
        exact hfresh hseen
  · intro e' hp
    rcases hphase e' _ hp with hp | ⟨rfl, -⟩
    · exact h.reading_hello e' hp
    · exact ⟨hheard, hret⟩
  · intro e' id n hp
    rcases hphase e' _ hp with hp | ⟨-, hp⟩
    · exact h.reading_proof e' id n hp
    · cases hp
  · intro e' id hp
    rcases hphase e' _ hp with hp | ⟨-, hp⟩
    · exact h.serving e' id hp
    · cases hp
  · intro e' ep' id hep' hid hhon
    rcases of_get_insert hep' with hep' | ⟨rfl, rfl⟩
    · obtain ⟨ep₁, h₁, h₂⟩ := h.returned e' ep' id hep' hid hhon
      exact ⟨ep₁, hkeep _ _ h₁, h₂⟩
    · have hid : s.returned.get e' = some id := hid
      rw [hret] at hid
      cases hid

/-- An end reads a hello: the other end's, or one with a nonce that no honest end has drawn. -/
theorem Inv.hear (hep : s.ends.get e = some ep) (hphase : s.phases.get e = some .readingHello)
    (hor : s.OtherIs e id nonce ∨ s.NotDrawn nonce) :
    Inv honest ({ s with heard := s.heard.insert e (id, nonce), seen := nonce :: s.seen }.setPhase e
      (.readingProof id nonce)) := by
  obtain ⟨hheard, hret⟩ := h.reading_hello e hphase
  have hkeep : ∀ e' x, s.heard.get e' = some x → (s.heard.insert e (id, nonce)).get e' = some x :=
    fun _ _ => get_insert_of_free hheard
  refine { h with drawn := ?_, wrote := ?_, started := ?_, heard := ?_, reading_hello := ?_, reading_proof := ?_
                  serving := ?_, returned := ?_ }
  · exact fun e' ep' hep' => .tail _ (h.drawn e' ep' hep')
  · intro e' m hmem
    obtain ⟨ep', hep', hw⟩ := h.wrote e' m hmem
    refine ⟨ep', hep', ?_⟩
    cases m with
    | hello n id nonce => exact hw
    | proof n sig =>
      obtain ⟨id', nonce', h1, h2⟩ := hw
      exact ⟨id', nonce', hkeep _ _ h1, h2⟩
    | frame payload => trivial
  · intro e' he'
    have he' : s.ends.get e' = none := he'
    have hne := (ne_of_get hep he').symm
    obtain ⟨h1, h2⟩ := h.started e' he'
    exact ⟨(get_insert_ne _ _ hne).trans h1, h2⟩
  · intro e' id' n hn
    rcases of_get_insert hn with hn | ⟨rfl, hx⟩
    · obtain ⟨hseen, hor'⟩ := h.heard e' id' n hn
      exact ⟨.tail _ hseen, hor'⟩
    · obtain ⟨rfl, rfl⟩ := Prod.mk.injEq .. ▸ hx
      exact ⟨.head _, hor⟩
  · intro e' hp
    have hp : (s.phases.insert e (.readingProof id nonce)).get e' = some .readingHello := hp
    by_cases hne : e' = e
    · rw [hne, get_insert_self] at hp
      cases hp
    · rw [get_insert_ne _ _ hne] at hp
      obtain ⟨h1, h2⟩ := h.reading_hello e' hp
      exact ⟨(get_insert_ne _ _ hne).trans h1, h2⟩
  · intro e' id' n hp
    rcases of_get_insert hp with hp | ⟨rfl, -⟩
    · exact h.reading_proof e' id' n hp
    · exact hret
  · intro e' id' hp
    rcases of_get_insert hp with hp | ⟨-, hp⟩
    · exact h.serving e' id' hp
    · cases hp
  · intro e' ep' id' hep' hid hhon
    obtain ⟨ep₁, h₁, h₂, h₃⟩ := h.returned e' ep' id' hep' hid hhon
    exact ⟨ep₁, h₁, h₂, hkeep _ _ h₃⟩

/-- The handshake of an end returns. -/
theorem Inv.returns (hep : s.ends.get e = some ep) (hn : s.returned.get e = none)
    (hid : honest id = true → s.Partner e ep id) {p : Phase} (hp : p = .closed ∨ p = .serving id) :
    Inv honest ({ s with returned := s.returned.insert e id }.setPhase e p) := by
  have hkeep : ∀ e' x, s.returned.get e' = some x → (s.returned.insert e id).get e' = some x :=
    fun _ _ => get_insert_of_free hn
  -- an end that is reading is another one
  have hreading : ∀ e' q, (s.phases.insert e p).get e' = some q → q ≠ .closed → q ≠ .serving id →
      e' ≠ e ∧ s.phases.get e' = some q := by
    intro e' q hq h1 h2
    by_cases hne : e' = e
    · rw [hne, get_insert_self] at hq
      obtain rfl : p = q := Option.some.inj hq
      rcases hp with hp | hp
      · exact absurd hp h1
      · exact absurd hp h2
    · rw [get_insert_ne _ _ hne] at hq
      exact ⟨hne, hq⟩
  refine { h with started := ?_, reading_hello := ?_, reading_proof := ?_, serving := ?_, returned := ?_, handled := ?_ }
  · intro e' he'
    have he' : s.ends.get e' = none := he'
    have hne := (ne_of_get hep he').symm
    obtain ⟨h1, h2⟩ := h.started e' he'
    exact ⟨h1, (get_insert_ne _ _ hne).trans h2⟩
  · intro e' hq
    obtain ⟨hne, hq⟩ := hreading e' _ hq (by simp) (by simp)
    obtain ⟨h1, h2⟩ := h.reading_hello e' hq
    exact ⟨h1, (get_insert_ne _ _ hne).trans h2⟩
  · intro e' id' n hq
    obtain ⟨hne, hq⟩ := hreading e' _ hq (by simp) (by simp)
    exact (get_insert_ne _ _ hne).trans (h.reading_proof e' id' n hq)
  · intro e' id' hq
    have hq : (s.phases.insert e p).get e' = some (.serving id') := hq
    by_cases hne : e' = e
    · subst hne
      rw [get_insert_self] at hq
      obtain rfl : id = id' := by
        rcases hp with rfl | rfl
        · cases hq
        · cases hq
          rfl
      exact get_insert_self _ _ _
    · rw [get_insert_ne _ _ hne] at hq
      exact hkeep e' id' (h.serving e' id' hq)
  · intro e' ep' id' hep' hid' hhon
    rcases of_get_insert hid' with hid' | ⟨rfl, rfl⟩
    · exact h.returned e' ep' id' hep' hid' hhon
    · obtain rfl : ep = ep' := Option.mem_unique hep hep'
      exact hid hhon
  · intro e' id' payload hmem
    obtain ⟨h1, h2⟩ := h.handled e' id' payload hmem
    exact ⟨hkeep e' id' h1, h2⟩

theorem Inv.finish (hep : s.ends.get e = some ep) (hn : s.returned.get e = none)
    (hid : honest id = true → s.Partner e ep id) : Inv honest (s.finish e ep id) := by
  unfold Net.finish
  split_ifs
  · exact h.returns hep hn hid (.inl rfl)
  · unfold register
    dsimp only
    cases hold : s.conns.get (ep.self, id) with
    | none => exact (h.setConns (s.conns.insert (ep.self, id) e)).returns hep hn hid (.inr rfl)
    | some old =>
      split_ifs
      · exact h.returns hep hn hid (.inl rfl)
      · exact ((h.closed old).setConns (s.conns.insert (ep.self, id) e)).returns hep hn hid (.inr rfl)

end

/-! ## Reading -/

structure Readable (honest : PubKey → Bool) (s : Net) (e : End) (m : Wire) : Prop where
  hello : ∀ n id nonce, m = .hello n id nonce → s.OtherIs e id nonce ∨ s.NotDrawn nonce
  proof : ∀ n sig, m = .proof n (some sig) → honest sig.signer = true → sig.domain = .tcpAuth →
    ∃ e' n', (e', .proof n' (some sig)) ∈ s.sent
  frame : ∀ payload, m = .frame payload → s.owners.get (other e) ≠ none → (other e, .frame payload) ∈ s.sent

theorem readHello_ok (h : readHello validPubKey m = .ok (id, nonce)) : ∃ n, m = .hello n id nonce := by
  cases m with
  | hello n id' nonce' =>
    unfold readHello at h
    dsimp only at h
    split_ifs at h
    simp only [Except.ok.injEq, Prod.mk.injEq] at h
    obtain ⟨rfl, rfl⟩ := h
    exact ⟨n, rfl⟩
  | proof n sig | frame payload => cases h

theorem readProof_ok {id' : PubKey} (h : readProof nonce id m = .ok id') :
    id' = id ∧ ∃ n, m = .proof n (some ⟨id, .tcpAuth, authMsg id nonce⟩) := by
  cases m with
  | hello n id' nonce' => cases h
  | proof n sig =>
    unfold readProof at h
    dsimp only at h
    split_ifs at h
    cases sig with
    | none => cases h
    | some sig =>
      dsimp only at h
      split_ifs at h with hv
      obtain rfl : id = id' := by
        injection h
      obtain ⟨signer, domain, msg⟩ := sig
      simp only [Signature.verify, decide_eq_true_eq] at hv
      obtain ⟨rfl, rfl, rfl⟩ := hv
      exact ⟨rfl, n, rfl⟩
  | frame payload => cases h

theorem Inv.receive (h : Inv honest s) (hep : s.ends.get e = some ep) (hm : Readable honest s e m) :
    Inv honest (s.receive validPubKey maxMessage e ep m) := by
  unfold Net.receive
  cases hp : s.phases.get e with
  | none => exact h
  | some phase =>
    cases phase with
    | closed => exact h
    | readingHello =>
      cases hr : readHello validPubKey m with
      | error err => exact h.close e ep
      | ok x =>
        obtain ⟨id, nonce⟩ := x
        obtain ⟨n, rfl⟩ := readHello_ok hr
        exact (h.hear hep hp (hm.hello n id nonce rfl)).send hep ⟨id, nonce, get_insert_self _ _ _, rfl⟩
    | readingProof id peerNonce =>
      dsimp only
      cases hr : readProof ep.nonce id m with
      | error err => exact h.close e ep
      | ok id' =>
        obtain ⟨rfl, n, rfl⟩ := readProof_ok hr
        refine h.finish hep (h.reading_proof e _ _ hp) fun hhon => ?_
        obtain ⟨e', n', hsent⟩ := hm.proof n _ rfl hhon rfl
        exact h.partner_of_sent hep hsent
    | serving id =>
      cases m with
      | hello n id' nonce | proof n sig => exact h.close e ep
      | frame payload =>
        dsimp only
        split_ifs
        · exact h.close e ep
        · refine { h with handled := ?_ }
          intro e' id' payload' hmem
          rcases List.mem_append.mp hmem with hmem | hmem
          · exact h.handled e' id' payload' hmem
          · obtain ⟨rfl, rfl, rfl⟩ : e' = e ∧ id' = id ∧ payload' = payload := by simpa using hmem
            exact ⟨h.serving e' id' hp, hm.frame payload' rfl⟩

/-! ## Steps and runs -/

theorem Inv.readable_next (h : Inv honest s) {rest : List Wire} (hin : s.inbox.get e = some (m :: rest)) :
    Readable honest s e m := by
  have hsent := h.inbox e _ m hin (.head _)
  constructor
  · intro n id nonce hm
    subst hm
    obtain ⟨ep', hep', rfl, rfl⟩ := h.wrote _ _ hsent
    exact .inl ⟨ep', hep', rfl, rfl⟩
  · intro n sig hm _ _
    subst hm
    exact ⟨other e, n, hsent⟩
  · intro payload hm _
    rw [← hm]
    exact hsent

theorem Inv.connect (h : Inv honest s) (left : Option (PubKey × PubKey)) (right : Option PubKey) : Inv honest { s with
      count := s.count + 1
      owners :=
        let owners := match left with
          | some (self, want) => s.owners.insert (s.count, false) (self, some want)
          | none => s.owners
        match right with
        | some self => owners.insert (s.count, true) (self, none)
        | none => owners } := by
  generalize hown : (let owners := match left with
      | some (self, want) => s.owners.insert (s.count, false) (self, some want)
      | none => s.owners
    match right with
    | some self => owners.insert (s.count, true) (self, none)
    | none => owners) = owners
  have hother : ∀ e : End, e.1 ≠ s.count → owners.get e = s.owners.get e := by
    intro e he
    have h1 : e ≠ (s.count, false) := fun heq => he (by rw [heq])
    have h2 : e ≠ (s.count, true) := fun heq => he (by rw [heq])
    rw [← hown]
    cases left <;> cases right <;> simp [get_insert, h1, h2]
  have hnum : ∀ e ep, s.ends.get e = some ep → e.1 ≠ s.count := by
    intro e ep hep
    have hlt := h.owners_count e (by simp [h.owned e ep hep])
    omega
  refine { h with owned := ?_, owners_count := ?_, handled := ?_ }
  · intro e ep hep
    rw [← h.owned e ep hep]
    exact hother e (hnum e ep hep)
  · intro e ho
    show e.1 < s.count + 1
    by_cases he : e.1 = s.count
    · omega
    · have hlt := h.owners_count e (hother e he ▸ ho)
      omega
  · intro e id payload hmem
    obtain ⟨hret, hsent⟩ := h.handled e id payload hmem
    refine ⟨hret, fun ho => hsent ?_⟩
    have hep : s.ends.get e ≠ none := by
      intro hnone
      rw [(h.started e hnone).2] at hret
      cases hret
    obtain ⟨ep, hep⟩ := Option.ne_none_iff_exists'.mp hep
    have hne : (other e).1 ≠ s.count := hnum e ep hep
    rw [← hother (other e) hne]
    exact ho

theorem Inv.step (h : Inv honest s) {a : Action} (ha : a.OwnNonce s)
    (hs : s.step honest validPubKey maxMessage a = some s') : Inv honest s' := by
  cases a with
  | connect left right =>
    unfold Net.step at hs
    dsimp only at hs
    split_ifs at hs
    obtain rfl := Option.some.inj hs
    exact h.connect left right
  | start e nonce =>
    unfold Net.step at hs
    dsimp only at hs
    split at hs
    · cases hs
    rename_i self want hown
    split_ifs at hs with hc
    obtain rfl := Option.some.inj hs
    simp only [Bool.or_eq_true, contains, List.contains_iff_mem, not_or, Bool.not_eq_true,
      Option.isSome_eq_false_iff, Option.isNone_iff_eq_none] at hc
    exact (h.begin hown hc.1 hc.2).send (get_insert_self _ _ _) ⟨rfl, rfl⟩
  | deliver e =>
    unfold Net.step at hs
    dsimp only at hs
    split at hs
    · next ep m rest hep hin =>
      split_ifs at hs
      obtain rfl := Option.some.inj hs
      have hm := h.readable_next hin
      have h' : Inv honest { s with inbox := s.inbox.insert e rest } := by
        refine { h with inbox := ?_ }
        intro e' l m' hl hm'
        rcases of_get_insert hl with hl | ⟨rfl, rfl⟩
        · exact h.inbox e' l m' hl hm'
        · exact h.inbox e' _ m' hin (.tail _ hm')
      exact h'.receive hep ⟨hm.hello, hm.proof, hm.frame⟩
    · cases hs
  | inject e m =>
    unfold Net.step at hs
    dsimp only at hs
    split at hs
    · cases hs
    rename_i ep hep
    split_ifs at hs with hc
    obtain rfl := Option.some.inj hs
    obtain ⟨hother, hder⟩ := Bool.and_eq_true_iff.mp hc
    refine h.receive hep ⟨?_, ?_, ?_⟩
    · intro n id nonce hm
      subst hm
      exact .inr ha
    · intro n sig hm hhon hdom
      subst hm
      simp only [derivable, hhon, hdom, Bool.not_true, Bool.false_or, ne_eq, not_true_eq_false, decide_false,
        List.any_eq_true, decide_eq_true_eq] at hder
      obtain ⟨x, hx, hx2⟩ := hder
      refine ⟨x.1, secpSignatureSize, ?_⟩
      rw [← hx2]
      exact hx
    · intro payload _ ho
      rw [Option.isNone_iff_eq_none] at hother
      exact absurd hother ho
  | write e payload =>
    unfold Net.step at hs
    dsimp only at hs
    split at hs
    · next id hp =>
      obtain rfl := Option.some.inj hs
      cases hep : s.ends.get e with
      | none =>
        have := (h.started e hep).2
        rw [h.serving e id hp] at this
        cases this
      | some ep => exact h.send hep trivial
    · cases hs
  | drop e =>
    unfold Net.step at hs
    dsimp only at hs
    split at hs
    · cases hs
    · next ep hep =>
      obtain rfl := Option.some.inj hs
      exact h.close e ep

def All (honest validPubKey : PubKey → Bool) (maxMessage : Nat) (C : Net → Action → Prop) : Net → List Action → Prop
  | _, [] => True
  | s, a :: rest => C s a ∧ ∀ s', s.step honest validPubKey maxMessage a = some s' →
      All honest validPubKey maxMessage C s' rest

instance (s : Net) (a : Action) : Decidable (a.OwnNonce s) :=
  match a with
  | .inject _ (.hello _ _ nonce) => decidable_of_iff (∀ x ∈ s.ends.entries, nonce ≠ x.2.nonce)
      ⟨fun h _ _ hep => h _ (get_eq_some.mp hep), fun h _ hx => h _ _ (get_eq_some.mpr hx)⟩
  | .inject _ (.proof ..) | .inject _ (.frame _) | .connect .. | .start .. | .deliver _ | .write .. | .drop _ =>
    .isTrue trivial

instance All.decidable (C : Net → Action → Prop) [∀ s a, Decidable (C s a)] :
    ∀ actions s, Decidable (All honest validPubKey maxMessage C s actions)
  | [], _ => .isTrue trivial
  | a :: rest, s =>
    have := All.decidable C rest
    inferInstanceAs (Decidable (C s a ∧ ∀ s' ∈ s.step honest validPubKey maxMessage a,
      All honest validPubKey maxMessage C s' rest))

theorem Inv.run (h : Inv honest s) (actions : List Action)
    (hall : All honest validPubKey maxMessage (fun s a => a.OwnNonce s) s actions)
    (hrun : s.run honest validPubKey maxMessage actions = some s') : Inv honest s' := by
  induction actions generalizing s with
  | nil =>
    obtain rfl := Option.some.inj hrun
    exact h
  | cons a rest ih =>
    obtain ⟨s₁, hs₁, hrest⟩ := Option.bind_eq_some_iff.mp hrun
    exact ih (h.step hall.1 hs₁) (hall.2 s₁ hs₁) hrest

end Net

/-! ## Authentication -/

/-- In every run in which the attacker uses only nonces of its own: if the handshake of an honest
    end returns an honest identity, that node is at the other end of the connection and has this
    node for its partner; and the frames that are attributed to an honest identity were written at
    that other end. -/
theorem handshake_authenticates (honest validPubKey : PubKey → Bool) (maxMessage : Nat) (actions : List Action)
    (hown : Net.All honest validPubKey maxMessage (fun s a => a.OwnNonce s) {} actions) {s : Net}
    (hrun : Net.run honest validPubKey maxMessage {} actions = some s) {e : End} {ep : Endpoint}
    (hep : s.ends.get e = some ep) {id : PubKey} (hid : s.returned.get e = some id) (hhon : honest id = true) :
    (∃ ep', s.ends.get (other e) = some ep' ∧ ep'.self = id ∧ s.heard.get (other e) = some (ep.self, ep.nonce)) ∧
      ∀ id' payload, (e, id', payload) ∈ s.handled → id' = id ∧ (other e, .frame payload) ∈ s.sent := by
  have h : Net.Inv honest s := Net.Inv.start.run actions hown hrun
  obtain ⟨ep', hep', hself, hheard⟩ := h.returned e ep id hep hid hhon
  refine ⟨⟨ep', hep', hself, hheard⟩, ?_⟩
  intro id' payload hmem
  obtain ⟨hret, hsent⟩ := h.handled e id' payload hmem
  refine ⟨Option.mem_unique hret hid, hsent ?_⟩
  rw [h.owned _ ep' hep']
  exact Option.some_ne_none _

/-! ## A relayed handshake -/

def nodeA : PubKey := Vector.replicate 33 2

def nodeB : PubKey := Vector.replicate 33 3

def stranger : PubKey := Vector.replicate 33 9

def twoHonest (id : PubKey) : Bool := decide (id = nodeA ∨ id = nodeB)

def nonceOf (k : UInt8) : Nonce := Vector.replicate 32 k

/-- Two honest nodes connect, and one writes a frame. Meanwhile the attacker has a connection to
    each of them, with nonces of its own and the signature that the other one has written. -/
def meddledRun : List Action :=
  [.connect (some (nodeA, nodeB)) (some nodeB), .connect none (some nodeB), .connect (some (nodeA, nodeB)) none,
    .start (0, false) (nonceOf 1), .start (0, true) (nonceOf 2), .start (1, true) (nonceOf 3),
    .start (2, false) (nonceOf 4), .inject (1, true) (.hello 33 nodeA (nonceOf 8)),
    .inject (2, false) (.hello 33 nodeB (nonceOf 9)),
    .inject (2, false) (.proof 65 (some ⟨nodeB, .tcpAuth, authMsg nodeB (nonceOf 8)⟩)),
    .deliver (0, false), .deliver (0, true), .deliver (0, false), .deliver (0, true), .write (0, true) [7],
    .deliver (0, false)]

/-- The handshake of the two honest nodes ends with each other's identity; that of `nodeA` with
    the attacker returns none. -/
theorem handshake_authenticates_meddled : ∃ s ep, Net.run twoHonest (fun _ => true) 100 {} meddledRun = some s ∧
    s.ends.get (0, false) = some ep ∧ s.returned.get (0, false) = some nodeB ∧ twoHonest nodeB = true ∧
    s.returned.get (2, false) = none ∧ ((0, false), nodeB, [7]) ∈ s.handled ∧ ((0, true), .frame [7]) ∈ s.sent := by
  have hmeddled : ((Net.run twoHonest (fun _ => true) 100 {} meddledRun).any fun s =>
      (s.ends.get (0, false)).isSome && decide (s.returned.get (0, false) = some nodeB) &&
      (s.returned.get (2, false)).isNone && decide (((0, false), nodeB, [7]) ∈ s.handled)) = true := by
    decide +kernel
  obtain ⟨s, hs, h⟩ := (Option.any_eq_true _ _).mp hmeddled
  simp only [Bool.and_eq_true, decide_eq_true_eq, Option.isSome_iff_exists, Option.isNone_iff_eq_none] at h
  obtain ⟨⟨⟨⟨ep, hep⟩, hret⟩, hnone⟩, hhandled⟩ := h
  have hall : Net.All twoHonest (fun _ => true) 100 (fun s a => a.OwnNonce s) {} meddledRun := by
    decide +kernel
  have hauth := handshake_authenticates twoHonest (fun _ => true) 100 meddledRun hall hs hep hret (by decide)
  exact ⟨s, ep, hs, hep, hret, by decide, hnone, hhandled, (hauth.2 nodeB [7] hhandled).2⟩

/-- `nodeA` dials `nodeB`, and the attacker answers. It takes the nonce of `nodeA` to `nodeB` on a
    connection of its own, and the signature back. -/
def relayRun : List Action :=
  [.connect (some (nodeA, nodeB)) none, .connect none (some nodeB), .start (0, false) (nonceOf 1),
    .start (1, true) (nonceOf 2), .inject (1, true) (.hello 33 stranger (nonceOf 1)),
    .inject (0, false) (.hello 33 nodeB (nonceOf 3)),
    .inject (0, false) (.proof 65 (some ⟨nodeB, .tcpAuth, authMsg nodeB (nonceOf 1)⟩)), .inject (0, false) (.frame [7])]

/-- The handshake of `nodeA` returns `nodeB`. At the other end there is no honest node; the one
    handshake of `nodeB` is with another partner; and a frame that no honest node has written is
    attributed to `nodeB`. -/
theorem relayed_handshake : ∃ s, Net.run twoHonest (fun _ => true) 100 {} relayRun = some s ∧
    s.returned.get (0, false) = some nodeB ∧ s.ends.get (other (0, false)) = none ∧
    s.heard.get (1, true) = some (stranger, nonceOf 1) ∧ (∀ e ep, s.ends.get e = some ep → ep.self = nodeB → e = (1, true)) ∧
    ((0, false), nodeB, [7]) ∈ s.handled ∧ ∀ x ∈ s.sent, x.2 ≠ .frame [7] := by
  have hrelay : ((Net.run twoHonest (fun _ => true) 100 {} relayRun).any fun s =>
      decide (s.returned.get (0, false) = some nodeB) && (s.ends.get (0, true)).isNone &&
      decide (s.heard.get (1, true) = some (stranger, nonceOf 1)) &&
      s.ends.entries.all (fun x => !decide (x.2.self = nodeB) || decide (x.1 = (1, true))) &&
      decide (((0, false), nodeB, [7]) ∈ s.handled) && decide (∀ x ∈ s.sent, x.2 ≠ .frame [7])) = true := by
    decide +kernel
  obtain ⟨s, hs, h⟩ := (Option.any_eq_true _ _).mp hrelay
  simp only [Bool.and_eq_true, decide_eq_true_eq, Option.isNone_iff_eq_none, List.all_eq_true, Bool.or_eq_true,
    Bool.not_eq_true', decide_eq_false_iff_not] at h
  obtain ⟨⟨⟨⟨⟨hret, hnone⟩, hheard⟩, hends⟩, hhandled⟩, hsent⟩ := h
  refine ⟨s, hs, hret, hnone, hheard, ?_, hhandled, hsent⟩
  intro e ep hep hself
  rcases hends (e, ep) (AMap.get_eq_some.mp hep) with hne | he
  · exact absurd hself hne
  · exact he

end MonadBft.Tcp
