/-
  MonadBft.WireAuth.InitReplay — whether a handshake initiation can be replayed.

  An initiation is taken only if its timestamp is newer than `getMaxTimestamp`, the newest among
  the responding sessions of its key and the key's current established one. That is newer than
  every live session only if the previous established one is not newer than the current one, and
  it is not when two sessions are established in the reverse order of their initiations
  (`replayed_initiation_accepted`).

  Which initiation a live session came from is read off the history of the run: `initiations` notes
  the key and the timestamp of every initiation under the index of the session that answered it.

  Proved: a call keeps the table good if it does not establish a session that is older than the
  current one of its key (`Call.InOrder`, `apply_good`); so in every run of such calls an
  initiation is taken only if it is newer than the initiation of every live session of its key
  (`initiation_newer_than_live`).
-/
import MonadBft.WireAuth.Api
import MonadBft.WireAuth.Table

namespace MonadBft.WireAuth

open MonadBft.Lib MonadBft.WireAuth.State State.Good Api

variable {K : Type} {P : Primitives K}

/-! ## Sessions keep their identity -/

theorem ident_handleSessionTimeout (c : SessionState) : ident c.handleSessionTimeout.1 = ident c := by
  unfold SessionState.handleSessionTimeout
  dsimp only
  split_ifs <;> rfl

theorem ident_handleCookie {c c' : SessionState} {reply : CookieReply} (h : c.handleCookie P reply = some c') :
    ident c' = ident c := by
  unfold SessionState.handleCookie at h
  split at h
  · cases h
  rename_i mac1 hm
  obtain ⟨cookie, -, rfl⟩ := Option.map_eq_some_iff.mp h
  rfl

variable {config : Config} {now timer : Int} {ts : Tai64N} {index i : SessionIndex} {key : PubKey}
  {addr : AddrPort} {cookie : Option Cookie} {retry : UInt64} {msg : HandshakeInitiation}
  {a a' : Api K} {env : Env K} {n rand : Nat} {x : InitiatorState K} {r : ResponderState} (t : TransportState)

theorem ident_decrypt {t t' : TransportState} {pkt : DataPacket} {timer : RenewedTimer}
    {plaintext : Array UInt8} (h : t.decrypt P config now pkt = .ok (t', timer, plaintext)) :
    ident t'.common = ident t.common := by
  unfold TransportState.decrypt at h
  split at h
  · cases h
  rename_i u hc
  split at h
  · cases h
  rename_i payload hd
  simp only [Except.ok.injEq, Prod.mk.injEq] at h
  obtain ⟨rfl, -, -⟩ := h
  split_ifs <;> rfl

theorem ident_encrypt (config : Config) (rand : Nat) (now : Int) (plaintext : Array UInt8) :
    ident (t.encrypt P config rand now plaintext).1.common = ident t.common := by
  unfold TransportState.encrypt
  split_ifs <;> rfl

/-- A tick keeps the session's identity, and terminates it under its own key. -/
theorem ident_tick (config : Config) (rand : Nat) (now : Int) :
    ident (t.tick P config rand now).session.common = ident t.common ∧
      ∀ ev, (t.tick P config rand now).terminated = some ev → ev.remotePublicKey = t.common.remotePublicKey := by
  have henc := ident_encrypt (P := P) { t with common := { t.common with keepaliveDeadline := none } } config rand now #[]
  unfold TransportState.tick
  dsimp only
  split_ifs with h1 h2 h3 h4 h5
  · exact ⟨ident_handleSessionTimeout _, fun ev he => by rw [← Option.some.inj he]; rfl⟩
  · exact ⟨ident_handleSessionTimeout _, fun ev he => by rw [← Option.some.inj he]; rfl⟩
  · exact ⟨rfl, fun ev he => by rw [← Option.some.inj he]; rfl⟩
  · exact ⟨henc, by simp⟩
  · exact ⟨henc, by simp⟩
  · exact ⟨rfl, by simp⟩
  · exact ⟨rfl, by simp⟩

theorem ident_handshakeTick {c c' : SessionState} {timer : Option Int} {rekey : Option RekeyEvent}
    {ev : TerminatedEvent} (h : handshakeTick c now = some (c', timer, rekey, ev)) :
    ident c' = ident c ∧ ev.remotePublicKey = c.remotePublicKey := by
  unfold handshakeTick at h
  split_ifs at h
  simp only [Option.some.injEq, Prod.mk.injEq] at h
  obtain ⟨rfl, -, -, rfl⟩ := h
  exact ⟨ident_handleSessionTimeout _, rfl⟩

theorem ident_newInitiator {eph localStaticKey : K}
    (h : InitiatorState.new P eph rand ts now config index localStaticKey key addr cookie retry = .ok (x, timer, msg)) :
    x.common.isInitiator = true ∧ x.common.remotePublicKey = key := by
  unfold InitiatorState.new at h
  obtain ⟨⟨initMsg, hs⟩, -, h⟩ := bind_eq_ok.mp h
  simp only [pure_eq_ok, Prod.mk.injEq] at h
  obtain ⟨rfl, -, -⟩ := h
  exact ⟨rfl, rfl⟩

theorem ident_newResponder {eph : K} {vi : ValidatedHandshakeInit K} {msg : HandshakeResponse}
    (h : ResponderState.new P eph rand now config index cookie vi addr = .ok (r, timer, msg)) :
    ident r.transport.common = (vi.remotePublicKey, false, some vi.timestamp) := by
  unfold ResponderState.new at h
  obtain ⟨⟨respMsg, keys, hs⟩, -, h⟩ := bind_eq_ok.mp h
  simp only [pure_eq_ok, Prod.mk.injEq] at h
  obtain ⟨rfl, -, -⟩ := h
  rfl

theorem ident_establishResponder (r : ResponderState) (config : Config) (rand : Nat) (now : Int) :
    ident (r.establish config rand now).1.common = ident r.transport.common := rfl

/-! ## Every call keeps the table good -/

variable {log : Initiations}

def Api.Good (a : Api K) (log : Initiations) : Prop := a.state.Good log a.state.transportSessions.get

theorem isUnderLoad_keeps (a : Api K) (env : Env K) (addr : AddrPort) (i : SessionIndex) (m : MacMessage) :
    (a.isUnderLoad P env addr i m).1.state = a.state ∧ (a.isUnderLoad P env addr i m).1.config = a.config ∧
      (a.isUnderLoad P env addr i m).1.localStaticKey = a.localStaticKey := by
  unfold isUnderLoad
  dsimp only
  split <;> exact ⟨rfl, rfl, rfl⟩

/-- Starting a handshake: the index was free, and what else was in the table is still there. -/
theorem initSessionWithCookie_spec
    (h : a.initSessionWithCookie P env n key addr cookie retry = .ok (a', index, timer, msg)) :
    a.state.allocatedIndices.get index = none ∧ ∃ x : InitiatorState K, x.common.isInitiator = true ∧
      x.common.remotePublicKey = key ∧
      a' = a.mapState fun s => (s.commitSessionIndex index).insertInitiator index x key := by
  unfold initSessionWithCookie at h
  split at h
  · cases h
  rename_i i hidx
  split at h
  · cases h
  rename_i eph heph
  split at h
  · cases h
  rename_i x _ _ hnew
  simp only [Except.ok.injEq, Prod.mk.injEq] at h
  obtain ⟨rfl, rfl, -, -⟩ := h
  obtain ⟨hrole, hkey⟩ := ident_newInitiator hnew
  exact ⟨scanFree_free hidx, x, hrole, hkey, rfl⟩

/-- An initiation leaves the table as it was, but for an allocated index, or it is newer than the
    newest known timestamp of its key and adds a session of that key and timestamp. -/
theorem acceptHandshakeInit_spec (a : Api K) (env : Env K) (m : HandshakeInitiation) (addr : AddrPort) :
    let s' := (a.acceptHandshakeInit P env m addr).1.state
    s' = a.state ∨ ∃ index, a.state.allocatedIndices.get index = none ∧ (s' = a.state.commitSessionIndex index ∨
      ∃ (vi : ValidatedHandshakeInit K) (r : ResponderState), validateInit P a.localStaticKey m = .ok vi ∧
        ident r.transport.common = (vi.remotePublicKey, false, some vi.timestamp) ∧
        isReplay (a.state.getMaxTimestamp vi.remotePublicKey) vi.timestamp = false ∧
        s' = (a.state.commitSessionIndex index).insertResponder index r vi.remotePublicKey) := by
  intro s'
  have hkeep := isUnderLoad_keeps (P := P) a env addr m.senderIndex m.mac
  rcases hu : a.isUnderLoad P env addr m.senderIndex m.mac with ⟨a₁, pass⟩
  rw [hu] at hkeep
  obtain ⟨hs, -, hkey⟩ := hkeep
  rw [← hs, ← hkey]
  change (a.acceptHandshakeInit P env m addr).1.state = a₁.state ∨ _
  unfold s' Api.acceptHandshakeInit
  rw [hu]
  by_cases hmac : (!verifyMAC1 P m.mac (P.pubKey a.localStaticKey)) = true
  · rw [if_pos hmac]
    exact .inl hs.symm
  rw [if_neg hmac]
  dsimp only
  by_cases hpass : (!pass) = true
  · rw [if_pos hpass]
    exact .inl rfl
  rw [if_neg hpass]
  cases hvi : validateInit P a₁.localStaticKey m with
  | error e => exact .inl rfl
  | ok vi =>
    dsimp only
    by_cases hreplay : isReplay (a₁.state.getMaxTimestamp vi.remotePublicKey) vi.timestamp = true
    · rw [if_pos hreplay]
      exact .inl rfl
    rw [if_neg hreplay]
    cases hidx : a₁.state.reserveSessionIndex with
    | none => exact .inl rfl
    | some index =>
      refine .inr ⟨index, scanFree_free hidx, ?_⟩
      cases env.eph 0 with
      | none => exact .inl rfl
      | some eph =>
        dsimp only
        split
        · exact .inl rfl
        · next r timer msg hnew =>
          exact .inr ⟨vi, r, rfl, ident_newResponder hnew, by simpa using hreplay, rfl⟩

theorem dispatch_initiation (a : Api K) (env : Env K) (m : HandshakeInitiation) (addr : AddrPort) :
    (a.dispatch P env (.initiation m) addr).1 = (a.acceptHandshakeInit P env m addr).1 := by
  simp only [dispatch, dispatch.withErr]

/-- The initiation is answered under the index. -/
def Api.Answers (P : Primitives K) (a : Api K) (env : Env K) (m : HandshakeInitiation) (addr : AddrPort)
    (i : SessionIndex) : Prop :=
  a.state.respondingSessions.get i = none ∧
    (a.dispatch P env (.initiation m) addr).1.state.respondingSessions.get i ≠ none

instance (a : Api K) (env : Env K) (m : HandshakeInitiation) (addr : AddrPort) (i : SessionIndex) :
    Decidable (a.Answers P env m addr i) :=
  inferInstanceAs (Decidable (_ ∧ _))

/-- An initiation that is answered is noted under the index of its session. -/
def Api.noteInitiation (P : Primitives K) (a : Api K) (env : Env K) (log : Initiations) (m : HandshakeInitiation)
    (addr : AddrPort) : Initiations := fun i =>
  match validateInit P a.localStaticKey m with
  | .ok vi => if a.Answers P env m addr i then some (vi.remotePublicKey, vi.timestamp) else log i
  | .error _ => log i

def Call.note (P : Primitives K) (a : Api K) (env : Env K) (log : Initiations) : Call → Initiations
  | .dispatch (.initiation m) addr => a.noteInitiation P env log m addr
  | _ => log

/-- The first packet of a responding session comes while no newer session of its key is
    established. -/
def Api.FirstInOrder (a : Api K) (pkt : DataPacket) : Prop :=
  ∀ r, a.state.respondingSessions.get pkt.header.receiverIndex = some r → a.state.NotOlder r.transport

theorem firstInOrder_of_empty (h : a.state.lastEstablishedSessionByPublicKey.entries.isEmpty = true)
    (pkt : DataPacket) : a.FirstInOrder pkt := by
  intro r _ c _ _ _ hc
  rw [slots, roleSlots, AMap.get, List.isEmpty_iff.mp h] at hc
  cases hc

section

variable (hg : a.Good log)

include hg

theorem initSessionWithCookie_good
    (h : a.initSessionWithCookie P env n key addr cookie retry = .ok (a', index, timer, msg)) : a'.Good log := by
  obtain ⟨hfree, x, hrole, hkey, rfl⟩ := initSessionWithCookie_spec h
  exact (commit hg index).insertInitiator (hg.free_commit hfree) hrole hkey

variable (env : Env K)

theorem connect_good (key : PubKey) (addr : AddrPort) (retry : UInt64) : (a.connect P env key addr retry).1.Good log := by
  have hrate : (a.checkConnectRateLimit env).1.state = a.state := by
    unfold checkConnectRateLimit
    dsimp only
    split_ifs <;> rfl
  unfold connect
  rcases hc : a.checkConnectRateLimit env with ⟨a₁, allowed⟩
  have hg₁ : a₁.Good log := by
    rw [hc] at hrate
    rw [Api.Good, hrate]
    exact hg
  dsimp only
  split_ifs
  · exact hg₁
  · exact hg₁
  · split
    · exact hg₁
    · next h =>
      have hg₂ := initSessionWithCookie_good hg₁ h
      exact hg₂

theorem dispatchInitiation_good (m : HandshakeInitiation) (addr : AddrPort) :
    (a.dispatch P env (.initiation m) addr).1.Good (a.noteInitiation P env log m addr) := by
  have hsame : (a.acceptHandshakeInit P env m addr).1.state.respondingSessions = a.state.respondingSessions →
      a.noteInitiation P env log m addr = log := by
    intro h
    funext i
    have hnot : ¬a.Answers P env m addr i := fun hi => hi.2 (by rw [dispatch_initiation, h, hi.1])
    unfold noteInitiation
    simp only [if_neg hnot]
    split <;> rfl
  rw [Api.Good, dispatch_initiation]
  rcases acceptHandshakeInit_spec (P := P) a env m addr with h | ⟨index, hfree, h | ⟨vi, r, hvalid, hr, -, h⟩⟩
  · rw [hsame (by rw [h]), h]
    exact hg
  · rw [hsame (by rw [h]; rfl), h]
    exact commit hg index
  · obtain ⟨hkey, hrole, hts⟩ : r.transport.common.remotePublicKey = vi.remotePublicKey ∧
        r.transport.common.isInitiator = false ∧ r.transport.common.initiatorTimestamp = some vi.timestamp := by
      simpa [ident] using hr
    have hfree' := hg.free_commit hfree
    have hnone : a.state.respondingSessions.get index = none := hfree'.responding
    -- only the new session's index is answered under
    have hiff : ∀ i, a.Answers P env m addr i ↔ i = index := by
      intro i
      have hget : (a.dispatch P env (.initiation m) addr).1.state.respondingSessions.get i =
          if i = index then some r else a.state.respondingSessions.get i := by
        rw [dispatch_initiation, h]
        exact AMap.get_insert _ _ _ _
      rw [Answers, hget]
      by_cases hi : i = index
      · simp [hi, hnone]
      · simp [hi]
    have hnote : ∀ i, a.noteInitiation P env log m addr i =
        if i = index then some (vi.remotePublicKey, vi.timestamp) else log i := by
      intro i
      simp only [noteInitiation, hvalid, hiff]
    rw [h]
    refine ((commit hg index).note hfree' fun i hi => ?_).insertResponder hfree' hrole ⟨vi.timestamp, ?_, hts⟩ hkey
    · rw [hnote, if_neg hi]
    · rw [hnote, if_pos rfl, hkey]

theorem acceptCookie_good (reply : CookieReply) : (a.acceptCookie P reply).1.Good log := by
  unfold acceptCookie
  dsimp only
  split
  · next x hx =>
    split
    · exact hg
    · next c hc => exact touchInitiator hg hx (ident_handleCookie hc)
  · split
    · next r hr =>
      split
      · exact hg
      · next c hc => exact touchResponder hg hr (ident_handleCookie hc)
    · exact hg

theorem decrypt_good (pkt : DataPacket) (hord : a.FirstInOrder pkt) : (a.decrypt P env pkt).1.Good log := by
  unfold decrypt
  dsimp only
  split
  · next t ht =>
    split
    · exact hg
    · next hd => exact touchTransport hg ht (ident_decrypt hd)
  · split
    · next r hr =>
      split
      · exact hg
      · next t timer plaintext hd =>
        obtain ⟨hg₁, hf₁⟩ := removeResponder hg hr
        have hid := (ident_establishResponder ⟨t⟩ a.config (env.rand 0) env.now).trans (ident_decrypt hd)
        obtain ⟨hk, -, ht⟩ := ident_eq hid
        refine hg₁.insertTransport hf₁ fun _ => ⟨(hg.inv.responder _ r hr).2.of_ident hid, ?_⟩
        have hold := hord r hr
        unfold NotOlder at hold ⊢
        rw [hk, ht]
        unfold State.removeResponder
        rw [hr]
        exact hold
    · exact hg

theorem sendOn_good (n : Nat) (index : SessionIndex) (addr : AddrPort)
    (msg : Array UInt8) : (a.sendOn P env n index addr msg).Good log := by
  unfold sendOn
  split
  · exact hg
  · next t ht => exact touchTransport hg ht (ident_encrypt (P := P) t _ _ _ _)

theorem sendAll_good (n : Nat) (index : SessionIndex) (addr : AddrPort)
    (msgs : List (Array UInt8)) : (a.sendAll P env n index addr msgs).Good log := by
  induction msgs generalizing a n with
  | nil => exact hg
  | cons msg msgs ih => exact ih (sendOn_good hg env n index addr msg) (n + 1)

theorem completeHandshake_good (m : HandshakeResponse) (addr : AddrPort) :
    (a.completeHandshake P env m addr).1.Good log := by
  have hkeep := (isUnderLoad_keeps (P := P) a env addr m.senderIndex m.mac).1
  unfold completeHandshake
  rcases hu : a.isUnderLoad P env addr m.senderIndex m.mac with ⟨a₁, pass⟩
  have hg₁ : a₁.Good log := by
    rw [hu] at hkeep
    rw [Api.Good, hkeep]
    exact hg
  dsimp only
  split_ifs
  · exact hg
  · exact hg₁
  · split
    · exact hg₁
    · next x hx =>
      split_ifs
      · exact hg₁
      · split
        · exact hg₁
        · obtain ⟨hg₂, hf₂⟩ := removeInitiator hg₁ hx
          refine sendAll_good ?_ env _ _ _ _
          refine hg₂.insertTransport hf₂ fun hb => ?_
          -- the session is an initiator's
          have hrole : x.common.isInitiator = false := hb
          rw [hg₁.inv.initiator _ x hx] at hrole
          cases hrole

theorem encryptByPublicKey_good (key : PubKey) (plaintext : Array UInt8) :
    (a.encryptByPublicKey P env key plaintext).Good log := by
  unfold encryptByPublicKey
  split
  · exact hg
  · split
    · exact hg
    · next t ht => exact touchTransport hg ht (ident_encrypt (P := P) t _ _ _ _)

theorem encryptBySocket_good (addr : AddrPort) (plaintext : Array UInt8) :
    (a.encryptBySocket P env addr plaintext).Good log := by
  unfold encryptBySocket
  split
  · exact hg
  · split
    · exact hg
    · next t ht => exact touchTransport hg ht (ident_encrypt (P := P) t _ _ _ _)

theorem bufferMessage_good (key : PubKey) (message : Array UInt8) : (a.bufferMessage key message).1.Good log := by
  unfold bufferMessage
  split
  · exact hg
  · next index x hx =>
    split_ifs
    · exact hg
    · obtain ⟨i, -, hi⟩ := Option.bind_eq_some_iff.mp hx
      obtain ⟨y, hy, he⟩ := Option.map_eq_some_iff.mp hi
      obtain ⟨rfl, rfl⟩ := Prod.mk.injEq .. ▸ he
      exact touchInitiator hg hy rfl

end

/-! ## Ticks -/

/-- A handshake that is started leaves the session under another index alone. -/
theorem initSessionWithCookie_keyAt
    (h : a.initSessionWithCookie P env n key addr cookie retry = .ok (a', index, timer, msg))
    (hal : a.state.allocatedIndices.get i ≠ none) {pk : PubKey} (hk : KeyAt a.state a.state.transportSessions.get i pk) :
    KeyAt a'.state a'.state.transportSessions.get i pk := by
  obtain ⟨hfree, x, -, -, rfl⟩ := initSessionWithCookie_spec h
  refine ⟨hk.transport, hk.responding, ?_⟩
  intro y hy
  have hne : i ≠ index := fun he => hal (he ▸ hfree)
  exact hk.initiating y ((AMap.get_insert_ne _ x hne).symm.trans hy)

theorem applyEffects_good (hg : a.Good log) (env : Env K) (n : Nat) (e : Api.Effects)
    (hal : a.state.allocatedIndices.get index ≠ none)
    (hkey : ∀ t, e.terminated = some t → KeyAt a.state a.state.transportSessions.get index t.remotePublicKey) :
    (a.applyEffects P env n index e).Good log := by
  -- what holds until the session is terminated: only the new handshake touches the table
  let Q : Api K → Prop := fun x => x.Good log ∧
    ∀ t, e.terminated = some t → KeyAt x.state x.state.transportSessions.get index t.remotePublicKey
  unfold applyEffects
  extract_lets sent rekeyed timed
  have hsent : sent.state = a.state := by
    unfold sent
    split <;> rfl
  have hQ : Q sent := by
    unfold Q Api.Good
    rw [hsent]
    exact ⟨hg, hkey⟩
  have hrekeyed : Q rekeyed := by
    unfold rekeyed
    split
    · exact hQ
    · split
      · exact hQ
      · next h =>
        have hg₂ := initSessionWithCookie_good hQ.1 h
        exact ⟨hg₂, fun t ht => initSessionWithCookie_keyAt h (hsent ▸ hal) (hQ.2 t ht)⟩
  have htimed : Q timed := by
    unfold timed
    split <;> exact hrekeyed
  split
  · next t ht => exact terminate htimed.1 (htimed.2 t ht) t.remoteAddr
  · exact htimed.1

/-- A session that is found is under an allocated index, and what is found there has its key. -/
theorem found_initiating (hg : a.Good log) (hx : a.state.initiatingSessions.get i = some x) :
    a.state.allocatedIndices.get i ≠ none ∧ KeyAt a.state a.state.transportSessions.get i x.common.remotePublicKey := by
  have ht := hg.inv.initiating_only i (by simp [hx])
  have hr : a.state.respondingSessions.get i = none := by
    by_contra hne
    rw [(hg.inv.responding_only i hne).2] at hx
    cases hx
  refine ⟨fun hn => ?_, by simp [ht], by simp [hr], fun y hy => by rw [← Option.mem_unique hx hy]⟩
  rw [(hg.inv.allocated i hn).2.2] at hx
  cases hx

theorem found_responding (hg : a.Good log) (hr : a.state.respondingSessions.get i = some r) :
    a.state.allocatedIndices.get i ≠ none ∧
      KeyAt a.state a.state.transportSessions.get i r.transport.common.remotePublicKey := by
  obtain ⟨ht, hx⟩ := hg.inv.responding_only i (by simp [hr])
  refine ⟨fun hn => ?_, by simp [ht], fun r' hr' => by rw [← Option.mem_unique hr hr'], by simp [hx]⟩
  rw [(hg.inv.allocated i hn).2.1] at hr
  cases hr

theorem found_transport (hg : a.Good log) {t : TransportState} (ht : a.state.transportSessions.get i = some t) :
    a.state.allocatedIndices.get i ≠ none ∧ KeyAt a.state a.state.transportSessions.get i t.common.remotePublicKey := by
  obtain ⟨hr, hx⟩ := hg.inv.only_transport (i := i) (by simp [ht])
  refine ⟨fun hn => ?_, fun t' ht' => by rw [← Option.mem_unique ht ht'], by simp [hr], by simp [hx]⟩
  rw [(hg.inv.allocated i hn).1] at ht
  cases ht

theorem tickSession_good (hg : a.Good log) (env : Env K) (n : Nat) (index : SessionIndex) :
    (a.tickSession P env n index).Good log := by
  unfold tickSession
  split
  · next x hx =>
    split
    · exact hg
    · next common timer rekey ev h =>
      obtain ⟨hid, hev⟩ := ident_handshakeTick h
      have hg₁ : Api.Good (a.mapState fun s =>
          { s with initiatingSessions := s.initiatingSessions.insert index { x with common } }) log :=
        touchInitiator hg hx hid
      obtain ⟨hal, hkey⟩ := found_initiating hg₁ (i := index) (x := { x with common }) (AMap.get_insert_self _ _ _)
      refine applyEffects_good hg₁ env n _ hal fun t ht => ?_
      rw [← Option.some.inj ht, hev, ← (ident_eq hid).1]
      exact hkey
  · split
    · next r hr =>
      split
      · exact hg
      · next common timer rekey ev h =>
        obtain ⟨hid, hev⟩ := ident_handshakeTick h
        have hg₁ : Api.Good (a.mapState fun s =>
            { s with respondingSessions := s.respondingSessions.insert index ⟨{ r.transport with common }⟩ }) log :=
          touchResponder hg hr hid
        obtain ⟨hal, hkey⟩ := found_responding hg₁ (i := index) (r := ⟨{ r.transport with common }⟩)
          (AMap.get_insert_self _ _ _)
        refine applyEffects_good hg₁ env n _ hal fun t ht => ?_
        rw [← Option.some.inj ht, hev, ← (ident_eq hid).1]
        exact hkey
    · split
      · exact hg
      · next t ht =>
        obtain ⟨hid, hev⟩ := ident_tick (P := P) t a.config (env.rand n) env.now
        have hg₁ : Api.Good (a.mapState fun s => { s with
            transportSessions := s.transportSessions.insert index (t.tick P a.config (env.rand n) env.now).session }) log :=
          touchTransport hg ht hid
        obtain ⟨hal, hkey⟩ := found_transport hg₁ (i := index) (AMap.get_insert_self _ _ _)
        refine applyEffects_good hg₁ env n _ hal fun ev hterm => ?_
        rw [hev ev hterm, ← (ident_eq hid).1]
        exact hkey

theorem tickLoop_good (hg : a.Good log) (env : Env K) (n : Nat) : (tickLoop P env n a).Good log := by
  induction n generalizing a with
  | zero => exact hg
  | succ n ih =>
    unfold tickLoop
    split
    · exact hg
    · split_ifs
      · exact hg
      · refine ih (tickSession_good ?_ env n _)
        exact hg

/-! ## Runs -/

/-- The condition on a call: a data packet for a responding session is in order. -/
def Call.InOrder (a : Api K) : Call → Prop
  | .decrypt pkt => a.FirstInOrder pkt
  | .dispatch (.data pkt) _ => a.FirstInOrder pkt
  | _ => True

theorem dispatch_good (hg : a.Good log) (env : Env K) (pkt : Packet) (addr : AddrPort)
    (hc : (Call.dispatch pkt addr).InOrder a) :
    (a.dispatch P env pkt addr).1.Good ((Call.dispatch pkt addr).note P a env log) := by
  cases pkt with
  | initiation m =>
    rw [Call.note]
    exact dispatchInitiation_good hg env m addr
  | response m =>
    simp only [dispatch, dispatch.withErr]
    exact completeHandshake_good hg env m addr
  | cookie m =>
    simp only [dispatch, dispatch.withErr]
    exact acceptCookie_good hg m
  | data m =>
    simp only [dispatch]
    exact decrypt_good hg env m hc

theorem apply_good (hg : a.Good log) (env : Env K) (c : Call) (hc : c.InOrder a) :
    (c.apply P a env).Good (c.note P a env log) := by
  cases c with
  | connect key addr retry =>
    rw [Call.apply]
    exact connect_good hg env key addr retry
  | dispatch pkt addr =>
    rw [Call.apply]
    exact dispatch_good hg env pkt addr hc
  | decrypt pkt =>
    rw [Call.apply]
    exact decrypt_good hg env pkt hc
  | tick =>
    rw [Call.apply]
    refine tickLoop_good ?_ env _
    exact hg
  | encryptByPublicKey key plaintext =>
    rw [Call.apply]
    exact encryptByPublicKey_good hg env key plaintext
  | encryptBySocket addr plaintext =>
    rw [Call.apply]
    exact encryptBySocket_good hg env addr plaintext
  | bufferMessage key message =>
    rw [Call.apply]
    exact bufferMessage_good hg key message
  | disconnect key => exact terminateByPublicKey hg key
  | nextPacket => exact hg

def Api.run (P : Primitives K) (a : Api K) (calls : List (Env K × Call)) : Api K :=
  calls.foldl (fun a c => c.2.apply P a c.1) a

/-- The initiations that were answered. -/
def Api.initiations (P : Primitives K) : Api K → Initiations → List (Env K × Call) → Initiations
  | _, log, [] => log
  | a, log, (env, c) :: rest => initiations P (c.apply P a env) (c.note P a env log) rest

/-- Each call meets the condition where it is made. -/
def Api.InOrder (P : Primitives K) : Api K → List (Env K × Call) → Prop
  | _, [] => True
  | a, (env, c) :: rest => c.InOrder a ∧ InOrder P (c.apply P a env) rest

theorem run_good (hg : a.Good log) (calls : List (Env K × Call)) (h : a.InOrder P calls) :
    (a.run P calls).Good (a.initiations P log calls) := by
  induction calls generalizing a log with
  | nil => exact hg
  | cons call calls ih => exact ih (apply_good hg call.1 call.2 h.1) h.2

theorem new_good (config : Config) (key : K) (secrets : HashOutput × HashOutput) : (new P config key secrets).Good log :=
  ⟨Inv.start, by simp [Ordered, new, slots, roleSlots, role_empty]⟩

/-! ## Replayed initiations -/

/-- The session that answered an initiation of `key` with this timestamp is responding or
    established. -/
def Api.Live (a : Api K) (log : Initiations) (key : PubKey) (ts : Tai64N) : Prop :=
  ∃ i, log i = some (key, ts) ∧ (a.state.respondingSessions.get i ≠ none ∨
    ∃ t, a.state.transportSessions.get i = some t ∧ t.common.isInitiator = false)

structure Api.Accepts (P : Primitives K) (a : Api K) (env : Env K) (m : HandshakeInitiation) (addr : AddrPort)
    (vi : ValidatedHandshakeInit K) : Prop where
  valid : validateInit P a.localStaticKey m = .ok vi
  answered : ∃ i, a.Answers P env m addr i

/-- The newest known timestamp of a key is not older than any live session of it. -/
theorem live_le_max (hg : a.Good log) (h : a.Live log key ts) :
    ∃ m, a.state.getMaxTimestamp key = some m ∧ ts.toNat ≤ m.toNat := by
  obtain ⟨i, hlog, h⟩ := h
  -- a session records the initiation that it answered
  have hstarted : ∀ c, log.Started i c → c.remotePublicKey = key ∧ c.initiatorTimestamp = some ts := by
    rintro c ⟨ts', hlog', hts'⟩
    obtain ⟨rfl, rfl⟩ := Prod.mk.inj (Option.some.inj (hlog.symm.trans hlog'))
    exact ⟨rfl, hts'⟩
  rcases h with hr | ⟨t, ht, hrole⟩
  · obtain ⟨r, hr⟩ := Option.ne_none_iff_exists'.mp hr
    obtain ⟨hkey, hts⟩ := hstarted _ (hg.inv.responder i r hr).2
    refine getMaxTimestamp_spec (List.mem_append_left _ (List.mem_filterMap.mpr ⟨i, ?_, ?_⟩))
    · exact hkey ▸ hg.inv.accepted i r hr
    · rw [hr, Option.bind_some, hts]
  · -- the current established session is among those looked at
    have hcur : ∀ c tc y, (a.state.slots false key).current = some c → a.state.transportSessions.get c.id = some tc →
        tc.common.initiatorTimestamp = some y → y ∈ a.state.timestampsSeen key := by
      intro c tc y hc htc hy
      refine List.mem_append_right _ ?_
      cases hm : a.state.lastEstablishedSessionByPublicKey.get key with
      | none => simp [slots, roleSlots, hm, role_empty] at hc
      | some sess =>
        have hc' : sess.responder.current = some c := by
          rw [slots, roleSlots, hm] at hc
          exact hc
        simp [hc', htc, hy]
    have hheld := hg.inv.slotted i t ht
    obtain ⟨t', ht', -, -, hst⟩ := hg.inv.live _ _ i hheld
    obtain rfl : t = t' := Option.mem_unique ht ht'
    obtain ⟨hkey, hts⟩ := hstarted _ (hst hrole)
    rw [hrole, hkey] at hheld
    rcases hheld with hc | hp
    · obtain ⟨c, hc', rfl⟩ := has_iff.mp hc
      exact getMaxTimestamp_spec (hcur c t ts hc' ht hts)
    · -- the previous one is not newer than the current one
      obtain ⟨p, hp', rfl⟩ := has_iff.mp hp
      cases hc : (a.state.slots false key).current with
      | none =>
        rw [hg.inv.filled false key hc] at hp'
        cases hp'
      | some c =>
        obtain ⟨tc, htc, -, -, hne⟩ := hg.inv.live false key c.id (.inl (has_iff.mpr ⟨c, hc, rfl⟩))
        obtain ⟨y, -, hy⟩ := hne rfl
        obtain ⟨m, hm, hle⟩ := getMaxTimestamp_spec (hcur c tc y hc htc hy)
        have := hg.ordered key c p tc t ts y hc hp' htc ht hts hy
        exact ⟨m, hm, by omega⟩

/-- In every run whose calls are in order, an initiation is accepted only if it is newer than the
    initiation of every live session of its key. -/
theorem initiation_newer_than_live (config : Config) (localKey : K) (secrets : HashOutput × HashOutput)
    (calls : List (Env K × Call)) (hrun : (Api.new P config localKey secrets).InOrder P calls) {env : Env K}
    {m : HandshakeInitiation} {addr : AddrPort} {vi : ValidatedHandshakeInit K}
    (hacc : ((Api.new P config localKey secrets).run P calls).Accepts P env m addr vi) {ts : Tai64N}
    (hlive : ((Api.new P config localKey secrets).run P calls).Live
      ((Api.new P config localKey secrets).initiations P (fun _ => none) calls) vi.remotePublicKey ts) :
    ts.toNat < vi.timestamp.toNat := by
  have hnew : (Api.new P config localKey secrets).Good fun _ => none := new_good config localKey secrets
  have hg := run_good hnew calls hrun
  generalize (Api.new P config localKey secrets).initiations P (fun _ => none) calls = log at hg hlive
  generalize (Api.new P config localKey secrets).run P calls = a at hg hacc hlive
  obtain ⟨hvalid, i, hnone, hsome⟩ := hacc
  rw [dispatch_initiation] at hsome
  rcases acceptHandshakeInit_spec (P := P) a env m addr with h | ⟨index, hfree, h | ⟨vi', r, hvalid', -, hnew, -⟩⟩
  · rw [h] at hsome
    exact absurd hnone hsome
  · rw [h] at hsome
    exact absurd hnone hsome
  · obtain rfl : vi = vi' := by
      rw [hvalid] at hvalid'
      injection hvalid'
    obtain ⟨max, hmax, hle⟩ := live_le_max hg hlive
    rw [hmax, Api.isReplay, Option.any_some] at hnew
    have hgt : vi.timestamp.cmp max = .gt := by simpa using hnew
    have := Nat.compare_eq_gt.mp (Tai64N.cmp_eq vi.timestamp max ▸ hgt)
    omega

/-! ## Two sessions established in the reverse order -/

def sampleAddr : AddrPort := ⟨.v4 (Vector.replicate 4 1), 80⟩

def sampleEnv : Env UInt8 :=
  { now := 0, systemTime := sampleTimestamp, eph := fun _ => some 17, rand := fun _ => 0, order := id }

def sampleApi : Api UInt8 := .new samplePrimitives .default 5 (Vector.replicate 32 1, Vector.replicate 32 2)

def sampleDispatch (pkt : Packet) : Env UInt8 × Call := (sampleEnv, .dispatch pkt sampleAddr)

/-- An initiation of the peer with the key 11, its `n`th. -/
def sampleInitiation (n : UInt32) : Option HandshakeInitiation :=
  (sendHandshakeInit samplePrimitives 3 ⟨7, n⟩ n 11 (samplePrimitives.pubKey 5) none).toOption.map Prod.fst

/-- The first packet of the peer for the session that answered under this index. -/
def sampleFirstPacket (a : Api UInt8) (index : SessionIndex) : Option DataPacket :=
  (a.state.respondingSessions.get index).map fun r =>
    { header := { receiverIndex := index, nonce := 0
                  tag := (samplePrimitives.encryptInPlace r.transport.recvKey (cipherNonceFromU64 0)
                    (#[] : Array UInt8).toVector []).2 }
      payload := #[] }

/-- Two initiations and the first packets of the sessions that answer them. -/
def sampleMessages : Option ((HandshakeInitiation × HandshakeInitiation) × DataPacket × DataPacket) :=
  (sampleInitiation 1).bind fun m₁ => (sampleInitiation 2).bind fun m₂ =>
    let a := sampleApi.run samplePrimitives [sampleDispatch (.initiation m₁), sampleDispatch (.initiation m₂)]
    (sampleFirstPacket a 0).bind fun p₁ => (sampleFirstPacket a 1).map fun p₂ => ((m₁, m₂), p₁, p₂)

/-- After the calls the initiation is answered under the index `i`, while the session `live`, which
    answered an initiation of its key with the timestamp `ts`, is established. -/
def sampleCheck (calls : List (Env UInt8 × Call)) (m : HandshakeInitiation) (i live : SessionIndex) (ts : Tai64N) : Bool :=
  let a := sampleApi.run samplePrimitives calls
  match validateInit samplePrimitives a.localStaticKey m with
  | .error _ => false
  | .ok vi =>
    decide (vi.timestamp = ⟨7, 2⟩) && decide (a.Answers samplePrimitives sampleEnv m sampleAddr i) &&
    decide (sampleApi.initiations samplePrimitives (fun _ => none) calls live = some (vi.remotePublicKey, ts)) &&
    (a.state.transportSessions.get live).any fun t => !t.common.isInitiator

/-- The live sessions after the calls. -/
def sampleLive (calls : List (Env UInt8 × Call)) (key : PubKey) (ts : Tai64N) : Prop :=
  (sampleApi.run samplePrimitives calls).Live (sampleApi.initiations samplePrimitives (fun _ => none) calls) key ts

theorem of_sampleCheck {calls : List (Env UInt8 × Call)} {m : HandshakeInitiation} {live : SessionIndex}
    (h : sampleCheck calls m i live ts = true) : ∃ vi,
      (sampleApi.run samplePrimitives calls).Accepts samplePrimitives sampleEnv m sampleAddr vi ∧
      vi.timestamp = ⟨7, 2⟩ ∧ sampleLive calls vi.remotePublicKey ts := by
  unfold sampleCheck at h
  dsimp only at h
  split at h
  · cases h
  rename_i vi hvi
  simp only [Bool.and_eq_true, decide_eq_true_eq, Option.any_eq_true, Bool.not_eq_true'] at h
  obtain ⟨⟨⟨hts, hanswers⟩, hlog⟩, t, ht, hrole⟩ := h
  exact ⟨vi, ⟨hvi, i, hanswers⟩, hts, live, hlog, .inr ⟨t, ht, hrole⟩⟩

/-- Two sessions are established in the reverse order of their initiations; the newer initiation
    is then accepted a second time, while the session it started is established. -/
theorem replayed_initiation_accepted : ∃ (m₁ m₂ : HandshakeInitiation) (p₁ p₂ : DataPacket)
    (vi : ValidatedHandshakeInit UInt8),
    let calls := [sampleDispatch (.initiation m₁), sampleDispatch (.initiation m₂), sampleDispatch (.data p₂),
      sampleDispatch (.data p₁)]
    (sampleApi.run samplePrimitives calls).Accepts samplePrimitives sampleEnv m₂ sampleAddr vi ∧
      sampleLive calls vi.remotePublicKey vi.timestamp := by
  have h : (sampleMessages.any fun x => sampleCheck [sampleDispatch (.initiation x.1.1),
      sampleDispatch (.initiation x.1.2), sampleDispatch (.data x.2.2), sampleDispatch (.data x.2.1)]
        x.1.2 2 1 ⟨7, 2⟩) = true := by
    decide +kernel
  obtain ⟨⟨⟨m₁, m₂⟩, p₁, p₂⟩, -, h⟩ := (Option.any_eq_true _ _).mp h
  obtain ⟨vi, hacc, hts, hlive⟩ := of_sampleCheck h
  exact ⟨m₁, m₂, p₁, p₂, vi, hacc, hts ▸ hlive⟩

/-- A session is established in order, and the next initiation of its peer is accepted. -/
theorem initiation_newer_than_live_sample : ∃ (m₁ m₂ : HandshakeInitiation) (p₁ : DataPacket)
    (vi : ValidatedHandshakeInit UInt8), let calls := [sampleDispatch (.initiation m₁), sampleDispatch (.data p₁)]
    sampleApi.InOrder samplePrimitives calls ∧
      (sampleApi.run samplePrimitives calls).Accepts samplePrimitives sampleEnv m₂ sampleAddr vi ∧
      sampleLive calls vi.remotePublicKey ⟨7, 1⟩ ∧ (⟨7, 1⟩ : Tai64N).toNat < vi.timestamp.toNat := by
  have h : (sampleMessages.any fun x =>
      ((Call.dispatch (.initiation x.1.1) sampleAddr).apply samplePrimitives sampleApi
        sampleEnv).state.lastEstablishedSessionByPublicKey.entries.isEmpty &&
      sampleCheck [sampleDispatch (.initiation x.1.1), sampleDispatch (.data x.2.1)] x.1.2 1 0 ⟨7, 1⟩) = true := by
    decide +kernel
  obtain ⟨⟨⟨m₁, m₂⟩, p₁, p₂⟩, -, h⟩ := (Option.any_eq_true _ _).mp h
  obtain ⟨hempty, h⟩ := Bool.and_eq_true_iff.mp h
  obtain ⟨vi, hacc, -, hlive⟩ := of_sampleCheck h
  have hrun : sampleApi.InOrder samplePrimitives [sampleDispatch (.initiation m₁), sampleDispatch (.data p₁)] := by
    exact ⟨trivial, firstInOrder_of_empty hempty p₁, trivial⟩
  exact ⟨m₁, m₂, p₁, vi, hrun, hacc, hlive, initiation_newer_than_live .default 5
    (Vector.replicate 32 1, Vector.replicate 32 2) _ hrun hacc hlive⟩

end MonadBft.WireAuth
