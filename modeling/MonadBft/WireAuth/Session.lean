/-
  MonadBft.WireAuth.Session — the three stages of a session (`session.go`, `transport.go`,
  `initiator.go`, `responder.go`).

  An initiator waits for the reply to its initiation, a responder has answered one and waits for
  the first packet under the new keys, a transport session is established. Deadlines are options
  where the source has a value and a flag; random numbers are arguments.

  Proved: `replay_window_exact` — the filter accepts a counter exactly when it is new and not
  behind the window, whatever came before, and a session delivers no nonce twice.
-/
import MonadBft.WireAuth.Agreement
import MonadBft.WireAuth.ReplayFilter

namespace MonadBft.WireAuth

open MonadBft.Lib
open Rlp (Bytes)

inductive Addr
  | v4 (octets : Octets 4)
  | v6 (octets : Octets 16)
  deriving DecidableEq

structure AddrPort where
  addr : Addr
  port : UInt16
  deriving DecidableEq

def RetryAlways : UInt64 := 0 - 1

/-- The configuration. Durations are in nanoseconds. -/
structure Config where
  sessionTimeout : Int
  sessionTimeoutJitter : Int
  keepaliveInterval : Int
  keepaliveJitter : Int
  rekeyInterval : Int
  rekeyJitter : Int
  maxSessionDuration : Int
  handshakeCookieUnverifiedRateLimit : Nat
  handshakeCookieVerifiedRateLimit : Nat
  handshakeRateResetInterval : Int
  connectRateLimit : Nat
  connectRateResetInterval : Int
  cookieRefreshDuration : Int
  lowWatermarkSessions : Nat
  highWatermarkSessions : Nat
  maxSessionsPerIP : Nat
  ipRateLimitWindow : Int
  ipHistoryCapacity : Nat
  psk : HashOutput
  maxInitiatedSessions : Nat
  maxBufferedBytesPerSession : Nat
  gcIdleTimeout : Int
  maxExpiredTimersPerTick : Nat

def Config.default : Config where
  sessionTimeout := 10000000000
  sessionTimeoutJitter := 1000000000
  keepaliveInterval := 3000000000
  keepaliveJitter := 300000000
  rekeyInterval := 21600000000000
  rekeyJitter := 60000000000
  maxSessionDuration := 21900000000000
  handshakeCookieUnverifiedRateLimit := 300
  handshakeCookieVerifiedRateLimit := 300
  handshakeRateResetInterval := 1000000000
  connectRateLimit := 300
  connectRateResetInterval := 1000000000
  cookieRefreshDuration := 120000000000
  lowWatermarkSessions := 5000
  highWatermarkSessions := 40000
  maxSessionsPerIP := 4
  ipRateLimitWindow := 10000000000
  ipHistoryCapacity := 1000000
  psk := Vector.replicate 32 0
  maxInitiatedSessions := 1000
  maxBufferedBytesPerSession := 131072
  gcIdleTimeout := 120000000000
  maxExpiredTimersPerTick := 10000

/-- `base` plus up to `jitter`, in whole milliseconds; `rand` is the number drawn. -/
def addJitter (rand : Nat) (base jitter : Int) : Int :=
  base + ((rand % ((jitter / 1000000).toNat + 1) : Nat) : Int) * 1000000

/-! ## What all sessions share -/

structure TerminatedEvent where
  remotePublicKey : PubKey
  remoteAddr : AddrPort

structure RekeyEvent where
  remotePublicKey : PubKey
  remoteAddr : AddrPort
  retryAttempts : UInt64
  storedCookie : Option Cookie

structure RenewedTimer where
  previous : Option Int
  current : Int

structure SessionState where
  keepaliveDeadline : Option Int := none
  rekeyDeadline : Option Int := none
  sessionTimeoutDeadline : Option Int := none
  maxSessionDurationDeadline : Option Int := none
  gcDeadline : Option Int := none
  storedCookie : Option Cookie := none
  lastHandshakeMAC1 : Option MacTag := none
  retryAttempts : UInt64
  initiatorTimestamp : Option Tai64N
  remoteAddr : AddrPort
  remotePublicKey : PubKey
  localIndex : SessionIndex
  created : Int
  isInitiator : Bool

namespace SessionState

variable (s : SessionState)

def resetKeepalive (now d : Int) : SessionState := { s with keepaliveDeadline := some (now + d) }

def resetRekey (now d : Int) : SessionState := { s with rekeyDeadline := some (now + d) }

def resetSessionTimeout (now d : Int) : SessionState :=
  { s with sessionTimeoutDeadline := some (now + d) }

def setMaxSessionDur (now d : Int) : SessionState :=
  { s with maxSessionDurationDeadline := some (now + d) }

def resetGCDeadline (now d : Int) : SessionState := { s with gcDeadline := some (now + d) }

/-- The earliest deadline. -/
def nextDeadline : Option Int :=
  [s.keepaliveDeadline, s.rekeyDeadline, s.sessionTimeoutDeadline, s.maxSessionDurationDeadline,
    s.gcDeadline].foldl (fun acc d => match acc, d with
      | none, d => d
      | some m, some v => some (if v < m then v else m)
      | some m, none => some m) none

def terminated : TerminatedEvent := ⟨s.remotePublicKey, s.remoteAddr⟩

/-- An initiator that has attempts left asks for another handshake. -/
def handleSessionTimeout : SessionState × Option RekeyEvent :=
  if !s.isInitiator then (s, none)
  else
    let shouldRetry := s.retryAttempts > 0 || s.retryAttempts == RetryAlways
    let s' := if s.retryAttempts > 0 && s.retryAttempts != RetryAlways then
      { s with retryAttempts := s.retryAttempts - 1 } else s
    if shouldRetry then (s', some ⟨s'.remotePublicKey, s'.remoteAddr, s'.retryAttempts, s'.storedCookie⟩)
    else (s', none)

end SessionState

variable {K : Type} (P : Primitives K) {t : TransportState} (config : Config)

def acceptCookieReply (responderStaticPublic : PubKey) (reply : CookieReply) (mac1 : MacTag) : Option Cookie :=
  let key := cipherKeyFromHash (P.blake3Hash [labelCookie, responderStaticPublic.toList])
  P.decryptInPlace key reply.nonce reply.encryptedCookie reply.encryptedCookieTag mac1.toList

def SessionState.handleCookie (s : SessionState) (reply : CookieReply) : Option SessionState :=
  match s.lastHandshakeMAC1 with
  | none => none
  | some mac1 => (acceptCookieReply P s.remotePublicKey reply mac1).map fun c => { s with storedCookie := some c }

/-! ## Transport sessions -/

structure TransportState where
  remoteIndex : SessionIndex
  sendKey : CipherKey
  sendNonce : UInt64 := 0
  recvKey : CipherKey
  replayFilter : ReplayFilter := {}
  common : SessionState

inductive SessionErr
  | replay (e : ReplayErr)
  | invalidMac
  deriving DecidableEq

namespace TransportState

/-- The header, the ciphertext and the renewed timer. -/
def encrypt (t : TransportState) (config : Config) (rand : Nat) (now : Int) (plaintext : Array UInt8) :
    TransportState × DataPacket × RenewedTimer :=
  let sealed := P.encryptInPlace t.sendKey (cipherNonceFromU64 t.sendNonce) plaintext.toVector []
  let header : DataPacketHeader := { receiverIndex := t.remoteIndex, nonce := t.sendNonce, tag := sealed.2 }
  let common := if plaintext.size > 0 then t.common.resetGCDeadline now config.gcIdleTimeout else t.common
  let previous := common.keepaliveDeadline
  let common := common.resetKeepalive now (addJitter rand config.keepaliveInterval config.keepaliveJitter)
  ({ t with sendNonce := t.sendNonce + 1, common := common }, { header := header, payload := sealed.1.toArray },
    { previous := previous, current := common.nextDeadline.getD 0 })

/-- The replay check comes first, the update of the filter after the packet has opened. -/
def decrypt (t : TransportState) (config : Config) (now : Int) (pkt : DataPacket) :
    Except SessionErr (TransportState × RenewedTimer × Array UInt8) :=
  match t.replayFilter.check pkt.header.nonce.toNat with
  | .error e => .error (.replay e)
  | .ok _ =>
    match P.decryptInPlace t.recvKey (cipherNonceFromU64 pkt.header.nonce) pkt.payload.toVector pkt.header.tag [] with
    | none => .error .invalidMac
    | some payload =>
      let common := if payload.toArray.size > 0 then t.common.resetGCDeadline now config.gcIdleTimeout else t.common
      let previous := common.sessionTimeoutDeadline
      let common := common.resetSessionTimeout now config.sessionTimeout
      .ok ({ t with replayFilter := t.replayFilter.update pkt.header.nonce.toNat, common := common },
        { previous := previous, current := common.nextDeadline.getD 0 }, payload.toArray)

structure Tick (σ : Type) where
  session : σ
  timer : Option Int := none
  message : Option (AddrPort × DataPacket) := none
  rekey : Option RekeyEvent := none
  terminated : Option TerminatedEvent := none

def expired (deadline : Option Int) (now : Int) : Bool := deadline.any (· ≤ now)

def tick (t : TransportState) (config : Config) (rand : Nat) (now : Int) : Tick TransportState :=
  if expired t.common.maxSessionDurationDeadline now then
    let common := { t.common with maxSessionDurationDeadline := none }
    { session := { t with common := common.handleSessionTimeout.1 }, terminated := some common.terminated }
  else if expired t.common.sessionTimeoutDeadline now then
    let common := { t.common with sessionTimeoutDeadline := none }
    { session := { t with common := common.handleSessionTimeout.1 }, rekey := common.handleSessionTimeout.2
      terminated := some common.terminated }
  else if expired t.common.gcDeadline now then
    { session := { t with common := { t.common with gcDeadline := none } }, terminated := some t.common.terminated }
  else
    let keepalive := expired t.common.keepaliveDeadline now
    let sent := encrypt P { t with common := { t.common with keepaliveDeadline := none } } config rand now #[]
    let t₁ := if keepalive then sent.1 else t
    let rekey := expired t₁.common.rekeyDeadline now
    let t₂ := if rekey then { t₁ with common := { t₁.common with rekeyDeadline := none } } else t₁
    { session := t₂, timer := t₂.common.nextDeadline
      message := if keepalive then some (t.common.remoteAddr, sent.2.1) else none
      rekey := if rekey then some ⟨t₂.common.remotePublicKey, t₂.common.remoteAddr, t₂.common.retryAttempts,
        t₂.common.storedCookie⟩ else none }

end TransportState

/-! ## Initiators -/

structure InitiatorState (K : Type) where
  handshakeState : HandshakeState K
  common : SessionState
  bufferedMessages : List (Array UInt8) := []
  bufferedBytes : Nat := 0

structure ValidatedHandshakeResponse where
  transportKeys : TransportKeys
  remoteIndex : SessionIndex

namespace InitiatorState

/-- `eph` is the key pair drawn for the handshake. -/
def new (eph : K) (rand : Nat) (systemTime : Tai64N) (now : Int) (config : Config) (localSessionIndex : SessionIndex)
    (localStaticKey : K) (remoteStaticKey : PubKey) (remoteAddr : AddrPort) (cookieSecret : Option Cookie)
    (retryAttempts : UInt64) : Except HandshakeErr (InitiatorState K × Int × HandshakeInitiation) := do
  let (initMsg, hs) ← sendHandshakeInit P eph systemTime localSessionIndex localStaticKey remoteStaticKey cookieSecret
  let common : SessionState :=
    { remoteAddr, remotePublicKey := remoteStaticKey, localIndex := localSessionIndex, created := now
      retryAttempts, initiatorTimestamp := none, isInitiator := true, storedCookie := cookieSecret
      lastHandshakeMAC1 := some initMsg.mac1 }
  let common := common.resetSessionTimeout now (addJitter rand config.sessionTimeout config.sessionTimeoutJitter)
  return ({ handshakeState := hs, common }, common.nextDeadline.getD 0, initMsg)

def validateResponse (s : InitiatorState K) (config : Config) (localStaticKey : K) (msg : HandshakeResponse) :
    Except HandshakeErr ValidatedHandshakeResponse := do
  let eph ← orFail s.handshakeState.ephemeralPrivate .nilKey
  let keys ← acceptHandshakeResponse P localStaticKey eph s.handshakeState.hash s.handshakeState.chainingKey msg
    config.psk
  return { transportKeys := keys, remoteIndex := msg.senderIndex }

/-- The session and the messages to send: those buffered, or a single empty one. -/
def establish (s : InitiatorState K) (config : Config) (rand₁ rand₂ : Nat) (now : Int)
    (vr : ValidatedHandshakeResponse) : TransportState × List (Array UInt8) :=
  let common := s.common.resetSessionTimeout now (addJitter rand₁ config.sessionTimeout config.sessionTimeoutJitter)
  let common := common.resetRekey now (addJitter rand₂ config.rekeyInterval config.rekeyJitter)
  let common := common.setMaxSessionDur now config.maxSessionDuration
  let common := common.resetGCDeadline now config.gcIdleTimeout
  ({ remoteIndex := vr.remoteIndex, sendKey := vr.transportKeys.sendKey, recvKey := vr.transportKeys.recvKey, common },
    if s.bufferedMessages.isEmpty then [#[]] else s.bufferedMessages)

def bufferMessage (s : InitiatorState K) (msg : Array UInt8) : InitiatorState K :=
  { s with bufferedBytes := s.bufferedBytes + msg.size, bufferedMessages := s.bufferedMessages ++ [msg] }

end InitiatorState

/-! ## Responders -/

structure ResponderState where
  transport : TransportState

structure ValidatedHandshakeInit (K : Type) where
  handshakeState : HandshakeState K
  remotePublicKey : PubKey
  timestamp : Tai64N

def validateInit (localStaticKey : K) (msg : HandshakeInitiation) : Except HandshakeErr (ValidatedHandshakeInit K) := do
  let (hs, timestamp) ← acceptHandshakeInit P localStaticKey msg
  let remotePublicKey ← orFail hs.remoteStatic .invalidPublicKey
  return { handshakeState := hs, remotePublicKey, timestamp }

namespace ResponderState

def new (eph : K) (rand : Nat) (now : Int) (config : Config) (localSessionIndex : SessionIndex)
    (storedCookie : Option Cookie) (vi : ValidatedHandshakeInit K) (remoteAddr : AddrPort) :
    Except HandshakeErr (ResponderState × Int × HandshakeResponse) := do
  let (responseMsg, keys, hs) ← sendHandshakeResponse P eph localSessionIndex vi.handshakeState config.psk storedCookie
  let common : SessionState :=
    { remoteAddr, remotePublicKey := vi.remotePublicKey, localIndex := localSessionIndex, created := now
      retryAttempts := 0, initiatorTimestamp := some vi.timestamp, isInitiator := false
      lastHandshakeMAC1 := some responseMsg.mac1 }
  let common := common.resetSessionTimeout now (addJitter rand config.sessionTimeout config.sessionTimeoutJitter)
  return ({ transport := { remoteIndex := hs.receiverIndex, sendKey := keys.sendKey, recvKey := keys.recvKey, common } },
    common.nextDeadline.getD 0, responseMsg)

/-- The session is promoted as it is; only its deadlines change. -/
def establish (s : ResponderState) (config : Config) (rand : Nat) (now : Int) : TransportState × Int :=
  let common := s.transport.common.resetSessionTimeout now config.sessionTimeout
  let common := common.resetKeepalive now (addJitter rand config.keepaliveInterval config.keepaliveJitter)
  let common := common.setMaxSessionDur now config.maxSessionDuration
  let common := common.resetGCDeadline now config.gcIdleTimeout
  ({ s.transport with common }, common.nextDeadline.getD 0)

end ResponderState

/-- The tick of a session that is not established yet: only its timeout counts. -/
def handshakeTick (common : SessionState) (now : Int) :
    Option (SessionState × Option Int × Option RekeyEvent × TerminatedEvent) :=
  if TransportState.expired common.sessionTimeoutDeadline now then
    let common := { common with sessionTimeoutDeadline := none }
    let common' := common.handleSessionTimeout.1
    some (common', common'.nextDeadline, common.handleSessionTimeout.2, common.terminated)
  else none

/-! ## Deliveries of one session -/

/-- What happens to the keys and the filter of a session, from its creation on. -/
inductive SessionEvent
  | packet (now : Int) (pkt : DataPacket)
  | send (rand : Nat) (now : Int) (plaintext : Array UInt8)
  | establish (rand : Nat) (now : Int)
  | tick (rand : Nat) (now : Int)

/-- The session after an event, and the nonce it delivered. -/
def SessionEvent.apply (config : Config) (t : TransportState) : SessionEvent → TransportState × Option UInt64
  | .packet now pkt => match t.decrypt P config now pkt with
    | .ok r => (r.1, some pkt.header.nonce)
    | .error _ => (t, none)
  | .send rand now plaintext => ((t.encrypt P config rand now plaintext).1, none)
  | .establish rand now => ((ResponderState.establish ⟨t⟩ config rand now).1, none)
  | .tick rand now => ((t.tick P config rand now).session, none)

/-- The nonces a session delivers, the last one first. -/
def deliveries (config : Config) (t : TransportState) (events : List SessionEvent) : TransportState × List UInt64 :=
  events.foldl (fun s e => ((e.apply P config s.1).1, (e.apply P config s.1).2.toList ++ s.2)) (t, [])

/-- The counter of a packet that opens under the key is one that `encrypt` can have numbered. -/
def SessionEvent.Numbered (recvKey : CipherKey) : SessionEvent → Prop
  | .packet _ pkt => P.decryptInPlace recvKey (cipherNonceFromU64 pkt.header.nonce) pkt.payload.toVector
      pkt.header.tag [] ≠ none → pkt.header.nonce.toNat < 2 ^ 64 - 1
  | _ => True

theorem tick_receives (t : TransportState) (rand : Nat) (now : Int) :
    (t.tick P config rand now).session.replayFilter = t.replayFilter ∧
      (t.tick P config rand now).session.recvKey = t.recvKey := by
  unfold TransportState.tick
  dsimp only
  split_ifs <;> exact ⟨rfl, rfl⟩

/-- One event: the filter stands for the delivered nonces before and after, and the key stays. -/
theorem apply_exact {config : Config} {e : SessionEvent} {delivered : List UInt64} (he : e.Numbered P t.recvKey)
    (h : t.replayFilter.Exact (delivered.map UInt64.toNat)) :
    (e.apply P config t).1.replayFilter.Exact (((e.apply P config t).2.toList ++ delivered).map UInt64.toNat) ∧
      (e.apply P config t).1.recvKey = t.recvKey := by
  cases e with
  | packet now pkt =>
    simp only [SessionEvent.apply, TransportState.decrypt]
    cases hc : t.replayFilter.check pkt.header.nonce.toNat with
    | error e => simpa using h
    | ok u =>
      cases hd : P.decryptInPlace t.recvKey (cipherNonceFromU64 pkt.header.nonce) pkt.payload.toVector
          pkt.header.tag [] with
      | none => simpa [hd] using h
      | some payload =>
        have hnonce := he (hd ▸ Option.some_ne_none payload)
        simpa [hd] using h.update hc hnonce
  | send rand now plaintext | establish rand now => exact ⟨h, rfl⟩
  | tick rand now =>
    simp only [SessionEvent.apply, Option.toList_none, List.nil_append, tick_receives, and_true]
    exact h

theorem deliveries_exact (ht : t.replayFilter = {}) {events : List SessionEvent}
    (he : ∀ e ∈ events, e.Numbered P t.recvKey) :
    (deliveries P config t events).1.replayFilter.Exact ((deliveries P config t events).2.map UInt64.toNat) := by
  unfold deliveries
  refine (foldl_invariant (I := fun s : TransportState × List UInt64 =>
    s.1.replayFilter.Exact (s.2.map UInt64.toNat) ∧ s.1.recvKey = t.recvKey) (fun e hmem s hs => ?_) ⟨?_, rfl⟩).1
  · obtain ⟨hexact, hkey⟩ := apply_exact P (hs.2 ▸ he e hmem) hs.1
    exact ⟨hexact, hkey.trans hs.2⟩
  · rw [ht]
    exact ReplayFilter.Exact.start

/-- The replay window is exact: after any counters, the next one is accepted exactly when it was
    not accepted before and is at or beyond the next expected one, or less than the window's size
    behind it. No counter is accepted twice, and a session delivers no nonce twice. -/
theorem replay_window_exact (counters : List Nat) (hcounters : ∀ c ∈ counters, c < 2 ^ 64 - 1) (c : Nat)
    (config : Config) (t : TransportState) (ht : t.replayFilter = {}) (events : List SessionEvent)
    (hevents : ∀ e ∈ events, e.Numbered P t.recvKey) : let s := ReplayFilter.offers {} counters
    let next := ReplayFilter.nextExpected s.2
    (s.1.check c = .ok () ↔ c ∉ s.2 ∧ (next ≤ c ∨ next - c < replayWindowBits)) ∧ s.2.Nodup ∧
      (deliveries P config t events).2.Nodup := by
  have h := ReplayFilter.Exact.offers counters hcounters
  have hd := deliveries_exact P config ht hevents
  refine ⟨?_, h.nodup, List.Nodup.of_map _ hd.nodup⟩
  rw [← h.next_eq]
  exact h.check_iff c

/-- A session of the sample primitives. -/
def sampleTransport : TransportState :=
  { remoteIndex := 1, sendKey := Vector.replicate 16 1, recvKey := Vector.replicate 16 2
    common := { retryAttempts := 0, initiatorTimestamp := none
                remoteAddr := ⟨.v4 (Vector.replicate 4 1), 80⟩
                remotePublicKey := Vector.replicate 33 3, localIndex := 2, created := 0
                isInitiator := true } }

/-- An empty packet with the given counter, sealed under the session's receiving key. -/
def samplePacket (nonce : UInt64) : DataPacket :=
  { header := { receiverIndex := 2, nonce
                tag := (samplePrimitives.encryptInPlace sampleTransport.recvKey (cipherNonceFromU64 nonce)
                  (#[] : Array UInt8).toVector []).2 }
    payload := #[] }

/-- A jump past the whole ring, then a counter behind the window and one inside it; and a session
    that is sent one packet twice. -/
theorem replay_window_exact_sample : let s := ReplayFilter.offers {} [0, 20000, 12000, 11809]
    let events := [SessionEvent.packet 0 (samplePacket 7), .establish 0 0, .packet 0 (samplePacket 7)]
    (∀ c ∈ [0, 20000, 12000, 11809], c < 2 ^ 64 - 1) ∧ (∀ e ∈ events, e.Numbered samplePrimitives sampleTransport.recvKey) ∧
      (s.1.check 12000 = .ok () ↔ 12000 ∉ s.2 ∧
        (ReplayFilter.nextExpected s.2 ≤ 12000 ∨ ReplayFilter.nextExpected s.2 - 12000 < replayWindowBits)) ∧
      (deliveries samplePrimitives .default sampleTransport events).2.Nodup := by
  have hc : ∀ c ∈ [0, 20000, 12000, 11809], c < 2 ^ 64 - 1 := by decide
  have he : ∀ e ∈ [SessionEvent.packet 0 (samplePacket 7), .establish 0 0, .packet 0 (samplePacket 7)],
      e.Numbered samplePrimitives sampleTransport.recvKey := by
    simp [SessionEvent.Numbered, samplePacket]
  have h := replay_window_exact samplePrimitives _ hc 12000 .default sampleTransport rfl _ he
  exact ⟨hc, he, h.1, h.2.2⟩

end MonadBft.WireAuth
