/-
  MonadBft.WireAuth.Admission — who gets to start a handshake (`cookies.go`, `filter.go`).

  A message passes, is answered with a cookie, or is dropped: by the number of sessions, by the
  rate of handshakes with and without a valid cookie, and by the history of its address.
  The session table is only read here.
-/
import MonadBft.WireAuth.State

namespace MonadBft.WireAuth

open MonadBft.Lib
open Rlp (Bytes)

variable {K : Type} (P : Primitives K)

/-! ## Cookies -/

def sendCookieReply (nonceSecret : HashOutput) (nonceCounter : UInt64) (responderStaticPublic : PubKey)
    (msgSenderIndex : SessionIndex) (msgMAC1 : MacTag) (cookie : Cookie) : CookieReply :=
  let nonce : CipherNonce := macTagFromHash (P.keyedHash nonceSecret [littleEndian 16 nonceCounter.toNat])
  let key := cipherKeyFromHash (P.blake3Hash [labelCookie, responderStaticPublic.toList])
  let sealed := P.encryptInPlace key nonce cookie msgMAC1.toList
  { receiverIndex := msgSenderIndex, nonce, encryptedCookie := sealed.1, encryptedCookieTag := sealed.2 }

/-- An IPv4 address takes the first 4 of 16 bytes. -/
def addrBytes : Addr → Bytes
  | .v4 o => o.toList ++ List.replicate 12 0
  | .v6 o => o.toList

def generateCookie (cookieSecret : HashOutput) (nonce : UInt64) (remoteIP : Addr) : Cookie :=
  macTagFromHash (P.keyedHash cookieSecret [littleEndian 8 nonce.toNat, addrBytes remoteIP])

structure Cookies where
  nonceSecret : HashOutput
  cookieSecret : HashOutput
  nonce : UInt64 := 0
  localStaticPublic : PubKey
  refreshDuration : Int

namespace Cookies

/-- The number of the refresh period. -/
def timeCounter (c : Cookies) (sinceStart : Int) : UInt64 := UInt64.ofInt (sinceStart / c.refreshDuration)

def create (c : Cookies) (ip : Addr) (senderIndex : SessionIndex) (m : MacMessage) (sinceStart : Int) :
    Cookies × CookieReply :=
  let cookie := generateCookie P c.cookieSecret (c.timeCounter sinceStart) ip
  ({ c with nonce := c.nonce + 1 },
    sendCookieReply P c.nonceSecret c.nonce c.localStaticPublic senderIndex m.mac1Tag cookie)

def verify (c : Cookies) (remoteIP : Addr) (m : MacMessage) (sinceStart : Int) : Bool :=
  verifyMAC2 P m c.localStaticPublic (generateCookie P c.cookieSecret (c.timeCounter sinceStart) remoteIP)

end Cookies

/-! ## The filter -/

inductive FilterAction
  | pass
  | sendCookie
  | drop
  deriving DecidableEq, Repr

structure Lru where
  cap : Nat
  items : List (Addr × Int) := []

namespace Lru

def get (l : Lru) (ip : Addr) : Option Int := l.items.lookup ip

/-- Move to the front with a new value; a new address pushes the oldest one out. -/
def put (l : Lru) (ip : Addr) (v : Int) : Lru :=
  if (l.get ip).isSome then { l with items := (ip, v) :: l.items.filter fun e => e.1 ≠ ip }
  else { l with items := ((ip, v) :: l.items).take l.cap }

end Lru

structure Filter where
  cookieUnverifiedCounter : Nat := 0
  cookieVerifiedCounter : Nat := 0
  lastReset : Int := 0
  handshakeCookieUnverifiedRateLimit : Nat
  handshakeCookieVerifiedRateLimit : Nat
  handshakeRateResetInterval : Int
  ipRequestHistory : Lru
  ipRateLimitWindow : Int
  maxSessionsPerIP : Nat
  lowWatermarkSessions : Nat
  highWatermarkSessions : Nat

namespace Filter

def new (cfg : Config) : Filter :=
  { handshakeCookieUnverifiedRateLimit := cfg.handshakeCookieUnverifiedRateLimit
    handshakeCookieVerifiedRateLimit := cfg.handshakeCookieVerifiedRateLimit
    handshakeRateResetInterval := cfg.handshakeRateResetInterval
    ipRequestHistory := { cap := max cfg.ipHistoryCapacity 1 }
    ipRateLimitWindow := cfg.ipRateLimitWindow
    maxSessionsPerIP := cfg.maxSessionsPerIP
    lowWatermarkSessions := cfg.lowWatermarkSessions
    highWatermarkSessions := cfg.highWatermarkSessions }

def tick (f : Filter) (now : Int) : Filter :=
  if now ≥ f.lastReset + f.handshakeRateResetInterval then
    { f with cookieUnverifiedCounter := 0, cookieVerifiedCounter := 0, lastReset := now }
  else f

def checkCookieRateLimit (f : Filter) (cookieValid : Bool) : Filter × FilterAction :=
  if cookieValid then
    if f.cookieVerifiedCounter ≥ f.handshakeCookieVerifiedRateLimit then (f, .drop)
    else ({ f with cookieVerifiedCounter := f.cookieVerifiedCounter + 1 }, .pass)
  else if f.cookieUnverifiedCounter ≥ f.handshakeCookieUnverifiedRateLimit then
    if f.cookieVerifiedCounter < f.handshakeCookieVerifiedRateLimit then (f, .sendCookie) else (f, .drop)
  else ({ f with cookieUnverifiedCounter := f.cookieUnverifiedCounter + 1 }, .pass)

def checkIPRateLimit (f : Filter) (ip : Addr) (now : Int) : Filter × FilterAction :=
  let windowStart := max (now - f.ipRateLimitWindow) 0
  match f.ipRequestHistory.get ip with
  | some last =>
    -- looking an address up moves it to the front
    if last ≥ windowStart then ({ f with ipRequestHistory := f.ipRequestHistory.put ip last }, .drop)
    else ({ f with ipRequestHistory := f.ipRequestHistory.put ip now }, .pass)
  | none => ({ f with ipRequestHistory := f.ipRequestHistory.put ip now }, .pass)

def apply (f : Filter) (s : State K) (remoteAddr : AddrPort) (now : Int) (cookieValid : Bool) : Filter × FilterAction :=
  if s.totalSessions ≥ f.highWatermarkSessions then (f, .drop)
  else
    let (f, action) := f.checkCookieRateLimit cookieValid
    if action ≠ .pass then (f, action)
    else if s.totalSessions < f.lowWatermarkSessions then (f, .pass)
    else if !cookieValid then (f, .sendCookie)
    else
      let (f, action) := f.checkIPRateLimit remoteAddr.addr now
      if action ≠ .pass then (f, action)
      else if (s.ipSessionCounts.get remoteAddr.addr).getD 0 ≥ f.maxSessionsPerIP then (f, .drop)
      else (f, .pass)

end Filter

end MonadBft.WireAuth
