/-
  MonadBft.WireAuth.Api — the calls of the API (`api.go`).

  One call is a function of the API's state and of what its context says (`Env`): the time, the
  random numbers and key pairs it draws, and the order in which a map is ranged over. Packets are
  parsed ones; `dispatch` sends them where the source does. Timers are a set of pairs, of which
  the first is the one with the least deadline, then the least index.

  `Call.apply` is one call.
-/
import MonadBft.WireAuth.Admission

namespace MonadBft.WireAuth

open MonadBft.Lib

inductive Packet
  | initiation (m : HandshakeInitiation)
  | response (m : HandshakeResponse)
  | cookie (m : CookieReply)
  | data (m : DataPacket)

inductive ApiErr
  | macVerificationFailed
  | handshake (e : HandshakeErr)
  | session (e : SessionErr)
  | rng
  | timestampReplay
  | sessionIndexExhausted
  | sessionIndexNotFound (index : SessionIndex)
  | invalidReceiverIndex (index : SessionIndex)
  | handshakeResponseAddressMismatch (expected got : AddrPort)
  | tooManyInitiated (limit : Nat)
  | connectRateLimited (limit : Nat)
  | invalidCookie
  | sessionNotFound
  | sessionNotEstablishedForAddress (addr : AddrPort)
  | bufferLimitExceeded (size limit : Nat)

structure Env (K : Type) where
  now : Int
  systemTime : Tai64N
  /-- The key pairs drawn; `none` if the generator fails. -/
  eph : Nat → Option K
  rand : Nat → Nat
  order : List SessionIndex → List SessionIndex

structure Api (K : Type) where
  state : State K := {}
  timers : List (Int × SessionIndex) := []
  packetQueue : List (AddrPort × Packet) := []
  config : Config
  localStaticKey : K
  cookies : Cookies
  filter : Filter
  lastTick : Option Int := none
  connectRateCounter : Nat := 0
  connectRateLastReset : Int := 0

/-! ## Timers -/

namespace Timers

def less (a b : Int × SessionIndex) : Bool := if a.1 ≠ b.1 then a.1 < b.1 else a.2 < b.2

variable (ts : List (Int × SessionIndex))

def first : Option (Int × SessionIndex) :=
  ts.foldl (fun acc t => match acc with
    | none => some t
    | some m => if less t m then some t else some m) none

def insert (deadline : Int) (index : SessionIndex) : List (Int × SessionIndex) :=
  if (deadline, index) ∈ ts then ts else ts ++ [(deadline, index)]

def remove (deadline : Int) (index : SessionIndex) : List (Int × SessionIndex) :=
  ts.filter fun t => t ≠ (deadline, index)

def replaceTimer (t : RenewedTimer) (index : SessionIndex) : List (Int × SessionIndex) :=
  match t.previous with
  | some previous => insert (remove ts previous index) t.current index
  | none => insert ts t.current index

end Timers

namespace Api

variable {K : Type} (P : Primitives K)

/-- `secrets` are the two secrets the cookies draw. -/
def new (config : Config) (localStaticKey : K) (secrets : HashOutput × HashOutput) : Api K :=
  { config, localStaticKey
    cookies := { cookieSecret := secrets.1, nonceSecret := secrets.2, localStaticPublic := P.pubKey localStaticKey
                 refreshDuration := config.cookieRefreshDuration }
    filter := Filter.new config }

variable (a : Api K)

def enqueuePacket (addr : AddrPort) (pkt : Packet) : Api K :=
  { a with packetQueue := a.packetQueue ++ [(addr, pkt)] }

def insertTimer (deadline : Int) (index : SessionIndex) : Api K :=
  { a with timers := Timers.insert a.timers deadline index }

def replaceTimer (a : Api K) (t : RenewedTimer) (index : SessionIndex) : Api K :=
  { a with timers := Timers.replaceTimer a.timers t index }

def mapState (f : State K → State K) : Api K := { a with state := f a.state }

/-! ## Starting a handshake -/

variable (env : Env K)

/-- `n` numbers the draws of a call. -/
def initSessionWithCookie (n : Nat) (remoteStaticKey : PubKey) (remoteAddr : AddrPort)
    (cookie : Option Cookie) (retryAttempts : UInt64) :
    Except ApiErr (Api K × SessionIndex × Int × HandshakeInitiation) :=
  match a.state.reserveSessionIndex with
  | none => .error .sessionIndexExhausted
  | some index =>
    match env.eph n with
    | none => .error .rng
    | some eph =>
      match InitiatorState.new P eph (env.rand n) env.systemTime env.now a.config index a.localStaticKey
          remoteStaticKey remoteAddr cookie retryAttempts with
      | .error e => .error (.handshake e)
      | .ok (session, timer, msg) =>
        .ok (a.mapState fun s => (s.commitSessionIndex index).insertInitiator index session remoteStaticKey,
          index, timer, msg)

def checkConnectRateLimit : Api K × Bool :=
  let a := if env.now - a.connectRateLastReset ≥ a.config.connectRateResetInterval then
    { a with connectRateCounter := 0, connectRateLastReset := env.now } else a
  if a.connectRateCounter ≥ a.config.connectRateLimit then (a, false)
  else ({ a with connectRateCounter := a.connectRateCounter + 1 }, true)

def connect (remoteStaticKey : PubKey) (remoteAddr : AddrPort) (retryAttempts : UInt64) : Api K × Option ApiErr :=
  let (a, allowed) := a.checkConnectRateLimit env
  if !allowed then (a, some (.connectRateLimited a.config.connectRateLimit))
  else if a.state.initiatedSessionsCount ≥ a.config.maxInitiatedSessions then
    (a, some (.tooManyInitiated a.config.maxInitiatedSessions))
  else
    let cookie := a.state.lookupCookieFromInitiatedSessions remoteStaticKey
    match a.initSessionWithCookie P env 0 remoteStaticKey remoteAddr cookie retryAttempts with
    | .error e => (a, some e)
    | .ok (a, index, timer, msg) => ((a.enqueuePacket remoteAddr (.initiation msg)).insertTimer timer index, none)

/-! ## Answering one -/

/-- Whether the message may go on. -/
def isUnderLoad (remoteAddr : AddrPort) (senderIndex : SessionIndex) (m : MacMessage) : Api K × Bool :=
  let cookieValid := a.cookies.verify P remoteAddr.addr m env.now
  let (filter, action) := a.filter.apply a.state remoteAddr env.now cookieValid
  let a := { a with filter }
  match action with
  | .sendCookie =>
    let (cookies, reply) := a.cookies.create P remoteAddr.addr senderIndex m env.now
    ({ a with cookies }.enqueuePacket remoteAddr (.cookie reply), false)
  | .drop => (a, false)
  | .pass => (a, true)

/-- The timestamp is not newer than the newest known one. -/
def isReplay (max : Option Tai64N) (t : Tai64N) : Bool := max.any fun m => t.cmp m ≠ .gt

def acceptHandshakeInit (msg : HandshakeInitiation) (remoteAddr : AddrPort) : Api K × Option ApiErr :=
  if !verifyMAC1 P msg.mac (P.pubKey a.localStaticKey) then (a, some .macVerificationFailed)
  else
    let (a, pass) := a.isUnderLoad P env remoteAddr msg.senderIndex msg.mac
    if !pass then (a, none)
    else
      match validateInit P a.localStaticKey msg with
      | .error e => (a, some (.handshake e))
      | .ok vi =>
        if isReplay (a.state.getMaxTimestamp vi.remotePublicKey) vi.timestamp then (a, some .timestampReplay)
        else
          let storedCookie := a.state.lookupCookieFromAcceptedSessions vi.remotePublicKey env.order
          match a.state.reserveSessionIndex with
          | none => (a, some .sessionIndexExhausted)
          | some index =>
            -- the index stays allocated if the reply cannot be made
            let a := a.mapState (·.commitSessionIndex index)
            match env.eph 0 with
            | none => (a, some .rng)
            | some eph =>
              match ResponderState.new P eph (env.rand 0) env.now a.config index storedCookie vi remoteAddr with
              | .error e => (a, some (.handshake e))
              | .ok (session, timer, respMsg) =>
                let a := a.mapState (·.insertResponder index session vi.remotePublicKey)
                ((a.enqueuePacket remoteAddr (.response respMsg)).insertTimer timer index, none)

def acceptCookie (reply : CookieReply) : Api K × Option ApiErr :=
  let index := reply.receiverIndex
  match a.state.initiatingSessions.get index with
  | some i =>
    match i.common.handleCookie P reply with
    | none => (a, some .invalidCookie)
    | some common => (a.mapState fun s =>
        { s with initiatingSessions := s.initiatingSessions.insert index { i with common } }, none)
  | none =>
    match a.state.respondingSessions.get index with
    | some r =>
      match r.transport.common.handleCookie P reply with
      | none => (a, some .invalidCookie)
      | some common => (a.mapState fun s =>
          { s with respondingSessions := s.respondingSessions.insert index ⟨{ r.transport with common }⟩ }, none)
    | none => (a, none)

/-! ## Packets of a session -/

def decrypt (a : Api K) (env : Env K) (pkt : DataPacket) : Api K × Except ApiErr (Array UInt8 × PubKey) :=
  let index := pkt.header.receiverIndex
  match a.state.transportSessions.get index with
  | some t =>
    match t.decrypt P a.config env.now pkt with
    | .error e => (a, .error (.session e))
    | .ok (t, timer, plaintext) =>
      let a := a.mapState fun s => { s with transportSessions := s.transportSessions.insert index t }
      (a.replaceTimer timer index, .ok (plaintext, t.common.remotePublicKey))
  | none =>
    match a.state.respondingSessions.get index with
    | some r =>
      match r.transport.decrypt P a.config env.now pkt with
      | .error e => (a, .error (.session e))
      | .ok (t, _, plaintext) =>
        let established := ResponderState.establish ⟨t⟩ a.config (env.rand 0) env.now
        let a := a.mapState fun s => (s.removeResponder index).insertTransport index established.1
        (a.insertTimer established.2 index, .ok (plaintext, t.common.remotePublicKey))
    | none => (a, .error (.sessionIndexNotFound index))

/-- Encrypt under the established session `index` and put the packet into the queue. -/
def sendOn (n : Nat) (index : SessionIndex) (addr : AddrPort) (msg : Array UInt8) : Api K :=
  match a.state.transportSessions.get index with
  | none => a
  | some t =>
    let (t, pkt, timer) := t.encrypt P a.config (env.rand n) env.now msg
    let a := a.mapState fun s => { s with transportSessions := s.transportSessions.insert index t }
    (a.replaceTimer timer index).enqueuePacket addr (.data pkt)

/-- The messages in order; `n` numbers the draws. -/
def sendAll (a : Api K) (env : Env K) (n : Nat) (index : SessionIndex) (addr : AddrPort) : List (Array UInt8) → Api K
  | [] => a
  | msg :: rest => sendAll (a.sendOn P env n index addr msg) env (n + 1) index addr rest

def completeHandshake (response : HandshakeResponse) (remoteAddr : AddrPort) : Api K × Option ApiErr :=
  if !verifyMAC1 P response.mac (P.pubKey a.localStaticKey) then (a, some .macVerificationFailed)
  else
    let (a, pass) := a.isUnderLoad P env remoteAddr response.senderIndex response.mac
    if !pass then (a, none)
    else
      let index := response.receiverIndex
      match a.state.initiatingSessions.get index with
      | none => (a, some (.invalidReceiverIndex index))
      | some initiator =>
        if remoteAddr ≠ initiator.common.remoteAddr then
          (a, some (.handshakeResponseAddressMismatch initiator.common.remoteAddr remoteAddr))
        else
          match initiator.validateResponse P a.config a.localStaticKey response with
          | .error e => (a, some (.handshake e))
          | .ok vr =>
            let established := initiator.establish a.config (env.rand 0) (env.rand 1) env.now vr
            let a := a.mapState fun s => (s.removeInitiator index).insertTransport index established.1
            (a.sendAll P env 2 index remoteAddr established.2, none)

/-- A packet with an empty payload is a keepalive; its plaintext is not returned. -/
def dispatch (pkt : Packet) (remoteAddr : AddrPort) : Api K × Except ApiErr (Option (Array UInt8 × PubKey)) :=
  match pkt with
  | .initiation m => withErr (a.acceptHandshakeInit P env m remoteAddr)
  | .response m => withErr (a.completeHandshake P env m remoteAddr)
  | .cookie m => withErr (a.acceptCookie P m)
  | .data m =>
    let (a, r) := a.decrypt P env m
    (a, r.map fun x => if m.payload.isEmpty then none else some x)
where
  withErr (r : Api K × Option ApiErr) : Api K × Except ApiErr (Option (Array UInt8 × PubKey)) :=
    (r.1, match r.2 with
      | none => .ok none
      | some e => .error e)

def encryptByPublicKey (publicKey : PubKey) (plaintext : Array UInt8) : Api K :=
  match (a.state.lastEstablishedSessionByPublicKey.get publicKey).bind EstablishedSessions.getLatest with
  | none => a
  | some index =>
    match a.state.transportSessions.get index with
    | none => a
    | some t =>
      let (t, _, timer) := t.encrypt P a.config (env.rand 0) env.now plaintext
      let a := a.mapState fun s => { s with transportSessions := s.transportSessions.insert index t }
      a.replaceTimer timer t.common.localIndex

def encryptBySocket (socketAddr : AddrPort) (plaintext : Array UInt8) : Api K :=
  match (a.state.lastEstablishedSessionBySocket.get socketAddr).bind EstablishedSessions.getLatest with
  | none => a
  | some index =>
    match a.state.transportSessions.get index with
    | none => a
    | some t =>
      let (t, _, timer) := t.encrypt P a.config (env.rand 0) env.now plaintext
      let a := a.mapState fun s => { s with transportSessions := s.transportSessions.insert index t }
      a.replaceTimer timer t.common.localIndex

def bufferMessage (a : Api K) (publicKey : PubKey) (message : Array UInt8) : Api K × Option ApiErr :=
  match a.state.getInitiatorByPublicKey publicKey with
  | none => (a, some .sessionNotFound)
  | some (index, i) =>
    if i.bufferedBytes + message.size > a.config.maxBufferedBytesPerSession then
      (a, some (.bufferLimitExceeded (i.bufferedBytes + message.size) a.config.maxBufferedBytesPerSession))
    else (a.mapState fun s =>
      { s with initiatingSessions := s.initiatingSessions.insert index (i.bufferMessage message) }, none)

def disconnect (publicKey : PubKey) : Api K := a.mapState (·.terminateByPublicKey publicKey)

def nextPacket : Api K := { a with packetQueue := a.packetQueue.tail }

/-! ## Ticks -/

structure Effects where
  timer : Option Int := none
  message : Option (AddrPort × DataPacket) := none
  rekey : Option RekeyEvent := none
  terminated : Option TerminatedEvent := none

/-- The effects, in the order of the source: message, new handshake, timer, termination. -/
def applyEffects (n : Nat) (index : SessionIndex) (e : Effects) : Api K :=
  let a := match e.message with
    | some (addr, pkt) => a.enqueuePacket addr (.data pkt)
    | none => a
  let a := match e.rekey with
    | none => a
    | some r =>
      match a.initSessionWithCookie P env n r.remotePublicKey r.remoteAddr r.storedCookie r.retryAttempts with
      | .error _ => a
      | .ok (a, newIndex, newTimer, msg) =>
        (a.enqueuePacket r.remoteAddr (.initiation msg)).insertTimer newTimer newIndex
  let a := match e.timer with
    | some t => a.insertTimer t index
    | none => a
  match e.terminated with
  | some t => a.mapState (·.terminateSession index t.remotePublicKey t.remoteAddr)
  | none => a

def tickSession (n : Nat) (index : SessionIndex) : Api K :=
  match a.state.initiatingSessions.get index with
  | some i =>
    match handshakeTick i.common env.now with
    | none => a
    | some (common, timer, rekey, terminated) =>
      let a := a.mapState fun s => { s with initiatingSessions := s.initiatingSessions.insert index { i with common } }
      a.applyEffects P env n index { timer, rekey, terminated := some terminated }
  | none =>
    match a.state.respondingSessions.get index with
    | some r =>
      match handshakeTick r.transport.common env.now with
      | none => a
      | some (common, timer, rekey, terminated) =>
        let a := a.mapState fun s =>
          { s with respondingSessions := s.respondingSessions.insert index ⟨{ r.transport with common }⟩ }
        a.applyEffects P env n index { timer, rekey, terminated := some terminated }
    | none =>
      match a.state.transportSessions.get index with
      | none => a
      | some t =>
        let k := t.tick P a.config (env.rand n) env.now
        let a := a.mapState fun s => { s with transportSessions := s.transportSessions.insert index k.session }
        a.applyEffects P env n index
          { timer := k.timer, message := k.message, rekey := k.rekey, terminated := k.terminated }

/-- The loop over expired timers; the number left bounds it. -/
def tickLoop (env : Env K) : Nat → Api K → Api K
  | 0, a => a
  | n + 1, a =>
    match Timers.first a.timers with
    | none => a
    | some (deadline, index) =>
      if deadline > env.now then a
      else
        let a := { a with timers := Timers.remove a.timers deadline index }
        tickLoop env n (a.tickSession P env n index)

def tick (a : Api K) (env : Env K) : Api K :=
  let a := { a with filter := a.filter.tick env.now }
  { tickLoop P env a.config.maxExpiredTimersPerTick a with lastTick := some env.now }

end Api

/-! ## Runs -/

inductive Call
  | connect (remoteStaticKey : PubKey) (remoteAddr : AddrPort) (retryAttempts : UInt64)
  | dispatch (pkt : Packet) (remoteAddr : AddrPort)
  | decrypt (pkt : DataPacket)
  | tick
  | encryptByPublicKey (publicKey : PubKey) (plaintext : Array UInt8)
  | encryptBySocket (socketAddr : AddrPort) (plaintext : Array UInt8)
  | bufferMessage (publicKey : PubKey) (message : Array UInt8)
  | disconnect (publicKey : PubKey)
  | nextPacket

variable {K : Type} (P : Primitives K)

def Call.apply (a : Api K) (env : Env K) : Call → Api K
  | .connect key addr retry => (a.connect P env key addr retry).1
  | .dispatch pkt addr => (a.dispatch P env pkt addr).1
  | .decrypt pkt => (a.decrypt P env pkt).1
  | .tick => a.tick P env
  | .encryptByPublicKey key plaintext => a.encryptByPublicKey P env key plaintext
  | .encryptBySocket addr plaintext => a.encryptBySocket P env addr plaintext
  | .bufferMessage key message => (a.bufferMessage key message).1
  | .disconnect key => a.disconnect key
  | .nextPacket => a.nextPacket

end MonadBft.WireAuth
