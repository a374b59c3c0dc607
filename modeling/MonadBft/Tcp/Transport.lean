/-
  MonadBft.Tcp.Transport — connections of the TCP transport (`node/tcp.go`): the handshake, the
  table of connections and the reader.

  A message is what one end writes at once: its identity and a nonce, then a signature over its
  own identity and the other end's nonce, then frames. An end reads what its phase asks for; a
  message of another kind stands for a stream that ends there. Signatures are symbolic: who signed
  what, in which domain.

  `Net` is any number of honest nodes and connections. An end of a connection that no honest node
  owns is the attacker's. Between two honest ends the network delivers what was written, in order
  (a connection that is tampered with is two connections, each with one end of the attacker's). On
  its own ends the attacker writes anything, except a signature of an honest node that no honest
  node has made. Everything that honest ends write is known to it.
-/
import MonadBft.WireAuth.Crypto

namespace MonadBft.Tcp

open MonadBft.Lib
open MonadBft.WireAuth (Octets PubKey)
open Rlp (Bytes)

abbrev Nonce := Octets 32

/-! ## The handshake of one end -/

inductive Domain
  | tcpAuth
  | other
  deriving DecidableEq, Repr

structure Signature where
  signer : PubKey
  domain : Domain
  msg : Bytes
  deriving DecidableEq

def Signature.verify (s : Signature) (domain : Domain) (msg : Bytes) (pk : PubKey) : Bool :=
  decide (s.signer = pk ∧ s.domain = domain ∧ s.msg = msg)

/-- The claimed identity and the nonce of the challenger. -/
def authMsg (id : PubKey) (nonce : Nonce) : Bytes := id.toList ++ nonce.toList

def secpPubkeySize : UInt16 := 33

def secpSignatureSize : UInt16 := 65

/-- The lengths are the ones in front of the fields. A signature is `none` if its bytes are not
    one. -/
inductive Wire
  | hello (idLen : UInt16) (id : PubKey) (nonce : Nonce)
  | proof (sigLen : UInt16) (sig : Option Signature)
  | frame (payload : Bytes)
  deriving DecidableEq

inductive HandshakeErr
  | io
  | badIdLength (n : UInt16)
  | badPeerId
  | badSigLength (n : UInt16)
  | badSignature
  | failedProofOfPossession (id : PubKey)
  deriving DecidableEq

def helloOf (self : PubKey) (nonce : Nonce) : Wire := .hello secpPubkeySize self nonce

/-- `validPubKey` is whether the bytes are a point (`SecpPubKeyFromBytes`). -/
def readHello (validPubKey : PubKey → Bool) : Wire → Except HandshakeErr (PubKey × Nonce)
  | .hello n id nonce =>
    if n ≠ secpPubkeySize then .error (.badIdLength n)
    else if validPubKey id then .ok (id, nonce)
    else .error .badPeerId
  | _ => .error .io

/-- The peer's nonce, signed together with the own identity. -/
def proofOf (self : PubKey) (peerNonce : Nonce) : Wire :=
  .proof secpSignatureSize (some ⟨self, .tcpAuth, authMsg self peerNonce⟩)

/-- The identity that the handshake returns. -/
def readProof (nonce : Nonce) (id : PubKey) : Wire → Except HandshakeErr PubKey
  | .proof n sig =>
    if n ≠ secpSignatureSize then .error (.badSigLength n)
    else match sig with
      | none => .error .badSignature
      | some s => if s.verify .tcpAuth (authMsg id nonce) id then .ok id else .error (.failedProofOfPossession id)
  | _ => .error .io

/-! ## Nodes and connections -/

/-- A connection and a side of it; the left side has dialled. -/
abbrev End := Nat × Bool

def other (e : End) : End := (e.1, !e.2)

def outbound (e : End) : Bool := !e.2

/-- What an end is from its start on. `want` is the peer that was dialled. -/
structure Endpoint where
  self : PubKey
  want : Option PubKey
  nonce : Nonce

inductive Phase
  | readingHello
  | readingProof (id : PubKey) (peerNonce : Nonce)
  | serving (id : PubKey)
  | closed
  deriving DecidableEq

structure Net where
  /-- How many connections there are. -/
  count : Nat := 0
  /-- The honest node of an end, and whom it has dialled. -/
  owners : AMap End (PubKey × Option PubKey) := .empty
  ends : AMap End Endpoint := .empty
  phases : AMap End Phase := .empty
  /-- What was written to an end by the other one and not read yet. -/
  inbox : AMap End (List Wire) := .empty
  /-- `conns` of each node: the registered end for a node and a peer. -/
  conns : AMap (PubKey × PubKey) End := .empty
  /-- The identity and nonce that an end has read. -/
  heard : AMap End (PubKey × Nonce) := .empty
  /-- The identity that the handshake of an end has returned. -/
  returned : AMap End PubKey := .empty
  /-- All that honest ends have written. -/
  sent : List (End × Wire) := []
  /-- The nonces that were drawn or read. -/
  seen : List Nonce := []
  /-- The frames that the handler was given, with the identity they are attributed to. -/
  handled : List (End × PubKey × Bytes) := []

inductive Action
  /-- A connection comes about. A side without a node is the attacker's. -/
  | connect (left : Option (PubKey × PubKey)) (right : Option PubKey)
  /-- The handshake of an honest end begins. -/
  | start (e : End) (nonce : Nonce)
  /-- An honest end reads the next message of an honest end. -/
  | deliver (e : End)
  /-- An honest end reads what the attacker has written. -/
  | inject (e : End) (m : Wire)
  | write (e : End) (payload : Bytes)
  /-- A connection dies at an honest end: a timeout, an error, `Close`. -/
  | drop (e : End)

namespace Net

section

variable (honest validPubKey : PubKey → Bool) (maxMessage : Nat)

variable (s : Net)

def setPhase (e : End) (p : Phase) : Net := { s with phases := s.phases.insert e p }

def send (e : End) (m : Wire) : Net :=
  { s with sent := s.sent ++ [(e, m)], inbox := s.inbox.insert (other e) ((s.inbox.get (other e)).getD [] ++ [m]) }

/-- The end is closed, and its node forgets it if it is the registered one. -/
def close (e : End) (ep : Endpoint) : Net :=
  let s := match s.phases.get e with
    | some (.serving id) =>
      if s.conns.get (ep.self, id) = some e then { s with conns := s.conns.erase (ep.self, id) } else s
    | _ => s
  s.setPhase e .closed

/-- One connection for a peer: of two, the outbound one of the smaller identity stays. -/
def register (e : End) (ep : Endpoint) (id : PubKey) : Net :=
  match s.conns.get (ep.self, id) with
  | some old =>
    let keepOutbound := decide (Bytes.compareBytes ep.self.toList id.toList = .lt)
    if outbound e ≠ keepOutbound then s.setPhase e .closed
    else { s.setPhase old .closed with conns := s.conns.insert (ep.self, id) e }.setPhase e (.serving id)
  | none => { s with conns := s.conns.insert (ep.self, id) e }.setPhase e (.serving id)

/-- The handshake has returned `id`: a dialled connection must be the wanted peer's. -/
def finish (e : End) (ep : Endpoint) (id : PubKey) : Net :=
  let s := { s with returned := s.returned.insert e id }
  if ep.want.any fun want => want ≠ id then s.setPhase e .closed else s.register e ep id

def receive (e : End) (ep : Endpoint) (m : Wire) : Net :=
  match s.phases.get e with
  | some .readingHello =>
    match readHello validPubKey m with
    | .error _ => s.close e ep
    | .ok (id, nonce) =>
      { s with heard := s.heard.insert e (id, nonce), seen := nonce :: s.seen }.setPhase e (.readingProof id nonce)
        |>.send e (proofOf ep.self nonce)
  | some (.readingProof id _) =>
    match readProof ep.nonce id m with
    | .error _ => s.close e ep
    | .ok id => s.finish e ep id
  | some (.serving id) =>
    match m with
    | .frame payload =>
      if payload.isEmpty || payload.length > maxMessage then s.close e ep
      else { s with handled := s.handled ++ [(e, id, payload)] }
    | _ => s.close e ep
  | _ => s

/-- What the attacker can write: a signature of an honest node only if an honest node has sent it.
    Signatures of other domains are made elsewhere. -/
def derivable : Wire → Bool
  | .proof _ (some sig) =>
    !honest sig.signer || decide (sig.domain ≠ .tcpAuth) ||
      s.sent.any fun x => decide (x.2 = .proof secpSignatureSize (some sig))
  | _ => true

def step : Action → Option Net
  | .connect left right =>
    if left.all (fun l => honest l.1) && right.all honest then
      let owners := match left with
        | some (self, want) => s.owners.insert (s.count, false) (self, some want)
        | none => s.owners
      let owners := match right with
        | some self => owners.insert (s.count, true) (self, none)
        | none => owners
      some { s with count := s.count + 1, owners }
    else none
  | .start e nonce =>
    match s.owners.get e with
    | none => none
    | some (self, want) =>
      if s.ends.contains e || s.seen.contains nonce then none
      else some ({ s with ends := s.ends.insert e ⟨self, want, nonce⟩, seen := nonce :: s.seen }.setPhase e .readingHello
        |>.send e (helloOf self nonce))
  | .deliver e =>
    match s.ends.get e, s.inbox.get e with
    | some ep, some (m :: rest) =>
      if (s.owners.get (other e)).isSome then
        some ({ s with inbox := s.inbox.insert e rest }.receive validPubKey maxMessage e ep m)
      else none
    | _, _ => none
  | .inject e m =>
    match s.ends.get e with
    | none => none
    | some ep =>
      if (s.owners.get (other e)).isNone && s.derivable honest m then some (s.receive validPubKey maxMessage e ep m)
      else none
  | .write e payload =>
    match s.phases.get e with
    | some (.serving _) => some (s.send e (.frame payload))
    | _ => none
  | .drop e =>
    match s.ends.get e with
    | none => none
    | some ep => some (s.close e ep)

def run (s : Net) : List Action → Option Net
  | [] => some s
  | a :: rest => (s.step honest validPubKey maxMessage a).bind fun s' => run s' rest

end

end Net

end MonadBft.Tcp
