/-
  MonadBft.WireAuth.State — the session table (`state.go`).

  Sessions are found by index; for a peer's key and for a socket the table keeps the two newest
  established sessions of each role. A function that changes an object in place in the source
  returns the changed table. Where the source ranges over a map, the model goes through its
  entries in insertion order; `lookupCookieFromAcceptedSessions`, whose result depends on it, is
  given the order.

  Proved: the spec of every operation in terms of lookups, and `getMaxTimestamp_spec`: the newest
  timestamp is at least that of every responding session of the peer and of the current
  established one. It does not look at the previous established one.
-/
import MonadBft.WireAuth.Session

namespace MonadBft.WireAuth

open MonadBft.Lib

structure SessionSlot where
  id : SessionIndex
  created : Int
  deriving DecidableEq

structure RoleSessions where
  current : Option SessionSlot := none
  previous : Option SessionSlot := none
  deriving DecidableEq

namespace RoleSessions

def has (slot : Option SessionSlot) (id : SessionIndex) : Bool := slot.any (·.id = id)

/-- The new slots, and the index that falls out. -/
def push (r : RoleSessions) (id : SessionIndex) (created : Int) : RoleSessions × Option SessionIndex :=
  ({ current := some ⟨id, created⟩, previous := r.current }, r.previous.map (·.id))

def remove (r : RoleSessions) (id : SessionIndex) : RoleSessions :=
  if has r.current id then { current := r.previous, previous := none }
  else if has r.previous id then { r with previous := none }
  else r

def isEmpty (r : RoleSessions) : Bool := r.current.isNone && r.previous.isNone

def slots (r : RoleSessions) : List SessionSlot := r.current.toList ++ r.previous.toList

end RoleSessions

structure EstablishedSessions where
  initiator : RoleSessions := {}
  responder : RoleSessions := {}
  deriving DecidableEq

namespace EstablishedSessions

def role (e : EstablishedSessions) (isInitiator : Bool) : RoleSessions :=
  if isInitiator then e.initiator else e.responder

def setRole (e : EstablishedSessions) (isInitiator : Bool) (r : RoleSessions) : EstablishedSessions :=
  if isInitiator then { e with initiator := r } else { e with responder := r }

/-- The most recently created of the two current sessions. -/
def getLatest (e : EstablishedSessions) : Option SessionIndex :=
  match e.initiator.current, e.responder.current with
  | some i, some r => if i.created ≥ r.created then some i.id else some r.id
  | some i, none => some i.id
  | none, some r => some r.id
  | none, none => none

def isEmpty (e : EstablishedSessions) : Bool := e.initiator.isEmpty && e.responder.isEmpty

end EstablishedSessions

structure State (K : Type) where
  initiatingSessions : AMap SessionIndex (InitiatorState K) := .empty
  respondingSessions : AMap SessionIndex ResponderState := .empty
  transportSessions : AMap SessionIndex TransportState := .empty
  lastEstablishedSessionByPublicKey : AMap PubKey EstablishedSessions := .empty
  lastEstablishedSessionBySocket : AMap AddrPort EstablishedSessions := .empty
  allocatedIndices : AMap SessionIndex Unit := .empty
  nextSessionIndex : SessionIndex := 0
  initiatedSessionByPeer : AMap PubKey SessionIndex := .empty
  acceptedSessionsByPeer : AMap PubKey (AMap SessionIndex Unit) := .empty
  ipSessionCounts : AMap Addr Nat := .empty
  totalSessions : Nat := 0

namespace State

variable {K : Type}

/-! ## Lookups -/

variable (s : State K)

def initiatedSessionsCount : Nat := s.initiatingSessions.entries.length

def getTransportByPublicKey (pub : PubKey) : Option TransportState :=
  ((s.lastEstablishedSessionByPublicKey.get pub).bind EstablishedSessions.getLatest).bind s.transportSessions.get

def getTransportBySocket (addr : AddrPort) : Option TransportState :=
  ((s.lastEstablishedSessionBySocket.get addr).bind EstablishedSessions.getLatest).bind s.transportSessions.get

def getInitiatorByPublicKey (pub : PubKey) : Option (SessionIndex × InitiatorState K) :=
  (s.initiatedSessionByPeer.get pub).bind fun id => (s.initiatingSessions.get id).map (id, ·)

/-- Forwards from `nextSessionIndex`, once around. -/
def scanFree (s : State K) : Nat → SessionIndex → Option SessionIndex
  | 0, _ => none
  | n + 1, candidate => if s.allocatedIndices.contains candidate then scanFree s n (candidate + 1) else some candidate

def reserveSessionIndex : Option SessionIndex := s.scanFree (2 ^ 32) s.nextSessionIndex

variable (remoteKey : PubKey)

def lookupCookieFromInitiatedSessions : Option Cookie :=
  (s.getInitiatorByPublicKey remoteKey).bind fun i => i.2.common.storedCookie

def acceptedIds : List SessionIndex :=
  match s.acceptedSessionsByPeer.get remoteKey with
  | some set => set.keys
  | none => []

/-- `order` is the order in which the map is ranged over. -/
def lookupCookieFromAcceptedSessions (order : List SessionIndex → List SessionIndex) : Option Cookie :=
  (order (s.acceptedIds remoteKey)).findSome? fun id =>
    (s.respondingSessions.get id).bind fun r => r.transport.common.storedCookie

/-- The newer of a timestamp and the newest so far. -/
def newer (max : Option Tai64N) (t : Tai64N) : Option Tai64N :=
  match max with
  | none => some t
  | some m => if t.cmp m = .gt then some t else some m

/-- The timestamps `getMaxTimestamp` looks at: of the responding sessions of the key, and of its
    current established session. -/
def timestampsSeen : List Tai64N :=
  ((s.acceptedIds remoteKey).filterMap fun id =>
    (s.respondingSessions.get id).bind fun r => r.transport.common.initiatorTimestamp) ++
  ((s.lastEstablishedSessionByPublicKey.get remoteKey).bind fun sess => sess.responder.current.bind fun slot =>
    (s.transportSessions.get slot.id).bind fun t => t.common.initiatorTimestamp).toList

def getMaxTimestamp : Option Tai64N :=
  (s.timestampsSeen remoteKey).foldl newer none

/-! ## Updates -/

variable (index : SessionIndex)

def commitSessionIndex : State K :=
  { s with nextSessionIndex := index + 1, allocatedIndices := s.allocatedIndices.insert index () }

def insertInitiator (session : InitiatorState K) (remoteKey : PubKey) : State K :=
  let ip := session.common.remoteAddr.addr
  { s with
    initiatingSessions := s.initiatingSessions.insert index session
    initiatedSessionByPeer := s.initiatedSessionByPeer.insert remoteKey index
    ipSessionCounts := s.ipSessionCounts.insert ip ((s.ipSessionCounts.get ip).getD 0 + 1)
    totalSessions := s.totalSessions + 1 }

def insertResponder (session : ResponderState) (remoteKey : PubKey) : State K :=
  let ip := session.transport.common.remoteAddr.addr
  let set := (s.acceptedSessionsByPeer.get remoteKey).getD .empty
  { s with
    respondingSessions := s.respondingSessions.insert index session
    acceptedSessionsByPeer := s.acceptedSessionsByPeer.insert remoteKey (set.insert index ())
    ipSessionCounts := s.ipSessionCounts.insert ip ((s.ipSessionCounts.get ip).getD 0 + 1)
    totalSessions := s.totalSessions + 1 }

/-- Take an index out of the set of a peer's accepted sessions. -/
def forgetAccepted (m : AMap PubKey (AMap SessionIndex Unit)) (key : PubKey) (id : SessionIndex) :
    AMap PubKey (AMap SessionIndex Unit) :=
  match m.get key with
  | none => m
  | some set => if (set.erase id).entries.isEmpty then m.erase key else m.insert key (set.erase id)

/-- Take an index out of the slots of a role. -/
def forgetSlot {κ : Type} [DecidableEq κ] (m : AMap κ EstablishedSessions) (key : κ) (isInitiator : Bool)
    (id : SessionIndex) : AMap κ EstablishedSessions :=
  match m.get key with
  | none => m
  | some sess =>
    let sess := sess.setRole isInitiator ((sess.role isInitiator).remove id)
    if sess.isEmpty then m.erase key else m.insert key sess

/-- `delete` if the value is the given one. -/
def forgetInitiated (m : AMap PubKey SessionIndex) (key : PubKey) (id : SessionIndex) : AMap PubKey SessionIndex :=
  if m.get key = some id then m.erase key else m

def decreaseCount (m : AMap Addr Nat) (ip : Addr) : AMap Addr Nat :=
  match m.get ip with
  | none => m
  | some count => if count - 1 = 0 then m.erase ip else m.insert ip (count - 1)

variable (id : SessionIndex)

def terminateSession (remotePublicKey : PubKey) (remoteAddr : AddrPort) : State K :=
  let s₁ := { s with
    ipSessionCounts := decreaseCount s.ipSessionCounts remoteAddr.addr
    totalSessions := s.totalSessions - 1
    transportSessions := s.transportSessions.erase id
    initiatingSessions := s.initiatingSessions.erase id
    respondingSessions := s.respondingSessions.erase id
    allocatedIndices := s.allocatedIndices.erase id }
  let s₂ := match s.transportSessions.get id with
    | none => s₁
    | some t => { s₁ with
        lastEstablishedSessionBySocket :=
          forgetSlot s₁.lastEstablishedSessionBySocket remoteAddr t.common.isInitiator id
        lastEstablishedSessionByPublicKey :=
          forgetSlot s₁.lastEstablishedSessionByPublicKey remotePublicKey t.common.isInitiator id }
  { s₂ with
    initiatedSessionByPeer := forgetInitiated s₂.initiatedSessionByPeer remotePublicKey id
    acceptedSessionsByPeer := forgetAccepted s₂.acceptedSessionsByPeer remotePublicKey id }

/-- Terminate an established session under the key and the address it has itself. -/
def evict : State K :=
  match s.transportSessions.get id with
  | some t => s.terminateSession id t.common.remotePublicKey t.common.remoteAddr
  | none => s

/-- Push an index into the slots of a role; the index that falls out. -/
def pushSlot {κ : Type} [DecidableEq κ] (m : AMap κ EstablishedSessions) (key : κ) (isInitiator : Bool)
    (id : SessionIndex) (created : Int) : AMap κ EstablishedSessions × Option SessionIndex :=
  let sess := (m.get key).getD {}
  let pushed := (sess.role isInitiator).push id created
  (m.insert key (sess.setRole isInitiator pushed.1), pushed.2)

def insertTransport (transport : TransportState) : State K :=
  let c := transport.common
  let s₁ := if c.isInitiator then { s with initiatingSessions := s.initiatingSessions.erase id }
    else { s with respondingSessions := s.respondingSessions.erase id }
  let byKey := pushSlot s₁.lastEstablishedSessionByPublicKey c.remotePublicKey c.isInitiator id c.created
  let bySocket := pushSlot s₁.lastEstablishedSessionBySocket c.remoteAddr c.isInitiator id c.created
  let s₂ := { s₁ with lastEstablishedSessionByPublicKey := byKey.1, lastEstablishedSessionBySocket := bySocket.1 }
  let evicted := byKey.2.toList ++ bySocket.2.toList.filter fun ev => !byKey.2.toList.contains ev
  let s₃ := evicted.foldl evict s₂
  { s₃ with transportSessions := s₃.transportSessions.insert id transport }

def removeInitiator : State K :=
  match s.initiatingSessions.get index with
  | none => s
  | some session => { s with
      initiatingSessions := s.initiatingSessions.erase index
      initiatedSessionByPeer := forgetInitiated s.initiatedSessionByPeer session.common.remotePublicKey index }

def removeResponder : State K :=
  match s.respondingSessions.get index with
  | none => s
  | some session => { s with
      respondingSessions := s.respondingSessions.erase index
      acceptedSessionsByPeer :=
        forgetAccepted s.acceptedSessionsByPeer session.transport.common.remotePublicKey index }

/-- The address of a session in whatever stage it is. -/
def addrOf : Option AddrPort :=
  match s.transportSessions.get id with
  | some t => some t.common.remoteAddr
  | none => match s.initiatingSessions.get id with
    | some i => some i.common.remoteAddr
    | none => (s.respondingSessions.get id).map fun r => r.transport.common.remoteAddr

/-- The sessions of a peer, in any stage. -/
def idsOf (pub : PubKey) : List SessionIndex :=
  ((s.initiatedSessionByPeer.get pub).toList ++ s.acceptedIds pub ++
    match s.lastEstablishedSessionByPublicKey.get pub with
    | some sess => (sess.initiator.slots ++ sess.responder.slots).map (·.id)
    | none => []).dedup

def terminateByPublicKey (pub : PubKey) : State K :=
  (s.idsOf pub).foldl (fun s id => match s.addrOf id with
    | some addr => s.terminateSession id pub addr
    | none => s) s

/-! ## What the operations do to lookups -/

variable (m : AMap PubKey EstablishedSessions) (key : PubKey)

/-- The slots of a key for one role; no entry is the same as empty slots. -/
def roleSlots (b : Bool) (k : PubKey) : RoleSessions := ((m.get k).getD {}).role b

theorem eq_empty_of_isEmpty {r : RoleSessions} (h : r.isEmpty = true) : r = {} := by
  obtain ⟨c, p⟩ := r
  simp only [RoleSessions.isEmpty, Bool.and_eq_true, Option.isNone_iff_eq_none] at h
  obtain ⟨rfl, rfl⟩ := h
  rfl

theorem role_of_isEmpty {e : EstablishedSessions} (h : e.isEmpty = true) (b : Bool) : e.role b = {} := by
  simp only [EstablishedSessions.isEmpty, Bool.and_eq_true] at h
  cases b
  · exact eq_empty_of_isEmpty h.2
  · exact eq_empty_of_isEmpty h.1

theorem role_setRole (e : EstablishedSessions) (b b' : Bool) (r : RoleSessions) :
    (e.setRole b r).role b' = if b' = b then r else e.role b' := by
  cases b <;> cases b' <;> rfl

theorem role_empty (b : Bool) : ({} : EstablishedSessions).role b = {} := by
  cases b <;> rfl

theorem roleSlots_forgetSlot (b b' : Bool) (id : SessionIndex) (k : PubKey) :
    roleSlots (forgetSlot m key b id) b' k =
      if k = key ∧ b' = b then (roleSlots m b' k).remove id else roleSlots m b' k := by
  unfold forgetSlot roleSlots
  cases hm : m.get key with
  | none =>
    by_cases hk : k = key
    · subst hk
      simp [hm, role_empty, RoleSessions.remove, RoleSessions.has]
    · simp [hk]
  | some sess =>
    have hrole := role_setRole sess b b' ((sess.role b).remove id)
    by_cases hk : k = key
    · subst hk
      dsimp only
      split_ifs with hempty hb hb
      · -- the entry is deleted because nothing is left in it
        rw [role_of_isEmpty hempty, if_pos hb.2] at hrole
        rw [AMap.get_erase, if_pos rfl, hm, Option.getD_none, Option.getD_some, role_empty, hb.2]
        exact hrole
      · rw [role_of_isEmpty hempty, if_neg fun h => hb ⟨rfl, h⟩] at hrole
        rw [AMap.get_erase, if_pos rfl, hm, Option.getD_none, Option.getD_some, role_empty]
        exact hrole
      · rw [AMap.get_insert, if_pos rfl, hm, Option.getD_some, Option.getD_some, hrole, if_pos hb.2, hb.2]
      · rw [AMap.get_insert, if_pos rfl, hm, Option.getD_some, Option.getD_some, hrole, if_neg fun h => hb ⟨rfl, h⟩]
    · dsimp only
      split_ifs <;> simp_all [AMap.get_erase, AMap.get_insert]

theorem roleSlots_pushSlot (b b' : Bool) (id : SessionIndex) (created : Int) (k : PubKey) :
    roleSlots (pushSlot m key b id created).1 b' k =
      if k = key ∧ b' = b then ((roleSlots m b' k).push id created).1 else roleSlots m b' k := by
  unfold pushSlot roleSlots
  by_cases hk : k = key
  · subst hk
    rw [AMap.get_insert, if_pos rfl, Option.getD_some, role_setRole]
    by_cases hb : b' = b <;> simp [hb]
  · simp [hk, AMap.get_insert]

theorem mem_acceptedIds {s : State K} {k : PubKey} {i : SessionIndex} :
    i ∈ s.acceptedIds k ↔ ∃ set, s.acceptedSessionsByPeer.get k = some set ∧ set.get i ≠ none := by
  unfold acceptedIds
  cases h : s.acceptedSessionsByPeer.get k with
  | none => simp
  | some set => simp [AMap.get_eq_none]

theorem get_forgetAccepted (m : AMap PubKey (AMap SessionIndex Unit)) (key k : PubKey) (id i : SessionIndex) :
    (∃ set, (forgetAccepted m key id).get k = some set ∧ set.get i ≠ none) ↔
      (∃ set, m.get k = some set ∧ set.get i ≠ none) ∧ ¬(k = key ∧ i = id) := by
  unfold forgetAccepted
  cases hm : m.get key with
  | none =>
    constructor
    · rintro ⟨set, hset, hi⟩
      refine ⟨⟨set, hset, hi⟩, ?_⟩
      rintro ⟨rfl, -⟩
      rw [hm] at hset
      cases hset
    · exact fun h => h.1
  | some set =>
    by_cases hk : k = key
    · subst hk
      dsimp only
      have herase : (set.erase id).get i ≠ none ↔ set.get i ≠ none ∧ i ≠ id := by
        rw [AMap.get_erase]
        by_cases h : i = id <;> simp [h]
      split_ifs with hempty
      · -- the set was emptied: nothing but `id` was in it
        have hnone : (set.erase id).get i = none := by
          rw [AMap.get, List.isEmpty_iff.mp hempty]
          rfl
        rw [AMap.get_erase, if_pos rfl, hm]
        have := mt herase.mpr (not_not.mpr hnone)
        simp only [reduceCtorEq, false_and, exists_false, Option.some.injEq, exists_eq_left', true_and, false_iff]
        exact this
      · rw [AMap.get_insert, if_pos rfl, hm]
        simp only [Option.some.injEq, exists_eq_left', true_and]
        exact herase
    · dsimp only
      split_ifs <;> simp [AMap.get_erase, AMap.get_insert, hk]

/-! ## The newest timestamp -/

theorem newer_foldl (l : List Tai64N) (max : Option Tai64N) :
    (∀ t ∈ l, ∃ m, l.foldl newer max = some m ∧ t.toNat ≤ m.toNat) ∧
      ∀ m₀, max = some m₀ → ∃ m, l.foldl newer max = some m ∧ m₀.toNat ≤ m.toNat := by
  induction l generalizing max with
  | nil => exact ⟨by simp, fun m₀ h => ⟨m₀, h, le_rfl⟩⟩
  | cons t l ih =>
    obtain ⟨hl, hmax⟩ := ih (newer max t)
    -- the accumulator after `t` is at least `t` and at least what it was
    have hstep : ∃ m₁, newer max t = some m₁ ∧ t.toNat ≤ m₁.toNat ∧ ∀ m₀, max = some m₀ → m₀.toNat ≤ m₁.toNat := by
      cases max with
      | none => exact ⟨t, rfl, le_rfl, by simp⟩
      | some m =>
        by_cases hgt : t.cmp m = .gt
        · refine ⟨t, by simp [newer, hgt], le_rfl, ?_⟩
          have hlt : m.toNat < t.toNat := Nat.compare_eq_gt.mp (Tai64N.cmp_eq t m ▸ hgt)
          intro m₀ h
          cases h
          omega
        · refine ⟨m, by simp [newer, hgt], ?_, ?_⟩
          · by_contra hlt
            exact hgt (by rw [Tai64N.cmp_eq]; exact Nat.compare_eq_gt.mpr (by omega))
          · intro m₀ h
            cases h
            exact le_rfl
    obtain ⟨m₁, hm₁, ht, hold⟩ := hstep
    obtain ⟨m, hm, hle⟩ := hmax m₁ hm₁
    refine ⟨?_, fun m₀ h₀ => ⟨m, hm, (hold m₀ h₀).trans hle⟩⟩
    exact List.forall_mem_cons.mpr ⟨⟨m, hm, ht.trans hle⟩, hl⟩

/-- The newest timestamp is at least every one that was looked at. -/
theorem getMaxTimestamp_spec {s : State K} {key : PubKey} {t : Tai64N} (h : t ∈ s.timestampsSeen key) :
    ∃ m, s.getMaxTimestamp key = some m ∧ t.toNat ≤ m.toNat :=
  (newer_foldl _ none).1 t h

end State

end MonadBft.WireAuth
