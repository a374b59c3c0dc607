/-
  MonadBft.WireAuth.Table — what the session table keeps.

  `Inv` says how the maps of the table fit together: the established sessions of a key and a role
  are exactly those in its two slots, the accepted sessions of a key are its responding ones, an
  index names one session, and a session that answered an initiation has the key and the timestamp
  which the log of answered initiations gives for its index. `Ordered` says that the two responder
  slots of a key are in the order of their initiations. `Good` is both.

  Proved: every update of the table keeps `Good`. `Good.insertTransport` is the one that needs a
  condition, `NotOlder`: the session that is established must not be older than the current one of
  its key, for it is pushed in front of it. While it is being inserted the slots already name it
  and the session that fell out is still in the table, so `Inv` and `Ordered` take the established
  sessions as an argument.
-/
import MonadBft.WireAuth.State

namespace MonadBft.WireAuth

open MonadBft.Lib AMap RoleSessions

variable {K : Type} {i : SessionIndex}

/-! ## The invariant -/

def RoleSessions.Holds (r : RoleSessions) (i : SessionIndex) : Prop :=
  RoleSessions.has r.current i = true ∨ RoleSessions.has r.previous i = true

theorem has_iff {slot : Option SessionSlot} : has slot i = true ↔ ∃ x, slot = some x ∧ x.id = i := by
  cases slot <;> simp [has]

section Slots

variable {r : RoleSessions} {id i : SessionIndex}

/-- If two slots are left, nothing was taken out. -/
theorem remove_both {c p : SessionSlot} (hc : (r.remove id).current = some c) (hp : (r.remove id).previous = some p) :
    r.current = some c ∧ r.previous = some p := by
  unfold remove at hc hp
  split_ifs at hc hp
  exact ⟨hc, hp⟩

theorem remove_filled (hf : r.current = none → r.previous = none) :
    (r.remove id).current = none → (r.remove id).previous = none := by
  unfold remove
  split_ifs
  · intro _
    rfl
  · intro _
    rfl
  · exact hf

theorem remove_holds (hd : ∀ c p, r.current = some c → r.previous = some p → c.id ≠ p.id) :
    (r.remove id).Holds i ↔ r.Holds i ∧ i ≠ id := by
  obtain ⟨current, previous⟩ := r
  unfold remove RoleSessions.Holds
  simp only [has_iff] at hd ⊢
  split_ifs with hc hp <;> grind

end Slots

namespace State

/-- The slots of a key for one role. -/
def slots (s : State K) (b : Bool) (k : PubKey) : RoleSessions := roleSlots s.lastEstablishedSessionByPublicKey b k

/-- Ghost: key and timestamp of the initiation that was last answered under each index. -/
def Initiations := SessionIndex → Option (PubKey × Tai64N)

/-- The session under the index records the initiation that started it. -/
def Initiations.Started (log : Initiations) (i : SessionIndex) (c : SessionState) : Prop :=
  ∃ ts, log i = some (c.remotePublicKey, ts) ∧ c.initiatorTimestamp = some ts

/-- What the table keeps. `tr` are the established sessions: `s.transportSessions`, except while
    one is being inserted. -/
structure Inv (log : Initiations) (s : State K) (tr : SessionIndex → Option TransportState) : Prop where
  accepted : ∀ i r, s.respondingSessions.get i = some r → i ∈ s.acceptedIds r.transport.common.remotePublicKey
  accepted_live : ∀ k i, i ∈ s.acceptedIds k →
    ∃ r, s.respondingSessions.get i = some r ∧ r.transport.common.remotePublicKey = k
  initiated_live : ∀ k i, s.initiatedSessionByPeer.get k = some i →
    ∃ x, s.initiatingSessions.get i = some x ∧ x.common.remotePublicKey = k
  responder : ∀ i r, s.respondingSessions.get i = some r →
    r.transport.common.isInitiator = false ∧ log.Started i r.transport.common
  initiator : ∀ i x, s.initiatingSessions.get i = some x → x.common.isInitiator = true
  /-- An established session is in a slot of its key and role, and nothing else is. -/
  slotted : ∀ i t, tr i = some t → (s.slots t.common.isInitiator t.common.remotePublicKey).Holds i
  live : ∀ b k i, (s.slots b k).Holds i → ∃ t, tr i = some t ∧ t.common.isInitiator = b ∧
    t.common.remotePublicKey = k ∧ (b = false → log.Started i t.common)
  filled : ∀ b k, (s.slots b k).current = none → (s.slots b k).previous = none
  distinct : ∀ b k c p, (s.slots b k).current = some c → (s.slots b k).previous = some p → c.id ≠ p.id
  /-- An index names one session, and an index that is not allocated none. -/
  responding_only : ∀ i, s.respondingSessions.get i ≠ none → tr i = none ∧ s.initiatingSessions.get i = none
  initiating_only : ∀ i, s.initiatingSessions.get i ≠ none → tr i = none
  allocated : ∀ i, s.allocatedIndices.get i = none →
    tr i = none ∧ s.respondingSessions.get i = none ∧ s.initiatingSessions.get i = none

/-- The previous responder session of a key is not newer than its current one. -/
def Ordered (s : State K) (tr : SessionIndex → Option TransportState) : Prop :=
  ∀ k c p tc tp x y, (s.slots false k).current = some c → (s.slots false k).previous = some p → tr c.id = some tc →
    tr p.id = some tp → tp.common.initiatorTimestamp = some x → tc.common.initiatorTimestamp = some y →
    x.toNat ≤ y.toNat

variable {log : Initiations}

theorem Inv.start : Inv log ({} : State K) fun _ => none := by
  constructor <;> simp [slots, roleSlots, role_empty, RoleSessions.Holds, has, acceptedIds]

structure KeyAt (s : State K) (tr : SessionIndex → Option TransportState) (id : SessionIndex) (pk : PubKey) : Prop where
  transport : ∀ t, tr id = some t → t.common.remotePublicKey = pk
  responding : ∀ r, s.respondingSessions.get id = some r → r.transport.common.remotePublicKey = pk
  initiating : ∀ x, s.initiatingSessions.get id = some x → x.common.remotePublicKey = pk

/-! ## Terminating a session -/

section Terminate

variable {s : State K} {tr : SessionIndex → Option TransportState} {id : SessionIndex} {pk : PubKey} {addr : AddrPort}

theorem terminateSession_responding (i : SessionIndex) :
    (s.terminateSession id pk addr).respondingSessions.get i = if i = id then none else s.respondingSessions.get i := by
  unfold terminateSession
  cases s.transportSessions.get id <;> simp [get_erase]

theorem terminateSession_initiating (i : SessionIndex) :
    (s.terminateSession id pk addr).initiatingSessions.get i = if i = id then none else s.initiatingSessions.get i := by
  unfold terminateSession
  cases s.transportSessions.get id <;> simp [get_erase]

theorem terminateSession_transport (i : SessionIndex) :
    (s.terminateSession id pk addr).transportSessions.get i = if i = id then none else s.transportSessions.get i := by
  unfold terminateSession
  cases s.transportSessions.get id <;> simp [get_erase]

theorem terminateSession_allocated (i : SessionIndex) :
    (s.terminateSession id pk addr).allocatedIndices.get i = if i = id then none else s.allocatedIndices.get i := by
  unfold terminateSession
  cases s.transportSessions.get id <;> simp [get_erase]

theorem terminateSession_accepted (i : SessionIndex) (k : PubKey) :
    i ∈ (s.terminateSession id pk addr).acceptedIds k ↔ i ∈ s.acceptedIds k ∧ ¬(k = pk ∧ i = id) := by
  rw [mem_acceptedIds, mem_acceptedIds, ← get_forgetAccepted]
  unfold terminateSession
  cases s.transportSessions.get id <;> rfl

theorem get_forgetInitiated {m : AMap PubKey SessionIndex} {k key : PubKey} {j : SessionIndex} :
    (forgetInitiated m key j).get k = some i ↔ m.get k = some i ∧ ¬(k = key ∧ i = j) := by
  unfold forgetInitiated
  by_cases hk : k = key
  · subst hk
    split_ifs with h
    · rw [get_erase, if_pos rfl, h]
      simp only [reduceCtorEq, Option.some.injEq, true_and, false_iff, not_and, not_not]
      exact fun h => h.symm
    · refine ⟨fun hi => ⟨hi, ?_⟩, fun hi => hi.1⟩
      intro he
      exact h (he.2 ▸ hi)
  · split_ifs <;> simp [get_erase, hk]

theorem terminateSession_initiated (k : PubKey) (i : SessionIndex) :
    (s.terminateSession id pk addr).initiatedSessionByPeer.get k = some i ↔
      s.initiatedSessionByPeer.get k = some i ∧ ¬(k = pk ∧ i = id) := by
  rw [← get_forgetInitiated]
  unfold terminateSession
  cases s.transportSessions.get id <;> rfl

/-- The slots of a key after a session has gone: it is taken out if it was there. -/
theorem terminateSession_slots (h : Inv log s tr) (htr : ∀ t, tr id = some t → s.transportSessions.get id = some t)
    (hkey : KeyAt s tr id pk) (b : Bool) (k : PubKey) :
    (s.terminateSession id pk addr).slots b k = (s.slots b k).remove id := by
  have hremove : ¬(s.slots b k).Holds id → (s.slots b k).remove id = s.slots b k := by
    intro hno
    simp only [RoleSessions.Holds, not_or] at hno
    simp [remove, hno.1, hno.2]
  unfold slots terminateSession
  cases ht : s.transportSessions.get id with
  | none =>
    refine (hremove fun hh => ?_).symm
    obtain ⟨t, h1, -⟩ := h.live b k id hh
    have h1' := htr t h1
    rw [ht] at h1'
    cases h1'
  | some t =>
    rw [roleSlots_forgetSlot]
    split_ifs with hk
    · rfl
    · refine (hremove fun hh => hk ?_).symm
      obtain ⟨t', h1, h2, h3, -⟩ := h.live b k id hh
      obtain rfl : t = t' := Option.mem_unique ht (htr t' h1)
      exact ⟨h3 ▸ hkey.transport t h1, h2.symm⟩

theorem Inv.terminate (h : Inv log s tr) (htr : ∀ t, tr id = some t → s.transportSessions.get id = some t)
    (hkey : KeyAt s tr id pk) : Inv log (s.terminateSession id pk addr) fun i => if i = id then none else tr i := by
  have hslots : ∀ b k, (s.terminateSession id pk addr).slots b k = (s.slots b k).remove id :=
    terminateSession_slots h htr hkey
  have hholds : ∀ b k i, ((s.terminateSession id pk addr).slots b k).Holds i ↔ (s.slots b k).Holds i ∧ i ≠ id := by
    intro b k i
    rw [hslots, remove_holds (h.distinct b k)]
  constructor
  · intro i r hr
    rw [terminateSession_responding] at hr
    split_ifs at hr with hi
    rw [terminateSession_accepted]
    exact ⟨h.accepted i r hr, fun hh => hi hh.2⟩
  · intro k i hi
    obtain ⟨hi, hne⟩ := terminateSession_accepted i k |>.mp hi
    obtain ⟨r, hr, hrk⟩ := h.accepted_live k i hi
    refine ⟨r, ?_, hrk⟩
    rw [terminateSession_responding, if_neg]
    · exact hr
    · intro he
      subst he
      exact hne ⟨hrk.symm.trans (hkey.responding r hr), rfl⟩
  · intro k i hi
    obtain ⟨hi, hne⟩ := (terminateSession_initiated k i).mp hi
    obtain ⟨x, hx, hxk⟩ := h.initiated_live k i hi
    refine ⟨x, ?_, hxk⟩
    rw [terminateSession_initiating, if_neg]
    · exact hx
    · intro he
      subst he
      exact hne ⟨hxk.symm.trans (hkey.initiating x hx), rfl⟩
  · intro i r hr
    rw [terminateSession_responding] at hr
    split_ifs at hr
    exact h.responder i r hr
  · intro i x hx
    rw [terminateSession_initiating] at hx
    split_ifs at hx
    exact h.initiator i x hx
  · intro i t ht
    split_ifs at ht with hi
    rw [hholds]
    exact ⟨h.slotted i t ht, hi⟩
  · intro b k i hi
    obtain ⟨hold, hne⟩ := (hholds b k i).mp hi
    rw [if_neg hne]
    exact h.live b k i hold
  · intro b k
    rw [hslots]
    exact remove_filled (h.filled b k)
  · intro b k c p hc hp
    rw [hslots] at hc hp
    obtain ⟨hc', hp'⟩ := remove_both hc hp
    exact h.distinct b k c p hc' hp'
  · intro i hi
    rw [terminateSession_responding] at hi
    split_ifs at hi with hne
    · exact absurd rfl hi
    · rw [terminateSession_initiating, if_neg hne, if_neg hne]
      exact h.responding_only i hi
  · intro i hi
    rw [terminateSession_initiating] at hi
    split_ifs at hi with hne
    · exact absurd rfl hi
    · rw [if_neg hne]
      exact h.initiating_only i hi
  · intro i hi
    rw [terminateSession_allocated] at hi
    rw [terminateSession_responding, terminateSession_initiating]
    split_ifs at hi ⊢ with hne
    · exact ⟨rfl, rfl, rfl⟩
    · exact h.allocated i hi

theorem Ordered.terminate (ho : Ordered s tr) (h : Inv log s tr)
    (htr : ∀ t, tr id = some t → s.transportSessions.get id = some t) (hkey : KeyAt s tr id pk) :
    Ordered (s.terminateSession id pk addr) fun i => if i = id then none else tr i := by
  intro k c p tc tp x y hc hp htc htp hx hy
  rw [terminateSession_slots h htr hkey] at hc hp
  obtain ⟨hc', hp'⟩ := remove_both hc hp
  have htc' : tr c.id = some tc := (Option.ite_none_left_eq_some.mp htc).2
  have htp' : tr p.id = some tp := (Option.ite_none_left_eq_some.mp htp).2
  exact ho k c p tc tp x y hc' hp' htc' htp' hx hy

end Terminate

/-! ## Establishing a session -/

structure Good (log : Initiations) (s : State K) (tr : SessionIndex → Option TransportState) : Prop where
  inv : Inv log s tr
  ordered : Ordered s tr

abbrev Tidy (log : Initiations) (s : State K) : Prop := Good log s s.transportSessions.get

/-- The established sessions with the one that is about to be inserted. -/
def pending (s : State K) (id : SessionIndex) (t : TransportState) : SessionIndex → Option TransportState :=
  fun i => if i = id then some t else s.transportSessions.get i

variable {t' : TransportState}

section Establish

variable {s : State K} {tr : SessionIndex → Option TransportState} {id e : SessionIndex} {t : TransportState}

/-- Taking out a session that is established under another index than the pending one's. -/
theorem pending_evict (hne : e ≠ id) (h' : s.transportSessions.get e = some t')
    (htr : ∀ i, i ≠ e → tr i = pending s id t i) :
    (fun i => if i = e then none else tr i) = pending (s.evict e) id t := by
  have hev : s.evict e = s.terminateSession e t'.common.remotePublicKey t'.common.remoteAddr := by rw [evict, h']
  funext i
  rw [hev]
  unfold pending
  rw [terminateSession_transport]
  by_cases hi : i = e
  · subst hi
    simp [hne]
  · have hpi : tr i = if i = id then some t else s.transportSessions.get i := htr i hi
    simp [hi, hpi]

theorem evict_transport (i : SessionIndex) (h : s.transportSessions.get i = none) :
    (s.evict e).transportSessions.get i = none := by
  unfold evict
  cases h' : s.transportSessions.get e with
  | none => exact h
  | some t' =>
    rw [terminateSession_transport]
    split_ifs
    · rfl
    · exact h

theorem Good.evict_of (h : Good log s tr) (hfree : s.transportSessions.get id = none)
    (hsub : ∀ x, tr e = some x → s.transportSessions.get e = some x) (htr : ∀ i, i ≠ e → tr i = pending s id t i)
    (honly : s.respondingSessions.get e = none ∧ s.initiatingSessions.get e = none)
    (h' : s.transportSessions.get e = some t') : Good log (s.evict e) (pending (s.evict e) id t) := by
  have hne := ne_of_get h' hfree
  have hkey : KeyAt s tr e t'.common.remotePublicKey := by
    refine ⟨?_, by simp [honly.1], by simp [honly.2]⟩
    intro x hx
    rw [Option.mem_unique (hsub x hx) h']
  have hev : s.evict e = s.terminateSession e t'.common.remotePublicKey t'.common.remoteAddr := by rw [evict, h']
  rw [← pending_evict hne h' htr, hev]
  exact ⟨h.inv.terminate hsub hkey, h.ordered.terminate h.inv hsub hkey⟩

/-- An index that names an established session names nothing else. -/
theorem Inv.only_transport (h : Inv log s tr) (ht : tr i ≠ none) :
    s.respondingSessions.get i = none ∧ s.initiatingSessions.get i = none := by
  constructor
  · by_contra hne
    exact ht (h.responding_only i hne).1
  · by_contra hne
    exact ht (h.initiating_only i hne)

/-- Any further session may be evicted while one is pending. -/
theorem Good.evict (h : Good log s (pending s id t)) (hfree : s.transportSessions.get id = none) :
    Good log (s.evict e) (pending (s.evict e) id t) := by
  cases h' : s.transportSessions.get e with
  | none =>
    have hev : s.evict e = s := by rw [State.evict, h']
    rw [hev]
    exact h
  | some t' =>
    have hne := ne_of_get h' hfree
    have hpe : pending s id t e = s.transportSessions.get e := if_neg hne
    refine h.evict_of hfree (fun x hx => hpe ▸ hx) (fun i _ => rfl) (h.inv.only_transport ?_) h'
    rw [hpe, h']
    exact Option.some_ne_none t'

/-- An index of the table that names no session. -/
structure Free (s : State K) (id : SessionIndex) : Prop where
  transport : s.transportSessions.get id = none
  responding : s.respondingSessions.get id = none
  initiating : s.initiatingSessions.get id = none
  allocated : s.allocatedIndices.get id ≠ none

/-- Not older than the current established session of its key. -/
def NotOlder (s : State K) (t : TransportState) : Prop :=
  ∀ c tc x y, (s.slots false t.common.remotePublicKey).current = some c → s.transportSessions.get c.id = some tc →
    tc.common.initiatorTimestamp = some x → t.common.initiatorTimestamp = some y → x.toNat ≤ y.toNat

/-- The table after the slots were pushed, before anything is evicted: the session that fell out
    of the slots does not count any more. -/
theorem Good.push (h : Tidy log s) (hf : Free s id)
    (hresp : t.common.isInitiator = false → log.Started id t.common ∧ NotOlder s t)
    (sockets : AMap AddrPort EstablishedSessions) :
    let pushed := pushSlot s.lastEstablishedSessionByPublicKey t.common.remotePublicKey t.common.isInitiator id
      t.common.created
    Good log { s with lastEstablishedSessionByPublicKey := pushed.1, lastEstablishedSessionBySocket := sockets }
      fun i => if i = id then some t else if pushed.2 = some i then none else s.transportSessions.get i := by
  intro pushed
  -- what the slots are now, and what fell out of them
  have hslots : ∀ b k, slots { s with
      lastEstablishedSessionByPublicKey := pushed.1, lastEstablishedSessionBySocket := sockets } b k =
      if k = t.common.remotePublicKey ∧ b = t.common.isInitiator then
        ⟨some ⟨id, t.common.created⟩, (s.slots b k).current⟩ else s.slots b k :=
    fun b k => roleSlots_pushSlot s.lastEstablishedSessionByPublicKey t.common.remotePublicKey t.common.isInitiator b id
      t.common.created k
  have hev : ∀ i, pushed.2 = some i ↔
      has (s.slots t.common.isInitiator t.common.remotePublicKey).previous i = true := by
    intro i
    have hp : pushed.2 = (s.slots t.common.isInitiator t.common.remotePublicKey).previous.map (·.id) := rfl
    rw [hp, has_iff, Option.map_eq_some_iff]
  have hid : ∀ b k i, (s.slots b k).Holds i → i ≠ id := by
    intro b k i hh he
    obtain ⟨t', ht', -⟩ := h.inv.live b k i hh
    rw [he, hf.transport] at ht'
    cases ht'
  have hsame : ∀ i x, i ≠ id → pushed.2 ≠ some i → s.transportSessions.get i = some x →
      (if i = id then some t else if pushed.2 = some i then none else s.transportSessions.get i) = some x := by
    intro i x h1 h2 h3
    rw [if_neg h1, if_neg h2, h3]
  -- the current session of the key stays
  have hcur : ∀ c, (s.slots t.common.isInitiator t.common.remotePublicKey).current = some c → pushed.2 ≠ some c.id := by
    intro c hc hp
    obtain ⟨p, hp, hpid⟩ := has_iff.mp ((hev c.id).mp hp)
    exact h.inv.distinct _ _ c p hc hp hpid.symm
  refine ⟨{ h.inv with
    slotted := ?slotted, live := ?live, filled := ?filled, distinct := ?distinct
    responding_only := ?responding, initiating_only := ?initiating, allocated := ?allocated }, ?ordered⟩
  case slotted =>
    intro i t' ht'
    rw [hslots]
    by_cases hi : i = id
    · rw [if_pos hi] at ht'
      obtain rfl : t = t' := Option.some.inj ht'
      rw [if_pos ⟨rfl, rfl⟩]
      exact .inl (has_iff.mpr ⟨_, rfl, hi.symm⟩)
    · rw [if_neg hi] at ht'
      obtain ⟨hne, ht'⟩ := Option.ite_none_left_eq_some.mp ht'
      have hold := h.inv.slotted i t' ht'
      split_ifs with hk
      · rcases hold with hc | hp
        · exact .inr hc
        · rw [hk.1, hk.2] at hp
          exact absurd ((hev i).mpr hp) hne
      · exact hold
  case live =>
    intro b k i hh
    rw [hslots] at hh
    split_ifs at hh with hk
    · obtain ⟨rfl, rfl⟩ := hk
      rcases hh with hc | hp
      · obtain ⟨x, hx, hxi⟩ := has_iff.mp hc
        have hi : i = id := by
          rw [← hxi, ← Option.some.inj hx]
        exact ⟨t, if_pos hi, rfl, rfl, fun hb => hi ▸ (hresp hb).1⟩
      · obtain ⟨c, hc, rfl⟩ := has_iff.mp hp
        obtain ⟨t', h1, h2⟩ := h.inv.live _ _ c.id (.inl hp)
        exact ⟨t', hsame c.id t' (hid _ _ _ (.inl hp)) (hcur c hc) h1, h2⟩
    · obtain ⟨t', h1, h2, h3, h4⟩ := h.inv.live b k i hh
      refine ⟨t', hsame i t' (hid b k i hh) ?_ h1, h2, h3, h4⟩
      intro hp
      obtain ⟨t'', h1', h2', h3', -⟩ := h.inv.live _ _ i (.inr ((hev i).mp hp))
      obtain rfl : t' = t'' := Option.mem_unique h1 h1'
      exact hk ⟨h3.symm.trans h3', h2.symm.trans h2'⟩
  case filled =>
    intro b k hc
    rw [hslots] at hc ⊢
    split_ifs at hc ⊢
    exact h.inv.filled b k hc
  case distinct =>
    intro b k c p hc hp
    rw [hslots] at hc hp
    split_ifs at hc hp with hk
    · have hcid : c.id = id := by
        rw [← Option.some.inj hc]
      rw [hcid]
      exact (hid b k p.id (.inl (has_iff.mpr ⟨p, hp, rfl⟩))).symm
    · exact h.inv.distinct b k c p hc hp
  case responding =>
    intro i hi
    obtain ⟨h1, h2⟩ := h.inv.responding_only i hi
    have hne : i ≠ id := fun he => hi (he ▸ hf.responding)
    refine ⟨?_, h2⟩
    rw [if_neg hne, h1, ite_self]
  case initiating =>
    intro i hi
    have hne : i ≠ id := fun he => hi (he ▸ hf.initiating)
    rw [if_neg hne, h.inv.initiating_only i hi, ite_self]
  case allocated =>
    intro i hi
    have hne : i ≠ id := fun he => hf.allocated (he ▸ hi)
    obtain ⟨h1, h2⟩ := h.inv.allocated i hi
    refine ⟨?_, h2⟩
    rw [if_neg hne, h1, ite_self]
  case ordered =>
    intro k c p tc tp x y hc hp htc htp hx hy
    dsimp only at htc htp
    rw [hslots] at hc hp
    split_ifs at hc hp with hk
    · obtain ⟨rfl, hb⟩ := hk
      have hcid : c.id = id := by
        rw [← Option.some.inj hc]
      obtain rfl : t = tc := by
        rw [if_pos hcid] at htc
        exact Option.some.inj htc
      have hp' : (s.slots false t.common.remotePublicKey).current = some p := hp
      have hpid := hid _ _ p.id (.inl (has_iff.mpr ⟨p, hp, rfl⟩))
      rw [if_neg hpid, if_neg (hcur p (hb ▸ hp'))] at htp
      exact (hresp hb.symm).2 p tp x y hp' htp hx hy
    · have hcid := hid _ k c.id (.inl (has_iff.mpr ⟨c, hc, rfl⟩))
      have hpid := hid _ k p.id (.inr (has_iff.mpr ⟨p, hp, rfl⟩))
      rw [if_neg hcid] at htc
      rw [if_neg hpid] at htp
      exact h.ordered k c p tc tp x y hc hp (Option.ite_none_left_eq_some.mp htc).2
        (Option.ite_none_left_eq_some.mp htp).2 hx hy

theorem Good.evict_all (l : List SessionIndex) (h : Good log s (pending s id t))
    (hfree : s.transportSessions.get id = none) :
    Good log (l.foldl State.evict s) (pending (l.foldl State.evict s) id t) := by
  induction l generalizing s with
  | nil => exact h
  | cons e l ih => exact ih (h.evict hfree) (evict_transport id hfree)

theorem Good.insert_pending (h : Good log s (pending s id t)) :
    Good log { s with transportSessions := s.transportSessions.insert id t } (s.transportSessions.insert id t).get := by
  have hget : (s.transportSessions.insert id t).get = pending s id t := by
    funext i
    rw [get_insert, pending]
  rw [hget]
  exact ⟨{ h.inv with }, h.ordered⟩

/-- Sessions that are not established may go, if the lists of their peers forget them. -/
theorem Good.shrink {s' : State K} (h : Good log s tr) (hr : ∀ i r, s'.respondingSessions.get i = some r →
      s.respondingSessions.get i = some r ∧ i ∈ s'.acceptedIds r.transport.common.remotePublicKey)
    (hacc : ∀ k i, i ∈ s'.acceptedIds k → i ∈ s.acceptedIds k ∧ s'.respondingSessions.get i = s.respondingSessions.get i)
    (hi : ∀ i x, s'.initiatingSessions.get i = some x → s.initiatingSessions.get i = some x)
    (hini : ∀ k i, s'.initiatedSessionByPeer.get k = some i →
      s.initiatedSessionByPeer.get k = some i ∧ s'.initiatingSessions.get i = s.initiatingSessions.get i)
    (hslots : s'.lastEstablishedSessionByPublicKey = s.lastEstablishedSessionByPublicKey)
    (halloc : s'.allocatedIndices = s.allocatedIndices) : Good log s' tr := by
  have hsl : ∀ b k, s'.slots b k = s.slots b k := by
    intro b k
    rw [slots, slots, hslots]
  have hrn : ∀ i, s.respondingSessions.get i = none → s'.respondingSessions.get i = none := by
    intro i hn
    cases h' : s'.respondingSessions.get i with
    | none => rfl
    | some r =>
      rw [(hr i r h').1] at hn
      cases hn
  have hin : ∀ i, s.initiatingSessions.get i = none → s'.initiatingSessions.get i = none := by
    intro i hn
    cases h' : s'.initiatingSessions.get i with
    | none => rfl
    | some x =>
      rw [hi i x h'] at hn
      cases hn
  constructor
  · constructor
    · exact fun i r h' => (hr i r h').2
    · intro k i h'
      obtain ⟨h1, h2⟩ := hacc k i h'
      rw [h2]
      exact h.inv.accepted_live k i h1
    · intro k i h'
      obtain ⟨h1, h2⟩ := hini k i h'
      rw [h2]
      exact h.inv.initiated_live k i h1
    · exact fun i r h' => h.inv.responder i r (hr i r h').1
    · exact fun i x h' => h.inv.initiator i x (hi i x h')
    · intro i t ht
      rw [hsl]
      exact h.inv.slotted i t ht
    · intro b k i hh
      rw [hsl] at hh
      exact h.inv.live b k i hh
    · intro b k
      rw [hsl]
      exact h.inv.filled b k
    · intro b k
      rw [hsl]
      exact h.inv.distinct b k
    · intro i h'
      obtain ⟨h1, h2⟩ := h.inv.responding_only i (mt (hrn i) h')
      exact ⟨h1, hin i h2⟩
    · intro i h'
      exact h.inv.initiating_only i (mt (hin i) h')
    · intro i h'
      rw [halloc] at h'
      obtain ⟨h1, h2, h3⟩ := h.inv.allocated i h'
      exact ⟨h1, hrn i h2, hin i h3⟩
  · intro k c p tc tp x y hc hp
    rw [hsl] at hc hp
    exact h.ordered k c p tc tp x y hc hp

theorem get_of_erase {κ α : Type} [DecidableEq κ] {m : AMap κ α} {k k' : κ} {a : α} (h : (m.erase k).get k' = some a) :
    m.get k' = some a ∧ k' ≠ k := by
  rw [get_erase] at h
  obtain ⟨hne, h⟩ := Option.ite_none_left_eq_some.mp h
  exact ⟨h, hne⟩

theorem get_erase_absent {κ α : Type} [DecidableEq κ] {m : AMap κ α} {k : κ} (h : m.get k = none) (k' : κ) :
    (m.erase k).get k' = m.get k' := by
  rw [get_erase]
  by_cases hk : k' = k
  · rw [if_pos hk, hk, h]
  · rw [if_neg hk]

/-- The index of the session to be established is taken out of the map of its stage, where it is
    not any more. -/
theorem Good.erase_absent (h : Tidy log s) (hf : Free s id) (b : Bool) {s₁ : State K}
    (hs : s₁ = if b = true then { s with initiatingSessions := s.initiatingSessions.erase id }
      else { s with respondingSessions := s.respondingSessions.erase id }) : Tidy log s₁ ∧ Free s₁ id := by
  have hr := get_erase_absent hf.responding
  have hi := get_erase_absent hf.initiating
  cases b with
  | true =>
    obtain rfl : s₁ = { s with initiatingSessions := s.initiatingSessions.erase id } := hs
    exact ⟨h.shrink (fun i r hr => ⟨hr, h.inv.accepted i r hr⟩) (fun k i hk => ⟨hk, rfl⟩) (fun i x hx => hi i ▸ hx)
      (fun k i hk => ⟨hk, hi i⟩) rfl rfl, hf.transport, hf.responding, (hi id).trans hf.initiating, hf.allocated⟩
  | false =>
    obtain rfl : s₁ = { s with respondingSessions := s.respondingSessions.erase id } := hs
    refine ⟨h.shrink ?_ (fun k i hk => ⟨hk, hr i⟩) (fun i x hx => hx) (fun k i hk => ⟨hk, rfl⟩) rfl rfl,
      hf.transport, (hr id).trans hf.responding, hf.initiating, hf.allocated⟩
    intro i r hget
    have hget' : s.respondingSessions.get i = some r := hr i ▸ hget
    exact ⟨hget', h.inv.accepted i r hget'⟩

theorem Good.insertTransport (h : Tidy log s) (hf : Free s id)
    (hresp : t.common.isInitiator = false → log.Started id t.common ∧ NotOlder s t) :
    Tidy log (s.insertTransport id t) := by
  unfold State.insertTransport
  dsimp only
  generalize hs : (if t.common.isInitiator = true then { s with initiatingSessions := s.initiatingSessions.erase id }
    else { s with respondingSessions := s.respondingSessions.erase id }) = s₁
  obtain ⟨h₁, hf₁⟩ := h.erase_absent hf t.common.isInitiator hs.symm
  have hresp₁ : t.common.isInitiator = false → log.Started id t.common ∧ NotOlder s₁ t := by
    intro hb
    obtain ⟨hts, hold⟩ := hresp hb
    rw [hb, if_neg Bool.false_ne_true] at hs
    subst hs
    exact ⟨hts, hold⟩
  have h₂ := h₁.push hf₁ hresp₁
  cases hev : (pushSlot s₁.lastEstablishedSessionByPublicKey t.common.remotePublicKey t.common.isInitiator id
      t.common.created).2 with
  | none =>
    have hpend : (fun i => if i = id then some t else if (none : Option SessionIndex) = some i then none
        else s₁.transportSessions.get i) = pending s₁ id t := by
      funext i
      simp [pending]
    dsimp only at h₂
    rw [hev, hpend] at h₂
    exact ((h₂ _).evict_all _ hf₁.transport).insert_pending
  | some e =>
    -- the session that fell out of the slots is established; it is the first to go
    have hheld : (s₁.slots t.common.isInitiator t.common.remotePublicKey).Holds e := by
      obtain ⟨p, hp, hpe⟩ := Option.map_eq_some_iff.mp
        (show (s₁.slots t.common.isInitiator t.common.remotePublicKey).previous.map (·.id) = some e from hev)
      exact .inr (has_iff.mpr ⟨p, hp, hpe⟩)
    obtain ⟨t', ht', -⟩ := h₁.inv.live _ _ e hheld
    have hne := ne_of_get ht' hf₁.transport
    have honly := h₁.inv.only_transport (i := e) (by simp [ht'])
    dsimp only at h₂ ⊢
    rw [hev] at h₂
    rw [Option.toList_some, List.singleton_append, List.foldl_cons]
    refine Good.insert_pending (Good.evict_all _ ((h₂ _).evict_of hf₁.transport ?_ ?_ honly ht') ?_)
    · intro x hx
      rw [if_neg hne, if_pos rfl] at hx
      cases hx
    · intro i hi
      have hne' : (some e : Option SessionIndex) ≠ some i := fun he => hi (Option.some.inj he).symm
      rw [if_neg hne']
      rfl
    · exact evict_transport id hf₁.transport

end Establish

/-! ## The other updates -/

section Updates

variable {s : State K} {id : SessionIndex}

theorem Good.commit (h : Tidy log s) (id : SessionIndex) : Tidy log (s.commitSessionIndex id) := by
  refine ⟨{ h.inv with allocated := ?_ }, h.ordered⟩
  intro i hi
  have hi' : (s.allocatedIndices.insert id ()).get i = none := hi
  rw [get_insert] at hi'
  split_ifs at hi'
  exact h.inv.allocated i hi'

theorem Good.free_commit (h : Tidy log s) (hid : s.allocatedIndices.get id = none) : Free (s.commitSessionIndex id) id := by
  obtain ⟨h1, h2, h3⟩ := h.inv.allocated id hid
  exact ⟨h1, h2, h3, by simp [commitSessionIndex]⟩

variable {x : InitiatorState K} {key : PubKey} {r : ResponderState}

/-- What is noted under a free index concerns no session. -/
theorem Good.note (h : Tidy log s) (hf : Free s id) {log' : Initiations} (hlog : ∀ i, i ≠ id → log' i = log i) :
    Tidy log' s := by
  have hstarted : ∀ {i c}, i ≠ id → log.Started i c → log'.Started i c := by
    rintro i c hne ⟨ts, h1, h2⟩
    exact ⟨ts, (hlog i hne).trans h1, h2⟩
  refine ⟨{ h.inv with responder := ?_, live := ?_ }, h.ordered⟩
  · intro i r hr
    obtain ⟨h1, h2⟩ := h.inv.responder i r hr
    exact ⟨h1, hstarted (ne_of_get hr hf.responding) h2⟩
  · intro b k i hh
    obtain ⟨t, ht, h2, h3, h4⟩ := h.inv.live b k i hh
    exact ⟨t, ht, h2, h3, fun hb => hstarted (ne_of_get ht hf.transport) (h4 hb)⟩

theorem mem_acceptedIds_insertResponder {k : PubKey} :
    i ∈ (s.insertResponder id r key).acceptedIds k ↔ i ∈ s.acceptedIds k ∨ k = key ∧ i = id := by
  rw [mem_acceptedIds, mem_acceptedIds]
  by_cases hk : k = key
  · subst hk
    cases hm : s.acceptedSessionsByPeer.get k with
    | none =>
      simp only [insertResponder, get_insert_self, hm, Option.getD_none, Option.some.injEq, exists_eq_left', true_and]
      rw [get_insert]
      by_cases hi : i = id <;> simp [hi]
    | some set =>
      simp only [insertResponder, get_insert_self, hm, Option.getD_some, Option.some.injEq, exists_eq_left', true_and]
      rw [get_insert]
      by_cases hi : i = id <;> simp [hi]
  · simp [insertResponder, get_insert, hk]

/-- What a session is, apart from its timers and keys. -/
def ident (c : SessionState) : PubKey × Bool × Option Tai64N := (c.remotePublicKey, c.isInitiator, c.initiatorTimestamp)

theorem ident_eq {c c' : SessionState} (h : ident c = ident c') :
    c.remotePublicKey = c'.remotePublicKey ∧ c.isInitiator = c'.isInitiator ∧
      c.initiatorTimestamp = c'.initiatorTimestamp := by
  simpa [ident] using h

theorem Initiations.Started.of_ident {c c' : SessionState} (h : log.Started i c) (hi : ident c' = ident c) :
    log.Started i c' := by
  obtain ⟨hkey, -, hts⟩ := ident_eq hi
  obtain ⟨ts, h1, h2⟩ := h
  exact ⟨ts, hkey ▸ h1, hts.trans h2⟩

theorem get_ne_none_insert {κ α : Type} [DecidableEq κ] {m : AMap κ α} {k : κ} {a b : α} (h : m.get k = some a) (k' : κ) :
    (m.insert k b).get k' ≠ none ↔ m.get k' ≠ none := by
  rw [get_insert]
  by_cases hk : k' = k
  · subst hk
    simp [h]
  · simp [hk]

/-- Under every index there is what there was, up to the value that was replaced. -/
theorem get_insert_related {κ α : Type} [DecidableEq κ] {m : AMap κ α} {k : κ} {a b : α} {R : α → α → Prop}
    (hrefl : ∀ x, R x x) (h : m.get k = some a) (hab : R b a) {k' : κ} {x : α} (hx : m.get k' = some x) :
    ∃ y, (m.insert k b).get k' = some y ∧ R y x := by
  rw [get_insert]
  by_cases hk : k' = k
  · subst hk
    obtain rfl : a = x := Option.mem_unique h hx
    exact ⟨b, if_pos rfl, hab⟩
  · exact ⟨x, by rw [if_neg hk, hx], hrefl x⟩

theorem KeyAt.terminate {pk : PubKey} {addr : AddrPort} (h : KeyAt s s.transportSessions.get i key) :
    KeyAt (s.terminateSession id pk addr) (s.terminateSession id pk addr).transportSessions.get i key := by
  constructor
  · intro t ht
    rw [terminateSession_transport] at ht
    exact h.transport t (Option.ite_none_left_eq_some.mp ht).2
  · intro r hr
    rw [terminateSession_responding] at hr
    exact h.responding r (Option.ite_none_left_eq_some.mp hr).2
  · intro x hx
    rw [terminateSession_initiating] at hx
    exact h.initiating x (Option.ite_none_left_eq_some.mp hx).2

section

variable (h : Tidy log s)

include h

theorem Good.insertInitiator (hf : Free s id)
    (hx : x.common.isInitiator = true) (hkey : x.common.remotePublicKey = key) : Tidy log (s.insertInitiator id x key) := by
  have hget : ∀ i, i ≠ id → (s.insertInitiator id x key).initiatingSessions.get i = s.initiatingSessions.get i :=
    fun i hi => get_insert_ne _ x hi
  refine ⟨{ h.inv with initiated_live := ?_, initiator := ?_, responding_only := ?_, initiating_only := ?_
                       allocated := ?_ }, h.ordered⟩
  · intro k i hi
    rcases of_get_insert hi with hi | ⟨rfl, rfl⟩
    · obtain ⟨y, hy, hyk⟩ := h.inv.initiated_live k i hi
      exact ⟨y, get_insert_of_free hf.initiating hy, hyk⟩
    · exact ⟨x, get_insert_self _ _ _, hkey⟩
  · intro i y hy
    rcases of_get_insert hy with hy | ⟨-, rfl⟩
    · exact h.inv.initiator i y hy
    · exact hx
  · intro i hi
    have hne : i ≠ id := fun he => hi (he ▸ hf.responding)
    obtain ⟨h1, h2⟩ := h.inv.responding_only i hi
    exact ⟨h1, (hget i hne).trans h2⟩
  · intro i hi
    by_cases he : i = id
    · exact he ▸ hf.transport
    · exact h.inv.initiating_only i fun hn => hi ((hget i he).trans hn)
  · intro i hi
    have hne : i ≠ id := fun he => hf.allocated (he ▸ hi)
    obtain ⟨h1, h2, h3⟩ := h.inv.allocated i hi
    exact ⟨h1, h2, (hget i hne).trans h3⟩

theorem Good.insertResponder (hf : Free s id) (hrole : r.transport.common.isInitiator = false)
    (hts : log.Started id r.transport.common)
    (hkey : r.transport.common.remotePublicKey = key) : Tidy log (s.insertResponder id r key) := by
  have hget : ∀ i, i ≠ id → (s.insertResponder id r key).respondingSessions.get i = s.respondingSessions.get i :=
    fun i hi => get_insert_ne _ r hi
  refine ⟨{ h.inv with accepted := ?_, accepted_live := ?_, responder := ?_, responding_only := ?_, allocated := ?_ },
    h.ordered⟩
  · intro i y hy
    rw [mem_acceptedIds_insertResponder]
    rcases of_get_insert hy with hy | ⟨hi, rfl⟩
    · exact .inl (h.inv.accepted i y hy)
    · exact .inr ⟨hkey, hi⟩
  · intro k i hi
    rcases mem_acceptedIds_insertResponder.mp hi with hi | ⟨rfl, rfl⟩
    · obtain ⟨y, hy, hyk⟩ := h.inv.accepted_live k i hi
      exact ⟨y, get_insert_of_free hf.responding hy, hyk⟩
    · exact ⟨r, get_insert_self _ _ _, hkey⟩
  · intro i y hy
    rcases of_get_insert hy with hy | ⟨rfl, rfl⟩
    · exact h.inv.responder i y hy
    · exact ⟨hrole, hts⟩
  · intro i hi
    by_cases he : i = id
    · exact ⟨he ▸ hf.transport, he ▸ hf.initiating⟩
    · exact h.inv.responding_only i fun hn => hi ((hget i he).trans hn)
  · intro i hi
    have hne : i ≠ id := fun he => hf.allocated (he ▸ hi)
    obtain ⟨h1, h2, h3⟩ := h.inv.allocated i hi
    exact ⟨h1, (hget i hne).trans h2, h3⟩

theorem Good.touchInitiator {x' : InitiatorState K}
    (hx : s.initiatingSessions.get id = some x) (hi : ident x'.common = ident x.common) :
    Good log { s with initiatingSessions := s.initiatingSessions.insert id x' } s.transportSessions.get := by
  have hnone := get_ne_none_insert (b := x') hx
  refine ⟨{ h.inv with initiated_live := ?_, initiator := ?_, responding_only := ?_, initiating_only := ?_
                       allocated := ?_ }, h.ordered⟩
  · intro k i hk
    obtain ⟨y, hy, hyk⟩ := h.inv.initiated_live k i hk
    obtain ⟨z, hz, hzy⟩ := get_insert_related (R := fun a b => ident a.common = ident b.common) (fun _ => rfl) hx hi hy
    exact ⟨z, hz, (ident_eq hzy).1.trans hyk⟩
  · intro i y hy
    rcases of_get_insert hy with hy | ⟨-, rfl⟩
    · exact h.inv.initiator i y hy
    · rw [(ident_eq hi).2.1]
      exact h.inv.initiator id x hx
  · intro i hr
    obtain ⟨h1, h2⟩ := h.inv.responding_only i hr
    exact ⟨h1, not_not.mp (mt (hnone i).mp (not_not.mpr h2))⟩
  · intro i hne
    exact h.inv.initiating_only i ((hnone i).mp hne)
  · intro i ha
    obtain ⟨h1, h2, h3⟩ := h.inv.allocated i ha
    exact ⟨h1, h2, not_not.mp (mt (hnone i).mp (not_not.mpr h3))⟩

theorem Good.touchResponder {r' : ResponderState} (hr : s.respondingSessions.get id = some r)
    (hi : ident r'.transport.common = ident r.transport.common) :
    Good log { s with respondingSessions := s.respondingSessions.insert id r' } s.transportSessions.get := by
  have hnone := get_ne_none_insert (b := r') hr
  obtain ⟨hkey, hrole, -⟩ := ident_eq hi
  refine ⟨{ h.inv with accepted := ?_, accepted_live := ?_, responder := ?_, responding_only := ?_, allocated := ?_ },
    h.ordered⟩
  · intro i y hy
    rcases of_get_insert hy with hy | ⟨hid, rfl⟩
    · exact h.inv.accepted i y hy
    · rw [hkey, hid]
      exact h.inv.accepted id r hr
  · intro k i hk
    obtain ⟨y, hy, hyk⟩ := h.inv.accepted_live k i hk
    obtain ⟨z, hz, hzy⟩ := get_insert_related
      (R := fun a b => ident a.transport.common = ident b.transport.common) (fun _ => rfl) hr hi hy
    exact ⟨z, hz, (ident_eq hzy).1.trans hyk⟩
  · intro i y hy
    rcases of_get_insert hy with hy | ⟨rfl, rfl⟩
    · exact h.inv.responder i y hy
    · obtain ⟨h1, h2⟩ := h.inv.responder i r hr
      exact ⟨hrole.trans h1, h2.of_ident hi⟩
  · intro i hne
    exact h.inv.responding_only i ((hnone i).mp hne)
  · intro i ha
    obtain ⟨h1, h2, h3⟩ := h.inv.allocated i ha
    exact ⟨h1, not_not.mp (mt (hnone i).mp (not_not.mpr h2)), h3⟩

theorem Good.touchTransport {t : TransportState} (ht : s.transportSessions.get id = some t)
    (hi : ident t'.common = ident t.common) :
    Good log { s with transportSessions := s.transportSessions.insert id t' } (s.transportSessions.insert id t').get := by
  have hnone := get_ne_none_insert (b := t') ht
  have hnone' : ∀ i, s.transportSessions.get i = none → (s.transportSessions.insert id t').get i = none :=
    fun i hn => not_not.mp (mt (hnone i).mp (not_not.mpr hn))
  -- the same identity is found under every index
  have hback : ∀ i y, (s.transportSessions.insert id t').get i = some y →
      ∃ z, s.transportSessions.get i = some z ∧ ident y.common = ident z.common := by
    intro i y hy
    rcases of_get_insert hy with hy | ⟨rfl, rfl⟩
    · exact ⟨y, hy, rfl⟩
    · exact ⟨t, ht, hi⟩
  refine ⟨{ h.inv with slotted := ?_, live := ?_, responding_only := ?_, initiating_only := ?_, allocated := ?_ }, ?_⟩
  · intro i y hy
    obtain ⟨z, hz, hyz⟩ := hback i y hy
    obtain ⟨e1, e2, -⟩ := ident_eq hyz
    rw [e1, e2]
    exact h.inv.slotted i z hz
  · intro b k i hh
    obtain ⟨z, hz, h2, h3, h4⟩ := h.inv.live b k i hh
    obtain ⟨y, hy, hyz⟩ := get_insert_related (R := fun a b => ident a.common = ident b.common) (fun _ => rfl) ht hi hz
    obtain ⟨e1, e2, -⟩ := ident_eq hyz
    exact ⟨y, hy, e2.trans h2, e1.trans h3, fun hb => (h4 hb).of_ident hyz⟩
  · intro i hne
    obtain ⟨h1, h2⟩ := h.inv.responding_only i hne
    exact ⟨hnone' i h1, h2⟩
  · intro i hne
    exact hnone' i (h.inv.initiating_only i hne)
  · intro i ha
    obtain ⟨h1, h2⟩ := h.inv.allocated i ha
    exact ⟨hnone' i h1, h2⟩
  · intro k c p tc tp x y hc hp htc htp hx hy
    obtain ⟨zc, hzc, ec⟩ := hback _ tc htc
    obtain ⟨zp, hzp, ep⟩ := hback _ tp htp
    exact h.ordered k c p zc zp x y hc hp hzc hzp ((ident_eq ep).2.2 ▸ hx) ((ident_eq ec).2.2 ▸ hy)

theorem Good.removeInitiator (hx : s.initiatingSessions.get id = some x) :
    Tidy log (s.removeInitiator id) ∧ Free (s.removeInitiator id) id := by
  have htr := h.inv.initiating_only id (by simp [hx])
  have hresp : s.respondingSessions.get id = none := by
    by_contra hne
    rw [(h.inv.responding_only id hne).2] at hx
    cases hx
  have halloc : s.allocatedIndices.get id ≠ none := by
    intro ha
    rw [(h.inv.allocated id ha).2.2] at hx
    cases hx
  unfold State.removeInitiator
  rw [hx]
  refine ⟨h.shrink (fun i r hr => ⟨hr, h.inv.accepted i r hr⟩) (fun k i hk => ⟨hk, rfl⟩)
    (fun i y hy => (get_of_erase hy).1) ?_ rfl rfl, htr, hresp, by simp [get_erase], halloc⟩
  intro k i hk
  obtain ⟨hk, hne⟩ := get_forgetInitiated.mp hk
  refine ⟨hk, ?_⟩
  rw [get_erase, if_neg]
  intro he
  obtain ⟨y, hy, hyk⟩ := h.inv.initiated_live k i hk
  rw [he] at hy
  obtain rfl : x = y := Option.mem_unique hx hy
  exact hne ⟨hyk.symm, he⟩

theorem Good.removeResponder (hr : s.respondingSessions.get id = some r) :
    Tidy log (s.removeResponder id) ∧ Free (s.removeResponder id) id := by
  obtain ⟨htr, hinit⟩ := h.inv.responding_only id (by simp [hr])
  have halloc : s.allocatedIndices.get id ≠ none := by
    intro ha
    rw [(h.inv.allocated id ha).2.1] at hr
    cases hr
  unfold State.removeResponder
  rw [hr]
  refine ⟨h.shrink ?_ ?_ (fun i y hy => hy) (fun k i hk => ⟨hk, rfl⟩) rfl rfl,
    htr, by simp [get_erase], hinit, halloc⟩
  · intro i y hy
    obtain ⟨hy, hne⟩ := get_of_erase hy
    refine ⟨hy, ?_⟩
    rw [mem_acceptedIds]
    exact (get_forgetAccepted _ _ _ _ _).mpr ⟨mem_acceptedIds.mp (h.inv.accepted i y hy), fun he => hne he.2⟩
  · intro k i hk
    obtain ⟨hk, hne⟩ := (get_forgetAccepted _ _ _ _ _).mp (mem_acceptedIds.mp hk)
    have hk' := mem_acceptedIds.mpr hk
    refine ⟨hk', ?_⟩
    rw [get_erase, if_neg]
    intro he
    obtain ⟨y, hy, hyk⟩ := h.inv.accepted_live k i hk'
    rw [he] at hy
    obtain rfl : r = y := Option.mem_unique hr hy
    exact hne ⟨hyk.symm, he⟩

theorem Good.terminate (hkey : KeyAt s s.transportSessions.get id key) (addr : AddrPort) :
    Tidy log (s.terminateSession id key addr) := by
  have htr : (s.terminateSession id key addr).transportSessions.get =
      fun i => if i = id then none else s.transportSessions.get i := by
    funext i
    exact terminateSession_transport i
  rw [Tidy, htr]
  exact ⟨h.inv.terminate (fun t ht => ht) hkey, h.ordered.terminate h.inv (fun t ht => ht) hkey⟩

theorem Good.keyAt_idsOf (hi : i ∈ s.idsOf key) : KeyAt s s.transportSessions.get i key := by
  have hslot : ∀ b, (s.slots b key).Holds i → KeyAt s s.transportSessions.get i key := by
    intro b hh
    obtain ⟨t, ht, -, hk, -⟩ := h.inv.live b key i hh
    obtain ⟨hr, hx⟩ := h.inv.only_transport (i := i) (by simp [ht])
    exact ⟨fun t' ht' => by rw [← Option.mem_unique ht ht', hk], by simp [hr], by simp [hx]⟩
  unfold idsOf at hi
  rw [List.mem_dedup, List.mem_append, List.mem_append, Option.mem_toList] at hi
  rcases hi with (hi | hi) | hi
  · obtain ⟨x, hx, hk⟩ := h.inv.initiated_live key i hi
    have ht := h.inv.initiating_only i (by simp [hx])
    have hr : s.respondingSessions.get i = none := by
      by_contra hne
      rw [(h.inv.responding_only i hne).2] at hx
      cases hx
    exact ⟨by simp [ht], by simp [hr], fun x' hx' => by rw [← Option.mem_unique hx hx', hk]⟩
  · obtain ⟨r, hr, hk⟩ := h.inv.accepted_live key i hi
    obtain ⟨ht, hx⟩ := h.inv.responding_only i (by simp [hr])
    exact ⟨by simp [ht], fun r' hr' => by rw [← Option.mem_unique hr hr', hk], by simp [hx]⟩
  · cases hm : s.lastEstablishedSessionByPublicKey.get key with
    | none => simp [hm] at hi
    | some sess =>
      have hrole : ∀ b, s.slots b key = sess.role b := by
        intro b
        rw [slots, roleSlots, hm, Option.getD_some]
      rw [hm] at hi
      obtain ⟨slot, hmem, rfl⟩ := List.mem_map.mp hi
      have hof : ∀ r : RoleSessions, slot ∈ r.slots → r.Holds slot.id := by
        intro r hr
        rcases List.mem_append.mp hr with hr | hr
        · exact .inl (has_iff.mpr ⟨slot, Option.mem_toList.mp hr, rfl⟩)
        · exact .inr (has_iff.mpr ⟨slot, Option.mem_toList.mp hr, rfl⟩)
      rcases List.mem_append.mp hmem with hmem | hmem
      · exact hslot true (hrole true ▸ hof _ hmem)
      · exact hslot false (hrole false ▸ hof _ hmem)

theorem Good.terminateByPublicKey (key : PubKey) : Tidy log (s.terminateByPublicKey key) := by
  unfold State.terminateByPublicKey
  have hkeys : ∀ i ∈ s.idsOf key, KeyAt s s.transportSessions.get i key := fun i hi => h.keyAt_idsOf hi
  generalize s.idsOf key = ids at hkeys
  induction ids generalizing s with
  | nil => exact h
  | cons i ids ih =>
    rw [List.foldl_cons]
    cases s.addrOf i with
    | none => exact ih h fun j hj => hkeys j (.tail i hj)
    | some addr =>
      exact ih (h.terminate (hkeys i (.head _)) addr)
        fun j hj => (hkeys j (.tail i hj)).terminate

end

theorem scanFree_free {n : Nat} {c : SessionIndex} (h : s.scanFree n c = some i) : s.allocatedIndices.get i = none := by
  induction n generalizing c with
  | zero => simp [scanFree] at h
  | succ n ih =>
    unfold scanFree at h
    split_ifs at h with hc
    · exact ih h
    · obtain rfl : c = i := Option.some.inj h
      simpa [contains] using hc

end Updates

end State

end MonadBft.WireAuth
