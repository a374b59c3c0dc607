/-
  MonadBft.Node.EventQueue — the node's event queue (`node/queue.go`) under every interleaving of
  its producers, its closer and its one consumer.

  A step is one critical section or one channel operation. `push` and `close` edit the queue under
  the lock and signal after they have left it; a `pop` tries, reads `closed` in a second critical
  section and then waits for a signal, the channel holding at most one. So an event can come in
  between a `pop` finding nothing and its reading `closed`.

  - `step_inOrder`: what was returned, then what is queued, is what was pushed.
  - `step_wakes`: a `pop` that waits while there is something to answer has a signal on its way.
  - `drains_iff`: no `pop` answers that the queue is closed while an event is left in it, in a
    run, exactly if the queue is never closed at that one point with an event in it.

  `event_left_behind` closes it there: the event is never handled.
-/
import MonadBft.Lib.Steps

namespace MonadBft

open Lib

structure EventQueue (E : Type) where
  q : List E
  /-- A token lies in the channel, which has room for one. -/
  notify : Bool
  closed : Bool

namespace EventQueue

variable {E : Type}

/-! ## The critical sections -/

def new : EventQueue E := ⟨[], false, false⟩

/-- The critical section of `push`, on a queue that is open. -/
def append (q : EventQueue E) (e : E) : EventQueue E := { q with q := q.q ++ [e] }

/-- The send of `push` and `close`; with a token in the channel it does nothing. -/
def signal (q : EventQueue E) : EventQueue E := { q with notify := true }

def tryPop (q : EventQueue E) : Option (E × EventQueue E) :=
  match q.q with
  | [] => none
  | ev :: rest => some (ev, { q with q := rest })

def close (q : EventQueue E) : EventQueue E := { q with closed := true }

/-! ## Interleavings -/

inductive Consumer
  | idle
  | trying
  | checking
  | waiting
  deriving DecidableEq

structure System (E : Type) where
  queue : EventQueue E
  /-- Calls of `push` and `close` that have left the lock and have still to signal. -/
  signals : Nat
  consumer : Consumer
  /-- Ghost: a `pop` has answered that the queue is closed. -/
  ended : Bool
  /-- Ghost: the events that were appended, and those that were returned. -/
  pushed : List E
  popped : List E

inductive Action (E : Type)
  | push (e : E)
  | close
  | signal
  | pop
  | tryPop
  | readClosed
  | wake
  | ctxDone

def System.new : System E := ⟨.new, 0, .idle, false, [], []⟩

/-- One step; `error` is a step that cannot be taken. A `push` on a closed queue returns. -/
def step (s : System E) : Action E → Except Unit (System E)
  | .push e =>
    if s.queue.closed then .ok s
    else .ok { s with queue := s.queue.append e, signals := s.signals + 1, pushed := s.pushed ++ [e] }
  | .close => .ok { s with queue := s.queue.close, signals := s.signals + 1 }
  | .signal =>
    if 0 < s.signals then .ok { s with queue := s.queue.signal, signals := s.signals - 1 } else .error ()
  | .pop => if s.consumer = .idle then .ok { s with consumer := .trying } else .error ()
  | .tryPop =>
    if s.consumer = .trying then
      match s.queue.tryPop with
      | some (ev, queue) => .ok { s with queue := queue, consumer := .idle, popped := s.popped ++ [ev] }
      | none => .ok { s with consumer := .checking }
    else .error ()
  | .readClosed =>
    if s.consumer = .checking then
      if s.queue.closed then .ok { s with consumer := .idle, ended := true }
      else .ok { s with consumer := .waiting }
    else .error ()
  | .wake =>
    if s.consumer = .waiting ∧ s.queue.notify then
      .ok { s with queue := { s.queue with notify := false }, consumer := .trying }
    else .error ()
  | .ctxDone => if s.consumer = .waiting then .ok { s with consumer := .idle } else .error ()

/-! ## What every run keeps -/

variable {s s' : System E} {a : Action E}

def System.InOrder (s : System E) : Prop := s.popped ++ s.queue.q = s.pushed

/-- A `pop` that has found nothing does not sleep through an event or the end. -/
structure System.Wakes (s : System E) : Prop where
  event : s.consumer = .checking ∨ s.consumer = .waiting → s.queue.q ≠ [] → s.queue.notify ∨ 0 < s.signals
  closing : s.consumer = .waiting → s.queue.closed → s.queue.notify ∨ 0 < s.signals

theorem step_inOrder (hs : s.InOrder) (h : step s a = .ok s') : s'.InOrder := by
  unfold System.InOrder at *
  cases a <;> grind [step, append, close, signal, tryPop]

-- A push or a close brings its own signal; a token is taken only by a `pop` that tries again.
theorem step_wakes (hs : s.Wakes) (h : step s a = .ok s') : s'.Wakes := by
  obtain ⟨hevent, hclosing⟩ := hs
  constructor <;> cases a <;> grind [step, append, close, signal, tryPop]

/-! ## The end of the queue -/

/-- No `pop` has answered that the queue is closed, nor is bound to, with an event left. -/
structure System.Drains (s : System E) : Prop where
  checking : s.consumer = .checking → s.queue.closed → s.queue.q = []
  ended : s.ended → s.queue.closed ∧ s.queue.q = []

/-- The queue is not closed between a `pop` that found nothing and its reading `closed`, with an
event pushed in between. -/
def ClosedQuietly (s : System E) (a : Action E) : Prop :=
  a = .close → s.consumer = .checking → s.queue.q = []

theorem step_drains (hs : s.Drains) (h : step s a = .ok s') : s'.Drains ↔ ClosedQuietly s a := by
  obtain ⟨hchecking, hended⟩ := hs
  constructor
  · rintro ⟨hchecking', -⟩ rfl hconsumer
    cases h
    exact hchecking' hconsumer rfl
  · intro hquiet
    unfold ClosedQuietly at hquiet
    constructor <;> cases a <;> grind [step, append, close, signal, tryPop]

theorem System.new_inOrder : (System.new : System E).InOrder := rfl

theorem System.new_wakes : (System.new : System E).Wakes := by
  constructor <;> intro h <;> simp [System.new] at h

theorem System.new_drains : (System.new : System E).Drains := by
  constructor <;> intro h <;> simp [System.new] at h

/-- In every run the events come out in order, once each, and a `pop` does not sleep while one is
queued. They all come out before a `pop` answers that the queue is closed, after every prefix of
the run, exactly if each close is quiet. -/
theorem drains_iff (as : List (Action E)) : (∀ s, runAll step .new as = .ok s → s.InOrder ∧ s.Wakes) ∧
    ((∀ done s, done <+: as → runAll step .new done = .ok s → s.Drains ∧ (s.ended → s.popped = s.pushed)) ↔
      Kept step ClosedQuietly .new as) := by
  have hrun : ∀ {done : List (Action E)} {s}, runAll step .new done = .ok s → s.InOrder ∧ s.Wakes := by
    intro done s h
    exact ⟨runAll_invariant step_inOrder System.new_inOrder h, runAll_invariant step_wakes System.new_wakes h⟩
  refine ⟨fun s => hrun, ?_⟩
  rw [← prefix_invariant_iff (fun a _ _ _ => step_drains) System.new_drains]
  constructor
  · intro h done s hdone hs
    exact (h done s hdone hs).1
  · intro h done s hdone hs
    have hdrains := h done s hdone hs
    refine ⟨hdrains, fun hended => ?_⟩
    have horder := (hrun hs).1
    rwa [System.InOrder, (hdrains.ended hended).2, List.append_nil] at horder

/-- The queue is closed with an event in it, which is returned before the answer. -/
theorem drains_iff_closing : let s : System Nat := ⟨⟨[], true, true⟩, 1, .idle, true, [7], [7]⟩
    let as := [.push 7, .signal, .close, .pop, .tryPop, .pop, .tryPop, .readClosed]
    runAll step .new as = .ok s ∧ s.InOrder ∧ s.Drains := by
  intro s as
  have hrun : runAll step .new as = .ok s := rfl
  have hkept : Kept step ClosedQuietly .new as := by
    simp [as, Kept, step, System.new, new, append, close, signal, tryPop, ClosedQuietly]
  exact ⟨hrun, ((drains_iff as).1 s hrun).1, ((drains_iff as).2.mpr hkept as s List.prefix_rfl hrun).1⟩

/-- A `pop` finds nothing, an event is pushed and signalled, the queue is closed, and the `pop`
answers that it is closed. -/
theorem event_left_behind : runAll step .new [.pop, .tryPop, .push 7, .signal, .close, .readClosed] =
      .ok ⟨⟨[7], true, true⟩, 1, .idle, true, [7], []⟩ := rfl

end EventQueue

end MonadBft
