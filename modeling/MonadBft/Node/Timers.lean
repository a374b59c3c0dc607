/-
  MonadBft.Node.Timers — the node's timers (`node/timers.go`) under every interleaving of its
  calls with the callbacks of timers that have expired.

  A timer is armed until it is stopped or expires. Its callback then runs on its own: under the
  lock it takes the entry of its variant out of the map and reads `closed`, and later it delivers
  the event. `Stop` does nothing to a timer that has expired, and the callback does not look
  whether the entry is still its own. The entry may be that of the next timer of the variant,
  which is then armed and recorded nowhere.

  - `step_recorded`: a step leaves every armed timer recorded exactly if it is not such a callback.
  - `armed_iff`: so in a run no variant has an armed timer that is not the recorded one exactly if
    no callback runs while a timer of its variant is armed; a reset or a new schedule then stops
    what was armed, and after a close no timer delivers whose callback has not run yet.

  `delivers_after_reset` is a run in which a callback forgets its successor, and the reset misses it.
-/
import MonadBft.Lib.AMap
import MonadBft.Lib.Steps

namespace MonadBft

open Lib

/-- A `time.Timer` with its callback; the number tells it from others of its variant. -/
structure Timer (V E : Type) where
  id : Nat
  variant : V
  onTimeout : E
  deriving DecidableEq

structure TimerExec (V E : Type) where
  timers : AMap V (Timer V E)
  closed : Bool
  /-- Timers that are running. -/
  armed : List (Timer V E)
  /-- Timers whose callback has not come to the lock. -/
  expired : List (Timer V E)
  /-- Timers whose callback has left the lock and is about to call the sink. -/
  delivering : List (Timer V E)
  /-- Ghost: the timers whose event the sink was given. -/
  delivered : List (Timer V E)
  /-- The number of the next timer. -/
  next : Nat

namespace TimerExec

variable {V E : Type} [DecidableEq V] [DecidableEq E]

inductive Action (V E : Type)
  | schedule (variant : V) (onTimeout : E)
  | reset (variant : V)
  | close
  | expire (t : Timer V E)
  | callback (t : Timer V E)
  | deliver (t : Timer V E)

/-! ## The calls -/

/-- `newTimerExec`. -/
def new : TimerExec V E := ⟨AMap.empty, false, [], [], [], [], 0⟩

/-- `Stop` of each of the timers; it has no effect on one that has expired. -/
def stop (x : TimerExec V E) (ts : List (Timer V E)) : TimerExec V E :=
  { x with armed := x.armed.filter (· ∉ ts) }

def schedule (x : TimerExec V E) (variant : V) (onTimeout : E) : TimerExec V E :=
  if x.closed then x
  else
    let t := ⟨x.next, variant, onTimeout⟩
    let x := x.stop (x.timers.get variant).toList
    { x with timers := x.timers.insert variant t, armed := x.armed ++ [t], next := x.next + 1 }

def reset (x : TimerExec V E) (variant : V) : TimerExec V E :=
  match x.timers.get variant with
  | some old => { x.stop [old] with timers := x.timers.erase variant }
  | none => x

def close (x : TimerExec V E) : TimerExec V E :=
  { x.stop x.timers.values with timers := AMap.empty, closed := true }

/-- The critical section of a callback. -/
def callback (x : TimerExec V E) (t : Timer V E) : TimerExec V E :=
  { x with
    timers := x.timers.erase t.variant
    expired := x.expired.filter (· ≠ t)
    delivering := if x.closed then x.delivering else x.delivering ++ [t] }

/-- One step; `error` is a step that cannot be taken. -/
def step (x : TimerExec V E) : Action V E → Except Unit (TimerExec V E)
  | .schedule v e => .ok (x.schedule v e)
  | .reset v => .ok (x.reset v)
  | .close => .ok x.close
  | .expire t =>
    if t ∈ x.armed then .ok { x with armed := x.armed.filter (· ≠ t), expired := x.expired ++ [t] }
    else .error ()
  | .callback t => if t ∈ x.expired then .ok (x.callback t) else .error ()
  | .deliver t =>
    if t ∈ x.delivering then
      .ok { x with delivering := x.delivering.filter (· ≠ t), delivered := x.delivered ++ [t] }
    else .error ()

/-! ## Armed timers are recorded -/

variable {x x' y : TimerExec V E} {a : Action V E} {as : List (Action V E)} {t u : Timer V E} {v : V}

/-- So each variant has at most one. -/
def Recorded (x : TimerExec V E) : Prop := ∀ t ∈ x.armed, x.timers.get t.variant = some t

/-- No timer of its variant is armed when a callback takes the lock. -/
def Unsucceeded (x : TimerExec V E) (a : Action V E) : Prop :=
  ∀ t, a = .callback t → ∀ u ∈ x.armed, u.variant ≠ t.variant

omit [DecidableEq E] in
theorem Recorded.eq (hx : x.Recorded) (ht : t ∈ x.armed) (hu : u ∈ x.armed) (h : t.variant = u.variant) : t = u := by
  have htu := hx t ht
  rw [h, hx u hu] at htu
  exact (Option.some.inj htu).symm

theorem armed_close (hx : x.Recorded) : x.close.armed = [] := by
  refine List.eq_nil_iff_forall_not_mem.mpr fun t ht => ?_
  obtain ⟨harmed, hnot⟩ : t ∈ x.armed ∧ t ∉ x.timers.values := by simpa [close, stop] using ht
  exact hnot (List.mem_map_of_mem (AMap.get_eq_some.mp (hx t harmed)))

theorem step_recorded (hx : x.Recorded) (h : step x a = .ok x') : x'.Recorded ↔ Unsucceeded x a := by
  unfold Recorded Unsucceeded at *
  cases a with
  | callback t =>
    obtain ⟨-, rfl⟩ := ite_error_eq_ok.mp h
    constructor
    · rintro hx' t' ⟨⟩ u hu hv
      have := hx' u hu
      simp [callback, AMap.get_erase, hv] at this
    · intro hun u hu
      simpa [callback, AMap.get_erase, hun t rfl u hu] using hx u hu
  | close =>
    cases h
    refine iff_of_true (fun t ht => ?_) fun t ht => ?_
    · rw [armed_close hx] at ht
      cases ht
    · cases ht
  | _ => grind [step, schedule, reset, stop, AMap.get_insert, AMap.get_erase]

/-! ## What can still be delivered -/

/-- The timer has expired. -/
def Expired (x : TimerExec V E) (t : Timer V E) : Prop := t ∈ x.expired ∨ t ∈ x.delivering ∨ t ∈ x.delivered

/-- A timer that is armed or has expired was armed or had expired before, or is new. -/
structure Later (x y : TimerExec V E) : Prop where
  next : x.next ≤ y.next
  armed : ∀ t ∈ y.armed, t ∈ x.armed ∨ x.next ≤ t.id
  expired : ∀ t, y.Expired t → x.Expired t ∨ t ∈ x.armed ∨ x.next ≤ t.id

theorem step_later (h : step x a = .ok x') : Later x x' := by
  constructor <;> cases a <;> grind [step, schedule, reset, close, stop, callback, Expired]

omit [DecidableEq V] [DecidableEq E] in
theorem Later.trans (h : Later x x') (h' : Later x' y) : Later x y := by
  obtain ⟨hnext, harmed, hexpired⟩ := h
  obtain ⟨hnext', harmed', hexpired'⟩ := h'
  constructor <;> grind

theorem run_later (h : runAll step x as = .ok x') : Later x x' :=
  runAll_rel (fun _ => ⟨Nat.le_refl _, fun _ => .inl, fun _ => .inl⟩) Later.trans step_later h

/-- Once closed, no callback gets past the lock with an event. -/
def Closed (x y : TimerExec V E) : Prop :=
  x.closed → y.closed ∧ ∀ t, t ∈ y.delivering ∨ t ∈ y.delivered → t ∈ x.delivering ∨ t ∈ x.delivered

theorem step_closed (h : step x a = .ok x') : Closed x x' := by
  intro hclosed
  cases a <;> grind [step, schedule, reset, close, stop, callback]

theorem run_closed (h : runAll step x as = .ok x') : Closed x x' :=
  runAll_rel (fun _ h => ⟨h, fun _ => id⟩)
    (fun h h' hx => ⟨(h' (h hx).1).1, fun t ht => (h hx).2 t ((h' (h hx).1).2 t ht)⟩) step_closed h

/-! ## Runs -/

omit [DecidableEq E] in
theorem new_recorded : (new : TimerExec V E).Recorded := nofun

theorem recorded_iff (as : List (Action V E)) :
    (∀ done x, done <+: as → runAll step new done = .ok x → x.Recorded) ↔ Kept step Unsucceeded new as :=
  prefix_invariant_iff (fun _ _ _ _ => step_recorded) new_recorded

/-- After a reset, and after a new schedule, a timer of the variant is new or had expired: what
was armed was recorded, and is stopped. -/
theorem step_disarms (hx : x.Recorded) (ha : a = .reset v ∨ ∃ e, a = .schedule v e) (h : step x a = .ok x')
    (hopen : x.closed = false) (ht : x'.Expired t ∨ t ∈ x'.armed) (hv : t.variant = v) :
    x.Expired t ∨ x.next ≤ t.id := by
  unfold Recorded Expired at *
  obtain rfl | ⟨e, rfl⟩ := ha
  · grind [step, reset, stop]
  · grind [step, schedule, stop]

/-- After every prefix of a run each armed timer is the one recorded for its variant, exactly if
no callback runs while a timer of its variant is armed. In such a run a timer that was scheduled
before a reset or a schedule of its variant, and had not expired, does not deliver afterwards. In
no run does a timer deliver that had not come past the lock when the timers were closed. -/
theorem armed_iff (as : List (Action V E)) :
    ((∀ done x, done <+: as → runAll step new done = .ok x →
        x.Recorded ∧ ∀ t ∈ x.armed, ∀ u ∈ x.armed, t.variant = u.variant → t = u) ↔ Kept step Unsucceeded new as) ∧
    ∀ x a more y, runAll step new as = .ok x → runAll step x (a :: more) = .ok y → ∀ t ∈ y.delivered,
      (Kept step Unsucceeded new as → (a = .reset t.variant ∨ ∃ e, a = .schedule t.variant e) →
        t.id < x.next → x.Expired t) ∧ (a = .close → t ∈ x.delivering ∨ t ∈ x.delivered) := by
  refine ⟨?_, ?_⟩
  · rw [← recorded_iff]
    constructor
    · intro h done x hdone hx
      exact (h done x hdone hx).1
    · intro h done x hdone hx
      have hrec := h done x hdone hx
      exact ⟨hrec, fun t ht u hu => hrec.eq ht hu⟩
  · intro x a more y hx hmore t ht
    obtain ⟨x', hstep, hrest⟩ := runAll_cons.mp hmore
    constructor
    · intro hkept ha hid
      have hrec := (recorded_iff as).mpr hkept as x List.prefix_rfl hx
      cases hclosed : x.closed with
      | true => exact .inr ((run_closed hmore hclosed).2 t (.inr ht))
      | false =>
        have hnew := Nat.not_le.mpr hid
        have hold : x'.Expired t ∨ t ∈ x'.armed := by
          obtain hexp | harmed | hnext := (run_later hrest).expired t (.inr (.inr ht))
          · exact .inl hexp
          · exact .inr harmed
          · exact absurd (Nat.le_trans (step_later hstep).next hnext) hnew
        exact (step_disarms hrec ha hstep hclosed hold rfl).resolve_right hnew
    · rintro rfl
      cases hstep
      exact (run_closed hrest rfl).2 t (.inr ht)

/-- A schedule stops the timer that is armed, which then never delivers. Its successor delivers
after a reset of the variant, and had expired before it. -/
theorem armed_iff_replaced :
    let t : Timer Unit Nat := ⟨0, (), 5⟩
    let t' : Timer Unit Nat := ⟨1, (), 6⟩
    let x : TimerExec Unit Nat := ⟨AMap.empty.insert () t, false, [t], [], [], [], 1⟩
    let x' : TimerExec Unit Nat := ⟨AMap.empty.insert () t', false, [], [t'], [], [], 2⟩
    runAll step x [.schedule () 6, .expire t'] = .ok x' ∧ x'.Recorded ∧ x'.Expired t' ∧
      ∀ more y, runAll step x (.schedule () 6 :: more) = .ok y → t ∉ y.delivered := by
  intro t t' x x'
  have hrun : runAll step new [.schedule () 5] = .ok x := rfl
  have hrun' : runAll step new [.schedule () 5, .schedule () 6, .expire t'] = .ok x' := rfl
  have hkept : Kept step Unsucceeded new [.schedule () 5] := by
    simp [Kept, Unsucceeded]
  have hkept' : Kept step Unsucceeded new [.schedule () 5, .schedule () 6, .expire t'] := by
    simp [Kept, Unsucceeded]
  refine ⟨rfl, ((armed_iff _).1.mpr hkept' _ x' List.prefix_rfl hrun').1, ?_, ?_⟩
  · exact ((armed_iff _).2 x' (.reset ()) [.callback t', .deliver t'] _ hrun' rfl t' (by decide)).1 hkept'
      (.inl rfl) (by decide)
  · intro more y hy ht
    have hexp := ((armed_iff _).2 x _ more y hrun hy t ht).1 hkept (.inr ⟨6, rfl⟩) (by decide)
    simp [Expired, x] at hexp

/-- The callback of a timer that expired before its successor was scheduled takes out the entry of
the successor. The reset finds none, and the successor delivers after it. -/
theorem delivers_after_reset :
    let t : Timer Unit Nat := ⟨0, (), 5⟩
    let t' : Timer Unit Nat := ⟨1, (), 6⟩
    (runAll step new [.schedule () 5, .expire t, .schedule () 6, .callback t, .reset (), .expire t',
      .callback t', .deliver t']).map delivered = .ok [t'] := rfl

end TimerExec

end MonadBft
