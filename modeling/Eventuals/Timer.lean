import Eventuals.Library.Transition
import Eventuals.Clock
import Eventuals.Handle

/-! `EventLoop::Clock::_Timer`: one timer, its clock, and every order of their callbacks. -/
namespace Eventuals.EventLoop.Timer

open Transition (Machine)

inductive Callback
  | timer
  | other (n : ℕ)
  deriving DecidableEq

structure State where
  handle : Handle
  clock : Clock Callback
  /-- The duration that the timer was made with. -/
  requested : ℤ
  nanoseconds : ℤ
  /-- The milliseconds that `uv_timer_start` was last called with. -/
  timeout : Option ℕ
  /-- What follows is history: the time the clock was advanced while the timer was submitted to
  it, and whether an `Advance` has ended that. -/
  elapsed : ℤ
  advancedPast : Bool
  deriving DecidableEq

def initial (registered : Bool) (requested : ℤ) (clock : Clock Callback) : State where
  handle := .initial registered
  clock := clock
  requested := requested
  nanoseconds := requested
  timeout := none
  elapsed := 0
  advancedPast := false

inductive Label
  | start
  | fail
  | stop
  | trigger
  /-- The event loop runs the callback of `context_`. -/
  | run
  | interrupt (stopped : ℤ)
  | expire (stopped : ℤ)
  | close
  | pause (uvNow others : ℕ)
  | resume
  | advance (nanoseconds : ℤ)
  /-- Something else is submitted to the clock. -/
  | submit (n : ℕ) (nanoseconds : ℤ)
  deriving DecidableEq

/-- The results of `uv_timer_init` and `uv_timer_start`. -/
structure Libuv where
  init : ℤ
  start : ℤ

/-- Both return zero for a handle that is not closing. -/
def Libuv.Documented (lib : Libuv) : Prop := lib.init = 0 ∧ lib.start = 0

/-- `std::chrono::duration_cast<std::chrono::milliseconds>`. -/
def milliseconds (nanoseconds : ℤ) : ℤ := nanoseconds.tdiv 1000000

/-- A signed count becomes the unsigned 64 bit parameter of `uv_timer_start`. -/
def toUInt64 (count : ℤ) : ℕ := (count % 2 ^ 64).toNat

namespace State

variable (overflow : ℤ → ℤ) (s : State)

def waiting : Bool := s.clock.pending.any fun p => p.callback = Callback.timer

/-- The clock calls the callback of the timer. -/
def release (nanoseconds : ℤ) : State :=
  { s with nanoseconds := nanoseconds, handle := s.handle.submit .start }

/-- The calls that a function of the clock makes, in their order. -/
def releases (s : State) : List (Callback × ℤ) → State
  | [] => s
  | (.timer, nanoseconds) :: calls => (s.release nanoseconds).releases calls
  | (.other _, _) :: calls => s.releases calls

def start : State :=
  let h := s.handle.start id
  if s.handle.refused then { s with handle := h }
  else
    let (clock, calls) := s.clock.submit overflow .timer s.nanoseconds
    { s with handle := h, clock := clock }.releases calls

/-- What the callback of the timer submits to the event loop. -/
def startTimer (lib : Libuv) : State :=
  let h := s.handle
  if h.started then { s with handle := h.abort .started }
  else
    let h : Handle := { h with started := true }
    if lib.init ≠ 0 then { s with handle := h.abort .init }
    else
      let timeout := toUInt64 (milliseconds s.nanoseconds)
      if h.error ≠ 0 then { s with handle := h.abort .error }
      else
        -- The timer is started twice in a row, and only the second result is looked at.
        let h : Handle := { h with error := lib.start, uv := .active }
        if h.error ≠ 0 then { s with handle := h.abort .error, timeout := some timeout }
        else
          let h : Handle := { h with error := lib.start }
          if h.error ≠ 0 then
            { s with
              handle := { h with uv := .inactive, completed := true }.uvClose .fail
              timeout := some timeout }
          else { s with handle := h, timeout := some timeout }

def run (lib : Libuv) : State :=
  match s.handle.context with
  | some .start =>
    let s : State := { s with handle := { s.handle with context := none } }
    if s.handle.completed then s else s.startTimer lib
  | _ => { s with handle := s.handle.run fun _ h => h }

/-- libuv stops a timer that does not repeat before it calls its callback. -/
def expire (stopped : ℤ) : State :=
  let h : Handle := { s.handle with uv := .inactive }
  if h.completed then { s with handle := h }
  else if h.error ≠ 0 then { s with handle := h.abort .error }
  else
    { s with
      handle := { h with completed := true, error := stopped }.uvClose (.unlessError .start) }

/-- The timer handles that `uv_walk` finds active, this one among `others`. -/
def timers (others : ℕ) : ℕ := others + if s.handle.uv = .active then 1 else 0

def pause (uvNow others : ℕ) : State :=
  match s.clock.pause overflow uvNow (s.timers others) with
  | none => { s with handle := s.handle.abort .clock }
  | some clock => { s with clock := clock }

def resume : State :=
  match s.clock.resume overflow with
  | none => { s with handle := s.handle.abort .clock }
  | some (clock, calls) => { s with clock := clock }.releases calls

def advance (nanoseconds : ℤ) : State :=
  match s.clock.advance overflow nanoseconds with
  | none => { s with handle := s.handle.abort .clock }
  | some (clock, calls) =>
    { s with
      clock := clock
      elapsed := if s.waiting then s.elapsed + nanoseconds else s.elapsed
      advancedPast := s.advancedPast || calls.any fun e => e.1 = Callback.timer }.releases calls

end State

def next (lib : Libuv) (overflow : ℤ → ℤ) (s : State) : Label → State
  | .start => s.start overflow
  | .fail => { s with handle := s.handle.fail }
  | .stop => { s with handle := s.handle.stop }
  | .trigger => { s with handle := s.handle.trigger }
  | .run => s.run lib
  | .interrupt stopped => { s with handle := s.handle.interrupt stopped }
  | .expire stopped => s.expire stopped
  | .close => { s with handle := s.handle.close }
  | .pause uvNow others => s.pause overflow uvNow others
  | .resume => s.resume overflow
  | .advance nanoseconds => s.advance overflow nanoseconds
  | .submit n nanoseconds =>
    { s with clock := (s.clock.submit overflow (.other n) nanoseconds).1 }

/-- Upstream calls once, and libuv runs the callbacks of what is active or closing. -/
def Enabled (s : State) (l : Label) : Prop :=
  s.handle.failed = none ∧
    match l with
    | .start | .fail | .stop => s.handle.entered = none
    | .trigger => s.handle.triggered = false
    | .run => s.handle.context.isSome = true
    | .interrupt _ => s.handle.interruptContext = true
    | .expire _ => s.handle.uv = .active
    | .close => s.handle.uv = .closing
    | .advance nanoseconds | .submit _ nanoseconds => Representable nanoseconds
    | .pause _ _ | .resume => True

/-- No sum or difference of the step overflows. -/
def Fits (s : State) : Label → Prop
  | .start => s.clock.isPaused = true → Representable (s.nanoseconds + s.clock.advanced)
  | .submit _ nanoseconds =>
    s.clock.isPaused = true → Representable (nanoseconds + s.clock.advanced)
  | .advance nanoseconds => Representable (s.clock.advanced + nanoseconds)
  | .resume => ∀ p ∈ s.clock.pending, Representable (p.nanoseconds - s.clock.advanced)
  | _ => True

instance (s : State) : ∀ l, Decidable (Enabled s l)
  | .start | .fail | .stop =>
    inferInstanceAs (Decidable (s.handle.failed = none ∧ s.handle.entered = none))
  | .trigger => inferInstanceAs (Decidable (s.handle.failed = none ∧ s.handle.triggered = false))
  | .run =>
    inferInstanceAs (Decidable (s.handle.failed = none ∧ s.handle.context.isSome = true))
  | .interrupt _ =>
    inferInstanceAs (Decidable (s.handle.failed = none ∧ s.handle.interruptContext = true))
  | .expire _ => inferInstanceAs (Decidable (s.handle.failed = none ∧ s.handle.uv = .active))
  | .close => inferInstanceAs (Decidable (s.handle.failed = none ∧ s.handle.uv = .closing))
  | .advance nanoseconds | .submit _ nanoseconds =>
    inferInstanceAs (Decidable (s.handle.failed = none ∧ Representable nanoseconds))
  | .pause _ _ | .resume => inferInstanceAs (Decidable (s.handle.failed = none ∧ True))

instance (s : State) : ∀ l, Decidable (Fits s l)
  | .start => inferInstanceAs (Decidable
      (s.clock.isPaused = true → Representable (s.nanoseconds + s.clock.advanced)))
  | .submit _ nanoseconds => inferInstanceAs (Decidable
      (s.clock.isPaused = true → Representable (nanoseconds + s.clock.advanced)))
  | .advance nanoseconds =>
    inferInstanceAs (Decidable (Representable (s.clock.advanced + nanoseconds)))
  | .resume => inferInstanceAs (Decidable
      (∀ p ∈ s.clock.pending, Representable (p.nanoseconds - s.clock.advanced)))
  | .fail | .stop | .trigger | .run | .interrupt _ | .expire _ | .close | .pause .. =>
    isTrue trivial

/-- The clock may have been used before, for other things than this timer. -/
def machine (lib : Libuv) (overflow : ℤ → ℤ) : Machine State Label where
  Initial s := ∃ registered requested clock, s = initial registered requested clock ∧
    Representable requested ∧ (∀ p ∈ clock.pending, p.callback ≠ .timer) ∧
    (clock.isPaused = false → clock.pending = [])
  Enabled := Enabled
  next := next lib overflow

instance (lib : Libuv) (overflow : ℤ → ℤ) (s : State) (l : Label) :
    Decidable ((machine lib overflow).Enabled s l) :=
  inferInstanceAs (Decidable (Enabled s l))

end Eventuals.EventLoop.Timer
