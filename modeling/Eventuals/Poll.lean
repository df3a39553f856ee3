import Eventuals.Library.Transition
import Eventuals.Handle

/-! `EventLoop::Poll`: a stream that polls a descriptor once for each `Next()`, and every order of
its callbacks and of what downstream does. -/
namespace Eventuals.EventLoop.Poll

open Transition (Machine)

/-- What passes between the continuation and downstream. -/
inductive Event
  | call (c : Call)
  /-- `Next()` or `Done()`. -/
  | request
  deriving DecidableEq

structure State where
  handle : Handle
  /-- Downstream works on `Begin` or on a `Body`, and has not asked for more yet. -/
  busy : Bool
  events : List Event
  deriving DecidableEq

def initial (registered : Bool) : State := ⟨.initial registered, false, []⟩

inductive Label
  | start
  | fail
  | stop
  | trigger
  | next
  | done
  /-- The event loop runs the callback of `context_`; the results of `uv_poll_init`,
  `uv_poll_start` and `uv_poll_stop`, where it calls them. -/
  | run (init started stopped : ℤ)
  | interrupt (stopped : ℤ)
  /-- libuv reports events, or an error in `status`. -/
  | poll (status stopped : ℤ)
  | close
  deriving DecidableEq

section Callbacks

variable (h : Handle)

/-- What `Start()` submits. -/
def startPoll (init : ℤ) : Handle :=
  if h.started then h.abort .started
  else
    let h : Handle := { h with started := true, error := init }
    if init = 0 then { h with uv := .inactive }.call .begin
    else { h with completed := true, closed := true }.call .fail

/-- What `Next()` submits. -/
def nextPoll (started : ℤ) : Handle :=
  if ¬ h.started then h.abort .started
  else
    let h : Handle := { h with error := started }
    if started = 0 then { h with uv := .active } else { h with completed := true }.uvClose .fail

/-- What `Done()` submits. -/
def donePoll (stopped : ℤ) : Handle :=
  if ¬ h.started then h.abort .started
  else
    let h : Handle :=
      { h with completed := true, error := if h.uv = Uv.active then stopped else h.error }
    h.uvClose (.unlessError .ended)

/-- The callback of `uv_poll_start`. -/
def onPoll (status stopped : ℤ) : Handle :=
  if h.completed then h
  else if h.error ≠ 0 then h.abort .error
  else
    let h : Handle := { h with uv := .inactive, error := stopped }
    if status = 0 ∧ stopped = 0 then h.call .body
    else
      { h with completed := true, error := if stopped = 0 then status else stopped }.uvClose .fail

def body (init started stopped : ℤ) : Submission → Handle → Handle
  | .next, h => nextPoll h started
  | .done, h => donePoll h stopped
  | _, h => startPoll h init

end Callbacks

/-- The calls that a step of the handle makes are handed to downstream. -/
def State.step (s : State) (h : Handle) : State :=
  let calls := (h.calls.drop s.handle.calls.length).map Prod.fst
  { handle := h
    busy := s.busy || calls.any fun c => c = Call.begin || c = Call.body
    events := s.events ++ calls.map .call }

def State.request (s : State) (r : Submission) : State :=
  { handle := s.handle.submit r, busy := false, events := s.events ++ [.request] }

def next (s : State) : Label → State
  | .start => s.step (s.handle.start (·.submit .start))
  | .fail => s.step s.handle.fail
  | .stop => s.step s.handle.stop
  | .trigger => s.step s.handle.trigger
  | .next => s.request .next
  | .done => s.request .done
  | .run init started stopped => s.step (s.handle.run (body init started stopped))
  | .interrupt stopped => s.step (s.handle.interrupt stopped)
  | .poll status stopped => s.step (onPoll s.handle status stopped)
  | .close => s.step s.handle.close

/-- Downstream asks once for each `Begin` and `Body`; libuv reports on an active handle. -/
def Enabled (s : State) (l : Label) : Prop :=
  s.handle.failed = none ∧
    match l with
    | .start | .fail | .stop => s.handle.entered = none
    | .trigger => s.handle.triggered = false
    | .next | .done => s.busy = true
    | .run _ _ _ => s.handle.context.isSome = true
    | .interrupt _ => s.handle.interruptContext = true
    | .poll _ _ => s.handle.uv = .active
    | .close => s.handle.uv = .closing

instance (s : State) : ∀ l, Decidable (Enabled s l)
  | .start | .fail | .stop =>
    inferInstanceAs (Decidable (s.handle.failed = none ∧ s.handle.entered = none))
  | .trigger => inferInstanceAs (Decidable (s.handle.failed = none ∧ s.handle.triggered = false))
  | .next | .done => inferInstanceAs (Decidable (s.handle.failed = none ∧ s.busy = true))
  | .run _ _ _ =>
    inferInstanceAs (Decidable (s.handle.failed = none ∧ s.handle.context.isSome = true))
  | .interrupt _ =>
    inferInstanceAs (Decidable (s.handle.failed = none ∧ s.handle.interruptContext = true))
  | .poll _ _ => inferInstanceAs (Decidable (s.handle.failed = none ∧ s.handle.uv = .active))
  | .close => inferInstanceAs (Decidable (s.handle.failed = none ∧ s.handle.uv = .closing))

def machine : Machine State Label where
  Initial s := ∃ registered, s = initial registered
  Enabled := Enabled
  next := next

instance (s : State) (l : Label) : Decidable (machine.Enabled s l) :=
  inferInstanceAs (Decidable (Enabled s l))

/-- Where downstream stands in the protocol of a stream. -/
inductive Downstream
  | idle
  | processing
  | awaiting
  | finished
  deriving DecidableEq

/-- The events that the protocol allows: one for each request, and none after the last. -/
def Downstream.event : Downstream → Event → Option Downstream
  | .idle, .call .begin => some .processing
  | .idle, .call .fail | .idle, .call .stop => some .finished
  | .processing, .request => some .awaiting
  | .awaiting, .call .body => some .processing
  | .awaiting, .call .ended | .awaiting, .call .fail | .awaiting, .call .stop => some .finished
  | _, _ => none

/-- Where the events lead, if each of them was allowed. -/
def Downstream.after (events : List Event) : Option Downstream :=
  events.foldlM Downstream.event .idle

def State.Obeys (s : State) : Prop := (Downstream.after s.events).isSome = true

instance (s : State) : Decidable s.Obeys :=
  inferInstanceAs (Decidable ((Downstream.after s.events).isSome = true))

/-- The loop does not run the interrupt of a started stream while downstream has nothing asked. -/
def Asked (s : State) : Label → Prop
  | .interrupt _ => s.handle.started = true → s.handle.completed = false → s.busy = false
  | _ => True

instance (s : State) : DecidablePred (Asked s)
  | .interrupt _ =>
    inferInstanceAs
      (Decidable (s.handle.started = true → s.handle.completed = false → s.busy = false))
  | .start | .fail | .stop | .trigger | .next | .done | .run _ _ _ | .poll _ _ | .close =>
    .isTrue trivial

end Eventuals.EventLoop.Poll
