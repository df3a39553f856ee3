import Mathlib.Data.List.Basic
import Eventuals.Library.Transition

/-! `Concurrent(f)`: the sections of its adaptor that hold the lock, and what runs between them
(`concurrent.h`), with the part of `Interrupt` that it uses (`interrupt.h`). Each section is one
step, with the acquiring and the releasing of the lock, and so are `Install()` and `Trigger()`: what
other threads do meanwhile is the subject of `Lock` and `Interrupt`. -/
namespace Eventuals.Concurrent

open Transition (Machine)

inductive StoppedOrError (E : Type*)
  | stopped
  | error (e : E)
  deriving DecidableEq

/-- How a stream or a fiber finishes: `none` when it ends of its own. -/
abbrev Outcome (E : Type*) := Option (StoppedOrError E)

/-- The `CHECK`s that a section may fail. -/
inductive Check
  | callback
  | context
  | notify
  | value
  | done
  | waiting
  deriving DecidableEq

/-- What `Reuse()` reads of a fiber's context; the scheduler decides it. -/
structure Context where
  inUse : Bool
  blocked : Bool

inductive Fiber.Control (V E : Type*)
  | created
  | submitted
  /-- Inside the eventual that `f` returned. -/
  | running
  /-- Waits for the lock with a value. -/
  | pushing (value : V)
  | epilogue (o : Outcome E)
  | finished
  deriving DecidableEq

/-- A `TypeErasedFiber`; of its interrupt and its context the model keeps whether the one has been
triggered and the other emplaced. -/
structure Fiber (V E : Type*) where
  done : Bool
  interrupted : Bool
  context : Bool
  control : Fiber.Control V E
  deriving DecidableEq

inductive Ingress (X E : Type*)
  | notBegun
  | awaitingNext
  /-- Waits for the lock in `CreateOrReuseFiber()`. -/
  | create (arg : X)
  | start (arg : X) (fiber : ℕ)
  | awaitingDone
  | epilogue (o : Outcome E)
  | finished
  /-- A value that `Body()` kept from it. -/
  | dropped
  deriving DecidableEq

inductive Egress
  | notBegun
  /-- It is downstream's turn. -/
  | idle
  | acquiring
  | waiting
  | awaitingEnded
  | terminated
  deriving DecidableEq

inductive WaitForDone
  | notBegun
  | waiting
  | acquiring
  | ending
  | finished
  deriving DecidableEq

/-- Where `done_` stands. -/
inductive Done
  | idle
  | acquiring
  | ran
  deriving DecidableEq

/-- Where `interrupt_` stands; `ahead` when it went for the lock ahead of the ingress. -/
inductive Interrupting
  | idle
  | acquiring (ahead : Bool)
  | ran
  deriving DecidableEq

/-- Whose handler the pipeline's interrupt holds; none once it has been triggered. -/
inductive Installed
  | placeholder
  | concurrent
  | upstream
  | triggered
  deriving DecidableEq

inductive HandlerState
  | uninstalled
  | installed
  | uninstalling
  | executed

def HandlerState.value : HandlerState → ℕ
  | .uninstalled => 0
  | .installed => 1
  | .uninstalling => 2
  | .executed => 3

structure State (X V E : Type*) where
  fibers : List (Fiber V E)
  upstreamDone : Bool
  downstreamDone : Bool
  fibersDone : Bool
  interrupted : Bool
  /-- Each value with the fiber it comes from. -/
  values : List (ℕ × V)
  stoppedOrError : Option (StoppedOrError E)
  /-- `notify_egress_` has been saved. -/
  egressSaved : Bool
  ingress : Ingress X E
  egress : Egress
  waitForDone : WaitForDone
  done : Done
  interrupt : Interrupting
  /-- `handler_`, and whether it still has its callback. -/
  handler : Option Bool
  installed : Installed
  failed : Option Check
  /-- What follows is history. Values as the fibers produced them. -/
  produced : List (ℕ × V)
  pushed : List (ℕ × V)
  delivered : List (ℕ × V)
  /-- Stops and errors of upstream and the fibers. -/
  failures : List (StoppedOrError E)
  /-- The same, in the order of the sections that recorded them. -/
  recorded : List (StoppedOrError E)
  terminals : List (Outcome E)
  upstreamOver : Bool
  doneCalled : Bool
  deriving DecidableEq

inductive Label (X V E : Type*)
  -- upstream
  | begin
  | upstreamValue (arg : X)
  | upstreamOutcome (o : Outcome E)
  | upstreamInstall
  -- downstream
  | next
  | downstreamDone
  -- the interrupt
  | trigger
  -- the eventuals that `f` returns
  | fiberValue (i : ℕ) (value : V)
  | fiberOutcome (i : ℕ) (o : Outcome E)
  -- `Concurrent` itself
  | ingressBegin
  | createOrReuseFiber (arg : X) (contexts : ℕ → Context)
  | startFiber (arg : X) (i : ℕ)
  | ingressEpilogue (o : Outcome E)
  | egress
  | waitForDone
  | ended
  | done
  | interrupt
  | fiberStart (i : ℕ)
  | push (i : ℕ) (value : V)
  | fiberEpilogue (i : ℕ) (o : Outcome E)

/-- The steps of ingress, egress, the fibers' own code and the sections of `done_`, `interrupt_`
and `wait_for_done_`. -/
def Label.internal {X V E : Type*} : Label X V E → Bool
  | .begin | .upstreamValue _ | .upstreamOutcome _ | .upstreamInstall | .next | .downstreamDone
  | .trigger | .fiberValue .. | .fiberOutcome .. => false
  | _ => true

variable {X V E : Type*}

section Fibers

def createFiber : Fiber V E :=
  { done := false, interrupted := false, context := false, control := .created }

def Fiber.reuse (fiber : Fiber V E) (context : Context) : Except Check (Option (Fiber V E)) :=
  if !fiber.done then .ok none
  else if !fiber.context then .error .context
  else if context.inUse || context.blocked then .ok none
  else .ok (some createFiber)

/-- The walk of `CreateOrReuseFiber()` along the list from its fiber number `i`. -/
def createOrReuse (contexts : ℕ → Context) :
    ℕ → List (Fiber V E) → Except Check (ℕ × List (Fiber V E))
  | i, [] => .ok (i, [createFiber])
  | i, fiber :: fibers =>
    match fiber.reuse (contexts i) with
    | .error c => .error c
    | .ok (some fiber) => .ok (i, fiber :: fibers)
    | .ok none =>
      match createOrReuse contexts (i + 1) fibers with
      | .error c => .error c
      | .ok (j, fibers) => .ok (j, fiber :: fibers)

def fibersDone (fibers : List (Fiber V E)) : Bool :=
  fibers.all Fiber.done

def Fiber.trigger (fiber : Fiber V E) : Fiber V E :=
  if fiber.done then fiber else { fiber with interrupted := true }

/-- The fibers afterwards and whether one had to be interrupted. -/
def interruptFibers (fibers : List (Fiber V E)) : List (Fiber V E) × Bool :=
  (fibers.map Fiber.trigger, fibers.any fun fiber => !fiber.done)

end Fibers

namespace State

variable (s : State X V E)

def fail (c : Check) : State X V E :=
  { s with failed := some c }

/-- Where fiber number `i` stands. -/
def control (i : ℕ) : Option (Fiber.Control V E) :=
  s.fibers[i]?.map Fiber.control

def setControl (i : ℕ) (control : Fiber.Control V E) : State X V E :=
  { s with fibers := s.fibers.modify i fun fiber => { fiber with control := control } }

end State

/-- A notification counts only while the egress waits. -/
def Egress.notified : Egress → Egress
  | .waiting => .acquiring
  | e => e

def WaitForDone.notified : WaitForDone → WaitForDone
  | .waiting => .acquiring
  | w => w

namespace State

variable (s : State X V E)

def notifyEgress : State X V E :=
  if s.egressSaved then { s with egress := s.egress.notified } else s.fail .notify

def notifyDone : State X V E :=
  if s.waitForDone = .notBegun then s.fail .notify
  else { s with waitForDone := s.waitForDone.notified }

/-- The end of the fibers' epilogues and of `Interrupt()`. -/
def notifyAll : State X V E :=
  if s.upstreamDone && s.fibersDone then s.notifyEgress.notifyDone else s

/-- `Begin()`: nothing else has started, so `WaitForDone()` runs up to its wait. -/
def begin : State X V E :=
  { s with waitForDone := .waiting, egress := .idle }

/-- `Fail()` and `Stop()` go past the adaptor as long as there is no ingress. -/
def upstreamOutcome (o : Outcome E) : State X V E :=
  if s.egress = .notBegun then
    { s with
      egress := .terminated, terminals := s.terminals ++ [o], upstreamOver := true,
      failures := s.failures ++ o.toList, recorded := s.recorded ++ o.toList }
  else
    { s with
      ingress := .epilogue o, upstreamOver := true, failures := s.failures ++ o.toList }

def installOrExecuteIfTriggered : Except Check (State X V E × HandlerState) :=
  if s.handler = some true then
    if s.installed = .triggered then
      .ok ({ s with handler := some false, interrupt := .acquiring true }, .executed)
    else .ok ({ s with installed := .concurrent }, .installed)
  else .error .callback

end State

/-- `(handler_.has_value() && handler_->InstallOrExecuteIfTriggered()) != EXECUTED`, where the left
side is a `bool` and is compared as a number. -/
def HandlerState.passes (state : HandlerState) : Bool :=
  (state.value != 0).toNat != HandlerState.executed.value

namespace State

variable (s : State X V E)

def body (arg : X) : State X V E :=
  match s.handler with
  | none => { s with ingress := .create arg }
  | some _ =>
    match s.installOrExecuteIfTriggered with
    | .error c => s.fail c
    | .ok (s, state) =>
      if state.passes then { s with ingress := .create arg } else { s with ingress := .dropped }

/-- `Trigger()` runs the callback of the handler that the interrupt holds. -/
def trigger : State X V E :=
  if s.installed = .concurrent then
    if s.handler = some true then
      { s with installed := .triggered, handler := some false, interrupt := .acquiring false }
    else s.fail .callback
  else { s with installed := .triggered }

/-- `Ingress()` up to the `Until()`, which asks upstream to be done where there is no fiber. -/
def createOrReuseFiber (arg : X) (contexts : ℕ → Context) : State X V E :=
  if !(s.downstreamDone || s.interrupted || s.stoppedOrError.isSome) then
    match createOrReuse contexts 0 s.fibers with
    | .error c => s.fail c
    | .ok (i, fibers) =>
      { s with fibers := fibers, fibersDone := false, ingress := .start arg i }
  else { s with ingress := .awaitingDone }

def startFiber (i : ℕ) : State X V E :=
  { s with
    fibers := s.fibers.modify i fun fiber =>
      { fiber with context := true, control := .submitted }
    ingress := .awaitingNext }

def record (o : Outcome E) : State X V E :=
  { s with stoppedOrError := s.stoppedOrError.or o, recorded := s.recorded ++ o.toList }

def ingressEpilogue (o : Outcome E) : State X V E :=
  let s := { s.record o with
    upstreamDone := true, fibersDone := Concurrent.fibersDone s.fibers, ingress := .finished }
  if s.fibersDone then s.notifyEgress.notifyDone else s

/-- The section of `Map()` in `FiberEventual()`; afterwards `Loop()` asks for the next value. -/
def push (i : ℕ) (value : V) : State X V E :=
  ({ s.setControl i .running with
    values := s.values ++ [(i, value)], pushed := s.pushed ++ [(i, value)] }).notifyEgress

/-- `InterruptFibers()`, with `fibers_done_` set to its negation. -/
def interruptFibers : State X V E :=
  { s with
    fibers := (Concurrent.interruptFibers s.fibers).1
    fibersDone := !(Concurrent.interruptFibers s.fibers).2 }

def finishFiber (i : ℕ) : State X V E :=
  { s with
    fibers := s.fibers.modify i fun fiber => { fiber with done := true, control := .finished } }

def fiberEpilogue (i : ℕ) (o : Outcome E) : State X V E :=
  let s := (s.finishFiber i).record o
  let s :=
    if o.isSome then s.interruptFibers
    else { s with fibersDone := Concurrent.fibersDone s.fibers }
  s.notifyAll

def interruptSection : State X V E :=
  ({ s with interrupted := true, interrupt := .ran }.interruptFibers).notifyAll

def callDone : State X V E :=
  if s.done = .idle then { s with done := .acquiring } else s.fail .done

def doneSection : State X V E :=
  let s := { s with downstreamDone := true, done := .ran }.interruptFibers
  if s.upstreamDone && s.fibersDone then s.notifyDone else s

def waitForDoneSection : State X V E :=
  if !s.downstreamDone || !s.upstreamDone || !s.fibersDone then { s with waitForDone := .waiting }
  else { s with waitForDone := .ending }

/-- `egress_->Ended()`. -/
def endedSection : State X V E :=
  if s.egress = .waiting ∨ s.egress = .acquiring then s.fail .waiting
  else
    { s with waitForDone := .finished, egress := .terminated, terminals := s.terminals ++ [none] }

/-- The section of `Egress()`, and `Until()` after it. -/
def egressSection : State X V E :=
  let s := { s with egressSaved := true }
  if s.values.isEmpty && !(s.upstreamDone && s.fibersDone) then { s with egress := .waiting }
  else if s.stoppedOrError.isSome && s.upstreamDone && s.fibersDone then
    { s with egress := .terminated, terminals := s.terminals ++ [s.stoppedOrError] }
  else
    match s.values with
    | value :: values =>
      { s with values := values, delivered := s.delivered ++ [value], egress := .idle }
    | [] =>
      if s.upstreamDone && s.fibersDone then { s with egress := .awaitingEnded }.callDone
      else s.fail .value

end State

/-- What each step of the program, and of what it is composed with, waits for. -/
def Ready (s : State X V E) : Label X V E → Prop
  | .begin => s.egress = .notBegun
  | .upstreamValue _ => s.ingress = .awaitingNext
  | .upstreamOutcome o =>
    s.egress = .notBegun ∧ o.isSome ∨ s.ingress = .awaitingNext ∨ s.ingress = .awaitingDone
  | .upstreamInstall =>
    s.handler.isSome ∧ s.installed ≠ .triggered ∧
      (s.ingress = .notBegun ∨ s.ingress = .awaitingNext ∨ s.ingress = .awaitingDone)
  | .next | .downstreamDone => s.egress = .idle
  | .trigger => s.handler.isSome ∧ s.installed ≠ .triggered
  | .fiberValue i _ | .fiberOutcome i _ => s.control i = some .running
  | .ingressBegin => s.egressSaved ∧ s.ingress = .notBegun
  | .createOrReuseFiber arg _ => s.ingress = .create arg ∧ s.interrupt ≠ .acquiring true
  | .startFiber arg i => s.ingress = .start arg i
  | .ingressEpilogue o => s.ingress = .epilogue o
  | .egress => s.egress = .acquiring
  | .waitForDone => s.waitForDone = .acquiring
  | .ended => s.waitForDone = .ending
  | .done => s.done = .acquiring
  | .interrupt => ∃ ahead, s.interrupt = .acquiring ahead
  | .fiberStart i => s.control i = some .submitted
  | .push i value => s.control i = some (.pushing value)
  | .fiberEpilogue i o => s.control i = some (.epilogue o)

def Enabled (s : State X V E) (l : Label X V E) : Prop :=
  s.failed = none ∧ Ready s l

def next (s : State X V E) : Label X V E → State X V E
  | .begin => s.begin
  | .upstreamValue arg => s.body arg
  | .upstreamOutcome o => s.upstreamOutcome o
  | .upstreamInstall => { s with installed := .upstream }
  | .next => { s with egress := .acquiring }
  | .downstreamDone => { s with egress := .awaitingEnded, doneCalled := true }.callDone
  | .trigger => s.trigger
  | .fiberValue i value =>
    { s.setControl i (.pushing value) with produced := s.produced ++ [(i, value)] }
  | .fiberOutcome i o =>
    { s.setControl i (.epilogue o) with failures := s.failures ++ o.toList }
  | .ingressBegin => { s with ingress := .awaitingNext }
  | .createOrReuseFiber arg contexts => s.createOrReuseFiber arg contexts
  | .startFiber _ i => s.startFiber i
  | .ingressEpilogue o => s.ingressEpilogue o
  | .egress => s.egressSection
  | .waitForDone => s.waitForDoneSection
  | .ended => s.endedSection
  | .done => s.doneSection
  | .interrupt => s.interruptSection
  | .fiberStart i => s.setControl i .running
  | .push i value => s.push i value
  | .fiberEpilogue i o => s.fiberEpilogue i o

/-- Before `Begin()`; the interrupt is registered or it is not. -/
def State.init (X V E : Type*) (registered : Bool) : State X V E where
  fibers := []
  upstreamDone := false
  downstreamDone := false
  fibersDone := false
  interrupted := false
  values := []
  stoppedOrError := none
  egressSaved := false
  ingress := .notBegun
  egress := .notBegun
  waitForDone := .notBegun
  done := .idle
  interrupt := .idle
  handler := if registered then some true else none
  installed := .placeholder
  failed := none
  produced := []
  pushed := []
  delivered := []
  failures := []
  recorded := []
  terminals := []
  upstreamOver := false
  doneCalled := false

def machine (X V E : Type*) : Machine (State X V E) (Label X V E) where
  Initial s := ∃ registered, s = .init X V E registered
  Enabled := Enabled
  next := next

section Executing

variable [DecidableEq X] [DecidableEq V] [DecidableEq E]

instance (s : State X V E) : (l : Label X V E) → Decidable (Ready s l)
  | .begin => inferInstanceAs (Decidable (s.egress = .notBegun))
  | .upstreamValue _ => inferInstanceAs (Decidable (s.ingress = .awaitingNext))
  | .upstreamOutcome o =>
    inferInstanceAs (Decidable (s.egress = .notBegun ∧ o.isSome ∨ s.ingress = .awaitingNext ∨
      s.ingress = .awaitingDone))
  | .upstreamInstall =>
    inferInstanceAs (Decidable (s.handler.isSome ∧ s.installed ≠ .triggered ∧
      (s.ingress = .notBegun ∨ s.ingress = .awaitingNext ∨ s.ingress = .awaitingDone)))
  | .next | .downstreamDone => inferInstanceAs (Decidable (s.egress = .idle))
  | .trigger => inferInstanceAs (Decidable (s.handler.isSome ∧ s.installed ≠ .triggered))
  | .fiberValue i _ | .fiberOutcome i _ =>
    inferInstanceAs (Decidable (s.control i = some .running))
  | .ingressBegin => inferInstanceAs (Decidable (s.egressSaved ∧ s.ingress = .notBegun))
  | .createOrReuseFiber arg _ =>
    inferInstanceAs (Decidable (s.ingress = .create arg ∧ s.interrupt ≠ .acquiring true))
  | .startFiber arg i => inferInstanceAs (Decidable (s.ingress = .start arg i))
  | .ingressEpilogue o => inferInstanceAs (Decidable (s.ingress = .epilogue o))
  | .egress => inferInstanceAs (Decidable (s.egress = .acquiring))
  | .waitForDone => inferInstanceAs (Decidable (s.waitForDone = .acquiring))
  | .ended => inferInstanceAs (Decidable (s.waitForDone = .ending))
  | .done => inferInstanceAs (Decidable (s.done = .acquiring))
  | .interrupt =>
    decidable_of_iff (s.interrupt = .acquiring true ∨ s.interrupt = .acquiring false)
      (by simp [Ready, or_comm])
  | .fiberStart i => inferInstanceAs (Decidable (s.control i = some .submitted))
  | .push i value => inferInstanceAs (Decidable (s.control i = some (.pushing value)))
  | .fiberEpilogue i o => inferInstanceAs (Decidable (s.control i = some (.epilogue o)))

instance (s : State X V E) (l : Label X V E) : Decidable ((machine X V E).Enabled s l) :=
  inferInstanceAs (Decidable (s.failed = none ∧ Ready s l))

end Executing

end Eventuals.Concurrent
