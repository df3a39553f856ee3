import Mathlib.Data.List.Basic
import Eventuals.Library.Transition

/-! `DoAll()` and `ForkJoin()`: each fiber writes the slot of its eventual, and the last one to
count down calls the continuation with what is in all of them (`do-all.h`, `fork-join.h`). -/
namespace Eventuals.Join

open Transition (Machine)

/-- The two differ in how `Start()` makes the fibers. -/
inductive Construct
  | doAll
  | forkJoin
  deriving DecidableEq

/-- What an eventual tells its continuation. -/
inductive Signal (T E : Type*)
  | start (value : T)
  | fail (error : E)
  | stop
  deriving DecidableEq

inductive StoppedOrError (E : Type*)
  | stopped
  | error (e : E)
  deriving DecidableEq

inductive Slot (V E : Type*)
  | undefined
  | value (value : V)
  | stoppedOrError (e : StoppedOrError E)
  deriving DecidableEq

inductive Check
  | value
  | stoppedOrError
  deriving DecidableEq

variable {V E : Type*}

section Values

/-- What the terminal callbacks emplace. -/
def Signal.slot : Signal V E → Slot V E
  | .start value => .value value
  | .fail error => .stoppedOrError (.error error)
  | .stop => .stoppedOrError .stopped

def extractStoppedOrError (stoppedOrError : Option (StoppedOrError E)) :
    Slot V E → Option (StoppedOrError E)
  | .stoppedOrError e =>
    match stoppedOrError with
    | some .stopped => stoppedOrError
    | _ => some e
  | _ => stoppedOrError

def DoAll.getStoppedOrErrorIfExists (values : List (Slot V E)) : Option (StoppedOrError E) :=
  values.foldl extractStoppedOrError none

def ForkJoin.extract : Option (StoppedOrError E) → List (Slot V E) → Option (StoppedOrError E)
  | stoppedOrError, [] => stoppedOrError
  | stoppedOrError, .stoppedOrError e :: values =>
    match stoppedOrError with
    | some .stopped => stoppedOrError
    | _ => ForkJoin.extract (some e) values
  | stoppedOrError, _ :: values => ForkJoin.extract stoppedOrError values

def ForkJoin.getStoppedOrErrorIfExists (values : List (Slot V E)) : Option (StoppedOrError E) :=
  ForkJoin.extract none values

def Construct.getStoppedOrErrorIfExists :
    Construct → List (Slot V E) → Option (StoppedOrError E)
  | .doAll => DoAll.getStoppedOrErrorIfExists
  | .forkJoin => ForkJoin.getStoppedOrErrorIfExists

/-- `GetTupleOfValues()` and `GetVectorOfValues()`. -/
def getValues : List (Slot V E) → Except Check (List V)
  | [] => .ok []
  | .value value :: values =>
    match getValues values with
    | .error c => .error c
    | .ok values => .ok (value :: values)
  | _ :: _ => .error .value

/-- What the last fiber calls the continuation with, from the callback for its `completion`. -/
def Construct.complete (construct : Construct) (values : List (Slot V E))
    (completion : Signal V E) : Except Check (Signal (List V) E) :=
  match construct.getStoppedOrErrorIfExists values with
  | some .stopped => .ok .stop
  | some (.error e) => .ok (.fail e)
  | none =>
    match completion with
    | .start _ =>
      match getValues values with
      | .error c => .error c
      | .ok values => .ok (.start values)
    | _ => .error .stoppedOrError

end Values

inductive Fiber.Control (V E : Type*)
  | created
  /-- Inside its eventual. -/
  | running
  /-- In a terminal callback, about to emplace its slot. -/
  | writing (completion : Signal V E)
  | decrementing (completion : Signal V E)
  /-- It is the last. -/
  | completing (completion : Signal V E)
  /-- About to call `interrupter_()`. -/
  | interrupting
  /-- About to trigger the interrupt of fiber `j`, of the fibers that `interrupter_()` found. -/
  | triggering (j fibers : ℕ)
  | returned
  deriving DecidableEq

structure Fiber (V E : Type*) where
  control : Fiber.Control V E
  /-- Its interrupt has been triggered. -/
  interrupted : Bool
  /-- How its eventual completed. -/
  completion : Option (Signal V E)
  deriving DecidableEq

inductive Start
  | notStarted
  /-- About to build fiber number `index`, or all of them. -/
  | building (index : ℕ)
  | submitting (index : ℕ)
  | returned
  deriving DecidableEq

/-- Where the callback of `handler_` stands. -/
inductive Handler
  | uninstalled
  | installed
  | interrupting
  | triggering (j fibers : ℕ)
  | returned
  deriving DecidableEq

structure State (V E : Type*) where
  start : Start
  fibers : List (Fiber V E)
  values : List (Slot V E)
  counter : ℕ
  handler : Handler
  failed : Option Check
  /-- `interrupter_()` went for `fibers_` before there were any. -/
  missing : Bool
  /-- What follows is history. Calls of the continuation, by a fiber or by `Start()`. -/
  calls : List (Option ℕ × Signal (List V) E)
  /-- The fibers in the order in which they counted down. -/
  order : List ℕ
  /-- Fibers that were interrupted when their eventual had completed. -/
  late : List ℕ
  /-- Fibers that used a member once another had called the continuation. -/
  used : List ℕ
  deriving DecidableEq

inductive Label (V E : Type*)
  /-- `Start()` with no handler, or with one that it can install or not. -/
  | start (installed : Option Bool)
  /-- The outer interrupt is triggered. -/
  | trigger
  | complete (i : ℕ) (completion : Signal V E)
  | build (index : ℕ)
  | submit (index : ℕ)
  | startReturns
  | handlerInterrupts
  | handlerTriggers (j fibers : ℕ)
  | write (i : ℕ) (completion : Signal V E)
  | decrement (i : ℕ) (completion : Signal V E)
  | call (i : ℕ) (completion : Signal V E)
  | interrupts (i : ℕ)
  | triggers (i j fibers : ℕ)

/-- The steps of `Start()`, of the terminal callbacks and of the handler's callback. -/
def Label.internal : Label V E → Bool
  | .start _ | .trigger | .complete .. => false
  | _ => true

namespace State

variable (s : State V E)

def fiber (i : ℕ) : Option (Fiber.Control V E) :=
  s.fibers[i]?.map Fiber.control

def setControl (i : ℕ) (control : Fiber.Control V E) : State V E :=
  { s with fibers := s.fibers.modify i fun fiber => { fiber with control := control } }

/-- Fiber number `i` uses a member of the continuation. -/
def use (i : ℕ) : State V E :=
  if s.calls = [] then s else { s with used := s.used ++ [i] }

def newFiber : Fiber V E :=
  { control := .created, interrupted := false, completion := none }

/-- `Start()` up to the fibers. -/
def begin (forks : ℕ) : Option Bool → State V E
  | some false => { s with start := .returned, calls := s.calls ++ [(none, .stop)] }
  | installed =>
    { s with
      start := .building 0, values := List.replicate forks .undefined, counter := forks
      handler := if installed.isSome then .installed else .uninstalled }

/-- `BuildFibers()` all at once, or `BuildFiber()` for the next. -/
def build (construct : Construct) (forks index : ℕ) : State V E :=
  match construct with
  | .doAll => { s with fibers := List.replicate forks newFiber, start := .submitting 0 }
  | .forkJoin => { s with fibers := s.fibers ++ [newFiber], start := .submitting index }

def submit (construct : Construct) (forks index : ℕ) : State V E :=
  { s.setControl index .running with
    start :=
      match construct with
      | .doAll => if index + 1 < forks then .submitting (index + 1) else .returned
      | .forkJoin => .building (index + 1) }

/-- `fiber.interrupt.Trigger()`, which does something the first time. -/
def triggerFiber (j : ℕ) : State V E :=
  match s.fibers[j]? with
  | some fiber =>
    if fiber.interrupted then s
    else
      { s with
        fibers := s.fibers.set j { fiber with interrupted := true }
        late := if fiber.completion.isSome then s.late ++ [j] else s.late }
  | none => s

def write (i : ℕ) (completion : Signal V E) : State V E :=
  { s.use i with values := s.values.set i completion.slot }.setControl i (.decrementing completion)

/-- Where a fiber goes from `counter_.fetch_sub(1)`, which gave `counter`. -/
def afterDecrement (counter : ℕ) (completion : Signal V E) : Fiber.Control V E :=
  if counter = 1 then .completing completion
  else
    match completion with
    | .start _ => .returned
    | _ => .interrupting

def decrement (i : ℕ) (completion : Signal V E) : State V E :=
  { s.use i with counter := s.counter - 1, order := s.order ++ [i] }.setControl i
    (afterDecrement s.counter completion)

def call (construct : Construct) (i : ℕ) (completion : Signal V E) : State V E :=
  match construct.complete s.values completion with
  | .error c => { s.setControl i .returned with failed := some c }
  | .ok signal => { s.setControl i .returned with calls := s.calls ++ [(some i, signal)] }

/-- From the end of the loop of `interrupter_()` the callback returns. -/
def nextControl (j fibers : ℕ) : Fiber.Control V E :=
  if j < fibers then .triggering j fibers else .returned

def nextHandler (j fibers : ℕ) : Handler :=
  if j < fibers then .triggering j fibers else .returned

def interrupts (i : ℕ) : State V E :=
  (s.use i).setControl i (nextControl 0 s.fibers.length)

def triggers (i j fibers : ℕ) : State V E :=
  ((s.use i).triggerFiber j).setControl i (nextControl (j + 1) fibers)

/-- `fibers_.value()` throws where there are none. -/
def handlerInterrupts (construct : Construct) : State V E :=
  if construct = .doAll ∧ s.fibers = [] then { s with missing := true, handler := .returned }
  else { s with handler := nextHandler 0 s.fibers.length }

def handlerTriggers (j fibers : ℕ) : State V E :=
  { s.triggerFiber j with handler := nextHandler (j + 1) fibers }

def completeEventual (i : ℕ) (completion : Signal V E) : State V E :=
  { s with
    fibers := s.fibers.modify i fun fiber =>
      { fiber with control := .writing completion, completion := some completion } }

def init (V E : Type*) : State V E where
  start := .notStarted
  fibers := []
  values := []
  counter := 0
  handler := .uninstalled
  failed := none
  missing := false
  calls := []
  order := []
  late := []
  used := []

end State

variable (construct : Construct) (forks : ℕ)

def Enabled (s : State V E) : Label V E → Prop
  | .start _ => s.start = .notStarted
  | .trigger => s.handler = .installed
  | .complete i _ => s.fiber i = some .running
  | .build index => s.start = .building index ∧ index < forks
  | .submit index => s.start = .submitting index
  | .startReturns => construct = .forkJoin ∧ s.start = .building forks
  | .handlerInterrupts => s.handler = .interrupting
  | .handlerTriggers j fibers => s.handler = .triggering j fibers
  | .write i completion => s.fiber i = some (.writing completion)
  | .decrement i completion => s.fiber i = some (.decrementing completion)
  | .call i completion => s.fiber i = some (.completing completion)
  | .interrupts i => s.fiber i = some .interrupting
  | .triggers i j fibers => s.fiber i = some (.triggering j fibers)

def next (s : State V E) : Label V E → State V E
  | .start installed => s.begin forks installed
  | .trigger => { s with handler := .interrupting }
  | .complete i completion => s.completeEventual i completion
  | .build index => s.build construct forks index
  | .submit index => s.submit construct forks index
  | .startReturns => { s with start := .returned }
  | .handlerInterrupts => s.handlerInterrupts construct
  | .handlerTriggers j fibers => s.handlerTriggers j fibers
  | .write i completion => s.write i completion
  | .decrement i completion => s.decrement i completion
  | .call i completion => s.call construct i completion
  | .interrupts i => s.interrupts i
  | .triggers i j fibers => s.triggers i j fibers

def machine (V E : Type*) : Machine (State V E) (Label V E) where
  Initial s := s = .init V E
  Enabled := Enabled construct forks
  next := next construct forks

section Executing

variable [DecidableEq V] [DecidableEq E]

instance (s : State V E) : (l : Label V E) → Decidable (Enabled construct forks s l)
  | .start _ => inferInstanceAs (Decidable (s.start = .notStarted))
  | .trigger => inferInstanceAs (Decidable (s.handler = .installed))
  | .complete i _ => inferInstanceAs (Decidable (s.fiber i = some .running))
  | .build index => inferInstanceAs (Decidable (s.start = .building index ∧ index < forks))
  | .submit index => inferInstanceAs (Decidable (s.start = .submitting index))
  | .startReturns => inferInstanceAs (Decidable (construct = .forkJoin ∧ s.start = .building forks))
  | .handlerInterrupts => inferInstanceAs (Decidable (s.handler = .interrupting))
  | .handlerTriggers j fibers => inferInstanceAs (Decidable (s.handler = .triggering j fibers))
  | .write i completion => inferInstanceAs (Decidable (s.fiber i = some (.writing completion)))
  | .decrement i completion =>
    inferInstanceAs (Decidable (s.fiber i = some (.decrementing completion)))
  | .call i completion => inferInstanceAs (Decidable (s.fiber i = some (.completing completion)))
  | .interrupts i => inferInstanceAs (Decidable (s.fiber i = some .interrupting))
  | .triggers i j fibers => inferInstanceAs (Decidable (s.fiber i = some (.triggering j fibers)))

instance (s : State V E) (l : Label V E) : Decidable ((machine construct forks V E).Enabled s l) :=
  inferInstanceAs (Decidable (Enabled construct forks s l))

end Executing

end Eventuals.Join
