import Eventuals.ConcurrentUndisturbed
import Eventuals.ControlLoop
import Eventuals.Errors
import Eventuals.Library.Tokens
import Eventuals.Pipe

/-! `Executor`: the reader of a pipe feeds `Concurrent`, whose fibers run what has been submitted,
inside a control loop (`executor.h`). -/
namespace Eventuals.Executor

open Function (update)
open Transition (Machine)
open TypeTraits (Hierarchy)

/-- How a submitted eventual ends; it is not to stop. -/
inductive Result (E : Type)
  | succeeded
  | raised (error : E)
  deriving DecidableEq

/-- Where the `Map()` of a fiber stands with the eventual that it has been given. -/
inductive Job (T : Type*) (E : Type)
  | idle
  | given (eventual : T)
  | running (eventual : T)
  /-- `RescheduleAfter()` goes back to the context of the fiber. -/
  | rescheduling (result : Result E)
  | mapped
  deriving DecidableEq

/-- The handlers of the `Catch()` that ends the `Map()` of a fiber. -/
def handlers {E : Type} (H : Hierarchy E) : Errors.Handlers E :=
  .raised H.typeErasedError Errors.just .nil

/-- The call that comes out of `RescheduleAfter(e) >> Just(std::monostate{}) >> Catch()`. -/
def caught {T : Type*} {E : Type} [DecidableEq E] (H : Hierarchy E) (i : ℕ) :
    Result E → Concurrent.Label T Unit E
  | .succeeded => .fiberValue i ()
  | .raised error =>
    if ((handlers H).tryHandle H error).isSome then .fiberValue i ()
    else .fiberOutcome i (some (.error error))

/-- What the `Until()` of `Read()` makes of what the reader has got. -/
def upstream {T : Type*} {E : Type} : Option T → Concurrent.Label T Unit E
  | some eventual => .upstreamValue eventual
  | none => .upstreamOutcome none

/-- `none` is the thread of the control loop: it reads the pipe and finishes the loop. -/
structure State (W T : Type*) (E : Type) where
  pipe : ConditionVariable.State (Option W) Pipe.Variable (Pipe.Control T) (Pipe.Data T)
  /-- What the reader has got from the pipe and not passed on. -/
  taken : Option (Option T)
  concurrent : Concurrent.State T Unit E
  jobs : ℕ → Job T E
  loop : ControlLoop.State (Option W)
  /-- What follows is history. -/
  started : List T
  completed : List (T × Result E)

inductive Label (W T : Type*) (E : Type)
  /-- `Submit()`, `Shutdown()` and the reader. -/
  | pipe (l : Monitor.Label (Option W) (Pipe.Control T))
  /-- The reader passes on what it has got. -/
  | read
  | concurrent (l : Concurrent.Label T Unit E)
  | start (i : ℕ)
  | finish (i : ℕ) (result : Result E)
  | reschedule (i : ℕ)
  | ended (i : ℕ)
  /-- `Wait()` and the end of the loop. -/
  | loop (l : ControlLoop.Label (Option W))

/-- The steps that neither a user nor a submitted eventual takes. -/
def Label.internal {W T : Type*} {E : Type} : Label W T E → Bool
  | .pipe (.arrive (some _) _) | .finish .. | .loop (.arrive (some _) _) => false
  | _ => true

/-- The sections of `Submit()` and `Shutdown()`. -/
def isSubmitOrShutdown {T : Type*} : Pipe.Control T → Bool
  | .write _ | .close => true
  | _ => false

/-- `Loop()` asks for one value after another, and nobody interrupts. -/
def isUninterrupted {T : Type*} {E : Type} : Concurrent.Label T Unit E → Bool
  | .begin | .next => true
  | l => l.internal

variable {W T : Type*} {E : Type}

namespace State

variable (s : State W T E)

/-- What the reader has got after a step of the pipe. -/
def takes : Monitor.Label (Option W) (Pipe.Control T) → Option (Option T)
  | .run none =>
    match s.pipe.pc none with
    | .takeValue => some s.pipe.data.values.head?
    | _ => s.taken
  | _ => s.taken

/-- A fiber that is started has been given its value. -/
def gives : Concurrent.Label T Unit E → ℕ → Job T E
  | .startFiber eventual i => update s.jobs i (.given eventual)
  | _ => s.jobs

def Arrives : Monitor.Label (Option W) (Pipe.Control T) → Prop
  | .arrive none c => c = .read ∧ s.concurrent.ingress = .awaitingNext ∧ s.taken = none
  | .arrive (some _) c => isSubmitOrShutdown c = true
  | _ => True

def Finishes : ControlLoop.Label (Option W) → Prop
  | .arrive none c => c = .finish ∧ s.concurrent.terminals ≠ []
  | .arrive (some _) c => c = .wait
  | _ => True

/-- The reader has left the lock with what it has got. -/
def Reads : Option (Option T) → Prop
  | some r => s.pipe.stage none = .outside ∧ Concurrent.Enabled s.concurrent (upstream r)
  | none => False

def Starts (i : ℕ) : Job T E → Prop
  | .given _ => s.concurrent.control i = some .running
  | _ => False

def Reschedules [DecidableEq E] (H : Hierarchy E) (i : ℕ) : Job T E → Prop
  | .rescheduling result => Concurrent.Enabled s.concurrent (caught H i result)
  | _ => False

def Ends (i : ℕ) : Job T E → Prop
  | .mapped => Concurrent.Enabled s.concurrent (.fiberOutcome i none)
  | _ => False

end State

def Job.given? : Job T E → Option T
  | .given eventual => some eventual
  | _ => none

def Job.running? : Job T E → Option T
  | .running eventual => some eventual
  | _ => none

variable [DecidableEq W] [DecidableEq E]

def Enabled (H : Hierarchy E) (s : State W T E) : Label W T E → Prop
  | .pipe l => ConditionVariable.Enabled (Pipe.program T) s.pipe l ∧ s.Arrives l
  | .read => s.Reads s.taken
  | .concurrent l => Concurrent.Enabled s.concurrent l ∧ isUninterrupted l = true
  | .start i => s.Starts i (s.jobs i)
  | .finish i _ => (s.jobs i).running?.isSome = true
  | .reschedule i => s.Reschedules H i (s.jobs i)
  | .ended i => s.Ends i (s.jobs i)
  | .loop l => (ControlLoop.machine (Option W)).Enabled s.loop l ∧ s.Finishes l

def next (H : Hierarchy E) (s : State W T E) : Label W T E → State W T E
  | .pipe l =>
    { s with pipe := ConditionVariable.next (Pipe.program T) s.pipe l, taken := s.takes l }
  | .read =>
    match s.taken with
    | some r => { s with taken := none, concurrent := Concurrent.next s.concurrent (upstream r) }
    | none => s
  | .concurrent l => { s with concurrent := Concurrent.next s.concurrent l, jobs := s.gives l }
  | .start i =>
    match s.jobs i with
    | .given eventual =>
      { s with jobs := update s.jobs i (.running eventual), started := s.started ++ [eventual] }
    | _ => s
  | .finish i result =>
    match s.jobs i with
    | .running eventual =>
      { s with
        jobs := update s.jobs i (.rescheduling result)
        completed := s.completed ++ [(eventual, result)] }
    | _ => s
  | .reschedule i =>
    match s.jobs i with
    | .rescheduling result =>
      { s with
        concurrent := Concurrent.next s.concurrent (caught H i result)
        jobs := update s.jobs i .mapped }
    | _ => s
  | .ended i =>
    { s with
      concurrent := Concurrent.next s.concurrent (.fiberOutcome i none)
      jobs := update s.jobs i .idle }
  | .loop l => { s with loop := (ControlLoop.machine (Option W)).next s.loop l }

/-- The control loop registers an interrupt that nobody triggers. -/
def State.init (W T : Type*) (E : Type) : State W T E where
  pipe := ConditionVariable.initial .idle .empty
  taken := none
  concurrent := .init T Unit E true
  jobs _ := .idle
  loop := ConditionVariable.initial .idle ⟨false⟩
  started := []
  completed := []

def machine (W T : Type*) {E : Type} [DecidableEq W] [DecidableEq E] (H : Hierarchy E) :
    Machine (State W T E) (Label W T E) where
  Initial s := s = .init W T E
  Enabled := Enabled H
  next := next H

/-- Nothing happens any more unless a user comes or a submitted eventual ends. -/
def Quiescent (H : Hierarchy E) (s : State W T E) : Prop :=
  (machine W T H).Quiet (fun l => l.internal = true) s

section Executing

variable [DecidableEq T]

instance (s : State W T E) : (l : Monitor.Label (Option W) (Pipe.Control T)) →
    Decidable (s.Arrives l)
  | .arrive none c =>
    inferInstanceAs (Decidable
      (c = .read ∧ s.concurrent.ingress = .awaitingNext ∧ s.taken = none))
  | .arrive (some _) c => inferInstanceAs (Decidable (isSubmitOrShutdown c = true))
  | .resume _ | .run _ => .isTrue trivial

instance (s : State W T E) : (l : ControlLoop.Label (Option W)) → Decidable (s.Finishes l)
  | .arrive none c => inferInstanceAs (Decidable (c = .finish ∧ s.concurrent.terminals ≠ []))
  | .arrive (some _) c => inferInstanceAs (Decidable (c = .wait))
  | .resume _ | .run _ => .isTrue trivial

instance (s : Concurrent.State T Unit E) (l : Concurrent.Label T Unit E) :
    Decidable (Concurrent.Enabled s l) :=
  inferInstanceAs (Decidable ((Concurrent.machine T Unit E).Enabled s l))

instance (s : State W T E) : (r : Option (Option T)) → Decidable (s.Reads r)
  | some r =>
    inferInstanceAs (Decidable
      (s.pipe.stage none = .outside ∧ Concurrent.Enabled s.concurrent (upstream r)))
  | none => .isFalse id

instance (s : State W T E) (i : ℕ) : (job : Job T E) → Decidable (s.Starts i job)
  | .given _ => inferInstanceAs (Decidable (s.concurrent.control i = some .running))
  | .idle | .running _ | .rescheduling _ | .mapped => .isFalse id

instance (H : Hierarchy E) (s : State W T E) (i : ℕ) :
    (job : Job T E) → Decidable (s.Reschedules H i job)
  | .rescheduling result =>
    inferInstanceAs (Decidable (Concurrent.Enabled s.concurrent (caught H i result)))
  | .idle | .given _ | .running _ | .mapped => .isFalse id

instance (s : State W T E) (i : ℕ) : (job : Job T E) → Decidable (s.Ends i job)
  | .mapped => inferInstanceAs (Decidable (Concurrent.Enabled s.concurrent (.fiberOutcome i none)))
  | .idle | .given _ | .running _ | .rescheduling _ => .isFalse id

instance (H : Hierarchy E) (s : State W T E) :
    (l : Label W T E) → Decidable ((machine W T H).Enabled s l)
  | .pipe l =>
    inferInstanceAs (Decidable
      (ConditionVariable.Enabled (Pipe.program T) s.pipe l ∧ s.Arrives l))
  | .read => inferInstanceAs (Decidable (s.Reads s.taken))
  | .concurrent l =>
    inferInstanceAs (Decidable (Concurrent.Enabled s.concurrent l ∧ isUninterrupted l = true))
  | .start i => inferInstanceAs (Decidable (s.Starts i (s.jobs i)))
  | .finish i _ => inferInstanceAs (Decidable ((s.jobs i).running?.isSome = true))
  | .reschedule i => inferInstanceAs (Decidable (s.Reschedules H i (s.jobs i)))
  | .ended i => inferInstanceAs (Decidable (s.Ends i (s.jobs i)))
  | .loop l =>
    inferInstanceAs (Decidable
      ((ControlLoop.machine (Option W)).Enabled s.loop l ∧ s.Finishes l))

end Executing

section Places

/-- The value that the ingress is making a fiber for. -/
def arg? : Concurrent.Ingress T E → Option T
  | .create eventual | .start eventual _ => some eventual
  | _ => none

/-- What some of the jobs hold, fiber by fiber. -/
def jobsOf (jobs : ℕ → Job T E) (n : ℕ) (get : Job T E → Option T) : List T :=
  Tokens.held (fun i => get (jobs i)) (List.range n)

variable (s : State W T E)

/-- What has been submitted before the first `Shutdown()`, in the order of the lock. -/
def State.submitted : List T :=
  Pipe.writtenBeforeClose s.pipe.data.history

/-- Submitted and not started: in the pipe, with the reader, with the ingress or with a fiber. -/
def State.pending : List T :=
  jobsOf s.jobs s.concurrent.fibers.length Job.given? ++ (arg? s.concurrent.ingress).toList ++
    s.taken.join.toList ++ s.pipe.data.values

def State.running : List T :=
  jobsOf s.jobs s.concurrent.fibers.length Job.running?

end Places

/-- What the users of an executor rely on. -/
structure Correct (H : Hierarchy E) (s : State W T E) : Prop where
  /-- Each is started once or still to be started. -/
  once : (s.started ++ s.pending).Perm s.submitted
  completed : (s.completed.map Prod.fst ++ s.running).Perm s.started
  /-- Whatever the eventuals raise, nothing fails and nobody is interrupted. -/
  undisturbed : s.concurrent.stoppedOrError = none ∧ s.concurrent.interrupted = false ∧
    ∀ f ∈ s.concurrent.fibers, f.interrupted = false
  checks : s.pipe.data.failed = false ∧ s.concurrent.failed = none
  finished : s.loop.data.finished = true → Pipe.Closed s.pipe.data.history ∧
    (s.completed.map Prod.fst).Perm s.submitted
  /-- None is left behind, whether or not others still run. -/
  started : Quiescent H s → s.started.Perm s.submitted
  ended : Quiescent H s → Pipe.Closed s.pipe.data.history → s.running = [] →
    s.loop.data.finished = true

end Eventuals.Executor
