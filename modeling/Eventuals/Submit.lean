import Mathlib.Logic.Function.Basic
import Eventuals.Library.Transition

/-! `Submit()` and the consumer of its list: the waiters of an event loop (`event-loop.cc`) and
those of one CPU of a thread pool (`static-thread-pool.cc`). One atomic load, compare and exchange
or read of a link at a time. The fields of a context are plain, and whoever has the context at
hand uses them in one step. -/
namespace Eventuals.Submit

open Function (update)

inductive Kind
  /-- `EventLoop::Submit()` and `EventLoop::Check()`. -/
  | eventLoop
  /-- `StaticThreadPool::Submit()` and the loop of its worker. -/
  | threadPool
  deriving DecidableEq

inductive Check
  | blocked
  | scheduler
  | pinned
  | submitNext
  | nullDereference
  | unlink
  | next
  | context
  | callback
  deriving DecidableEq

/-- Where a `Submit()` stands. -/
inductive Submitter (W : Type*)
  | idle
  | loading (w : W)
  /-- About to compare the head with `waiter->next` and exchange it. -/
  | swapping (w : W)
  /-- About to call `Signal()`, or `Interrupt()` of the event loop. -/
  | signalling
  deriving DecidableEq

/-- Where the worker or `Check()` stands. -/
inductive Consumer (W : Type*)
  /-- In `semaphore.Wait()`, or outside of `Check()`. -/
  | idle
  | loading
  | testing (w : W)
  /-- About to compare the head with the only waiter and exchange it. -/
  | swapping (w : W)
  | walking (w : W)
  | unlinking (w : W)
  /-- The waiter is off the list. -/
  | taken (w : W)
  /-- In the callback that was submitted under that number. -/
  | executing (callback : ℕ)
  deriving DecidableEq

variable {T W : Type*}

structure State (T W : Type*) where
  head : Option W
  next : W → Option W
  blocked : W → Bool
  /-- The waiter has borrowed its context. -/
  context : W → Bool
  callback : W → Option ℕ
  semaphore : ℕ
  threads : T → Submitter W
  consumer : Consumer W
  failed : Option Check
  /-- What follows is history. Callbacks are numbered as they are submitted. -/
  submitted : ℕ
  /-- Callbacks in the order of their compare and exchange. -/
  swaps : List ℕ
  /-- Callbacks that have returned. -/
  executed : List ℕ

inductive Label (T W : Type*)
  /-- A call of `Submit()`; whether the context belongs to this scheduler and is pinned. -/
  | submit (t : T) (w : W) (scheduler pinned : Bool)
  /-- The next step of a thread, where a weak compare and exchange may fail. -/
  | thread (t : T) (spurious : Bool)
  /-- `semaphore.Wait()` returns, or the event loop calls `Check()`. -/
  | wake
  | consumer (spurious : Bool)

/-- Nothing has been submitted yet. -/
def init : State T W where
  head := none
  next _ := none
  blocked _ := false
  context _ := false
  callback _ := none
  semaphore := 0
  threads _ := .idle
  consumer := .idle
  failed := none
  submitted := 0
  swaps := []
  executed := []

namespace State

variable (s : State T W)

def fail (c : Check) : State T W :=
  { s with failed := some c }

def consume (c : Consumer W) : State T W :=
  { s with consumer := c }

section

variable [DecidableEq T] [DecidableEq W]

def goto (t : T) (p : Submitter W) : State T W :=
  { s with threads := update s.threads t p }

/-- `context.block()` and the fields of the waiter. -/
def fill (w : W) : State T W :=
  { s with
    blocked := update s.blocked w true
    context := update s.context w true
    callback := update s.callback w (some s.submitted)
    submitted := s.submitted + 1 }

/-- `Submit()`, up to its first load of the head. -/
def submit (kind : Kind) (t : T) (w : W) (scheduler pinned : Bool) : State T W :=
  if s.blocked w then s.fail .blocked
  else if scheduler = false then s.fail .scheduler
  else if kind = .threadPool ∧ pinned = false then s.fail .pinned
  else if s.next w ≠ none then s.fail .submitNext
  else (s.fill w).goto t (.loading w)

/-- A weak compare and exchange of the head finds what it expects. -/
def swaps? (expected : Option W) (spurious : Bool) : Bool :=
  !spurious && decide (s.head = expected)

/-- The next step of thread `t` from where it stands. -/
def threadStep (kind : Kind) (t : T) (spurious : Bool) : Submitter W → State T W
  | .idle => s
  | .loading w => { s.goto t (.swapping w) with next := update s.next w s.head }
  | .swapping w =>
    if s.swaps? (s.next w) spurious then
      { s.goto t .signalling with head := some w, swaps := s.swaps ++ (s.callback w).toList }
    else { s with next := update s.next w s.head }
  | .signalling =>
    { s.goto t .idle with
      semaphore := if kind = .threadPool then s.semaphore + 1 else s.semaphore }

/-- `context->unblock()` up to the call of the callback. -/
def resume (w : W) : State T W :=
  match s.callback w with
  | none => s.fail .callback
  | some id =>
    { s with
      consumer := .executing id
      blocked := update s.blocked w false
      context := update s.context w false
      callback := update s.callback w none }

/-- The next step of the consumer from where it stands. -/
def consumerStep (kind : Kind) (spurious : Bool) : Consumer W → State T W
  | .idle => s
  | .loading =>
    match s.head with
    | none => s.consume .idle
    | some w => s.consume (.testing w)
  | .testing w => if s.next w = none then s.consume (.swapping w) else s.consume (.walking w)
  | .swapping w =>
    if s.swaps? (some w) spurious then { s.consume (.taken w) with head := none }
    else s.consume .loading
  | .walking w =>
    match s.next w with
    | none => s.fail .nullDereference
    | some u => if s.next u ≠ none then s.consume (.walking u) else s.consume (.unlinking w)
  | .unlinking w =>
    match s.next w with
    | none => s.fail .unlink
    | some u => { s.consume (.taken u) with next := update s.next w none }
  | .taken w =>
    if kind = .threadPool ∧ s.next w ≠ none then s.fail .next
    else if s.context w = false then s.fail .context
    else s.resume w
  | .executing id =>
    { s.consume (match kind with | .eventLoop => .loading | .threadPool => .idle) with
      executed := s.executed ++ [id] }

end

/-- `semaphore.Wait()` takes one from the semaphore. -/
def wake (kind : Kind) : State T W :=
  { s.consume .loading with
    semaphore := if kind = .threadPool then s.semaphore - 1 else s.semaphore }

end State

/-- A `CHECK` that fails ends the program. -/
def Enabled (kind : Kind) (s : State T W) : Label T W → Prop
  | .submit t .. => s.failed = none ∧ s.threads t = .idle
  | .thread t _ => s.failed = none ∧ s.threads t ≠ .idle
  | .wake => s.failed = none ∧ s.consumer = .idle ∧ (kind = .threadPool → 0 < s.semaphore)
  | .consumer _ => s.failed = none ∧ s.consumer ≠ .idle

variable [DecidableEq T] [DecidableEq W]

def next (kind : Kind) (s : State T W) : Label T W → State T W
  | .submit t w scheduler pinned => s.submit kind t w scheduler pinned
  | .thread t spurious => s.threadStep kind t spurious (s.threads t)
  | .wake => s.wake kind
  | .consumer spurious => s.consumerStep kind spurious s.consumer

def machine (T W : Type*) [DecidableEq T] [DecidableEq W] (kind : Kind) :
    Transition.Machine (State T W) (Label T W) where
  Initial s := s = init
  Enabled := Enabled kind
  next := next kind

instance (kind : Kind) (s : State T W) : (l : Label T W) → Decidable (Enabled kind s l)
  | .submit t .. => inferInstanceAs (Decidable (s.failed = none ∧ s.threads t = .idle))
  | .thread t _ => inferInstanceAs (Decidable (s.failed = none ∧ s.threads t ≠ .idle))
  | .wake => inferInstanceAs (Decidable (s.failed = none ∧ s.consumer = .idle ∧ _))
  | .consumer _ => inferInstanceAs (Decidable (s.failed = none ∧ s.consumer ≠ .idle))

instance (kind : Kind) (s : State T W) (l : Label T W) :
    Decidable ((machine T W kind).Enabled s l) :=
  inferInstanceAs (Decidable (Enabled kind s l))

end Eventuals.Submit
