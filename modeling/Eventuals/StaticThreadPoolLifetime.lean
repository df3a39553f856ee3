import Mathlib.Data.List.Basic
import Mathlib.Logic.Function.Basic
import Eventuals.Library.Transition

/-! The construction and the destruction of a `StaticThreadPool` (`static-thread-pool.cc`). Each
thread has its semaphore and its list of waiters on its stack, and whoever submits to the thread
gets at them by pointers. Taking the oldest waiter off a list, and adding one, are single steps.
The affinities of the threads are left out, for which a new thread looks itself up in `threads_`
while the constructor adds to it, and so is that the constructor adds to `ready_` while threads
signal elements of it. -/
namespace Eventuals.StaticThreadPool.Lifetime

open Function (update)
open Transition (Machine)

/-- Where the thread of a CPU stands. -/
inductive Thread
  | absent
  | storingSemaphore
  | storingHead
  | signallingReady
  /-- In `semaphore.Wait()`. -/
  | waiting
  | loading
  /-- In the callback of a waiter. -/
  | running
  /-- In a `Submit()` of that callback, about to call `Signal()`. -/
  | submitting
  /-- About to load `shutdown_`. -/
  | checking
  /-- Its stack is gone. -/
  | exited
  deriving DecidableEq

inductive Constructor
  | emplacing (cpu : ℕ)
  /-- In `ready_[core].Wait()`. -/
  | awaiting (core : ℕ)
  | done
  deriving DecidableEq

inductive Destructor
  | idle
  /-- About to test `threads_.empty()`. -/
  | testing
  | joining
  | done
  deriving DecidableEq

/-- What a pointer must not be used for. -/
inductive Misuse
  /-- It was read behind the end of its vector. -/
  | range
  | null
  /-- It points to where a stack was. -/
  | dangling
  deriving DecidableEq

/-- A pointer to something on the stack of the thread of a CPU, if it is not null. -/
abbrev Pointer := Option ℕ

variable {C : Type*}

structure State (C : Type*) where
  constructor : Constructor
  destructor : Destructor
  semaphores : List Pointer
  heads : List Pointer
  ready : List ℕ
  /-- The size of `threads_`. -/
  threads : ℕ
  shutdown : Bool
  thread : ℕ → Thread
  semaphore : ℕ → ℕ
  /-- The waiters of the list of a CPU, oldest first. -/
  waiters : ℕ → List C
  /-- Who is about to call the `Signal()` of a `Submit()`, and for which CPU: a callback of the pool
  or somebody else. -/
  submits : List (Option ℕ × ℕ)
  failed : Option Misuse
  /-- What follows is history. -/
  submitted : ℕ → List C
  started : ℕ → List C

inductive Label (C : Type*)
  | construct
  /-- The next step of the thread of a CPU outside of callbacks. -/
  | thread (cpu : ℕ)
  /-- The callback returns. -/
  | return_ (cpu : ℕ)
  /-- `Submit()` up to its compare and exchange. -/
  | submit (by_ : Option ℕ) (cpu : ℕ) (callback : C)
  | signal (by_ : Option ℕ) (cpu : ℕ)
  /-- `shutdown_.store(true)` -/
  | shutdown
  | destruct
  deriving DecidableEq

def init : State C where
  constructor := .emplacing 0
  destructor := .idle
  semaphores := []
  heads := []
  ready := []
  threads := 0
  shutdown := false
  thread _ := .absent
  semaphore _ := 0
  waiters _ := []
  submits := []
  failed := none
  submitted _ := []
  started _ := []

namespace State

variable (s : State C)

def goto (cpu : ℕ) (p : Thread) : State C :=
  { s with thread := update s.thread cpu p }

def fail (m : Misuse) : State C :=
  { s with failed := some m }

/-- Uses what a pointer of a vector points to. -/
def deref (p : Option Pointer) (f : ℕ → State C) : State C :=
  match p with
  | none => s.fail .range
  | some none => s.fail .null
  | some (some cpu) => if s.thread cpu = .exited then s.fail .dangling else f cpu

/-- `semaphore->Signal()` -/
def post (cpu : ℕ) : State C :=
  { s with semaphore := update s.semaphore cpu (s.semaphore cpu + 1) }

/-- The next step of the constructor. -/
def construct (concurrency : ℕ) : Constructor → State C
  | .emplacing cpu =>
    if cpu < concurrency then
      { s.goto cpu .storingSemaphore with
        semaphores := s.semaphores ++ [none]
        heads := s.heads ++ [none]
        ready := s.ready ++ [0]
        threads := s.threads + 1
        constructor := .emplacing (cpu + 1) }
    else { s with constructor := .awaiting 0 }
  | .awaiting core =>
    if core < concurrency then
      { s with ready := s.ready.modify core (· - 1), constructor := .awaiting (core + 1) }
    else { s with constructor := .done }
  | .done => s

/-- The next step of the thread of a CPU. -/
def threadStep (cpu : ℕ) : Thread → State C
  | .storingSemaphore =>
    if cpu < s.semaphores.length then
      { s.goto cpu .storingHead with semaphores := s.semaphores.set cpu (some cpu) }
    else s.fail .range
  | .storingHead =>
    if cpu < s.heads.length then
      { s.goto cpu .signallingReady with heads := s.heads.set cpu (some cpu) }
    else s.fail .range
  | .signallingReady =>
    if cpu < s.ready.length then
      { s.goto cpu .waiting with ready := s.ready.modify cpu (· + 1) }
    else s.fail .range
  | .waiting =>
    { s.goto cpu .loading with semaphore := update s.semaphore cpu (s.semaphore cpu - 1) }
  | .loading =>
    match s.waiters cpu with
    | [] => s.goto cpu .checking
    | callback :: rest =>
      { s.goto cpu .running with
        waiters := update s.waiters cpu rest
        started := update s.started cpu (s.started cpu ++ [callback]) }
  | .checking => if s.shutdown then s.goto cpu .exited else s.goto cpu .waiting
  | .absent | .running | .submitting | .exited => s

/-- Where the threads stand after a step of a `Submit()`, in a callback of the pool or not. -/
def by_ : Option ℕ → Thread → ℕ → Thread
  | none, _ => s.thread
  | some t, p => update s.thread t p

def submit (by_ : Option ℕ) (cpu : ℕ) (callback : C) : State C :=
  s.deref s.heads[cpu]? fun c =>
    { s with
      waiters := update s.waiters c (s.waiters c ++ [callback])
      submitted := update s.submitted c (s.submitted c ++ [callback])
      submits := (by_, cpu) :: s.submits
      thread := s.by_ by_ .submitting }

def signal (by_ : Option ℕ) (cpu : ℕ) : State C :=
  s.deref s.semaphores[cpu]? fun c =>
    { s.post c with
      submits := s.submits.erase (by_, cpu)
      thread := s.by_ by_ .running }

/-- The next step of the loop of the destructor. -/
def destruct : Destructor → State C
  | .testing =>
    if s.threads = 0 then { s with destructor := .done }
    else
      s.deref s.semaphores.getLast? fun cpu =>
        { s.post cpu with semaphores := s.semaphores.dropLast, destructor := .joining }
  | .joining => { s with threads := s.threads - 1, destructor := .testing }
  | .idle | .done => s

end State

/-- Threads that take their next step by themselves; `Wait()` returns once it is signalled. -/
def Thread.Goes (semaphore : ℕ) : Thread → Prop
  | .storingSemaphore | .storingHead | .signallingReady | .loading | .checking => True
  | .waiting => 0 < semaphore
  | .absent | .running | .submitting | .exited => False

instance (semaphore : ℕ) : (p : Thread) → Decidable (p.Goes semaphore)
  | .storingSemaphore | .storingHead | .signallingReady | .loading | .checking => .isTrue trivial
  | .waiting => inferInstanceAs (Decidable (0 < semaphore))
  | .absent | .running | .submitting | .exited => .isFalse id

def Constructor.Goes (ready : List ℕ) : Constructor → Prop
  | .emplacing _ => True
  | .awaiting core => core < ready.length → 0 < ready.getD core 0
  | .done => False

instance (ready : List ℕ) : (p : Constructor) → Decidable (p.Goes ready)
  | .emplacing _ => .isTrue trivial
  | .awaiting core => inferInstanceAs (Decidable (core < ready.length → 0 < ready.getD core 0))
  | .done => .isFalse id

/-- `join()` returns once the thread has exited. -/
def Destructor.Goes (thread : Thread) : Destructor → Prop
  | .testing => True
  | .joining => thread = .exited
  | .idle | .done => False

instance (thread : Thread) : (p : Destructor) → Decidable (p.Goes thread)
  | .testing => .isTrue trivial
  | .joining => inferInstanceAs (Decidable (thread = .exited))
  | .idle | .done => .isFalse id

/-- A misuse ends the program. The pool is used from outside between its construction and its
destruction, and a CPU is one of the pool (`assert(cpu < concurrency)`). -/
def Enabled (concurrency : ℕ) (s : State C) : Label C → Prop
  | .construct => s.failed = none ∧ s.constructor.Goes s.ready
  | .thread cpu => s.failed = none ∧ (s.thread cpu).Goes (s.semaphore cpu)
  | .return_ cpu => s.failed = none ∧ s.thread cpu = .running
  | .submit none cpu _ =>
    s.failed = none ∧ s.constructor = .done ∧ s.destructor = .idle ∧ cpu < concurrency
  | .submit (some t) cpu _ => s.failed = none ∧ s.thread t = .running ∧ cpu < concurrency
  | .signal by_ cpu => s.failed = none ∧ (by_, cpu) ∈ s.submits
  | .shutdown => s.failed = none ∧ s.constructor = .done ∧ s.destructor = .idle
  | .destruct => s.failed = none ∧ s.destructor.Goes (s.thread (s.threads - 1))

def next (concurrency : ℕ) (s : State C) : Label C → State C
  | .construct => s.construct concurrency s.constructor
  | .thread cpu => s.threadStep cpu (s.thread cpu)
  | .return_ cpu => s.goto cpu .checking
  | .submit by_ cpu callback => s.submit by_ cpu callback
  | .signal by_ cpu => s.signal by_ cpu
  | .shutdown => { s with shutdown := true, destructor := .testing }
  | .destruct => s.destruct s.destructor

def machine (C : Type*) (concurrency : ℕ) : Machine (State C) (Label C) where
  Initial s := s = init
  Enabled := Enabled concurrency
  next := next concurrency

instance (concurrency : ℕ) (s : State C) : (l : Label C) → Decidable (Enabled concurrency s l)
  | .construct => inferInstanceAs (Decidable (_ ∧ s.constructor.Goes s.ready))
  | .thread cpu => inferInstanceAs (Decidable (_ ∧ (s.thread cpu).Goes (s.semaphore cpu)))
  | .return_ _ => inferInstanceAs (Decidable (_ ∧ _ = _))
  | .submit none _ _ => inferInstanceAs (Decidable (_ ∧ _ = _ ∧ _ = _ ∧ _ < _))
  | .submit (some _) _ _ => inferInstanceAs (Decidable (_ ∧ _ = _ ∧ _ < _))
  | .signal by_ cpu => inferInstanceAs (Decidable (_ ∧ (by_, cpu) ∈ s.submits))
  | .shutdown => inferInstanceAs (Decidable (_ ∧ _ = _ ∧ _ = _))
  | .destruct => inferInstanceAs (Decidable (_ ∧ s.destructor.Goes (s.thread (s.threads - 1))))

instance (concurrency : ℕ) (s : State C) (l : Label C) :
    Decidable ((machine C concurrency).Enabled s l) :=
  inferInstanceAs (Decidable (Enabled concurrency s l))

end Eventuals.StaticThreadPool.Lifetime
