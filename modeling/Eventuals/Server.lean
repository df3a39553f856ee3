import Mathlib.Algebra.GroupWithZero.Nat
import Mathlib.Data.List.Range
import Eventuals.Pipe
import Eventuals.Route

/-! A gRPC `Server`: its workers take calls, look their endpoints up and write them to the pipes,
from which the loops of `Accept()` read them, until it is shut down (`grpc/server.h`,
`grpc/server.cc`). Each section under a lock is one step, but for the one of `ShutdownEndpoints()`,
which closes one pipe after the other. -/
namespace Eventuals.Server

open Route (Endpoint Endpoints)
open Route.Server (Action StatusCode)
open Transition (Machine)

structure Call where
  id : ℕ
  method : String
  host : String
  deriving DecidableEq

/-- Where a worker stands. -/
inductive Phase
  /-- `RequestCall()` is under way. -/
  | requesting
  /-- It has accepted a call. -/
  | looking (call : Call)
  | routed (call : Call) (action : Action ℕ)
  /-- It has failed. -/
  | failing
  /-- In `ShutdownEndpoints()`, with the endpoints that are still to be closed. -/
  | sweeping (rest : List (Endpoint ℕ))
  | done
  deriving DecidableEq

/-- A loop over the calls that an `Accept()` returns. -/
inductive Loop
  | demanded
  | handling
  | ended
  deriving DecidableEq

/-- The pipe of an endpoint, and who reads it. -/
structure Served where
  pipe : Pipe.Data Call
  loop : Loop
  /-- The service whose task has called `Accept()`. -/
  service : ℕ

/-- Where the caller of `Wait()` stands. -/
inductive Waiter
  | none
  | server
  | workers
  | serves
  | returned
  deriving DecidableEq

structure State where
  endpoints : Endpoints ℕ
  /-- The pipe of an endpoint is at the index that `endpoints_` has for it. -/
  served : List Served
  workers : List Phase
  /-- The calls that have been finished with an error. -/
  finished : List (Call × StatusCode × String)
  shutdown : Bool
  /-- `done` of each of `serves_`. -/
  serves : List Bool
  waiter : Waiter
  /-- How many calls have been accepted. -/
  accepted : ℕ

inductive Label
  | request (w : ℕ) (method host : String)
  /-- `RequestCall()` completes with `!ok`. -/
  | reject (w : ℕ)
  | lookup (w : ℕ)
  | act (w : ℕ)
  | sweep (w : ℕ)
  | close (w : ℕ) (e : Endpoint ℕ)
  | finish (w : ℕ)
  /-- `Accept()`, once the method has been validated. -/
  | accept (service : ℕ) (path host : String)
  | dequeue (i : ℕ)
  | demand (i : ℕ)
  /-- The loop at that index fails or stops, or has no more demand. -/
  | abandon (i : ℕ)
  /-- The task of a service completes. -/
  | complete (service : ℕ)
  | shutdown
  | wait
  | proceed

/-- What a section of a pipe makes of its fields. -/
def pipeStep (c : Pipe.Control Call) (d : Pipe.Data Call) : Pipe.Data Call :=
  (Pipe.code c d).store d

def Phase.isSweeping : Phase → Bool
  | .sweeping _ => true
  | _ => false

namespace State

variable (s : State)

/-- A worker has the lock of the server. -/
def locked : Bool := s.workers.any Phase.isSweeping

def setWorker (w : ℕ) (p : Phase) : State :=
  { s with workers := s.workers.set w p }

def setServed (i : ℕ) (f : Served → Served) : State :=
  { s with served := s.served.modify i f }

/-- `Endpoint::Enqueue()` or `Unimplemented()` -/
def act (c : Call) : Action ℕ → State
  | .enqueue e => s.setServed e.server fun p => { p with pipe := pipeStep (.write c) p.pipe }
  | .finish code message => { s with finished := s.finished ++ [(c, code, message)] }

/-- `Insert()` and, if it is successful, `Dequeue()` -/
def accept (service : ℕ) (path host : String) : State :=
  match Route.Server.insert s.endpoints ⟨path, host, s.served.length⟩ with
  | (.ok (), endpoints) =>
    { s with
      endpoints := endpoints
      served := s.served ++ [⟨Pipe.Data.empty, .demanded, service⟩] }
  | (.error _, _) => s

end State

/-- `Read()` takes what there is, or finds the pipe closed. -/
def Served.dequeue (p : Served) : Served :=
  { p with
    pipe := pipeStep .takeValue p.pipe
    loop := if p.pipe.values.isEmpty then .ended else .handling }

/-- `Read()` has not to wait. -/
def Served.ready (p : Served) : Bool :=
  p.loop == .demanded && !(p.pipe.values.isEmpty && !p.pipe.isClosed)

def enabled (s : State) : Label → Bool
  | .request w _ _ => s.workers[w]? == some .requesting
  | .reject w => s.workers[w]? == some .requesting && s.shutdown
  | .lookup w =>
    match s.workers[w]? with
    | some (.looking _) => !s.locked
    | _ => false
  | .act w =>
    match s.workers[w]? with
    | some (.routed ..) => true
    | _ => false
  | .sweep w => s.workers[w]? == some .failing && !s.locked
  | .close w e =>
    match s.workers[w]? with
    | some (.sweeping rest) => decide (e ∈ rest)
    | _ => false
  | .finish w => s.workers[w]? == some (.sweeping [])
  | .accept service _ _ => !s.locked && s.serves[service]? != some true
  | .dequeue i => s.served[i]?.any Served.ready
  | .demand i => s.served[i]?.any (·.loop == .handling)
  | .abandon i => s.served[i]?.any (·.loop != .ended)
  | .complete service =>
    s.serves[service]? == some false &&
      s.served.all fun p => p.service != service || p.loop == .ended
  | .shutdown => true
  | .wait => s.waiter == .none
  | .proceed =>
    match s.waiter with
    | .server => s.shutdown
    | .workers => s.workers.all (· == .done)
    | .serves => s.serves.all id
    | .none | .returned => false

def next (s : State) : Label → State
  | .request w method host =>
    { s.setWorker w (.looking ⟨s.accepted, method, host⟩) with accepted := s.accepted + 1 }
  | .reject w => s.setWorker w .failing
  | .lookup w =>
    match s.workers[w]? with
    | some (.looking c) =>
      s.setWorker w (.routed c (Route.Server.route s.endpoints c.method c.host))
    | _ => s
  | .act w =>
    match s.workers[w]? with
    | some (.routed c action) => (s.act c action).setWorker w .requesting
    | _ => s
  | .sweep w => s.setWorker w (.sweeping s.endpoints.entries)
  | .close w e =>
    match s.workers[w]? with
    | some (.sweeping rest) =>
      (s.setServed e.server fun p => { p with pipe := pipeStep .close p.pipe }).setWorker w
        (.sweeping (rest.erase e))
    | _ => s
  | .finish w => s.setWorker w .done
  | .accept service path host => s.accept service path host
  | .dequeue i => s.setServed i Served.dequeue
  | .demand i => s.setServed i fun p => { p with loop := .demanded }
  | .abandon i => s.setServed i fun p => { p with loop := .ended }
  | .complete service => { s with serves := s.serves.set service true }
  | .shutdown => { s with shutdown := true }
  | .wait => { s with waiter := .server }
  | .proceed =>
    { s with
      waiter :=
        match s.waiter with
        | .server => .workers
        | .workers => .serves
        | .serves => .returned
        | w => w }

/-- A server with that many completion queues and services. -/
def initial (queues services : ℕ) : State where
  endpoints := .empty
  served := []
  workers := List.replicate queues .requesting
  finished := []
  shutdown := false
  serves := List.replicate services false
  waiter := .none
  accepted := 0

def machine : Machine State Label where
  Initial s := ∃ queues services, s = initial queues services
  Enabled s l := enabled s l = true
  next := next

instance (s : State) (l : Label) : Decidable (machine.Enabled s l) :=
  inferInstanceAs (Decidable (enabled s l = true))

/-- The steps of the workers and of the loops themselves. -/
def Label.serving : Label → Bool
  | .lookup _ | .act _ | .sweep _ | .close .. | .finish _ | .dequeue _ | .demand _ => true
  | _ => false

/-- With those that lead to the end of `Wait()`. -/
def Label.ending (l : Label) : Bool :=
  l.serving ||
    match l with
    | .complete _ | .proceed => true
    | _ => false

/-- Which of the accepted calls a worker has. -/
def Phase.ids : Phase → List ℕ
  | .looking c | .routed c _ => [c.id]
  | .requesting | .failing | .sweeping _ | .done => []

/-- Which have been written while the pipe was open. -/
def Served.ids (p : Served) : List ℕ := (Pipe.writtenBeforeClose p.pipe.history).map Call.id

def Served.dequeued (p : Served) : List ℕ := (Pipe.returnedValues p.pipe.history).map Call.id

namespace State

variable (s : State)

def finishedIds : List ℕ := s.finished.map fun x => x.1.id

/-- Where the accepted calls are. -/
def calls : List ℕ := s.workers.flatMap Phase.ids ++ (s.finishedIds ++ s.served.flatMap Served.ids)

/-- The calls that have been dequeued, or finished with an error. -/
def settled : List ℕ := s.finishedIds ++ s.served.flatMap Served.dequeued

end State

/-- Every accepted call is with a worker, finished with an error, or written to a pipe that was
open. Some loop is there to dequeue it, and has done so when there is nothing left to do, which
comes after a bounded number of steps. -/
structure Kept (s : State) : Prop where
  calls : s.calls.Perm (List.range s.accepted)
  read : ∀ p ∈ s.served, p.loop = .ended → p.pipe.values = []
  settled : machine.Quiet (·.serving = true) s → s.settled.Perm (List.range s.accepted)
  bounded : ∃ n, ∀ xs t, (machine.restrict fun _ l => l.serving = true).Run s xs t → xs.length ≤ n

/-- Where a worker is to enqueue its call. -/
def State.target (s : State) (w : ℕ) : Option Served :=
  match s.workers[w]? with
  | some (.routed _ (.enqueue e)) => s.served[e.server]?
  | _ => none

/-- A call is enqueued to a pipe that is open and read, and no loop gives up before it has dequeued
what is there. -/
def InTime (s : State) : Label → Prop
  | .act w => ∀ p ∈ s.target w, p.pipe.isClosed = false ∧ p.loop ≠ .ended
  | .abandon i => ∀ p ∈ s.served[i]?, p.pipe.values = []
  | _ => True

/-- Once every worker has run `ShutdownEndpoints()` every pipe is closed. Then every loop comes to
its end, and `Wait()` waits for none, after a bounded number of steps. -/
structure Ends (s : State) : Prop where
  closed : (∀ p ∈ s.workers, p = .done) → ∀ p ∈ s.served, p.pipe.isClosed = true
  ended : (∀ p ∈ s.workers, p = .done) → machine.Quiet (·.ending = true) s →
    (∀ p ∈ s.served, p.loop = .ended) ∧ s.waiter ≠ .workers ∧ s.waiter ≠ .serves
  bounded : ∃ n, ∀ xs t, (machine.restrict fun _ l => l.ending = true).Run s xs t → xs.length ≤ n

/-- Nothing is inserted after the last worker has run `ShutdownEndpoints()`. -/
def Early (s : State) : Label → Prop
  | .accept _ path host => (∀ p ∈ s.workers, p = .done) → s.endpoints.find (path, host) ≠ none
  | _ => True

instance (s : State) : (l : Label) → Decidable (InTime s l)
  | .act w => inferInstanceAs (Decidable
      (∀ p ∈ s.target w, p.pipe.isClosed = false ∧ p.loop ≠ .ended))
  | .abandon i => inferInstanceAs (Decidable (∀ p ∈ s.served[i]?, p.pipe.values = []))
  | .request .. | .reject _ | .lookup _ | .sweep _ | .close .. | .finish _ | .accept ..
  | .dequeue _ | .demand _ | .complete _ | .shutdown | .wait | .proceed => isTrue trivial

instance (s : State) : (l : Label) → Decidable (Early s l)
  | .accept _ path host => inferInstanceAs (Decidable
      ((∀ p ∈ s.workers, p = .done) → s.endpoints.find (path, host) ≠ none))
  | .request .. | .reject _ | .lookup _ | .act _ | .sweep _ | .close .. | .finish _
  | .dequeue _ | .demand _ | .abandon _ | .complete _ | .shutdown | .wait | .proceed =>
    isTrue trivial

end Eventuals.Server
