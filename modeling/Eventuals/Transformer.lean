import Mathlib.Data.List.Forall2
import Eventuals.Library.Transition

/-! A `Transformer` hides combinators of a stream behind the types of their values and errors
(`transformer.h`), and the same combinators composed in its place (`map.h`, `filter.h`, `until.h`,
`take.h`, `flat-map.h`). Whatever a callable returns decides for itself when and how it ends. -/
namespace Eventuals.Transformer

open Transition (Machine)

/-- The calls from a stream down to what comes next. `Begin()` is with a stream. -/
inductive Event (V E : Type*)
  | begin
  | body (v : V)
  | ended
  | fail (error : E)
  | stop
  deriving DecidableEq

/-- The calls up to a stream. -/
inductive Demand
  | next
  | done
  deriving DecidableEq

inductive Kind (V : Type*)
  | map
  | filter (f : V → Bool)
  | until (f : V → Bool)
  /-- `Until` with a callable that returns an eventual, whose value says whether it is done. -/
  | untilEventual (done : V → Bool)
  | takeRange (begin amount : ℕ)
  | flatMap

/-- A combinator, with what the continuation of its kind keeps. -/
structure Stage (V : Type*) where
  kind : Kind V
  /-- `stream_` or `outer_` is set. -/
  stream : Bool
  /-- `interrupt_` is set. -/
  interrupt : Bool
  i : ℕ
  arg : Option V
  /-- `adapted_` of a `FlatMap`, and its `inner_`. -/
  adapted : Bool
  inner : Bool
  done : Bool

inductive Check
  /-- A null pointer to a stream is followed. -/
  | stream
  | interrupt
  | takeRange
  | adapted
  | inner
  deriving DecidableEq

/-- What a call comes to, where `E` and `V` are as for events. -/
inductive Exit (V E : Type*)
  | down (event : Event V E)
  | up (demand : Demand)
  /-- The eventual of the stage at that position is under way. -/
  | eventual (position : ℕ)
  /-- The inner stream of the stage at that position has been called, and has begun or not. -/
  | inner (position : ℕ) (begun : Bool)
  | failed (c : Check)
  deriving DecidableEq

/-- What a demand of a stage comes to. -/
inductive Reply
  | up (demand : Demand)
  | inner
  | failed (c : Check)

/-- How an eventual ends. -/
inductive Result (V E : Type*)
  | value (v : V)
  | fail (error : E)
  | stop
  deriving DecidableEq

variable {V E : Type*}

namespace Stage

variable (s : Stage V)

/-- A call of `stream_` or `outer_`. -/
def call (demand : Demand) : Exit V E :=
  if s.stream then .up demand else .failed .stream

def reply (demand : Demand) : Reply :=
  if s.stream then .up demand else .failed .stream

def body (v : V) : Stage V × Exit V E :=
  match s.kind with
  | .map => (s, .eventual 0)
  | .filter f => if f v then (s, .down (.body v)) else (s, s.call .next)
  | .until f => if f v then (s, s.call .done) else (s, .down (.body v))
  | .untilEventual _ =>
    if s.stream then ({ s with arg := some v }, .eventual 0) else (s, .failed .stream)
  | .takeRange begin amount =>
    if begin ≤ s.i ∧ s.i < begin + amount then ({ s with i := s.i + 1 }, .down (.body v))
    else if s.i < begin then ({ s with i := s.i + 1 }, s.call .next)
    else if s.i = begin + amount then (s, s.call .done)
    else (s, .failed .takeRange)
  | .flatMap =>
    if s.adapted then (s, .failed .adapted) else ({ s with adapted := true }, .inner 0 false)

/-- `Begin()`, `Body()`, `Ended()`, `Fail()` and `Stop()` -/
def down : Event V E → Stage V × Exit V E
  | .begin =>
    match s.kind with
    | .map => (s, .down .begin)
    | _ => ({ s with stream := true }, .down .begin)
  | .body v => s.body v
  | .ended =>
    match s.kind with
    | .flatMap => if s.adapted then (s, .failed .adapted) else (s, .down .ended)
    | _ => (s, .down .ended)
  | .fail error => (s, .down (.fail error))
  | .stop =>
    match s.kind with
    | .flatMap => ({ s with done := true }, .down .stop)
    | _ => (s, .down .stop)

/-- `Next()` and `Done()` where the stage is a stream, and else of the one that it hands on. -/
def up (demand : Demand) : Stage V × Reply :=
  match s.kind, demand with
  | .takeRange begin amount, .next =>
    if s.i < begin + amount then (s, s.reply .next)
    else if s.i = begin + amount then (s, s.reply .done)
    else (s, .failed .takeRange)
  | .takeRange .., .done => (s, s.reply .done)
  | .flatMap, .next =>
    if s.adapted then if s.inner then (s, .inner) else (s, .failed .inner) else (s, s.reply .next)
  | .flatMap, .done =>
    let s := { s with done := true }
    if s.adapted then if s.inner then (s, .inner) else (s, .failed .inner) else (s, s.reply .done)
  | _, demand => (s, .up demand)

/-- The `Adaptor` of a `Map` or an `Until`. -/
def complete : Result V E → Stage V × Exit V E
  | .value v =>
    match s.kind with
    | .untilEventual done =>
      if done v then (s, s.call .done) else (s, .down (.body (s.arg.getD v)))
    | _ => (s, .down (.body v))
  | .fail error => (s, .down (.fail error))
  | .stop => (s, .down .stop)

/-- The `Adaptor` of a `FlatMap`. -/
def innerCalls : Event V E → Stage V × Exit V E
  | .begin =>
    if s.adapted then
      if s.inner then (s, .failed .inner) else ({ s with inner := true }, .inner 0 true)
    else (s, .failed .adapted)
  | .body v => (s, .down (.body v))
  | .ended =>
    if s.adapted then
      if s.inner then
        let s := { s with adapted := false, inner := false }
        if s.done then (s, s.call .done) else (s, s.call .next)
      else (s, .failed .inner)
    else (s, .failed .adapted)
  | .fail error => (s, .down (.fail error))
  | .stop => ({ s with done := true }, .down .stop)

/-- The kinds that keep `interrupt_`, and assert that they had none. -/
def keeps : Bool :=
  match s.kind with
  | .map | .untilEventual _ | .flatMap => true
  | .filter _ | .until _ | .takeRange .. => false

def register : Option (Stage V) :=
  if s.keeps then if s.interrupt then none else some { s with interrupt := true } else some s

end Stage

def Kind.stage (kind : Kind V) : Stage V :=
  ⟨kind, false, false, 0, none, false, false, false⟩

section Stages

/-- What comes out of the stages after `s`. -/
def resolve (s : Stage V) (p : List (Stage V) × Exit V E) : List (Stage V) × Exit V E :=
  match p.2 with
  | .up demand =>
    match s.up demand with
    | (s, .up demand) => (s :: p.1, .up demand)
    | (s, .inner) => (s :: p.1, .inner 0 true)
    | (s, .failed c) => (s :: p.1, .failed c)
  | .eventual j => (s :: p.1, .eventual (j + 1))
  | .inner j begun => (s :: p.1, .inner (j + 1) begun)
  | .down event => (s :: p.1, .down event)
  | .failed c => (s :: p.1, .failed c)

/-- An event passes down the stages. -/
def passDown : List (Stage V) → Event V E → List (Stage V) × Exit V E
  | [], event => ([], .down event)
  | s :: ss, event =>
    match s.down event with
    | (s, .down event) => resolve s (passDown ss event)
    | (s, exit) => (s :: ss, exit)

/-- A demand passes up the stages. -/
def passUp : List (Stage V) → Demand → List (Stage V) × Exit V E
  | [], demand => ([], .up demand)
  | s :: ss, demand => resolve s (passUp ss demand)

/-- The stage at a position makes a call. -/
def callAt (f : Stage V → Stage V × Exit V E) : ℕ → List (Stage V) → List (Stage V) × Exit V E
  | _, [] => ([], .failed .adapted)
  | 0, s :: ss =>
    match f s with
    | (s, .down event) => resolve s (passDown ss event)
    | (s, exit) => (s :: ss, exit)
  | j + 1, s :: ss => resolve s (callAt f j ss)

end Stages

/-- Who is to make the next call. -/
inductive Turn
  /-- Upstream, which has not begun. -/
  | begin
  | upstream
  | downstream
  | eventual (position : ℕ)
  | inner (position : ℕ) (begun : Bool)
  | over
  deriving DecidableEq

inductive Label (V E : Type*)
  | upstream (event : Event V E)
  | downstream (demand : Demand)
  | eventual (result : Result V E)
  | inner (event : Event V E)

def Event.turn : Event V E → Turn
  | .begin | .body _ => .downstream
  | .ended | .fail _ | .stop => .over

def Event.isBegin : Event V E → Bool
  | .begin => true
  | _ => false

def Event.isFinal : Event V E → Bool
  | .fail _ | .stop => true
  | _ => false

/-- The calls that a stream may make, where an inner stream is one too. -/
def Turn.allows : Turn → Label V E → Bool
  | .begin, .upstream event => event.isBegin || event.isFinal
  | .upstream, .upstream event => !event.isBegin
  | .downstream, .downstream _ => true
  | .eventual _, .eventual _ => true
  | .inner _ false, .inner event => event.isBegin || event.isFinal
  | .inner _ true, .inner event => !event.isBegin
  | _, _ => false

/-- The calls that have crossed the ends of a pipeline, and the checks that failed. -/
structure Calls (V E : Type*) where
  turn : Turn
  down : List (Event V E)
  up : List Demand
  failed : List Check

def Calls.init (V E : Type*) : Calls V E :=
  ⟨.begin, [], [], []⟩

def Calls.exit (c : Calls V E) : Exit V E → Calls V E
  | .down event => { c with down := c.down ++ [event], turn := event.turn }
  | .up demand => { c with up := c.up ++ [demand], turn := .upstream }
  | .eventual j => { c with turn := .eventual j }
  | .inner j begun => { c with turn := .inner j begun }
  | .failed check => { c with failed := c.failed ++ [check], turn := .over }

/-- The combinators composed in place of the transformer. -/
structure Inline (V E : Type*) where
  stages : List (Stage V)
  calls : Calls V E
  /-- What upstream has called. -/
  received : List (Event V E)

structure State (V E : Type*) where
  /-- `e_` -/
  e : Option (List (Stage V))
  calls : Calls V E

/-- `position` is where the call under way is made. -/
def called (j : ℕ) (ss : List (Stage V)) : Label V E → List (Stage V) × Exit V E
  | .upstream event => passDown ss event
  | .downstream demand => passUp ss demand
  | .eventual result => callAt (Stage.complete · result) j ss
  | .inner event => callAt (Stage.innerCalls · event) j ss

def Turn.position : Turn → ℕ
  | .eventual j => j
  | .inner j _ => j
  | _ => 0

namespace Inline

variable (t : Inline V E)

def next (l : Label V E) : Inline V E where
  stages := (called t.calls.turn.position t.stages l).1
  calls := t.calls.exit (called t.calls.turn.position t.stages l).2
  received :=
    match l with
    | .upstream event => t.received ++ [event]
    | _ => t.received

end Inline

namespace State

variable (s : State V E)

/-- `HeapTransformer::Body()`, `Fail()` and `Stop()`: the eventual is registered each time. -/
def dispatch (kinds : List (Kind V)) (event : Event V E) : State V E :=
  let ss := s.e.getD (kinds.map Kind.stage)
  match ss.mapM Stage.register with
  | none => { e := some ss, calls := s.calls.exit (.failed .interrupt) }
  | some ss =>
    let p := passDown ss event
    { e := some p.1, calls := s.calls.exit p.2 }

/-- `Continuation::Begin()`, `Fail()`, `Stop()`, `Body()` and `Ended()` -/
def upstream (kinds : List (Kind V)) (catches : E → Bool) (event : Event V E) : State V E :=
  match event with
  | .begin | .ended => { s with calls := s.calls.exit (.down event) }
  | .fail error =>
    if catches error then s.dispatch kinds event
    else { s with calls := s.calls.exit (.down event) }
  | .body _ | .stop => s.dispatch kinds event

/-- Downstream has been given the stream of upstream itself. -/
def next (kinds : List (Kind V)) (catches : E → Bool) (l : Label V E) : State V E :=
  match l with
  | .upstream event => s.upstream kinds catches event
  | .downstream demand => { s with calls := s.calls.exit (.up demand) }
  | .eventual _ | .inner _ =>
    let p := called s.calls.turn.position (s.e.getD []) l
    { e := some p.1, calls := s.calls.exit p.2 }

end State

/-- Everything has been registered before it is started. -/
def Inline.init (E : Type*) (kinds : List (Kind V)) : Inline V E :=
  ⟨kinds.map fun kind => { kind.stage with interrupt := kind.stage.keeps }, .init V E, []⟩

def State.init (V E : Type*) : State V E :=
  ⟨none, .init V E⟩

def inline (kinds : List (Kind V)) : Machine (Inline V E) (Label V E) where
  Initial t := t = .init E kinds
  Enabled t l := t.calls.turn.allows l = true
  next t l := t.next l

def machine (kinds : List (Kind V)) (catches : E → Bool) : Machine (State V E) (Label V E) where
  Initial s := s = .init V E
  Enabled s l := s.calls.turn.allows l = true
  next s l := s.next kinds catches l

instance (kinds : List (Kind V)) (t : Inline V E) (l : Label V E) :
    Decidable ((inline kinds).Enabled t l) :=
  inferInstanceAs (Decidable (t.calls.turn.allows l = true))

instance (kinds : List (Kind V)) (catches : E → Bool) (s : State V E) (l : Label V E) :
    Decidable ((machine kinds catches).Enabled s l) :=
  inferInstanceAs (Decidable (s.calls.turn.allows l = true))

end Eventuals.Transformer
