import Mathlib.Logic.Function.Basic
import Eventuals.Transformer

/-! A stream that is `Synchronized()`: `Acquire` stands before its combinators, of which any may be
a `Wait`, and `Release` behind them (`lock.h`). Somebody else may hold the lock meanwhile, and
`Release()` frees it before it resets `acquired` of the waiter that held it. -/
namespace Eventuals.Synchronized

open Transformer (Event Demand Kind Stage Result)
open Transition (Machine)

/-- What the continuation of a `Wait` keeps, as part of a stream. -/
structure Wait (V : Type*) where
  notifiable : Bool
  /-- `waiter_.f` is set. -/
  waiter : Bool
  arg : Option V

inductive Item (V : Type*)
  | stage (s : Stage V)
  | wait (w : Wait V)

/-- A combinator of the stream. -/
inductive Combinator (V : Type*)
  | kind (kind : Kind V)
  | wait

inductive Check
  | stage (c : Transformer.Check)
  /-- `CHECK(!lock_->Available())` -/
  | available
  /-- `CHECK(!waiter_.f)` -/
  | waiter
  /-- `CHECK(!waiter->acquired)` of `AcquireFast()` and `AcquireSlow()` -/
  | recursive
  deriving DecidableEq

/-- What a call comes to, as it does without a `Wait`. -/
inductive Exit (V E : Type*)
  | down (event : Event V E)
  | up (demand : Demand)
  | eventual (position : ℕ)
  | inner (position : ℕ) (begun : Bool)
  /-- The `Wait` at that position has released the lock. -/
  | wait (position : ℕ)
  | failed (c : Check)

variable {V E : Type*}

def Exit.of : Transformer.Exit V E → Exit V E
  | .down event => .down event
  | .up demand => .up demand
  | .eventual j => .eventual j
  | .inner j begun => .inner j begun
  | .failed c => .failed (.stage c)

def Wait.body (w : Wait V) (available condition : Bool) (v : V) : Wait V × Exit V E :=
  if available then (w, .failed .available)
  else
    let w := { w with notifiable := false }
    if condition then ({ w with notifiable := true, waiter := true, arg := some v }, .wait 0)
    else (w, .down (.body v))

/-- `Begin()`, `Body()`, `Ended()`, `Fail()` and `Stop()` -/
def Wait.down (w : Wait V) (available condition : Bool) : Event V E → Wait V × Exit V E
  | .body v => w.body available condition v
  | .ended =>
    if available then (w, .failed .available)
    else if w.waiter then (w, .failed .waiter)
    else (w, .down .ended)
  | event => (w, .down event)

/-- What a demand of an item comes to. -/
inductive Reply
  | up (demand : Demand)
  | inner
  | failed (c : Check)

namespace Item

def down (available condition : Bool) (event : Event V E) : Item V → Item V × Exit V E
  | .stage s => (.stage (s.down event : Stage V × Transformer.Exit V E).1, .of (s.down event).2)
  | .wait w => (.wait (w.down available condition event : Wait V × Exit V E).1,
      (w.down available condition event).2)

/-- A `Wait` hands the stream before it on. -/
def up (demand : Demand) : Item V → Item V × Reply
  | .stage s =>
    match s.up demand with
    | (s, .up demand) => (.stage s, .up demand)
    | (s, .inner) => (.stage s, .inner)
    | (s, .failed c) => (.stage s, .failed (.stage c))
  | .wait w => (.wait w, .up demand)

end Item

section Items

/-- What comes out of the items after `i`. -/
def resolve (i : Item V) (p : List (Item V) × Exit V E) : List (Item V) × Exit V E :=
  match p.2 with
  | .up demand =>
    match i.up demand with
    | (i, .up demand) => (i :: p.1, .up demand)
    | (i, .inner) => (i :: p.1, .inner 0 true)
    | (i, .failed c) => (i :: p.1, .failed c)
  | .eventual j => (i :: p.1, .eventual (j + 1))
  | .inner j begun => (i :: p.1, .inner (j + 1) begun)
  | .wait j => (i :: p.1, .wait (j + 1))
  | .down event => (i :: p.1, .down event)
  | .failed c => (i :: p.1, .failed c)

/-- An event passes down the items; `conditions` says which `Wait` has to wait. -/
def passDown (available : Bool) : (ℕ → Bool) → List (Item V) → Event V E →
    List (Item V) × Exit V E
  | _, [], event => ([], .down event)
  | conditions, i :: is, event =>
    match i.down available (conditions 0) event with
    | (i, .down event) => resolve i (passDown available (fun k => conditions (k + 1)) is event)
    | (i, exit) => (i :: is, exit)

/-- A demand passes up the items. -/
def passUp : List (Item V) → Demand → List (Item V) × Exit V E
  | [], demand => ([], .up demand)
  | i :: is, demand => resolve i (passUp is demand)

/-- The item at a position makes a call. -/
def callAt (available : Bool) (f : Bool → Item V → Item V × Exit V E) :
    (ℕ → Bool) → ℕ → List (Item V) → List (Item V) × Exit V E
  | _, _, [] => ([], .failed (.stage .adapted))
  | conditions, 0, i :: is =>
    match f (conditions 0) i with
    | (i, .down event) => resolve i (passDown available (fun k => conditions (k + 1)) is event)
    | (i, exit) => (i :: is, exit)
  | conditions, j + 1, i :: is =>
    resolve i (callAt available f (fun k => conditions (k + 1)) j is)

end Items

namespace Item

/-- The eventual of a combinator ends. -/
def complete (result : Result V E) (_ : Bool) : Item V → Item V × Exit V E
  | .stage s => (.stage (s.complete result).1, .of (s.complete result).2)
  | .wait w => (.wait w, .failed (.stage .adapted))

/-- The inner stream of a `FlatMap` makes a call. -/
def innerCalls (event : Event V E) (_ : Bool) : Item V → Item V × Exit V E
  | .stage s => (.stage (s.innerCalls event).1, .of (s.innerCalls event).2)
  | .wait w => (.wait w, .failed (.stage .adapted))

/-- A `Wait` has got the lock again, and its `waiter_.f` has been moved. -/
def resume (available condition : Bool) : Item V → Item V × Exit V E
  | .stage s => (.stage s, .failed (.stage .adapted))
  | .wait w =>
    match w.arg with
    | some v =>
      let w := { w with waiter := false }
      (.wait (w.body available condition v : Wait V × Exit V E).1, (w.body available condition v).2)
    | none => (.wait w, .failed (.stage .adapted))

def notify : Item V → Item V
  | .stage s => .stage s
  | .wait w => .wait { w with notifiable := false }

end Item

/-- `waiter_` of `Acquire`, or of the `Wait` at a position. -/
inductive Waiter
  | acquire
  | wait (position : ℕ)
  deriving DecidableEq

/-- Who is to make the next call. -/
inductive Turn (V E : Type*)
  | begin
  | upstream
  /-- `Acquire` has been called, and waits for the lock. -/
  | acquire (event : Event V E)
  /-- `Release()` has freed the lock, and is to reset the waiter that held it before downstream is
  called. -/
  | releasing (w : Option Waiter) (event : Event V E)
  | downstream
  | eventual (position : ℕ)
  | inner (position : ℕ) (begun : Bool)
  /-- A `Wait` has not been notified. -/
  | wait (position : ℕ)
  /-- A `Wait` has been notified, and waits for the lock. -/
  | notified (position : ℕ)
  | over

/-- Control is inside the stream. -/
def Turn.inside : Turn V E → Bool
  | .eventual _ | .inner .. => true
  | _ => false

inductive Owner
  | us (w : Waiter)
  | other
  deriving DecidableEq

structure State (V E : Type*) where
  items : List (Item V)
  turn : Turn V E
  owner : Option Owner
  /-- `acquired` of the waiters. -/
  waiters : Waiter → Bool
  /-- The waiters that the `Release()` of a `Wait` has still to reset. -/
  clearing : List Waiter
  /-- How often the stream has acquired and released the lock. -/
  acquired : ℕ
  released : ℕ
  /-- How often control has come into the stream and left it. -/
  entered : ℕ
  left : ℕ
  failed : Option Check

inductive Label (V E : Type*)
  | upstream (event : Event V E)
  | acquire (conditions : ℕ → Bool)
  /-- `Release()` returns, and downstream is called. -/
  | released
  | downstream (demand : Demand)
  | eventual (result : Result V E) (conditions : ℕ → Bool)
  | inner (event : Event V E) (conditions : ℕ → Bool)
  | notify
  | resume (conditions : ℕ → Bool)
  /-- The `Release()` of a `Wait` resets its waiter. -/
  | reset (w : Waiter)
  /-- Somebody else acquires the lock. -/
  | lock
  | unlock

namespace State

variable (s : State V E)

def available : Bool := s.owner.isNone

/-- The waiter with which the stream holds the lock. -/
def holder : Option Waiter :=
  match s.owner with
  | some (.us w) => some w
  | _ => none

def exit (p : List (Item V) × Exit V E) : State V E :=
  let s := { s with items := p.1 }
  match p.2 with
  | .down event =>
    if s.available then { s with failed := some .available, turn := .over }
    else
      { s with
        owner := none
        released := s.released + 1
        left := s.left + 1
        turn := .releasing s.holder event }
  | .up _ => { s with left := s.left + 1, turn := .upstream }
  | .eventual j => { s with turn := .eventual j }
  | .inner j begun => { s with turn := .inner j begun }
  | .wait j =>
    { s with
      owner := none
      released := s.released + 1
      left := s.left + 1
      clearing := s.clearing ++ s.holder.toList
      turn := .wait j }
  | .failed c => { s with failed := some c, turn := .over }

/-- The lock has been acquired with the waiter, and control goes on inside. -/
def enter (w : Waiter) : State V E :=
  { s with
    owner := some (.us w)
    waiters := Function.update s.waiters w true
    acquired := s.acquired + 1
    entered := s.entered + 1 }

/-- `AcquireFast()` and `AcquireSlow()`, until the waiter gets the lock. -/
def await (w : Waiter) (turn : Turn V E) : State V E :=
  if s.waiters w then { s with failed := some .recursive, turn := .over }
  else { s with turn := turn }

def reset (w : Waiter) : State V E :=
  { s with waiters := Function.update s.waiters w false }

/-- A demand that comes to an inner stream comes into the stream; one that goes on to upstream has
only passed. -/
def demand (demand : Demand) : State V E :=
  let p : List (Item V) × Exit V E := passUp s.items demand
  match p.2 with
  | .up _ => { s with items := p.1, turn := .upstream }
  | _ => { s with entered := s.entered + 1 }.exit p

def position : ℕ :=
  match s.turn with
  | .eventual j | .inner j _ | .wait j | .notified j => j
  | _ => 0

/-- The item at the position makes a call. -/
def call (f : Bool → Item V → Item V × Exit V E) (conditions : ℕ → Bool) : State V E :=
  s.exit (callAt s.available f conditions s.position s.items)

end State

def Turn.allows : Turn V E → Label V E → Bool
  | .begin, .upstream event => event.isBegin || event.isFinal
  | .upstream, .upstream event => !event.isBegin
  | .acquire _, .acquire _ => true
  | .releasing .., .released => true
  | .downstream, .downstream _ => true
  | .eventual _, .eventual .. => true
  | .inner _ false, .inner event _ => event.isBegin || event.isFinal
  | .inner _ true, .inner event _ => !event.isBegin
  | .wait _, .notify => true
  | .notified _, .resume _ => true
  | _, .reset _ | _, .lock | _, .unlock => true
  | _, _ => false

/-- Who has to own the lock, if anybody: a `Wait` is notified by somebody else who does. -/
def Label.owner : Label V E → Option (Option Owner)
  | .acquire _ | .resume _ | .lock => some none
  | .notify | .unlock => some (some .other)
  | .upstream _ | .released | .downstream _ | .eventual .. | .inner .. | .reset _ => none

def Label.resets : Label V E → Option Waiter
  | .reset w => some w
  | _ => none

def Enabled (s : State V E) (l : Label V E) : Prop :=
  s.turn.allows l = true ∧ (∀ owner ∈ l.owner, s.owner = owner) ∧ ∀ w ∈ l.resets, w ∈ s.clearing

def next (s : State V E) : Label V E → State V E
  | .upstream event => s.await .acquire (.acquire event)
  | .acquire conditions =>
    match s.turn with
    | .acquire event => (s.enter .acquire).exit (passDown false conditions s.items event)
    | _ => s
  | .released =>
    match s.turn with
    | .releasing w event =>
      let s := (w.map s.reset).getD s
      match event with
      | .begin | .body _ => { s with turn := .downstream }
      | .ended | .fail _ | .stop => { s with turn := .over }
    | _ => s
  | .downstream demand => s.demand demand
  | .eventual result conditions => s.call (Item.complete result) conditions
  | .inner event conditions => s.call (Item.innerCalls event) conditions
  | .notify =>
    { s with items := s.items.modify s.position Item.notify }.await (.wait s.position)
      (.notified s.position)
  | .resume conditions =>
    (s.enter (.wait s.position)).call (Item.resume false) conditions
  | .reset w => { s.reset w with clearing := s.clearing.erase w }
  | .lock => { s with owner := some .other }
  | .unlock => { s with owner := none }

def Combinator.item : Combinator V → Item V
  | .kind k => .stage k.stage
  | .wait => .wait ⟨false, false, none⟩

def initial (E : Type*) (combinators : List (Combinator V)) : State V E where
  items := combinators.map Combinator.item
  turn := .begin
  owner := none
  waiters _ := false
  clearing := []
  acquired := 0
  released := 0
  entered := 0
  left := 0
  failed := none

def machine (combinators : List (Combinator V)) : Machine (State V E) (Label V E) where
  Initial s := s = initial E combinators
  Enabled := Enabled
  next := next

/-- The lock is held exactly while control is inside: it has been acquired each time that control
has come in, and released each time that control has left. -/
structure Held (s : State V E) : Prop where
  owner : (∃ w, s.owner = some (.us w)) ↔ s.turn.inside = true
  acquired : s.acquired = s.entered
  released : s.released = s.left
  unfailed : s.failed = none

/-- An inner stream has begun and not ended. -/
def Item.isOpen : Item V → Bool
  | .stage s => s.adapted && s.inner
  | .wait _ => false

/-- A value comes to a combinator that then turns to its stream for another one, or for no more. -/
def turnsBack : (ℕ → Bool) → List (Item V) → V → Bool
  | _, [], _ => false
  | conditions, .wait _ :: is, v => !conditions 0 && turnsBack (fun k => conditions (k + 1)) is v
  | conditions, .stage s :: is, v =>
    match s.kind with
    | .map | .untilEventual _ | .flatMap => false
    | .filter f => !f v || turnsBack (fun k => conditions (k + 1)) is v
    | .until f => f v || turnsBack (fun k => conditions (k + 1)) is v
    | .takeRange begin amount =>
      !(decide (begin ≤ s.i ∧ s.i < begin + amount)) ||
        turnsBack (fun k => conditions (k + 1)) is v

/-- The rest of the stream after the position turns back a value. -/
def State.turnsBack (s : State V E) (conditions : ℕ → Bool) (v : V) : Bool :=
  Synchronized.turnsBack (fun k => conditions (s.position + 1 + k))
    (s.items.drop (s.position + 1)) v

/-- The item at the position turns back what comes out of its eventual. -/
def State.completes (s : State V E) (v : V) (conditions : ℕ → Bool) : Bool :=
  match s.items[s.position]? with
  | some (.stage u) =>
    match u.kind with
    | .untilEventual done => done v || s.turnsBack conditions (u.arg.getD v)
    | _ => s.turnsBack conditions v
  | _ => false

def State.resumes (s : State V E) (conditions : ℕ → Bool) : Bool :=
  match s.items[s.position]? with
  | some (.wait w) => !conditions s.position && w.arg.any (s.turnsBack conditions ·)
  | _ => false

/-- The value that has got the lock. -/
def Turn.arriving : Turn V E → Option V
  | .acquire (.body v) => some v
  | _ => none

/-- No combinator asks upstream for another value, or for no more, and downstream asks no inner
stream. The `Release()` of a `Wait` has reset its waiter when that is to acquire the lock again. -/
def Benign (s : State V E) : Label V E → Prop
  | .upstream _ => .acquire ∉ s.clearing
  | .notify => .wait s.position ∉ s.clearing
  | .acquire conditions =>
    ∀ v ∈ s.turn.arriving, Synchronized.turnsBack conditions s.items v = false
  | .downstream _ => ∀ i ∈ s.items, i.isOpen = false
  | .eventual (.value v) conditions =>
    s.completes v conditions = true → ∃ i ∈ s.items.take s.position, i.isOpen = true
  | .inner .ended _ => ∃ i ∈ s.items.take s.position, i.isOpen = true
  | .resume conditions =>
    s.resumes conditions = true → ∃ i ∈ s.items.take s.position, i.isOpen = true
  | _ => True

instance (combinators : List (Combinator V)) (s : State V E) (l : Label V E) :
    Decidable ((machine combinators).Enabled s l) :=
  inferInstanceAs (Decidable (s.turn.allows l = true ∧ (∀ owner ∈ l.owner, s.owner = owner) ∧
    ∀ w ∈ l.resets, w ∈ s.clearing))

instance (s : State V E) : (l : Label V E) → Decidable (Benign s l)
  | .upstream _ => inferInstanceAs (Decidable (.acquire ∉ s.clearing))
  | .notify => inferInstanceAs (Decidable (.wait s.position ∉ s.clearing))
  | .acquire conditions => inferInstanceAs (Decidable
      (∀ v ∈ s.turn.arriving, Synchronized.turnsBack conditions s.items v = false))
  | .downstream _ => inferInstanceAs (Decidable (∀ i ∈ s.items, i.isOpen = false))
  | .eventual (.value v) conditions => inferInstanceAs (Decidable
      (s.completes v conditions = true → ∃ i ∈ s.items.take s.position, i.isOpen = true))
  | .inner .ended _ => inferInstanceAs (Decidable
      (∃ i ∈ s.items.take s.position, i.isOpen = true))
  | .resume conditions => inferInstanceAs (Decidable
      (s.resumes conditions = true → ∃ i ∈ s.items.take s.position, i.isOpen = true))
  | .released | .eventual (.fail _) _ | .eventual .stop _ | .inner .begin _ | .inner (.body _) _
  | .inner (.fail _) _ | .inner .stop _ | .reset _ | .lock | .unlock => isTrue trivial

end Eventuals.Synchronized
