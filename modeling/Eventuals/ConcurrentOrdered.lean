import Mathlib.Algebra.Group.Int.Defs
import Mathlib.Algebra.Group.Nat.Defs
import Mathlib.Data.Int.Basic
import Mathlib.Logic.Function.Basic
import Eventuals.Concurrent

/-! `ConcurrentOrdered(f)`: the tagging `Map()`, `Concurrent()`, the end markers of each tranche and
the reordering of what comes out (`concurrent-ordered.h`). The sections of `Concurrent()` that hold
the lock are single steps here too, and so are `Install()` and `Trigger()`. -/
namespace Eventuals.ConcurrentOrdered

open Function (update)
open Transition (Machine)

variable {A W E : Type*}

/-- What an `int` holds of `z`. -/
def int (z : ℤ) : ℤ :=
  z.bmod (2 ^ 32)

/-- `std::tuple<int, std::optional<Value>>`; a negative index marks the end of a tranche. -/
abbrev Item (W : Type*) := ℤ × Option W

inductive Check
  | index
  | tranche
  | done
  | buffer
  | order
  | value
  deriving DecidableEq

section Adaptor

/-- `_ConcurrentOrderedAdaptor::Continuation` in the fiber of one upstream value, with the index
`j` that `Map()` puts before the values of `f()` and with the values that are still to come. -/
structure Adaptor (W : Type*) where
  j : ℤ
  upstream : List W
  ended : Bool
  index : Option ℤ
  deriving DecidableEq

inductive Answer (W : Type*)
  | body (item : Item W)
  | ended
  | failed (c : Check)
  deriving DecidableEq

namespace Adaptor

def begin (j : ℤ) (upstream : List W) : Adaptor W :=
  { j := j, upstream := upstream, ended := false, index := none }

def body (adaptor : Adaptor W) (i : ℤ) (value : W) : Answer W × Adaptor W :=
  if adaptor.index = none ∨ adaptor.index = some i then
    (.body (i, some value), { adaptor with index := some i })
  else (.failed .tranche, adaptor)

/-- `Ended()`, called once `f()` has no more values. -/
def upstreamEnded (adaptor : Adaptor W) : Answer W × Adaptor W :=
  match adaptor.index with
  | none => (.failed .index, { adaptor with ended := true })
  | some i => (.body (int (i * -1), none), { adaptor with ended := true })

def next (adaptor : Adaptor W) : Answer W × Adaptor W :=
  if adaptor.ended then (.ended, adaptor)
  else
    match adaptor.upstream with
    | value :: upstream => { adaptor with upstream := upstream }.body adaptor.j value
    | [] => adaptor.upstreamEnded

end Adaptor

end Adaptor

section Reorder

/-- Where `ReorderAdaptor()` stands. -/
inductive Control (W : Type*)
  | notBegun
  /-- It is downstream's turn. -/
  | idle
  | next
  | body (item : Item W)
  /-- Calls `Next()` of its upstream. -/
  | asking
  | awaiting
  deriving DecidableEq

/-- `_ReorderAdaptor::Continuation`. -/
structure Reorder (W : Type*) where
  buffer : ℤ → List W
  index : ℤ
  ended : ℤ → Bool
  done : Bool
  control : Control W
  failed : Option Check
  /-- Values handed downstream. -/
  out : List W
  /-- How often `index_` has moved on. -/
  passed : ℕ

def Reorder.init : Reorder W where
  buffer _ := []
  index := 1
  ended _ := false
  done := false
  control := .notBegun
  failed := none
  out := []
  passed := 0

namespace Reorder

variable (r : Reorder W)

def emit (value : W) : Reorder W :=
  { r with out := r.out ++ [value], control := .idle }

def fail (c : Check) : Reorder W :=
  { r with failed := some c }

def body (item : Item W) : Reorder W :=
  if r.done then r.fail .done
  else if item.1 < 0 then
    { r with ended := update r.ended (int (item.1 * -1)) true, control := .next }
  else if r.index = item.1 then
    if r.buffer item.1 ≠ [] then r.fail .buffer
    else
      match item.2 with
      | some value => r.emit value
      | none => r.fail .value
  else if r.index < item.1 then
    match item.2 with
    | some value =>
      { r with
        buffer := update r.buffer item.1 (r.buffer item.1 ++ [value]), control := .asking }
    | none => r.fail .value
  else r.fail .order

/-- `Next()` up to where it calls itself again. -/
def next : Reorder W :=
  match r.buffer r.index with
  | value :: buffer => { r with buffer := update r.buffer r.index buffer }.emit value
  | [] =>
    if r.ended r.index then
      { r with index := int (r.index + 1), passed := r.passed + 1, control := .next }
    else { r with control := .asking }

def step : Reorder W :=
  match r.control with
  | .body item => r.body item
  | .next => r.next
  | _ => r

end Reorder

end Reorder

structure State (A W E : Type*) where
  /-- What upstream has yet to emit. -/
  upstream : List A
  /-- The next index. -/
  i : ℤ
  concurrent : Concurrent.State (ℤ × A) (Item W) E
  /-- The stream of each fiber. -/
  adaptor : ℕ → Adaptor W
  reorder : Reorder W
  failed : Option Check

inductive Label (A W E : Type*)
  | concurrent (l : Concurrent.Label (ℤ × A) (Item W) E)
  /-- The stream of a fiber fails a `CHECK`. -/
  | check (fiber : ℕ)
  /-- Downstream asks for the next value. -/
  | next
  | reorder

/-- What the other parts of the pipeline make of the steps of `Concurrent()`; nobody interrupts,
fails, stops or calls `Done()`. -/
def Allowed (s : State A W E) : Concurrent.Label (ℤ × A) (Item W) E → Prop
  | .upstreamValue arg => s.upstream.head?.map (Prod.mk s.i) = some arg
  | .upstreamOutcome o => s.upstream = [] ∧ o = none
  | .fiberValue k item => (s.adaptor k).next.1 = .body item
  | .fiberOutcome k o => (s.adaptor k).next.1 = .ended ∧ o = none
  | .next => s.reorder.control = .asking
  | .upstreamInstall | .downstreamDone | .trigger => False
  | _ => True

def Ready (s : State A W E) : Label A W E → Prop
  | .concurrent l => Concurrent.Enabled s.concurrent l ∧ Allowed s l
  | .check k =>
    s.concurrent.control k = some .running ∧ ∃ c, (s.adaptor k).next.1 = .failed c
  | .next => s.reorder.control = .idle
  | .reorder => s.reorder.control = .next ∨ ∃ item, s.reorder.control = .body item

def Enabled (s : State A W E) (l : Label A W E) : Prop :=
  s.failed = none ∧ s.reorder.failed = none ∧ s.concurrent.failed = none ∧ Ready s l

def State.setControl (s : State A W E) (c : Control W) : State A W E :=
  { s with reorder := { s.reorder with control := c } }

/-- What a step of `Concurrent()` does to the parts around it. -/
def around (f : A → List W) (s : State A W E) :
    Concurrent.Label (ℤ × A) (Item W) E → State A W E
  | .begin => s.setControl .idle
  | .upstreamValue _ => { s with upstream := s.upstream.tail, i := int (s.i + 1) }
  | .startFiber arg k => { s with adaptor := update s.adaptor k (.begin arg.1 (f arg.2)) }
  | .fiberValue k _ => { s with adaptor := update s.adaptor k (s.adaptor k).next.2 }
  | .next => s.setControl .awaiting
  | .egress =>
    match s.concurrent.values, s.concurrent.egressSection.egress with
    | value :: _, .idle => s.setControl (.body value.2)
    | _, _ => s
  | _ => s

def next (f : A → List W) (s : State A W E) : Label A W E → State A W E
  | .concurrent l => { around f s l with concurrent := Concurrent.next s.concurrent l }
  | .check k =>
    match (s.adaptor k).next.1 with
    | .failed c => { s with failed := some c }
    | _ => s
  | .next => s.setControl .next
  | .reorder => { s with reorder := s.reorder.step }

def State.init (upstream : List A) (registered : Bool) : State A W E where
  upstream := upstream
  i := 1
  concurrent := .init _ _ _ registered
  adaptor _ := .begin 0 []
  reorder := .init
  failed := none

def machine (E : Type*) (f : A → List W) (upstream : List A) :
    Machine (State A W E) (Label A W E) where
  Initial s := ∃ registered, s = .init upstream registered
  Enabled := Enabled
  next := next f

section Executing

variable [DecidableEq A] [DecidableEq W] [DecidableEq E]

instance (s : State A W E) (l : Concurrent.Label (ℤ × A) (Item W) E) : Decidable (Allowed s l) :=
  match l with
  | .upstreamValue arg =>
    inferInstanceAs (Decidable (s.upstream.head?.map (Prod.mk s.i) = some arg))
  | .upstreamOutcome o =>
    decidable_of_iff (s.upstream.isEmpty = true ∧ o = none) (by simp [Allowed])
  | .fiberValue k item => inferInstanceAs (Decidable ((s.adaptor k).next.1 = .body item))
  | .fiberOutcome k o => inferInstanceAs (Decidable ((s.adaptor k).next.1 = .ended ∧ o = none))
  | .next => inferInstanceAs (Decidable (s.reorder.control = .asking))
  | .upstreamInstall | .downstreamDone | .trigger => isFalse id
  | .begin | .ingressBegin | .createOrReuseFiber .. | .startFiber .. | .ingressEpilogue _ |
    .egress | .waitForDone | .ended | .done | .interrupt | .fiberStart _ | .push .. |
    .fiberEpilogue .. => isTrue trivial

def Answer.isFailed : Answer W → Bool
  | .failed _ => true
  | _ => false

def Control.isBody : Control W → Bool
  | .body _ => true
  | _ => false

instance (s : State A W E) : (l : Label A W E) → Decidable (Ready s l)
  | .concurrent l =>
    inferInstanceAs (Decidable ((s.concurrent.failed = none ∧ Concurrent.Ready s.concurrent l) ∧
      Allowed s l))
  | .check k =>
    decidable_of_iff (s.concurrent.control k = some .running ∧
      (s.adaptor k).next.1.isFailed = true) (by
        cases hx : (s.adaptor k).next.1 <;> simp [Ready, Answer.isFailed, hx])
  | .next => inferInstanceAs (Decidable (s.reorder.control = .idle))
  | .reorder =>
    decidable_of_iff (s.reorder.control = .next ∨ s.reorder.control.isBody = true) (by
      cases hx : s.reorder.control <;> simp [Ready, Control.isBody, hx])

instance (f : A → List W) (upstream : List A) (s : State A W E) (l : Label A W E) :
    Decidable ((machine E f upstream).Enabled s l) :=
  inferInstanceAs (Decidable (s.failed = none ∧ s.reorder.failed = none ∧
    s.concurrent.failed = none ∧ Ready s l))

end Executing

end Eventuals.ConcurrentOrdered
