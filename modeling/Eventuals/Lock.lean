import Eventuals.Library.Transition
import Eventuals.Library.Intrusive

/-! `Lock`, one atomic load, store or compare-exchange at a time (`lock.h`). -/
namespace Eventuals.Lock

open Function (update)

/-- The failures that end the program. -/
inductive Check
  | recursiveAcquire
  | nextNotNull
  | contextNull
  | headNull
  | available
  | nullDereference
  | emptyCallback
  deriving DecidableEq, Repr

/-- Who called `AcquireFast`. -/
inductive Caller
  | acquire
  | slow
  deriving DecidableEq, Repr

/-- The next instruction run for a waiter; `v` is the local `waiter` of `Release`. -/
inductive PC (W : Type*)
  | idle
  | fastChecks (c : Caller)
  | fastLoad (c : Caller)
  | fastSwap (c : Caller)
  | fastOwner (c : Caller)
  | fastAcquired (c : Caller)
  | fastReset (c : Caller)
  | storeCallback
  | slowChecks
  | slowLoad
  | slowSwap
  | queued
  | ownCallback
  | relinquish
  | critical
  | releaseAvailable
  | releaseLoad
  | releaseTest (v : W)
  | releaseOwner (v : W)
  | releaseSwap (v : W)
  | releaseWalk (v : W)
  | releaseAcquired (v : W)
  | releaseUnlink (v : W)
  | handOwner (v : W)
  | handAcquired (v : W)
  | handCallback (v : W)
  deriving DecidableEq

variable {W C : Type*}

/-- The lock, its waiters and where the code run for each of them stands. -/
structure State (W C : Type*) where
  head : Option W
  owner : Option C
  next : W → Option W
  acquired : W → Bool
  context : W → Option C
  f : W → Bool
  pc : W → PC W
  /-- The scheduler context of the eventual that uses the waiter. -/
  self : W → C
  /-- `Release` has published the free lock but not yet cleared `acquired`. -/
  clearing : W → Bool
  failed : Option Check
  /-- Waiters in the order of their successful compare-exchange on `head_`. -/
  swaps : List W
  /-- Waiters in the order they obtained the lock. -/
  obtained : List W
  enqueues : W → ℕ
  callbacks : W → ℕ

/-- Nobody has used the lock yet. -/
def initial (self : W → C) : State W C where
  head := none
  owner := none
  next _ := none
  acquired _ := false
  context _ := none
  f _ := false
  pc _ := .idle
  self := self
  clearing _ := false
  failed := none
  swaps := []
  obtained := []
  enqueues _ := 0
  callbacks _ := 0

section Instructions

variable [DecidableEq W]

def State.goto (s : State W C) (w : W) (p : PC W) : State W C :=
  { s with pc := update s.pc w p }

def State.fail (s : State W C) (c : Check) : State W C :=
  { s with failed := some c }

/-- A compare-exchange on `head_` that may fail spuriously. -/
def State.swaps? (s : State W C) (expected : Option W) (spurious : Bool) : Bool :=
  !spurious && decide (s.head = expected)

/-- The next instruction of the code run for `w`. -/
def run (s : State W C) (w : W) (spurious : Bool) : State W C :=
  match s.pc w with
  | .idle | .queued | .critical => s
  | .fastChecks c =>
    if s.acquired w then s.fail .recursiveAcquire
    else if s.next w ≠ none then s.fail .nextNotNull
    else s.goto w (.fastLoad c)
  | .fastLoad c => { s.goto w (.fastSwap c) with next := update s.next w s.head }
  | .fastSwap c =>
    match s.next w with
    | some _ => s.goto w (.fastReset c)
    | none =>
      if s.swaps? none spurious then
        { s.goto w (.fastOwner c) with head := some w, swaps := s.swaps ++ [w] }
      else { s with next := update s.next w s.head }
  | .fastOwner c =>
    match s.context w with
    | none => s.fail .contextNull
    | some x => { s.goto w (.fastAcquired c) with owner := some x }
  | .fastAcquired c =>
    { s.goto w (match c with | .acquire => .relinquish | .slow => .ownCallback) with
      acquired := update s.acquired w true, obtained := s.obtained ++ [w] }
  | .fastReset c =>
    { s.goto w (match c with | .acquire => .storeCallback | .slow => .slowLoad) with
      next := update s.next w none }
  | .storeCallback => { s.goto w .slowChecks with f := update s.f w true }
  | .slowChecks =>
    if s.acquired w then s.fail .recursiveAcquire
    else if s.next w ≠ none then s.fail .nextNotNull
    else s.goto w .slowLoad
  | .slowLoad => { s.goto w .slowSwap with next := update s.next w s.head }
  | .slowSwap =>
    match s.next w with
    | none => s.goto w (.fastChecks .slow)
    | some v =>
      if s.swaps? (some v) spurious then
        { s.goto w .queued with
          head := some w, swaps := s.swaps ++ [w],
          enqueues := update s.enqueues w (s.enqueues w + 1) }
      else { s with next := update s.next w s.head }
  | .ownCallback =>
    if s.f w then { s.goto w .relinquish with f := update s.f w false }
    else s.fail .emptyCallback
  | .relinquish => { s.goto w .critical with context := update s.context w none }
  | .releaseAvailable =>
    if s.head = none then s.fail .available else s.goto w .releaseLoad
  | .releaseLoad =>
    match s.head with
    | none => s.fail .headNull
    | some v => s.goto w (.releaseTest v)
  | .releaseTest v =>
    if s.next v = none then s.goto w (.releaseOwner v) else s.goto w (.releaseWalk v)
  | .releaseOwner v => { s.goto w (.releaseSwap v) with owner := none }
  | .releaseSwap v =>
    if s.swaps? (some v) spurious then
      { s.goto w .idle with head := none, clearing := update s.clearing v true }
    else s.goto w .releaseLoad
  | .releaseWalk v =>
    match s.next v with
    | none => s.fail .nullDereference
    | some u =>
      if s.next u ≠ none then s.goto w (.releaseWalk u) else s.goto w (.releaseAcquired v)
  | .releaseAcquired v =>
    match s.next v with
    | none => s.fail .nullDereference
    | some u => { s.goto w (.releaseUnlink v) with acquired := update s.acquired u false }
  | .releaseUnlink v => { s.goto w (.handOwner v) with next := update s.next v none }
  | .handOwner v =>
    match s.context v with
    | none => s.fail .contextNull
    | some x => { s.goto w (.handAcquired v) with owner := some x }
  | .handAcquired v => { s.goto w (.handCallback v) with acquired := update s.acquired v true }
  | .handCallback v =>
    if s.f v then
      { (s.goto w .idle).goto v .relinquish with
        f := update s.f v false, obtained := s.obtained ++ [v],
        callbacks := update s.callbacks v (s.callbacks v + 1) }
    else s.fail .emptyCallback

inductive Label (W C : Type*)
  | start (w : W) (c : C)
  | enqueue (w : W)
  | run (w : W) (spurious : Bool)
  | release (w : W)
  | wait (u w : W)
  | clear (w : W)

/-- A waiter may be handed to `AcquireFast` or `AcquireSlow`: its last `Release` has returned. -/
def State.Free (s : State W C) (w : W) : Prop :=
  s.pc w = .idle ∧ s.clearing w = false

/-- What the users of the lock and the threads inside it may do next. -/
def Enabled (s : State W C) : Label W C → Prop
  | .start w _ => s.failed = none ∧ s.Free w
  | .enqueue w => s.failed = none ∧ s.Free w ∧ s.f w = true ∧ s.context w = some (s.self w)
  | .run w _ => s.failed = none ∧ s.pc w ≠ .idle ∧ s.pc w ≠ .queued ∧ s.pc w ≠ .critical
  | .release w => s.failed = none ∧ s.pc w = .critical
  | .wait u w => s.failed = none ∧ s.pc u = .critical ∧ (w = u ∨ s.pc w = .idle)
  | .clear w => s.failed = none ∧ s.clearing w = true

instance [DecidableEq C] : ∀ (s : State W C) (l : Label W C), Decidable (Enabled s l)
  | s, .start w _ => inferInstanceAs (Decidable (s.failed = none ∧ s.pc w = .idle ∧ _))
  | s, .enqueue w =>
    inferInstanceAs (Decidable (s.failed = none ∧ (s.pc w = .idle ∧ _) ∧ _ ∧ _))
  | s, .run w _ => inferInstanceAs (Decidable (s.failed = none ∧ s.pc w ≠ .idle ∧ _ ∧ _))
  | s, .release w => inferInstanceAs (Decidable (s.failed = none ∧ s.pc w = .critical))
  | s, .wait u w =>
    inferInstanceAs (Decidable (s.failed = none ∧ s.pc u = .critical ∧ (w = u ∨ _)))
  | s, .clear w => inferInstanceAs (Decidable (s.failed = none ∧ s.clearing w = true))

def next (s : State W C) : Label W C → State W C
  -- `_Acquire::Continuation::Start`
  | .start w c =>
    { s.goto w (.fastChecks .acquire) with
      context := update s.context w (some c), self := update s.self w c }
  -- `AcquireSlow` alone, on a waiter whose context and callback are already set
  | .enqueue w => s.goto w .slowChecks
  | .run w spurious => Lock.run s w spurious
  -- `_Release::Continuation::Start`
  | .release w => s.goto w .releaseAvailable
  -- `_Wait` readies the waiter `w` for a notification and releases the lock held through `u`
  | .wait u w =>
    { s.goto u .releaseLoad with
      context := update s.context w (some (s.self u)), self := update s.self w (s.self u),
      f := update s.f w true }
  -- `waiter->acquired = false` after the lock was published as free
  | .clear w =>
    { s with acquired := update s.acquired w false, clearing := update s.clearing w false }

def machine (W C : Type*) [DecidableEq W] : Transition.Machine (State W C) (Label W C) where
  Initial s := ∃ self, s = initial self
  Enabled := Enabled
  next := next

instance [DecidableEq C] (s : State W C) (l : Label W C) :
    Decidable ((machine W C).Enabled s l) :=
  inferInstanceAs (Decidable (Enabled s l))

end Instructions

end Eventuals.Lock
