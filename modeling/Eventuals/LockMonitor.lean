import Eventuals.ConditionVariable
import Eventuals.LockInvariant

/-! Sections of several threads with condition variables on the lock itself, one instruction of
`Lock` at a time: `Acquire`, `Release`, `Wait` and `ConditionVariable` together (`lock.h`). -/
namespace Eventuals.LockMonitor

open Function (update)
open Monitor (Instr Program)
open Transition (Machine)

/-- The failures of `Wait`, `ConditionVariable` and the callbacks that notify. -/
inductive Check
  | available
  | notOwned
  | noContext
  | acquired
  deriving DecidableEq, Repr

/-- `waiter_` of the `Acquire` of a thread and of its `Wait`. -/
inductive Waiter (W : Type*)
  | acquire (w : W)
  | wait (w : W)
  deriving DecidableEq

def Waiter.thread {W : Type*} : Waiter W → W
  | .acquire w | .wait w => w

/-- Where the callback stands that notifies the thread `x`. -/
inductive Notifying (W K : Type*)
  | none
  | calling (x : W) (k : K)
  | acquiring (x : W) (k : K)
  deriving DecidableEq

/-- `queue`, `stage` and the counts of the condition variables record what the lock does; no step
reads them. -/
structure State (W K C D X : Type*) where
  lock : Lock.State (Waiter W) X
  lists : ConditionVariable.State W K C D
  /-- The section that a thread has come to the lock for. -/
  section_ : W → C
  notifying : Notifying W K
  failed : Option Check

inductive Label (W C : Type*)
  | arrive (w : W) (c : C)
  | lock (u : Waiter W) (spurious : Bool)
  | clear (u : Waiter W)
  | run (w : W)
  | call
  | returned

variable {W K C D X : Type*}

def initial (self : Waiter W → X) (c : C) (d : D) : State W K C D X where
  lock := Lock.initial self
  lists := ConditionVariable.initial c d
  section_ _ := c
  notifying := .none
  failed := none

def Notifying.isCalling : Notifying W K → Bool
  | .calling .. => true
  | _ => false

/-- `AcquireSlow` has been called on the waiter and has not returned. -/
def Notifying.acquires : Notifying W K → Waiter W → Prop
  | .acquiring x _, u => u = .wait x
  | _, _ => False

/-- The thread is being notified. -/
def Notifying.of : Notifying W K → W → Prop
  | .calling x _, w | .acquiring x _, w => x = w
  | .none, _ => False

/-- `AcquireSlow` has come to its end in the callback. -/
def Notifying.Returns (pc : Waiter W → Lock.PC (Waiter W)) : Notifying W K → Prop
  | .acquiring x _ => pc (.wait x) = .queued ∨ pc (.wait x) = .ownCallback
  | .calling .. | .none => False

instance [DecidableEq W] : ∀ (n : Notifying W K) (u : Waiter W), Decidable (n.acquires u)
  | .acquiring x _, u => inferInstanceAs (Decidable (u = .wait x))
  | .calling .., _ | .none, _ => inferInstanceAs (Decidable False)

instance [DecidableEq W] : ∀ (n : Notifying W K) (w : W), Decidable (n.of w)
  | .calling x _, w | .acquiring x _, w => inferInstanceAs (Decidable (x = w))
  | .none, _ => inferInstanceAs (Decidable False)

instance [DecidableEq W] (pc : Waiter W → Lock.PC (Waiter W)) :
    ∀ n : Notifying W K, Decidable (n.Returns pc)
  | .acquiring _ _ => inferInstanceAs (Decidable (_ = _ ∨ _ = _))
  | .calling .. | .none => inferInstanceAs (Decidable False)

section Steps

variable [DecidableEq W] [DecidableEq K]

def State.fail (s : State W K C D X) (c : Check) : State W K C D X :=
  { s with failed := some c }

/-- The thread runs its section. -/
def State.Runs (s : State W K C D X) (w : W) : Prop :=
  s.lock.pc (.acquire w) = .critical ∨ s.lock.pc (.wait w) = .critical

/-- The waiter that has got the lock for the thread. -/
def State.through (s : State W K C D X) (w : W) : Waiter W :=
  if s.lock.pc (.acquire w) = .critical then .acquire w else .wait w

/-- The thread waits to be notified. -/
def State.Parked (s : State W K C D X) (w : W) : Prop :=
  s.lists.notifiable w = true ∨ s.notifying.of w

/-- The first waiter leaves its list: the part of `Notify` before the callback. -/
def pop (v : ConditionVariable.State W K C D) (k : K) (x : W) : ConditionVariable.State W K C D :=
  { v with
    head := update v.head k (v.next x), next := update v.next x none,
    notified := update v.notified x true, wakes := update v.wakes k (v.wakes k ++ [x]),
    notifications := update v.notifications x (v.notifications x + 1) }

/-- The callback up to the call of `AcquireSlow`, after which the notifier goes on. -/
def delivered (v : ConditionVariable.State W K C D) (w : W) (k : K) (x : W) (c : Option C) :
    ConditionVariable.State W K C D :=
  let v := { pop v k x with notifiable := update v.notifiable x false }
  match c with
  | some c => v.goto w c
  | none => v

/-- The notified waiter has joined the queue of the lock. -/
def woken (v : ConditionVariable.State W K C D) (k : K) (x : W) :
    ConditionVariable.State W K C D :=
  { v with
    queue := v.queue ++ [x], stage := update v.stage x (.woken k),
    wokenCount := update v.wokenCount x (v.wokenCount x + 1) }

/-- `Notify` by a thread that then goes on with `c`, or with its loop. -/
def State.notify (s : State W K C D X) (w : W) (k : K) (x : W) (c : Option C) :
    State W K C D X :=
  if s.lists.notifiable x then
    if s.lock.context (.wait x) = none then s.fail .noContext
    else
      { s with lists := delivered s.lists w k x c, notifying := .calling x k }
  else
    { s with
      lists := match c with
        | some c => (pop s.lists k x).goto w c
        | none => pop s.lists k x }

variable [DecidableEq X] (P : Program K C D) (context : W → X)

/-- `CHECK(lock_->OwnedByCurrentSchedulerContext())` -/
def State.Owned (s : State W K C D X) (w : W) : Prop :=
  s.lock.owner = some (context w)

instance (s : State W K C D X) (w : W) : Decidable (s.Owned context w) :=
  inferInstanceAs (Decidable (_ = _))

/-- `Wait`, from its start or in the loop that appends its waiter to a list. -/
def State.wait (s : State W K C D X) (w : W) (i : Instr K C D) : State W K C D X :=
  if s.lists.position w = .entry ∧ s.lock.head = none then s.fail .available
  else if s.lists.position w = .entry ∧ ¬ s.Owned context w then s.fail .notOwned
  else
    let v := s.lists.run w i
    if v.notifiable w then
      { s with lock := Lock.next s.lock (.wait (s.through w) (.wait w)), lists := v }
    else { s with lists := v }

/-- The thread that holds the lock goes on. -/
def State.run (s : State W K C D X) (w : W) (i : Instr K C D) : State W K C D X :=
  match i with
  | .assign _ _ | .make _ => { s with lists := s.lists.run w i }
  | .wait _ _ _ => s.wait context w i
  | .notify k c =>
    if s.Owned context w then
      match s.lists.head k with
      | none => { s with lists := s.lists.goto w c }
      | some x => s.notify w k x (some c)
    else s.fail .notOwned
  | .notifyAll k c =>
    match s.lists.position w with
    | .loop =>
      match s.lists.head k with
      | none => { s with lists := s.lists.goto w c }
      | some x => if s.Owned context w then s.notify w k x none else s.fail .notOwned
    | _ =>
      if s.Owned context w then
        { s with
          lists := { s.lists with position := update s.lists.position w .loop } }
      else s.fail .notOwned
  | .release _ =>
    { s with
      lock := Lock.next s.lock (.release (s.through w)), lists := s.lists.run w i }

/-- The waiter has swapped itself into the list of the lock. -/
def State.joined (s : State W K C D X) : Waiter W → ConditionVariable.State W K C D
  | .acquire w => ConditionVariable.next P s.lists (.arrive w (s.section_ w))
  | .wait x =>
    match s.notifying with
    | .acquiring _ k => woken s.lists k x
    | _ => s.lists

/-- What an instruction of the lock means for who stands in its queue. -/
def State.recorded (s : State W K C D X) (u : Waiter W) (p : Lock.PC (Waiter W)) :
    ConditionVariable.State W K C D :=
  match s.lock.pc u, p with
  | .fastSwap _, .fastOwner _ => s.joined P u
  | .slowSwap, .queued => s.joined P u
  | .relinquish, _ => ConditionVariable.next P s.lists (.resume u.thread)
  | _, _ => s.lists

/-- `_Acquire` with the first checks of `AcquireFast`. -/
def State.arrive (s : State W K C D X) (w : W) (c : C) : State W K C D X :=
  { s with
    lock := Lock.run (Lock.next s.lock (.start (.acquire w) (context w))) (.acquire w) false,
    section_ := update s.section_ w c }

/-- The first checks of `AcquireSlow`, called on the waiter of the notified thread. -/
def State.call (s : State W K C D X) (x : W) (k : K) : State W K C D X :=
  { s with
    lock := Lock.run (Lock.next s.lock (.enqueue (.wait x))) (.wait x) false,
    notifying := .acquiring x k }

/-- `CHECK(!acquired)` after `AcquireSlow` -/
def State.returned (s : State W K C D X) (x : W) : State W K C D X :=
  if s.lock.pc (.wait x) = .queued then { s with notifying := .none } else s.fail .acquired

def Enabled (s : State W K C D X) (l : Label W C) : Prop :=
  s.failed = none ∧ s.lock.failed = none ∧
  match l with
  -- a `Wait` lets go of the lock before its `Release` returns, so `acquired` may still be set
  | .arrive w c => s.lock.pc (.acquire w) = .idle ∧ s.lock.pc (.wait w) = .idle ∧ ¬ s.Parked w ∧
      P.entry (s.lists.pc w) c = true
  | .lock u _ => s.lock.pc u ≠ .idle ∧ s.lock.pc u ≠ .queued ∧ s.lock.pc u ≠ .critical ∧
      ¬ (s.notifying.acquires u ∧ s.lock.pc u = .ownCallback)
  | .clear u => s.lock.clearing u = true
  | .run w => s.notifying = .none ∧ s.Runs w
  | .call => s.notifying.isCalling = true
  | .returned => s.notifying.Returns s.lock.pc

instance : ∀ (s : State W K C D X) (l : Label W C), Decidable (Enabled P s l)
  | s, .arrive w c => inferInstanceAs (Decidable (s.failed = none ∧ s.lock.failed = none ∧
      s.lock.pc (.acquire w) = .idle ∧ s.lock.pc (.wait w) = .idle ∧
      ¬ (s.lists.notifiable w = true ∨ s.notifying.of w) ∧ P.entry (s.lists.pc w) c = true))
  | s, .lock u _ => inferInstanceAs (Decidable (s.failed = none ∧ s.lock.failed = none ∧
      s.lock.pc u ≠ .idle ∧ s.lock.pc u ≠ .queued ∧ s.lock.pc u ≠ .critical ∧
      ¬ (s.notifying.acquires u ∧ s.lock.pc u = .ownCallback)))
  | s, .clear u => inferInstanceAs (Decidable (s.failed = none ∧ s.lock.failed = none ∧
      s.lock.clearing u = true))
  | s, .run _ => inferInstanceAs (Decidable (s.failed = none ∧ s.lock.failed = none ∧
      s.notifying = .none ∧ (_ = _ ∨ _ = _)))
  | s, .call => inferInstanceAs (Decidable (s.failed = none ∧ s.lock.failed = none ∧ _ = true))
  | s, .returned => inferInstanceAs (Decidable (s.failed = none ∧ s.lock.failed = none ∧
      s.notifying.Returns s.lock.pc))

def next (s : State W K C D X) : Label W C → State W K C D X
  | .arrive w c => s.arrive context w c
  | .lock u spurious =>
    { s with
      lock := Lock.run s.lock u spurious,
      lists := s.recorded P u ((Lock.run s.lock u spurious).pc u) }
  | .clear u => { s with lock := Lock.next s.lock (.clear u) }
  | .run w => s.run context w (P.code (s.lists.pc w) s.lists.data)
  | .call =>
    match s.notifying with
    | .calling x k => s.call x k
    | _ => s
  | .returned =>
    match s.notifying with
    | .acquiring x _ => s.returned x
    | _ => s

def machine (c : C) (d : D) : Machine (State W K C D X) (Label W C) where
  Initial s := ∃ self, s = initial self c d
  Enabled := Enabled P
  next := next P context

instance (c : C) (d : D) (s : State W K C D X) (l : Label W C) :
    Decidable ((machine P context c d).Enabled s l) :=
  inferInstanceAs (Decidable (Enabled P s l))

end Steps

/-- The waiter that is about to be enqueued has been cleared. -/
def Notifying.Cleared (clearing : Waiter W → Bool) : Notifying W K → Prop
  | .calling x _ => clearing (.wait x) = false
  | .acquiring .. | .none => True

/-- No waiter is handed to the lock while its own `Release` has yet to clear its flag, neither by
a notification nor by its thread. -/
def Settled (s : State W K C D X) : Label W C → Prop
  | .arrive w _ => s.lock.clearing (.acquire w) = false
  | .call => s.notifying.Cleared s.lock.clearing
  | .lock .. | .clear _ | .run _ | .returned => True

instance (clearing : Waiter W → Bool) : ∀ n : Notifying W K, Decidable (n.Cleared clearing)
  | .calling _ _ => inferInstanceAs (Decidable (_ = _))
  | .acquiring .. | .none => inferInstanceAs (Decidable True)

instance : ∀ (s : State W K C D X) (l : Label W C), Decidable (Settled s l)
  | s, .arrive w _ => inferInstanceAs (Decidable (s.lock.clearing (.acquire w) = false))
  | s, .call => inferInstanceAs (Decidable (s.notifying.Cleared s.lock.clearing))
  | _, .lock .. | _, .clear _ | _, .run _ | _, .returned => inferInstanceAs (Decidable True)

end Eventuals.LockMonitor
