import Eventuals.Library.Transition

/-! The registration of an interrupt with the continuations of a pipeline (`Register()` of each
combinator; `_TaskFromToWith` and `HeapTask` of `task.h`, `Reschedulable` of `scheduler.h`). What a
continuation passes on, and when and how often it calls the next one, is left open. -/
namespace Eventuals.Register

open Transition

/-- The calls that one continuation makes of the next. -/
inductive Signal
  | start
  | begin
  | body
  | ended
  | fail
  | stop
  deriving DecidableEq

/-- A function that is passed to a combinator. -/
inductive Callable (F : Type)
  /-- It returns a plain value. -/
  | value
  | eventual (f : F)
  /-- What `ConcurrentOrdered()` passes to `Concurrent()`. -/
  | concurrentOrdered (f : F)
  /-- What the above passes to `FlatMap()`. -/
  | tranche (f : F)
  deriving DecidableEq

inductive Stage (F : Type)
  | eventual
  | then (f : Callable F)
  | iterate
  /-- `e_` is a `Then()` of each. -/
  | map (fs : List (Callable F))
  | filter
  | until (f : Callable F)
  | flatMap (f : Callable F)
  | reduce (f : Callable F)
  | loop
  | task (f : Callable F)
  | concurrent (f : Callable F)
  | doAll (eventuals : List F)
  | forkJoin (f : Callable F)
  | reschedule
  /-- What it returns follows it. -/
  | closure
  | reorderAdaptor
  | concurrentOrderedAdaptor
  deriving DecidableEq

section Pipelines

variable {F : Type}

def concurrentOrdered (f : F) : List (Stage F) :=
  [.map [.value], .concurrent (.concurrentOrdered f), .reorderAdaptor]

def Callable.isEventual : Callable F → Bool
  | .value => false
  | _ => true

/-- The eventual that a call returns; `returns f n` is what the user's `f` returns to a value. -/
def Callable.returns (returns : F → ℕ → List (Stage F)) (n : ℕ) :
    Callable F → Option (List (Stage F))
  | .value => none
  | .eventual f => some (returns f n)
  | .concurrentOrdered f => some [.flatMap (.tranche f)]
  | .tranche f => some (.iterate :: returns f n ++ [.map [.value], .concurrentOrderedAdaptor])

/-- `FiberEventual()`, without the lock that `Synchronized()` takes. -/
def fiberEventual (e : List (Stage F)) : List (Stage F) :=
  .closure :: .iterate :: e ++ [.reschedule, .map [.value], .loop, .eventual]

/-- The calls that a continuation may make of the next one after a call of its own. -/
def Stage.calls : Stage F → Signal → List Signal
  | .eventual, .start | .eventual, .fail | .eventual, .stop => [.start, .fail, .stop]
  | .loop, .ended | .loop, .fail | .loop, .stop => [.start, .fail, .stop]
  | .reschedule, a | .closure, a => [a]
  | .then .value, .start => [.start]
  | .iterate, .start => [.begin, .body, .ended, .fail, .stop]
  | .map _, .begin | .filter, .begin | .until _, .begin | .flatMap _, .begin
  | .reorderAdaptor, .begin | .concurrentOrderedAdaptor, .begin => [.begin]
  | .filter, .body | .until .value, .body | .reorderAdaptor, .body
  | .concurrentOrderedAdaptor, .body => [.body]
  | .map _, .ended | .filter, .ended | .until _, .ended | .flatMap _, .ended
  | .reorderAdaptor, .ended => [.ended]
  | .concurrentOrderedAdaptor, .ended => [.body, .ended]
  | .reduce _, .ended => [.start]
  | .concurrent _, .begin => [.begin, .body, .ended, .fail, .stop]
  -- The interrupt was triggered before.
  | .doAll _, .start | .forkJoin _, .start => [.stop]
  | .task _, .stop => []
  | _, .fail => [.fail]
  | _, .stop => [.stop]
  | _, _ => []

/-- The calls that the adaptor at the end of what a stage has started makes. -/
def Stage.adaptor : Stage F → Signal → List Signal
  | .then _, .start | .task _, .start => [.start]
  | .map _, .start | .until _, .start => [.body]
  | .flatMap _, .body => [.body]
  | .then _, .fail | .task _, .fail | .map _, .fail | .until _, .fail | .flatMap _, .fail
  | .reduce _, .fail => [.fail]
  | .then _, .stop | .task _, .stop | .map _, .stop | .until _, .stop | .flatMap _, .stop
  | .reduce _, .stop => [.stop]
  -- The last one to complete.
  | .doAll _, _ | .forkJoin _, _ => [.start, .fail, .stop]
  | _, _ => []

/-- The eventual that a stage starts on a call. -/
def Stage.starts (returns : F → ℕ → List (Stage F)) : Stage F → Signal → ℕ → Option (List (Stage F))
  | .then f, .start, n => f.returns returns n
  | .map fs, .body, _ => some (fs.map .then)
  | .until f, .body, n | .flatMap f, .body, n | .reduce f, .body, n => f.returns returns n
  | .task f, .start, n | .task f, .fail, n | .task f, .stop, n => f.returns returns n
  | .concurrent f, .body, n => (f.returns returns n).map fiberEventual
  | .doAll eventuals, .start, n => eventuals[n]?.map fun e => returns e n ++ [.reschedule]
  | .forkJoin f, .start, n => (f.returns returns n).map (· ++ [.reschedule])
  | _, _, _ => none

/-- `Map()` composed on `Map()` is one continuation. -/
def fuse : List (Stage F) → List (Stage F)
  | [] => []
  | .map fs :: stages =>
    match fuse stages with
    | .map gs :: stages => .map (fs ++ gs) :: stages
    | stages => .map fs :: stages
  | stage :: stages => stage :: fuse stages

end Pipelines

/-- An interrupt is the one that the head was registered with, or that of a fiber: the continuation
at `pos` in `block` runs the fiber in `fiber`. -/
inductive Interrupt
  | given
  | fiber (block pos fiber : ℕ)
  deriving DecidableEq

/-- What a continuation is: a stage, or the last one in its block, which is the adaptor of the
continuation that has started the block or the terminal. -/
inductive Part (F : Type)
  | stage (stage : Stage F)
  | adaptor (block pos : ℕ)
  | terminal
  deriving DecidableEq

/-- When `Register()` of the next continuation is called. -/
inductive Forwards
  | now
  /-- At its first use: `interrupt_` of a `Reschedulable` or of a `Closure`. -/
  | later
  | never
  deriving DecidableEq

section Parts

variable {F : Type}

/-- `_Concurrent::Continuation::Register()` makes its handler and nothing else. -/
def Part.forwards : Part F → Forwards
  | .stage .eventual | .stage .loop | .stage .closure => .later
  | .stage (.concurrent _) => .never
  | _ => .now

/-- The parts that assert that `interrupt_` is null. -/
def Part.asserts : Part F → Bool
  | .stage (.then f) | .stage (.until f) => f.isEventual
  | .stage (.map _) | .stage (.flatMap _) | .stage .closure => true
  | _ => false

def Part.isTask : Part F → Bool
  | .stage (.task _) => true
  | _ => false

/-- The calls that a part may make of the next one. -/
def Part.calls : Part F → Signal → List Signal
  | .stage e, a => e.calls a
  | _, _ => []

def Part.adapts : Part F → Signal → List Signal
  | .stage e, a => e.adaptor a
  | _, _ => []

def Part.starts (returns : F → ℕ → List (Stage F)) (a : Signal) (n : ℕ) :
    Part F → Option (List (Stage F))
  | .stage e => e.starts returns a n
  | _ => none

end Parts

/-- A continuation in memory. -/
structure Obj (F : Type) where
  part : Part F
  /-- `interrupt_`, or the interrupt of `handler_`, where there is one. -/
  interrupt : Option Interrupt := none
  /-- How often `Register()` was called. -/
  registered : ℕ := 0
  /-- The calls it got, each with the number of registrations by then. -/
  received : List (Signal × ℕ) := []
  /-- Whether `continuation_` has been emplaced. -/
  emplaced : Bool := false
  /-- The block of `adapted_`. -/
  adapted : Option ℕ := none

section Blocks

variable {F : Type}

def Obj.register (o : Obj F) (i : Interrupt) : Obj F :=
  { o with interrupt := some i, registered := o.registered + 1 }

def Obj.receive (o : Obj F) (a : Signal) : Obj F :=
  { o with received := o.received ++ [(a, o.registered)] }

/-- A call of the first continuation. -/
def receive (a : Signal) : List (Obj F) → List (Obj F)
  | [] => []
  | o :: k => o.receive a :: k

/-- `Register()`, unless an assertion fails. -/
def register (i : Interrupt) : List (Obj F) → Option (List (Obj F))
  | [] => some []
  | o :: k =>
    if o.part.asserts ∧ o.interrupt.isSome then none
    else if o.part.forwards = .now then (register i k).map (o.register i :: ·)
    else some (o.register i :: k)

/-- `Register()` where `interrupt_` is not null. -/
def registerIf (i : Option Interrupt) (k : List (Obj F)) : Option (List (Obj F)) :=
  match i with
  | none => some k
  | some i => register i k

/-- What follows a continuation when it is used. -/
def Obj.through (o : Obj F) (k : List (Obj F)) : Option (List (Obj F)) :=
  if o.part.forwards = .later ∧ o.emplaced = false then registerIf o.interrupt k else some k

def build (stages : List (Stage F)) (last : Part F) : List (Obj F) :=
  (fuse stages).map (fun stage => { part := .stage stage }) ++ [{ part := last }]

end Blocks

/-- What may go wrong. -/
inductive Check
  /-- `assert(interrupt_ == nullptr)` -/
  | registeredTwice
  /-- `*interrupt_` of a null pointer -/
  | dispatchedWithoutInterrupt
  deriving DecidableEq

structure State (F : Type) where
  blocks : List (List (Obj F))
  failed : Option Check

section Steps

variable {F : Type}

def State.block (s : State F) (b : ℕ) : List (Obj F) := s.blocks.getD b []

def State.obj (s : State F) (b p : ℕ) : Option (Obj F) := (s.block b)[p]?

def State.fail (s : State F) (check : Check) : State F := { s with failed := some check }

/-- Puts `k` where `b` goes on at `p`. -/
def State.replace (s : State F) (b p : ℕ) (k : List (Obj F)) : State F :=
  { s with blocks := s.blocks.set b ((s.block b).take p ++ k) }

/-- A continuation calls the next one. -/
def State.call (s : State F) (b p : ℕ) (a : Signal) : State F :=
  match (s.block b).drop p with
  | [] => s
  | o :: k =>
    match o.through k with
    | none => s.fail .registeredTwice
    | some k => s.replace b p ({ o with emplaced := true } :: receive a k)

def State.adapt (s : State F) (b p c : ℕ) : State F :=
  match (s.block b).drop p with
  | [] => s
  | o :: k => s.replace b p ({ o with adapted := some c } :: k)

/-- A block is built, registered and called. -/
def State.emplace (s : State F) (b p : ℕ) (a : Signal) (i : Option Interrupt)
    (k : List (Obj F)) : State F :=
  match registerIf i k with
  | none => s.fail .registeredTwice
  | some k => State.adapt { s with blocks := s.blocks ++ [receive a k] } b p s.blocks.length

/-- A block that was built before is called again. -/
def State.reuse (s : State F) (c : ℕ) (a : Signal) (i : Option Interrupt) : State F :=
  match registerIf i (s.block c) with
  | none => s.fail .registeredTwice
  | some k => s.replace c 0 (receive a k)

/-- The continuation at `p` in `b` starts the eventual that `stages` are. -/
def State.start (s : State F) (b p : ℕ) (o : Obj F) (a : Signal) (stages : List (Stage F)) :
    State F :=
  match o.part with
  -- `adapted_` is built once.
  | .stage (.map _) | .stage (.reduce _) =>
    match o.adapted with
    | none => s.emplace b p .start o.interrupt (build stages (.adaptor b p))
    | some c => s.reuse c .start none
  -- `Dispatch()`: the `HeapTask` is built once and registered each time.
  | .stage (.task _) =>
    match o.interrupt with
    | none => s.fail .dispatchedWithoutInterrupt
    | some i =>
      match o.adapted with
      | none => s.emplace b p a (some i) (build stages (.adaptor b p))
      | some c => s.reuse c a (some i)
  | .stage (.concurrent _) =>
    s.emplace b p .start (some (.fiber b p s.blocks.length)) (build stages .terminal)
  | .stage (.doAll _) | .stage (.forkJoin _) =>
    s.emplace b p .start (some (.fiber b p s.blocks.length)) (build stages (.adaptor b p))
  | _ => s.emplace b p .start o.interrupt (build stages (.adaptor b p))

inductive Label
  /-- The continuation at `pos` in `block` got a call and calls the next one. -/
  | call (block pos : ℕ) (a a' : Signal)
  /-- An adaptor got a call and calls what follows the continuation that it belongs to. -/
  | adaptor (block pos : ℕ) (a a' : Signal)
  /-- A continuation got a call and starts an eventual. -/
  | start (block pos : ℕ) (a : Signal) (n : ℕ)
  deriving DecidableEq

def Obj.got (o : Obj F) (a : Signal) : Bool := o.received.any fun r => r.1 = a

/-- The continuation that an adaptor belongs to. -/
def State.parent (s : State F) : Part F → Option (Obj F)
  | .adaptor b p => s.obj b p
  | _ => none

def Enabled (returns : F → ℕ → List (Stage F)) (s : State F) : Label → Prop
  | .call b p a a' =>
    s.failed = none ∧ (s.obj b p).any (fun o => o.got a && (o.part.calls a).contains a')
  | .adaptor b p a a' =>
    s.failed = none ∧ (s.obj b p).any fun o =>
      o.got a && (s.parent o.part).any fun o' => (o'.part.adapts a).contains a'
  | .start b p a n =>
    s.failed = none ∧ (s.obj b p).any fun o => o.got a && (o.part.starts returns a n).isSome

def next (returns : F → ℕ → List (Stage F)) (s : State F) : Label → State F
  | .call b p _ a' => s.call b p a'
  | .adaptor b p _ a' =>
    match (s.obj b p).map Obj.part with
    | some (.adaptor b p) => s.call b p a'
    | _ => s
  | .start b p a n =>
    match s.obj b p with
    | none => s
    | some o => s.start b p o a ((o.part.starts returns a n).getD [])

/-- `Build()`, one `Register()` and `Start()`. -/
def init (pipeline : List (Stage F)) : State F :=
  match register .given (build pipeline .terminal) with
  | none => ⟨[], some .registeredTwice⟩
  | some k => ⟨[receive .start k], none⟩

def machine (returns : F → ℕ → List (Stage F)) (pipeline : List (Stage F)) :
    Machine (State F) Label where
  Initial s := s = init pipeline
  Enabled := Enabled returns
  next := next returns

instance (returns : F → ℕ → List (Stage F)) (pipeline : List (Stage F)) (s : State F) :
    (l : Label) → Decidable ((machine returns pipeline).Enabled s l)
  | .call .. => inferInstanceAs (Decidable (_ ∧ _))
  | .adaptor .. => inferInstanceAs (Decidable (_ ∧ _))
  | .start .. => inferInstanceAs (Decidable (_ ∧ _))

end Steps

end Eventuals.Register
