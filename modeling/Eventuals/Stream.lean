import Mathlib.Data.List.Basic
import Mathlib.Logic.Function.Iterate

/-! Streams: `Iterate`, the combinators over it and the loops at their end, one call at a time
(`stream.h`, `iterate.h`, `map.h`, `filter.h`, `until.h`, `take.h`, `flat-map.h`, `collect.h`,
`head.h`, `reduce.h`). Every call is the last thing its caller does, and on the default scheduler
`Continue()` calls at once, so a call that is under way is all there is to a state. -/
namespace Eventuals.Stream

/-- How an argument is forwarded. -/
inductive Category
  | lvalue
  | rvalue
  deriving DecidableEq

/-- How a callable takes its argument. -/
inductive Parameter (α : Type)
  | reference
  /-- By value: a move from an argument leaves `moved` of it. -/
  | value (moved : α → α)

/-- What is left of an argument that a callable has been called with. -/
def Parameter.left {α : Type} : Parameter α → Category → α → α
  | .value moved, .rvalue, arg => moved arg
  | _, _, arg => arg

/-- What is composed: `Iterate`, which emits rvalues if it was given the container to keep, and
combinators. The function of a `Map` returns a reference or a value. -/
inductive Chain : Type → Type 1
  | iterate {α : Type} (emits : Category) (container : List α) : Chain α
  | map {α β : Type} (e : Chain α) (f : α → β) (returns : Category) : Chain β
  | filter {α : Type} (e : Chain α) (f : α → Bool) (p : Parameter α) : Chain α
  | until {α : Type} (e : Chain α) (f : α → Bool) : Chain α
  | takeFirst {α : Type} (e : Chain α) (amount : ℕ) : Chain α
  | flatMap {α β : Type} (e : Chain α) (f : α → Chain β) : Chain β

/-- A built combinator that has not begun. -/
inductive Stage : Type → Type → Type 1
  | map {α β : Type} (f : α → β) (returns : Category) : Stage α β
  | filter {α : Type} (f : α → Bool) (p : Parameter α) : Stage α α
  | until {α : Type} (f : α → Bool) : Stage α α
  | takeRange {α : Type} (begin amount : ℕ) : Stage α α
  | flatMap {α β : Type} (f : α → Chain β) : Stage α β

inductive Stages : Type → Type → Type 1
  | nil {α : Type} : Stages α α
  | cons {α β γ : Type} (stage : Stage α β) (k : Stages β γ) : Stages α γ

/-- `_Map::Composable::k()` makes one of a map on a map. -/
def Stages.map {α β γ : Type} (f : α → β) (returns : Category) : Stages β γ → Stages α γ
  | .cons (.map g returns) k => .cons (.map (g ∘ f) returns) k
  | k => .cons (.map f returns) k

/-- A stream and the combinators after it that have begun. -/
inductive Running : Type → Type 1
  /-- What is left to iterate, and whether it was told that this is not wanted. -/
  | iterate {α : Type} (emits : Category) (rest : List α) (told : Bool) : Running α
  | map {α β : Type} (stream : Running α) (f : α → β) (returns : Category) : Running β
  | filter {α : Type} (stream : Running α) (f : α → Bool) (p : Parameter α) : Running α
  | until {α : Type} (stream : Running α) (f : α → Bool) : Running α
  | takeRange {α : Type} (stream : Running α) (begin amount i : ℕ) : Running α
  /-- `adapted_` is empty. -/
  | flatMap {α β : Type} (outer : Running α) (f : α → Chain β) (done : Bool) : Running β
  /-- `adapted_` holds an inner stream; whether `inner_` points to it. -/
  | flatMapping {α β : Type} (outer : Running α) (f : α → Chain β) (adapted : Running β)
      (inner done : Bool) : Running β

inductive Outcome (R : Type)
  | start (r : R)
  | fail (what : String)

/-- The loop at the end. -/
inductive Terminal : Type → Type → Type 1
  /-- `Collect()` and the `Collector` of its collection. -/
  | collect {α R : Type} (collection : R) (emplace : R → α → R) : Terminal α R
  | head {α : Type} (arg : Option α) : Terminal α α
  /-- The function returns the accumulator and whether to go on. -/
  | reduce {α R : Type} (t : R) (f : R → α → R × Bool) : Terminal α R

/-- What comes after a stream that a call is in: each is called back by the one before it. -/
inductive Ctx (R : Type) : Type → Type 1
  | terminal {α : Type} (k : Terminal α R) : Ctx R α
  | map {α β : Type} (f : α → β) (returns : Category) (k : Ctx R β) : Ctx R α
  | filter {α : Type} (f : α → Bool) (p : Parameter α) (k : Ctx R α) : Ctx R α
  | until {α : Type} (f : α → Bool) (k : Ctx R α) : Ctx R α
  | takeRange {α : Type} (begin amount i : ℕ) (k : Ctx R α) : Ctx R α
  | flatMap {α β : Type} (f : α → Chain β) (adapted : Option (Running β × Bool)) (done : Bool)
      (k : Ctx R β) : Ctx R α
  /-- The `Adaptor` of a `FlatMap`, after its inner stream. -/
  | adaptor {α β : Type} (outer : Running α) (f : α → Chain β) (inner done : Bool)
      (k : Ctx R β) : Ctx R β

inductive Check
  | adaptedBegin
  | adaptedBody
  | adaptedEnded
  | inner
  | innerEnded
  | takeRange
  deriving DecidableEq

/-- The call under way. -/
inductive Control (R : Type) : Type 1
  /-- `Begin(stream)` of what comes next, where the stages have not begun either. -/
  | begin {α β : Type} (stream : Running α) (stages : Stages α β) (k : Ctx R β) : Control R
  | next {α : Type} (stream : Running α) (k : Ctx R α) : Control R
  | done {α : Type} (stream : Running α) (k : Ctx R α) : Control R
  /-- `Body(std::forward<Args>(args)...)` -/
  | body {α : Type} (stream : Running α) (arg : α) (category : Category) (k : Ctx R α) : Control R
  | ended {α : Type} (stream : Running α) (k : Ctx R α) : Control R
  /-- `Start()` or `Fail()` of whatever follows the loop. -/
  | terminal (outcome : Outcome R) : Control R
  | returned : Control R
  | failed (c : Check) : Control R

section Calls

variable {α β R : Type}

/-- `k()` of the chain, with what follows it already built, and then `Start()`. -/
def Chain.start {α : Type} : Chain α → Stages α β → Ctx R β → Control R
  | .iterate emits container, stages, k => .begin (.iterate emits container false) stages k
  | .map e f returns, stages, k => e.start (stages.map f returns) k
  | .filter e f p, stages, k => e.start (.cons (.filter f p) stages) k
  | .until e f, stages, k => e.start (.cons (.until f) stages) k
  | .takeFirst e amount, stages, k => e.start (.cons (.takeRange 0 amount) stages) k
  | .flatMap e f, stages, k => e.start (.cons (.flatMap f) stages) k

/-- `Begin()` keeps the stream. -/
def Stage.begin (stream : Running α) : Stage α β → Running β
  | .map f returns => .map stream f returns
  | .filter f p => .filter stream f p
  | .until f => .until stream f
  | .takeRange begin amount => .takeRange stream begin amount 0
  | .flatMap f => .flatMap stream f false

def Ctx.begin (stream : Running α) : Ctx R α → Control R
  | .terminal k => .next stream (.terminal k)
  | .map f returns k => .begin (.map stream f returns) .nil k
  | .filter f p k => .begin (.filter stream f p) .nil k
  | .until f k => .begin (.until stream f) .nil k
  | .takeRange begin amount i k => .begin (.takeRange stream begin amount i) .nil k
  | .flatMap f none done k => .begin (.flatMap stream f done) .nil k
  | .flatMap f (some (adapted, inner)) done k =>
    .begin (.flatMapping stream f adapted inner done) .nil k
  | .adaptor outer f inner done k =>
    if inner then .failed .adaptedBegin else .next stream (.adaptor outer f true done k)

def Stages.begin (stream : Running α) (stages : Stages α β) (k : Ctx R β) : Control R :=
  match stages with
  | .nil => k.begin stream
  | .cons stage stages => .begin (stage.begin stream) stages k

/-- `Next()`, which goes to the stream that `Begin()` was called with: only `Iterate`, `TakeRange`
and `FlatMap` are streams, and the others hand on the one before them. -/
def Running.next : Running α → Ctx R α → Control R
  | .iterate emits (v :: rest) told, k => .body (.iterate emits rest told) v emits k
  | .iterate emits [] told, k => .ended (.iterate emits [] told) k
  | .map stream f returns, k => .next stream (.map f returns k)
  | .filter stream f p, k => .next stream (.filter f p k)
  | .until stream f, k => .next stream (.until f k)
  | .takeRange stream begin amount i, k =>
    if i < begin + amount then .next stream (.takeRange begin amount i k)
    else if i = begin + amount then .done stream (.takeRange begin amount i k)
    else .failed .takeRange
  | .flatMap outer f done, k => .next outer (.flatMap f none done k)
  | .flatMapping outer f adapted inner done, k =>
    if inner then .next adapted (.adaptor outer f inner done k) else .failed .inner

def Running.done : Running α → Ctx R α → Control R
  | .iterate emits rest _, k => .ended (.iterate emits rest true) k
  | .map stream f returns, k => .done stream (.map f returns k)
  | .filter stream f p, k => .done stream (.filter f p k)
  | .until stream f, k => .done stream (.until f k)
  | .takeRange stream begin amount i, k => .done stream (.takeRange begin amount i k)
  | .flatMap outer f _, k => .done outer (.flatMap f none true k)
  | .flatMapping outer f adapted inner _, k =>
    if inner then .done adapted (.adaptor outer f inner true k) else .failed .inner

def Terminal.body (stream : Running α) (arg : α) : Terminal α R → Control R
  | .collect collection emplace =>
    .next stream (.terminal (.collect (emplace collection arg) emplace))
  | .head _ => .done stream (.terminal (.head (some arg)))
  | .reduce t f =>
    if (f t arg).2 then .next stream (.terminal (.reduce (f t arg).1 f))
    else .done stream (.terminal (.reduce (f t arg).1 f))

def Ctx.body (stream : Running α) (arg : α) (category : Category) : Ctx R α → Control R
  | .terminal k => k.body stream arg
  | .map f returns k => .body (.map stream f returns) (f arg) returns k
  -- `args` are forwarded to the predicate, and once more to what comes next.
  | .filter f p k =>
    if f arg then .body (.filter stream f p) (p.left category arg) category k
    else .next stream (.filter f p k)
  -- The predicate gets an lvalue.
  | .until f k =>
    if f arg then .done stream (.until f k) else .body (.until stream f) arg category k
  | .takeRange begin amount i k =>
    if begin ≤ i ∧ i < begin + amount then
      .body (.takeRange stream begin amount (i + 1)) arg category k
    else if i < begin then .next stream (.takeRange begin amount (i + 1) k)
    else if i = begin + amount then .done stream (.takeRange begin amount i k)
    else .failed .takeRange
  | .flatMap f none done k => (f arg).start .nil (.adaptor stream f false done k)
  | .flatMap _ (some _) _ _ => .failed .adaptedBody
  | .adaptor outer f inner done k => .body (.flatMapping outer f stream inner done) arg category k

def Terminal.ended : Terminal α R → Outcome R
  | .collect collection _ => .start collection
  | .head (some arg) => .start arg
  | .head none => .fail "empty stream"
  | .reduce t _ => .start t

def Ctx.ended (stream : Running α) : Ctx R α → Control R
  | .terminal k => .terminal k.ended
  | .map f returns k => .ended (.map stream f returns) k
  | .filter f p k => .ended (.filter stream f p) k
  | .until f k => .ended (.until stream f) k
  | .takeRange begin amount i k => .ended (.takeRange stream begin amount i) k
  | .flatMap f none done k => .ended (.flatMap stream f done) k
  | .flatMap _ (some _) _ _ => .failed .adaptedEnded
  | .adaptor outer f inner done k =>
    if inner then
      if done then .done outer (.flatMap f none done k) else .next outer (.flatMap f none done k)
    else .failed .innerEnded

/-- A source is asked for a value after it was told that it is done. -/
def Running.violates : Running α → Bool
  | .iterate _ _ told => told
  | _ => false

end Calls

structure State (R : Type) : Type 1 where
  control : Control R
  /-- Calls of whatever follows the loop. -/
  delivered : List (Outcome R)
  /-- Some source was asked for a value after it was told that it is done. -/
  askedAfterDone : Bool

variable {α R : Type}

/-- The call under way comes to its own last call. -/
def step (s : State R) : State R :=
  match s.control with
  | .begin stream stages k => { s with control := stages.begin stream k }
  | .next stream k =>
    { s with control := stream.next k, askedAfterDone := s.askedAfterDone || stream.violates }
  | .done stream k => { s with control := stream.done k }
  | .body stream arg category k => { s with control := k.body stream arg category }
  | .ended stream k => { s with control := k.ended stream }
  | .terminal outcome => { s with control := .returned, delivered := s.delivered ++ [outcome] }
  | .returned | .failed _ => s

/-- The pipeline is built and started. -/
def start (e : Chain α) (k : Terminal α R) : State R where
  control := e.start .nil (.terminal k)
  delivered := []
  askedAfterDone := false

end Eventuals.Stream
