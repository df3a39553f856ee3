import Eventuals.Library.Resumption
import Eventuals.Catch

/-! Eventuals of a single value and the continuations that are built of them: each continuation is
made around the one that comes next and calls it (`compose.h`, `eventual.h`, `then.h`,
`conditional.h`, `if.h`, `catch.h`, `finally.h`, `closure.h`, `raise.h`), or for each value of a
stream the one that is made of `Map()` and `Loop()`, or the one of `Head()` (`stream.h`, `map.h`,
`loop.h`, `head.h`). -/
namespace Eventuals.Composed

open Resumption

/-- An error by its class and what it carries, as it is passed to a `Fail()`. -/
structure Error (T W : Type) where
  type : T
  value : W
  category : Catch.Category := .rvalue
  deriving DecidableEq

namespace Error

variable {T W : Type} (e : Error T W)

/-- What `Error` is deduced as in `Fail(Error&& error)`. -/
def deduce : Catch.Deduced T W := e.category.deduce e.type e.value

@[simp] theorem value_deduce : e.deduce.value = e.value := by
  unfold deduce
  cases e.category <;> rfl

/-- `std::move(error)` -/
def moved : Error T W := { e with category := .rvalue }

/-- The alternative of `std::variant<Stopped, Errors...>` that is made of the error, where `convert`
is what the class of that alternative takes over; it is handed on by `std::move()`. -/
def stored (convert : T → W → T × W) : Error T W :=
  ⟨(convert e.type e.value).1, (convert e.type e.value).2, .rvalue⟩

/-- What an alternative takes over that is of the class of the error. -/
def itself (type : T) (value : W) : T × W := (type, value)

end Error

/-- `Start()`, `Fail()` and `Stop()` of a continuation. -/
inductive Signal (T W A : Type)
  | start (a : A)
  | fail (error : Error T W)
  | stop
  deriving DecidableEq

/-- `std::variant<Stopped, Errors...>` -/
inductive Unexpected (T W : Type)
  | stopped
  | error (error : Error T W)
  deriving DecidableEq

/-- `expected<A, std::variant<Stopped, Errors...>>` -/
abbrev Expected (T W A : Type) := Except (Unexpected T W) A

/-- What a stream does until its next call of what comes next, and after a value once it is told
to go on, by the `Next()` of `Loop()` or the `Done()` of `Head()`. -/
inductive Stream (G O R T W V : Type)
  | act (f : G → G) (s : G → Stream G O R T W V)
  | ask (o : O) (s : R → Stream G O R T W V)
  | body (v : V) (s : Stream G O R T W V)
  | ended
  | fail (error : Error T W)
  | stop

variable {G O R T W V A B C Z : Type}

/-- An eventual that is started with an `A` and starts what comes next with a `B`. A callable that
returns an eventual acts on the state `G` that the callables share, and what it returns depends on
what the state was. An eventual of `Eventual<B>()` asks the world and does in the end one call of
its `k`; it knows whether it has a handler for an interrupt, and so does a stream. -/
inductive Eventual (G O R T W : Type) : Type → Type → Type 1
  | eventual {A B : Type} (start : Bool → A → Program G O R (Signal T W B))
      (fail : Option (Bool → Error T W → Program G O R (Signal T W B)))
      (stop : Option (Bool → Program G O R (Signal T W B))) : Eventual G O R T W A B
  | raise {A : Type} (t : Error T W) : Eventual G O R T W A A
  | thenValue {A B : Type} (f : A → G → G × B) : Eventual G O R T W A B
  | then_ {A B : Type} (act : A → G → G) (f : A → G → Eventual G O R T W Unit B) :
      Eventual G O R T W A B
  | conditional {A B : Type} (condition : A → G → G × Bool) (thenAct : A → G → G)
      (thenF : A → G → Eventual G O R T W Unit B) (els3Act : A → G → G)
      (els3F : A → G → Eventual G O R T W Unit B) : Eventual G O R T W A B
  | if_ {A B : Type} (condition : Bool) (yes no : Eventual G O R T W Unit B) :
      Eventual G O R T W A B
  | catch_ {A : Type} (raised : List T) (hasAll : Bool)
      (handlers : ℕ → Eventual G O R T W (Catch.Argument T W) A) : Eventual G O R T W A A
  | finally_ {A : Type} (convert : T → W → T × W) : Eventual G O R T W A (Expected T W A)
  | closure {A B : Type} (act : G → G) (f : G → Eventual G O R T W A B) : Eventual G O R T W A B
  | composed {A B C : Type} (left : Eventual G O R T W A B) (right : Eventual G O R T W B C) :
      Eventual G O R T W A C
  /-- `stream >> Map(f) >> Loop()` -/
  | loop {A V : Type} (stream : Bool → A → Stream G O R T W V) (act : V → G → G)
      (f : V → G → Eventual G O R T W Unit Unit) : Eventual G O R T W A Unit
  /-- `stream >> Head()`, where `empty` is what the error for an empty stream says. -/
  | head {A V : Type} (stream : Bool → A → Stream G O R T W V) (empty : W) :
      Eventual G O R T W A V

/-- `just.h` -/
def Just (b : B) : Eventual G O R T W A B := .eventual (fun _ _ => .done (.start b)) none none

/-- `Then(std::move(f_))` around a callable of no argument, as `If` has them. -/
def Then (f : G → Eventual G O R T W Unit B) : Eventual G O R T W Unit B :=
  .then_ (fun _ g => g) fun _ g => f g

/-- `ExpectedToEventual` -/
def ExpectedToEventual (expected : Expected T W A) : Eventual G O R T W Unit A :=
  .eventual (fun _ _ =>
    match expected with
    | .ok a => .done (.start a)
    | .error .stopped => .done .stop
    | .error (.error e) => .done (.fail e.moved)) none none

/-- `Finally(f)`, where `f` returns an eventual. -/
def Finally (convert : T → W → T × W) (f : Expected T W A → G → Eventual G O R T W Unit B) :
    Eventual G O R T W A B :=
  .composed (.finally_ convert) (.then_ (fun _ g => g) f)

/-- A continuation that is called with an `A`, up to the one that `Build` was given, which is
called with a `Z`. -/
inductive Continuation (G O R T W Z : Type) : Type → Type 1
  | terminal : Continuation G O R T W Z Z
  /-- `_Then::Adaptor`, which refers to its `k_`. -/
  | adaptor {A : Type} (k : Continuation G O R T W Z A) : Continuation G O R T W Z A
  | eventual {A B : Type} (start : Bool → A → Program G O R (Signal T W B))
      (fail : Option (Bool → Error T W → Program G O R (Signal T W B)))
      (stop : Option (Bool → Program G O R (Signal T W B))) (handler : Bool)
      (k : Continuation G O R T W Z B) : Continuation G O R T W Z A
  | raise {A : Type} (t : Error T W) (k : Continuation G O R T W Z A) : Continuation G O R T W Z A
  | thenValue {A B : Type} (f : A → G → G × B) (k : Continuation G O R T W Z B) :
      Continuation G O R T W Z A
  | then_ {A B : Type} (act : A → G → G) (f : A → G → Eventual G O R T W Unit B)
      (interrupt : Bool) (k : Continuation G O R T W Z B) : Continuation G O R T W Z A
  | conditional {A B : Type} (condition : A → G → G × Bool) (thenAct : A → G → G)
      (thenF : A → G → Eventual G O R T W Unit B) (els3Act : A → G → G)
      (els3F : A → G → Eventual G O R T W Unit B) (interrupt : Bool)
      (k : Continuation G O R T W Z B) : Continuation G O R T W Z A
  | if_ {A B : Type} (condition : Bool) (yes no : Eventual G O R T W Unit B) (interrupt : Bool)
      (k : Continuation G O R T W Z B) : Continuation G O R T W Z A
  | catch_ {A : Type} (raised : List T) (hasAll : Bool)
      (handlers : ℕ → Eventual G O R T W (Catch.Argument T W) A) (interrupt : Bool)
      (k : Continuation G O R T W Z A) : Continuation G O R T W Z A
  | finally_ {A : Type} (convert : T → W → T × W) (k : Continuation G O R T W Z (Expected T W A)) :
      Continuation G O R T W Z A
  | closure {A B : Type} (act : G → G) (f : G → Eventual G O R T W A B) (interrupt : Bool)
      (k : Continuation G O R T W Z B) : Continuation G O R T W Z A
  | loop {A V : Type} (stream : Bool → A → Stream G O R T W V) (act : V → G → G)
      (f : V → G → Eventual G O R T W Unit Unit) (interrupt : Bool)
      (k : Continuation G O R T W Z Unit) : Continuation G O R T W Z A
  | head {A V : Type} (stream : Bool → A → Stream G O R T W V) (empty : W) (handler : Bool)
      (k : Continuation G O R T W Z V) : Continuation G O R T W Z A
  /-- `_Map::Adaptor` around `Loop()`, with what is left of the stream. -/
  | mapAdaptor {V : Type} (s : Stream G O R T W V) (act : V → G → G)
      (f : V → G → Eventual G O R T W Unit Unit) (interrupt : Bool)
      (k : Continuation G O R T W Z Unit) : Continuation G O R T W Z Unit

/-- `e.k(k)` -/
def Eventual.k : ∀ {A B : Type}, Eventual G O R T W A B → Continuation G O R T W Z B →
    Continuation G O R T W Z A
  | _, _, .eventual start fail stop, k => .eventual start fail stop false k
  | _, _, .raise t, k => .raise t k
  | _, _, .thenValue f, k => .thenValue f k
  | _, _, .then_ act f, k => .then_ act f false k
  | _, _, .conditional condition thenAct thenF els3Act els3F, k =>
    .conditional condition thenAct thenF els3Act els3F false k
  | _, _, .if_ condition yes no, k => .if_ condition yes no false k
  | _, _, .catch_ raised hasAll handlers, k => .catch_ raised hasAll handlers false k
  | _, _, .finally_ convert, k => .finally_ convert k
  | _, _, .closure act f, k => .closure act f false k
  | _, _, .composed left right, k => left.k (right.k k)
  | _, _, .loop stream act f, k => .loop stream act f false k
  | _, _, .head stream empty, k => .head stream empty false k

/-- `Register()`, unless an assertion or a `CHECK` that there is no `interrupt_` yet fails. `Catch`
and `Closure` do not register what comes next before they call it. -/
def Continuation.register : ∀ {A : Type}, Continuation G O R T W Z A →
    Option (Continuation G O R T W Z A)
  | _, .terminal => some .terminal
  | _, .adaptor k => some (.adaptor k)
  | _, .eventual start fail stop _ k => k.register.map (.eventual start fail stop true)
  | _, .raise t k => k.register.map (.raise t)
  | _, .thenValue f k => k.register.map (.thenValue f)
  | _, .then_ act f interrupt k => if interrupt then none else k.register.map (.then_ act f true)
  | _, .conditional condition thenAct thenF els3Act els3F interrupt k =>
    if interrupt then none
    else k.register.map (.conditional condition thenAct thenF els3Act els3F true)
  | _, .if_ condition yes no interrupt k =>
    if interrupt then none else k.register.map (.if_ condition yes no true)
  | _, .catch_ raised hasAll handlers interrupt k =>
    if interrupt then none else some (.catch_ raised hasAll handlers true k)
  | _, .finally_ convert k => k.register.map (.finally_ convert)
  | _, .closure act f interrupt k => if interrupt then none else some (.closure act f true k)
  | _, .loop stream act f interrupt k =>
    if interrupt then none else k.register.map (.loop stream act f true)
  | _, .head stream empty _ k => k.register.map (.head stream empty true)
  | _, .mapAdaptor s act f interrupt k => some (.mapAdaptor s act f interrupt k)

/-- `if (interrupt_ != nullptr) { k.Register(*interrupt_); }` -/
def Continuation.registerIf (interrupt : Bool) (k : Continuation G O R T W Z A) :
    Option (Continuation G O R T W Z A) :=
  if interrupt then k.register else some k

inductive Control (G O R T W Z : Type) : Type 1
  /-- A continuation is called. -/
  | call {A : Type} (signal : Signal T W A) (k : Continuation G O R T W Z A)
  /-- An eventual of `Eventual<B>()` has been called and is yet to call its `k`. -/
  | run {A : Type} (p : Program G O R (Signal T W A)) (k : Continuation G O R T W Z A)
  /-- `Next()` of a stream has been called, for what `Map()` and `Loop()` do with its values. -/
  | next {V : Type} (s : Stream G O R T W V) (act : V → G → G)
      (f : V → G → Eventual G O R T W Unit Unit) (interrupt : Bool)
      (k : Continuation G O R T W Z Unit)
  /-- `Next()` or `Done()` of a stream has been called, for `Head()` with its `arg_`. -/
  | first {V : Type} (s : Stream G O R T W V) (arg : Option V) (empty : W)
      (k : Continuation G O R T W Z V)
  /-- An assertion or a `CHECK` has failed. -/
  | abort
  /-- The call has returned and nothing has been called. -/
  | returned

structure State (G O R T W Z : Type) where
  g : G
  control : Control G O R T W Z

/-- Calls a continuation that has to have the interrupt before. -/
def Control.registered (interrupt : Bool) (signal : Signal T W A)
    (k : Continuation G O R T W Z A) : Control G O R T W Z :=
  match k.registerIf interrupt with
  | some k => .call signal k
  | none => .abort

namespace Continuation

/-- `Start()`, which the last continuation leaves to whoever has given it. -/
def start : Continuation G O R T W Z A → A → G → Option (State G O R T W Z)
  | .terminal, _, _ => none
  | .adaptor k, a, g => some ⟨g, .call (.start a) k⟩
  | .eventual start _ _ handler k, a, g => some ⟨g, .run (start handler a) k⟩
  | .raise t k, _, g => some ⟨g, .call (.fail t.moved) k⟩
  | .thenValue f k, a, g => some ⟨(f a g).1, .call (.start (f a g).2) k⟩
  | .then_ act f interrupt k, a, g =>
    some ⟨act a g, .registered interrupt (.start ()) ((f a g).k (.adaptor k))⟩
  | .conditional condition thenAct thenF els3Act els3F interrupt k, a, g =>
    let r := condition a g
    if r.2 then
      some ⟨thenAct a r.1, .registered interrupt (.start ()) ((thenF a r.1).k (.adaptor k))⟩
    else some ⟨els3Act a r.1, .registered interrupt (.start ()) ((els3F a r.1).k (.adaptor k))⟩
  | .if_ condition yes no interrupt k, _, g =>
    if condition then some ⟨g, .registered interrupt (.start ()) (yes.k (.adaptor k))⟩
    else some ⟨g, .registered interrupt (.start ()) (no.k (.adaptor k))⟩
  | .catch_ _ _ _ interrupt k, a, g => some ⟨g, .registered interrupt (.start a) k⟩
  | .finally_ _ k, a, g => some ⟨g, .call (.start (.ok a)) k⟩
  | .closure act f interrupt k, a, g =>
    some ⟨act g, .registered interrupt (.start a) ((f g).k k)⟩
  | .loop stream act f interrupt k, a, g => some ⟨g, .next (stream interrupt a) act f interrupt k⟩
  | .head stream empty handler k, a, g => some ⟨g, .first (stream handler a) none empty k⟩
  | .mapAdaptor s act f interrupt k, _, g => some ⟨g, .next s act f interrupt k⟩

section Fail

variable [DecidableEq T] (H : TypeTraits.Hierarchy T)

/-- `Fail()`, which hands an error on as it got it. Where `Catch` has a handler for the type of an
lvalue that does not handle it, nothing is called. -/
def fail : Continuation G O R T W Z A → Error T W → G → Option (State G O R T W Z)
  | .terminal, _, _ => none
  | .adaptor k, e, g => some ⟨g, .call (.fail e) k⟩
  | .eventual _ fail _ handler k, e, g =>
    match fail with
    | none => some ⟨g, .call (.fail e) k⟩
    | some fail => some ⟨g, .run (fail handler e) k⟩
  | .raise _ k, e, g => some ⟨g, .call (.fail e) k⟩
  | .thenValue _ k, e, g => some ⟨g, .call (.fail e) k⟩
  | .then_ _ _ _ k, e, g => some ⟨g, .call (.fail e) k⟩
  | .conditional _ _ _ _ _ _ k, e, g => some ⟨g, .call (.fail e) k⟩
  | .if_ _ _ _ _ k, e, g => some ⟨g, .call (.fail e) k⟩
  | .catch_ raised hasAll handlers interrupt k, e, g =>
    match (Catch.Continuation.mk raised hasAll interrupt).fail H e.deduce with
    | [.startHandler i argument] => some ⟨g, .call (.start argument) ((handlers i).k k)⟩
    | [.registerHandler _, .startHandler i argument] =>
      some ⟨g, .registered true (.start argument) ((handlers i).k k)⟩
    | [.fail _] => some ⟨g, .call (.fail e) k⟩
    | [.register, .fail _] => some ⟨g, .registered true (.fail e) k⟩
    | _ => some ⟨g, .returned⟩
  | .finally_ convert k, e, g => some ⟨g, .call (.start (.error (.error (e.stored convert)))) k⟩
  | .closure act f interrupt k, e, g =>
    some ⟨act g, .registered interrupt (.fail e) ((f g).k k)⟩
  | .loop _ _ _ _ k, e, g => some ⟨g, .call (.fail e) k⟩
  | .head _ _ _ k, e, g => some ⟨g, .call (.fail e) k⟩
  | .mapAdaptor _ _ _ _ k, e, g => some ⟨g, .call (.fail e) k⟩

end Fail

/-- `Stop()` -/
def stop : Continuation G O R T W Z A → G → Option (State G O R T W Z)
  | .terminal, _ => none
  | .adaptor k, g => some ⟨g, .call .stop k⟩
  | .eventual _ _ stop handler k, g =>
    match stop with
    | none => some ⟨g, .call .stop k⟩
    | some stop => some ⟨g, .run (stop handler) k⟩
  | .raise _ k, g => some ⟨g, .call .stop k⟩
  | .thenValue _ k, g => some ⟨g, .call .stop k⟩
  | .then_ _ _ _ k, g => some ⟨g, .call .stop k⟩
  | .conditional _ _ _ _ _ _ k, g => some ⟨g, .call .stop k⟩
  | .if_ _ _ _ _ k, g => some ⟨g, .call .stop k⟩
  | .catch_ _ _ _ interrupt k, g => some ⟨g, .registered interrupt .stop k⟩
  | .finally_ _ k, g => some ⟨g, .call (.start (.error .stopped)) k⟩
  | .closure act f interrupt k, g => some ⟨act g, .registered interrupt .stop ((f g).k k)⟩
  | .loop _ _ _ _ k, g => some ⟨g, .call .stop k⟩
  | .head _ _ _ k, g => some ⟨g, .call .stop k⟩
  | .mapAdaptor _ _ _ _ k, g => some ⟨g, .call .stop k⟩

end Continuation

section Machine

variable [DecidableEq T] (H : TypeTraits.Hierarchy T)

/-- What happens without the world. -/
def tick (s : State G O R T W Z) : Option (State G O R T W Z) :=
  match s.control with
  | .call (.start a) k => k.start a s.g
  | .call (.fail e) k => k.fail H e s.g
  | .call .stop k => k.stop s.g
  | .run (.done signal) k => some ⟨s.g, .call signal k⟩
  | .run (.act f p) k => some ⟨f s.g, .run (p s.g) k⟩
  | .run (.ask _ _) _ => none
  | .next (.act h rest) act f interrupt k => some ⟨h s.g, .next (rest s.g) act f interrupt k⟩
  | .next (.ask _ _) .. => none
  | .next (.body v rest) act f interrupt k =>
    some ⟨act v s.g, .registered interrupt (.start ())
      ((f v s.g).k (.adaptor (.mapAdaptor rest act f interrupt k)))⟩
  | .next .ended _ _ _ k => some ⟨s.g, .call (.start ()) k⟩
  | .next (.fail e) _ _ _ k => some ⟨s.g, .call (.fail e) k⟩
  | .next .stop _ _ _ k => some ⟨s.g, .call .stop k⟩
  | .first (.act h rest) arg empty k => some ⟨h s.g, .first (rest s.g) arg empty k⟩
  | .first (.ask _ _) .. => none
  | .first (.body v rest) _ empty k => some ⟨s.g, .first rest (some v) empty k⟩
  | .first .ended (some v) _ k => some ⟨s.g, .call (.start v) k⟩
  | .first .ended none empty k => some ⟨s.g, .call (.fail ⟨H.runtimeError, empty, .rvalue⟩) k⟩
  | .first (.fail e) _ _ k => some ⟨s.g, .call (.fail e) k⟩
  | .first .stop _ _ k => some ⟨s.g, .call .stop k⟩
  | .abort => none
  | .returned => none

def waiting (s : State G O R T W Z) : Option (O × G) :=
  match s.control with
  | .run (.ask o _) _ => some (o, s.g)
  | .next (.ask o _) .. => some (o, s.g)
  | .first (.ask o _) .. => some (o, s.g)
  | _ => none

/-- The world has answered and has left the state as `g`. -/
def answer (s : State G O R T W Z) (r : R) (g : G) : State G O R T W Z :=
  match s.control with
  | .run (.ask _ p) k => ⟨g, .run (p r) k⟩
  | .next (.ask _ rest) act f interrupt k => ⟨g, .next (rest r) act f interrupt k⟩
  | .first (.ask _ rest) arg empty k => ⟨g, .first (rest r) arg empty k⟩
  | control => ⟨g, control⟩

def performer : Performer (State G O R T W Z) G O R where
  tick := tick H
  waiting := waiting
  answer := answer
  tick_of_waiting s q h := by
    obtain ⟨g, control⟩ := s
    cases control with
    | run p k =>
      cases p with
      | ask o p => rfl
      | done a => cases h
      | act f p => cases h
    | next rest act f interrupt k =>
      cases rest with
      | ask o rest => rfl
      | act h' rest => cases h
      | body v rest => cases h
      | ended => cases h
      | fail e => cases h
      | stop => cases h
    | first rest arg empty k =>
      cases rest with
      | ask o rest => rfl
      | act h' rest => cases h
      | body v rest => cases h
      | ended => cases h
      | fail e => cases h
      | stop => cases h
    | call => cases h
    | abort => cases h
    | returned => cases h

end Machine

end Eventuals.Composed
