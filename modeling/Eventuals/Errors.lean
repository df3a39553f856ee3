import Eventuals.TypeTraits

/-! The errors of a pipeline: what its types say (`ErrorsFrom`) and what its continuations pass on
when they run. Which value a callable gets is left open, as all that it may return has one type. -/
namespace Eventuals.Errors

open TypeTraits

/-- The error of an `expected` that is used as an eventual. -/
inductive ExpectedError (E : Type)
  /-- Anything that makes a `RuntimeError`. -/
  | string
  | error (e : E)
  | stopped
  /-- `std::variant<Stopped, Errors...>` -/
  | variant (errors : List E)

mutual

/-- The type of an eventual or of a part of one; `f` is what a callable returns. -/
inductive Pipeline (E : Type)
  | eventual (raises : List E)
  | raise (e : E)
  | expected (error : ExpectedError E)
  | compose (left right : Pipeline E)
  | then (f : Pipeline E)
  | iterate
  | map (f : Pipeline E)
  | filter
  | until (f : Pipeline E)
  | flatMap (f : Pipeline E)
  | collect
  | catch (handlers : Handlers E)

/-- The handlers of a `Catch()` in the order they were installed. -/
inductive Handlers (E : Type)
  | nil
  | raised (e : E) (f : Pipeline E) (handlers : Handlers E)
  | all (f : Pipeline E)

end

/-- `Just()`, or a callable that returns a plain value. -/
abbrev just {E : Type} : Pipeline E := .eventual []

section Types

variable {E : Type}

/-- `Catches_` -/
def Handlers.catches : Handlers E → List E
  | .nil => []
  | .raised e _ handlers => e :: handlers.catches
  | .all _ => []

def Handlers.hasAll : Handlers E → Bool
  | .nil => false
  | .raised _ _ handlers => handlers.hasAll
  | .all _ => true

variable [DecidableEq E] (H : Hierarchy E)

mutual

def Pipeline.errorsFrom : Pipeline E → List E → List E
  | .eventual raises, errors => union raises errors
  | .raise e, errors => union [e] errors
  | .expected (.error e), errors => union [e] errors
  | .expected _, errors => union [H.runtimeError] errors
  | .compose left right, errors => right.errorsFrom (left.errorsFrom errors)
  | .then f, errors => union errors (union [] (f.errorsFrom []))
  | .iterate, errors => union errors []
  | .map f, errors => union errors (f.errorsFrom [])
  | .filter, errors => errors
  | .until f, errors => union errors (f.errorsFrom [])
  | .flatMap f, _ => f.errorsFrom []
  | .collect, errors => union errors []
  | .catch handlers, errors =>
    union
      (if H.typeErasedError ∈ handlers.catches ∨ handlers.hasAll = true then []
      else subtract errors handlers.catches)
      (unionAll handlers.raises)

/-- `Raises` of each handler. That of `all()` is not known and left empty. -/
def Handlers.raises : Handlers E → List (List E)
  | .nil => []
  | .raised _ f handlers => union [] (union [] (f.errorsFrom [])) :: handlers.raises
  | .all _ => [[]]

end

end Types

/-- Whether an error comes out of what the callable of an `all()` has returned. -/
inductive Origin
  | raised
  | all
  deriving DecidableEq

/-- The calls that one continuation makes of the next. -/
inductive Signal (E : Type)
  | start
  | begin
  | body
  | ended
  | fail (e : E) (origin : Origin)
  | stop

section Calls

variable {E : Type}

/-- The methods that do nothing but call the same method, or `Start()`, of the next continuation. -/
def Pipeline.forwards : Pipeline E → Signal E → Option (Signal E)
  | .compose .., _ => none
  | .catch _, .start => some .start
  | .catch _, .stop => some .stop
  | .catch _, _ => none
  | _, .fail e origin => some (.fail e origin)
  | _, .stop => some .stop
  | .map _, .begin | .filter, .begin | .until _, .begin | .flatMap _, .begin => some .begin
  | .map _, .ended | .filter, .ended | .until _, .ended | .flatMap _, .ended => some .ended
  | .filter, .body => some .body
  | .collect, .ended => some .start
  | _, _ => none

/-- The adaptors that follow what a callable has returned. -/
def Pipeline.adaptor : Pipeline E → Signal E → Option (Signal E)
  | .then _, .start => some .start
  | .map _, .start => some .body
  | .until _, .start => some .body
  | .flatMap _, .body => some .body
  | .then _, .fail e origin | .map _, .fail e origin | .until _, .fail e origin
  | .flatMap _, .fail e origin => some (.fail e origin)
  | .then _, .stop | .map _, .stop | .until _, .stop | .flatMap _, .stop => some .stop
  | _, _ => none

/-- The eventual that a call starts, if it calls a callable. -/
def Pipeline.starts : Pipeline E → Signal E → Option (Pipeline E)
  | .then f, .start => some f
  | .map f, .body | .until f, .body | .flatMap f, .body => some f
  | _, _ => none

/-- The first handler whose `TryHandle()` handles an error, and whether it is that of `all()`. -/
def Handlers.tryHandle (H : Hierarchy E) [DecidableEq E] (e : E) :
    Handlers E → Option (Pipeline E × Bool)
  | .nil => none
  | .raised e' f handlers =>
    if e' = e ∨ e' = H.typeErasedError ∨ H.isBaseOf e' e then some (f, false)
    else handlers.tryHandle H e
  | .all f => some (f, true)

/-- What the eventual of a handler passes on. -/
def handled (all : Bool) : Signal E → Option (Signal E)
  | .start => some .start
  | .fail e origin => some (.fail e (if all then .all else origin))
  | .stop => some .stop
  | _ => none

variable [DecidableEq E]

/-- A call of a continuation may end up in a call of the next one. -/
inductive Calls (H : Hierarchy E) : Pipeline E → Signal E → Signal E → Prop
  | forward {p : Pipeline E} {a b : Signal E} : p.forwards a = some b → Calls H p a b
  | eventualStart {raises : List E} : Calls H (.eventual raises) .start .start
  /-- `raises` says what may be raised. -/
  | eventualFail {raises : List E} {e : E} : H.Contains raises e →
      Calls H (.eventual raises) .start (.fail e .raised)
  | eventualStop {raises : List E} : Calls H (.eventual raises) .start .stop
  | raise {e : E} : Calls H (.raise e) .start (.fail e .raised)
  | expectedStart {error : ExpectedError E} : Calls H (.expected error) .start .start
  | expectedString : Calls H (.expected .string) .start (.fail H.runtimeError .raised)
  | expectedError {e : E} : Calls H (.expected (.error e)) .start (.fail e .raised)
  | expectedStopped : Calls H (.expected .stopped) .start .stop
  | expectedVariant {errors : List E} {e : E} : e ∈ errors →
      Calls H (.expected (.variant errors)) .start (.fail e .raised)
  | expectedVariantStopped {errors : List E} : Calls H (.expected (.variant errors)) .start .stop
  | iterateBegin : Calls H .iterate .start .begin
  | iterateBody : Calls H .iterate .start .body
  | iterateEnded : Calls H .iterate .start .ended
  | compose {left right : Pipeline E} {a b c : Signal E} :
      Calls H left a b → Calls H right b c → Calls H (.compose left right) a c
  | adapted {p f : Pipeline E} {a b c : Signal E} :
      p.starts a = some f → Calls H f .start b → p.adaptor b = some c → Calls H p a c
  | caught {handlers : Handlers E} {f : Pipeline E} {all : Bool} {e : E} {origin : Origin}
      {a b : Signal E} : handlers.tryHandle H e = some (f, all) → Calls H f .start a →
      handled all a = some b → Calls H (.catch handlers) (.fail e origin) b
  | uncaught {handlers : Handlers E} {e : E} {origin : Origin} :
      handlers.tryHandle H e = none →
      Calls H (.catch handlers) (.fail e origin) (.fail e origin)

end Calls

end Eventuals.Errors
