import Eventuals.Library.Transition

/-! A `Task` hides an eventual behind the types of its argument, its value and its errors
(`task.h`). It gives what the eventual would give in its place. -/
namespace Eventuals.Task

open Transition (Machine)

/-- The calls of a continuation, which takes an argument or a value of `X`. -/
inductive Call (X E : Type*)
  | start (x : X)
  | fail (error : E)
  | stop
  deriving DecidableEq

/-- A built eventual: how its state changes with each call, and the calls of its continuation that
come of it. An `event` is anything that it has been waiting for, and `W` what it may then find in
the world. -/
structure Eventual (S I A V E W : Type*) where
  register : I → S → S
  call : W → Call (Option A) E → S → S × List (Call V E)
  event : W → S → S × List (Call V E)

section Eventuals

variable (I A V E W : Type*) {V' E' : Type*}

/-- `Just(t)` -/
def just (t : V) : Eventual Unit I A V E W where
  register _ s := s
  call _ call s :=
    match call with
    | .start _ => (s, [.start t])
    | .fail error => (s, [.fail error])
    | .stop => (s, [.stop])
  event _ s := (s, [])

/-- `Raise(t)` -/
def raise (t : E) : Eventual Unit I A V E W where
  register _ s := s
  call _ call s :=
    match call with
    | .start _ => (s, [.fail t])
    | .fail error => (s, [.fail error])
    | .stop => (s, [.stop])
  event _ s := (s, [])

/-- What the callable that `Task::Failure(error)` makes returns. Its eventual has no `fail` and no
`stop`. -/
def failure (error : E) : Eventual Unit I A V E W where
  register _ s := s
  call _ call s :=
    match call with
    | .start _ => (s, [.fail error])
    | .fail upstream => (s, [.fail upstream])
    | .stop => (s, [.stop])
  event _ s := (s, [])

end Eventuals

/-- `From_`, `To_`, `Catches_` and `Raises_`. -/
structure Types (T A V E : Type*) where
  /-- The conversion of an argument, unless there is to be none. -/
  from_ : Option (A → A)
  to_ : V → V
  catches : List T
  raises : List T
  typeOf : E → T
  /-- The conversion of an error that is not of any type in `Raises_` to one that is. -/
  convert : E → E

/-- `value_or_dispatch_`: what `Task::Success()` was given, or the callable. -/
inductive ValueOrDispatch (S Args V : Type*)
  | value (v : V)
  | dispatch (f : Args → S)

inductive Action
  | start
  | stop
  | fail
  deriving DecidableEq

inductive Check
  /-- `value_or_dispatch_.index()` is 1. -/
  | index
  | arg
  | error
  | interrupt
  deriving DecidableEq

structure State (S I V E : Type*) where
  /-- `interrupt_` -/
  interrupt : Option I
  /-- `e_` -/
  e : Option S
  entered : Bool
  /-- What follows is history: the calls of `k_`. -/
  registered : List I
  calls : List (Call V E)
  failed : List Check
  deriving DecidableEq

inductive Label (I A E W : Type*)
  | register (interrupt : I)
  | enter (w : W) (call : Call (Option A) E)
  | event (w : W)

variable {S I A V E W T Args : Type*} [DecidableEq T]

namespace Types

variable (types : Types T A V E)

def argument (args : Option A) : Option A :=
  match types.from_ with
  | none => none
  | some f => args.map f

/-- What the `static_assert` on an argument asks for. -/
def Accepts : Call (Option A) E → Prop
  | .start args => types.from_.isSome = true → args.isSome = true
  | _ => True

instance : DecidablePred types.Accepts
  | .start args => inferInstanceAs (Decidable (types.from_.isSome = true → args.isSome = true))
  | .fail _ => .isTrue trivial
  | .stop => .isTrue trivial

/-- `tuple_contains_exact_type_v<Error, Catches_>` -/
def caught (error : E) : Bool :=
  types.typeOf error ∈ types.catches

/-- The callbacks take a `To_`, or a variant of `Raises_`. -/
def result : Call V E → Call V E
  | .start v => .start (types.to_ v)
  | .fail error => .fail (if types.typeOf error ∈ types.raises then error else types.convert error)
  | .stop => .stop

end Types

namespace State

variable (s : State S I V E)

def fail (c : Check) : State S I V E :=
  { s with failed := s.failed ++ [c] }

def deliver (calls : List (Call V E)) : State S I V E :=
  { s with calls := s.calls ++ calls }

/-- `HeapTask::Start()`, `Fail()` and `Stop()` -/
def heapTask (e : Eventual S I A V E W) (types : Types T A V E) (x : S) (w : W) (interrupt : I)
    (call : Call (Option A) E) : State S I V E :=
  let (x, calls) := e.call w call (e.register interrupt x)
  { s with e := some x }.deliver (calls.map types.result)

/-- The function that a callable is wrapped in. -/
def wrapped (e : Eventual S I A V E W) (types : Types T A V E) (f : Args → S) (args : Args)
    (w : W) (interrupt : I) (action : Action) (arg : Option (Option A)) (error : Option E) :
    State S I V E :=
  let x := s.e.getD (f args)
  let s := { s with e := some x }
  match action with
  | .start =>
    match arg with
    | some arg => s.heapTask e types x w interrupt (.start arg)
    | none => s.fail .arg
  | .fail =>
    if types.catches = [] then s
    else
      match error with
      | some error => s.heapTask e types x w interrupt (.fail error)
      | none => s.fail .error
  | .stop => s.heapTask e types x w interrupt .stop

def dispatch (e : Eventual S I A V E W) (types : Types T A V E)
    (valueOrDispatch : ValueOrDispatch S Args V) (args : Args) (w : W) (action : Action)
    (arg : Option (Option A)) (error : Option E) : State S I V E :=
  match valueOrDispatch with
  | .value _ => s.fail .index
  | .dispatch f =>
    match s.interrupt with
    | some interrupt => s.wrapped e types f args w interrupt action arg error
    | none => s.fail .interrupt

/-- `Continuation::Start()`, `Fail()` and `Stop()` -/
def enter (e : Eventual S I A V E W) (types : Types T A V E)
    (valueOrDispatch : ValueOrDispatch S Args V) (args : Args) (w : W) :
    Call (Option A) E → State S I V E
  | .start arg =>
    match valueOrDispatch with
    | .value v => s.deliver [.start (types.to_ v)]
    | .dispatch _ =>
      s.dispatch e types valueOrDispatch args w .start (some (types.argument arg)) none
  | .fail error =>
    if types.caught error then s.dispatch e types valueOrDispatch args w .fail none (some error)
    else s.deliver [.fail error]
  | .stop => s.dispatch e types valueOrDispatch args w .stop none none

/-- The continuation has been registered, and is called once. -/
def Ready (types : Types T A V E) : Label I A E W → Prop
  | .register _ => s.entered = false ∧ s.registered.isEmpty = true
  | .enter _ call => s.entered = false ∧ s.registered.isEmpty = false ∧ types.Accepts call
  | .event _ => s.entered = true

def next (e : Eventual S I A V E W) (types : Types T A V E)
    (valueOrDispatch : ValueOrDispatch S Args V) (args : Args) : Label I A E W → State S I V E
  | .register interrupt =>
    { s with interrupt := some interrupt, registered := s.registered ++ [interrupt] }
  | .enter w call => { s with entered := true }.enter e types valueOrDispatch args w call
  | .event w =>
    match s.e with
    | some x =>
      let (x, calls) := e.event w x
      { s with e := some x }.deliver (calls.map types.result)
    | none => s

end State

def State.init (S I V E : Type*) : State S I V E :=
  ⟨none, none, false, [], [], []⟩

def machine (e : Eventual S I A V E W) (types : Types T A V E)
    (valueOrDispatch : ValueOrDispatch S Args V) (args : Args) :
    Machine (State S I V E) (Label I A E W) where
  Initial s := s = .init S I V E
  Enabled s l := s.Ready types l
  next s l := s.next e types valueOrDispatch args l

section Inline

/-- What stands between an eventual and the pipeline that it is composed into. -/
structure Interface (A V E : Type*) where
  argument : Option A → Option A
  caught : E → Bool
  result : Call V E → Call V E

/-- Nothing. -/
def Interface.plain : Interface A V E :=
  ⟨id, fun _ => true, id⟩

def Types.interface (types : Types T A V E) : Interface A V E :=
  ⟨types.argument, types.caught, types.result⟩

structure Composed (S I V E : Type*) where
  e : S
  /-- The eventual has been called. -/
  inside : Bool
  entered : Bool
  registered : List I
  calls : List (Call V E)
  deriving DecidableEq

namespace Composed

variable (s : Composed S I V E)

def deliver (calls : List (Call V E)) : Composed S I V E :=
  { s with calls := s.calls ++ calls }

def into (interface : Interface A V E) (p : S × List (Call V E)) : Composed S I V E :=
  { s with e := p.1, inside := true }.deliver (p.2.map interface.result)

def enter (e : Eventual S I A V E W) (interface : Interface A V E) (w : W) :
    Call (Option A) E → Composed S I V E
  | .start arg => s.into interface (e.call w (.start (interface.argument arg)) s.e)
  | .fail error =>
    if interface.caught error then s.into interface (e.call w (.fail error) s.e)
    else s.deliver [.fail error]
  | .stop => s.into interface (e.call w .stop s.e)

def Ready (types : Types T A V E) : Label I A E W → Prop
  | .register _ => s.entered = false ∧ s.registered.isEmpty = true
  | .enter _ call => s.entered = false ∧ s.registered.isEmpty = false ∧ types.Accepts call
  | .event _ => s.entered = true

def next (e : Eventual S I A V E W) (interface : Interface A V E) :
    Label I A E W → Composed S I V E
  | .register interrupt =>
    { s with e := e.register interrupt s.e, registered := s.registered ++ [interrupt] }
  | .enter w call => { s with entered := true }.enter e interface w call
  | .event w => if s.inside then s.into interface (e.event w s.e) else s

end Composed

def Composed.init (I V E : Type*) (x : S) : Composed S I V E :=
  ⟨x, false, false, [], []⟩

/-- The pipeline with the eventual itself in the place of the task. -/
def inline (e : Eventual S I A V E W) (interface : Interface A V E) (types : Types T A V E)
    (x : S) :
    Machine (Composed S I V E) (Label I A E W) where
  Initial s := s = .init I V E x
  Enabled s l := s.Ready types l
  next s l := s.next e interface l

end Inline

/-- Nothing stands between a pipeline and an eventual of just the declared types. -/
theorem interface_eq_plain (types : Types T A V E) (hfrom : types.from_ = some id)
    (hto : types.to_ = id) (hcatches : ∀ error, types.typeOf error ∈ types.catches)
    (hraises : ∀ error, types.typeOf error ∈ types.raises) : types.interface = .plain := by
  have hargument : types.argument = id := by
    funext args
    simp [Types.argument, hfrom]
  have hcaught : types.caught = fun _ => true := by
    funext error
    simp [Types.caught, hcatches]
  have hresult : types.result = id := by
    funext call
    cases call <;> simp [Types.result, hto, hraises]
  rw [Types.interface, hargument, hcaught, hresult, Interface.plain]

section Decidable

variable (types : Types T A V E)

instance (s : State S I V E) : (l : Label I A E W) → Decidable (s.Ready types l)
  | .register _ => inferInstanceAs (Decidable (s.entered = false ∧ s.registered.isEmpty = true))
  | .enter _ call =>
    inferInstanceAs
      (Decidable (s.entered = false ∧ s.registered.isEmpty = false ∧ types.Accepts call))
  | .event _ => inferInstanceAs (Decidable (s.entered = true))

instance (s : Composed S I V E) : (l : Label I A E W) → Decidable (s.Ready types l)
  | .register _ => inferInstanceAs (Decidable (s.entered = false ∧ s.registered.isEmpty = true))
  | .enter _ call =>
    inferInstanceAs
      (Decidable (s.entered = false ∧ s.registered.isEmpty = false ∧ types.Accepts call))
  | .event _ => inferInstanceAs (Decidable (s.entered = true))

instance (e : Eventual S I A V E W) (valueOrDispatch : ValueOrDispatch S Args V) (args : Args)
    (s : State S I V E) (l : Label I A E W) :
    Decidable ((machine e types valueOrDispatch args).Enabled s l) :=
  inferInstanceAs (Decidable (s.Ready types l))

instance (e : Eventual S I A V E W) (interface : Interface A V E) (x : S) (s : Composed S I V E)
    (l : Label I A E W) : Decidable ((inline e interface types x).Enabled s l) :=
  inferInstanceAs (Decidable (s.Ready types l))

end Decidable

/-- The continuation has received the same calls, and no check has failed. -/
def Same {S' : Type*} (s : State S I V E) (t : Composed S' I V E) : Prop :=
  s.calls = t.calls ∧ s.registered = t.registered ∧ s.failed = []

/-- The call reaches `Dispatch()`. -/
def Types.dispatches (types : Types T A V E) : Call (Option A) E → Bool
  | .start _ => false
  | .fail error => types.caught error
  | .stop => true

def Label.dispatches (types : Types T A V E) : Label I A E W → Bool
  | .enter _ call => types.dispatches call
  | _ => false

/-- Whatever is done with them, a task and the eventual in its place either both refuse it or give
the same calls. -/
def Transparent {S' : Type*} (e : Eventual S I A V E W) (types : Types T A V E)
    (valueOrDispatch : ValueOrDispatch S Args V) (args : Args) (e' : Eventual S' I A V E W) (x : S')
    (interface : Interface A V E) (ls : List (Label I A E W)) : Prop :=
  Option.Rel Same ((machine e types valueOrDispatch args).exec (.init S I V E) ls)
    ((inline e' interface types x).exec (.init I V E x) ls)

section Dispatch

variable {e : Eventual S I A V E W} {types : Types T A V E} {f : Args → S} {args : Args}
  {s : State S I V E} {t : Composed S I V E} {l : Label I A E W} {w : W}
  {call : Call (Option A) E} {i : I}

/-- A task and the eventual that its callable returns. Until the callable is called, the eventual is
as `Register()` has left it. -/
structure Paired (e : Eventual S I A V E W) (f : Args → S) (args : Args) (s : State S I V E)
    (t : Composed S I V E) : Prop where
  entered : s.entered = t.entered
  same : Same s t
  interrupt : s.interrupt = s.registered.head?
  outside : s.e = none → t.inside = false ∧
    t.e = s.registered.foldl (fun x i => e.register i x) (f args)
  inside : ∀ x, s.e = some x → t.inside = true ∧ t.e = x
  before : s.entered = false → s.e = none
  once : s.registered.length ≤ 1

theorem paired_init : Paired e f args (.init S I V E) (.init I V E (f args)) where
  entered := rfl
  same := ⟨rfl, rfl, rfl⟩
  interrupt := rfl
  outside _ := ⟨rfl, rfl⟩
  inside x h := by simp [State.init] at h
  before _ := rfl
  once := by simp [State.init]

theorem paired_deliver (h : Paired e f args s t) (calls : List (Call V E)) :
    Paired e f args (s.deliver calls) (t.deliver calls) where
  entered := h.entered
  same := ⟨congrArg (· ++ calls) h.same.1, h.same.2⟩
  interrupt := h.interrupt
  outside := h.outside
  inside := h.inside
  before := h.before
  once := h.once

/-- Both have called the eventual in the same state. -/
theorem paired_into (h : Paired e f args s t) (hs : s.entered = true) (p : S × List (Call V E)) :
    Paired e f args ({ s with e := some p.1 }.deliver (p.2.map types.result))
      (t.into types.interface p) := by
  refine paired_deliver (s := { s with e := some p.1 }) (t := { t with e := p.1, inside := true })
    ?_ _
  exact { h with
    outside := fun hx => by simp at hx
    inside := fun x hx => ⟨rfl, by simpa using hx⟩
    before := fun hb => by simp [hs] at hb }

theorem paired_register (h : Paired e f args s t)
    (hr : s.Ready types (.register i : Label I A E W)) :
    Paired e f args (s.next e types (.dispatch f) args (.register i))
      (t.next e types.interface (.register i)) := by
  obtain ⟨hs, hreg⟩ := hr
  have hnil : s.registered = [] := by simpa using hreg
  have hnone := h.before hs
  obtain ⟨hin, hte⟩ := h.outside hnone
  obtain ⟨hcalls, hregs, hfailed⟩ := h.same
  refine ⟨h.entered, ⟨hcalls, ?_, hfailed⟩, ?_, fun _ => ⟨hin, ?_⟩, ?_, fun _ => hnone, ?_⟩
  · exact congrArg (· ++ [i]) hregs
  · simp [State.next, hnil]
  · simp [State.next, Composed.next, hnil, hte]
  · intro x hx
    simp [State.next, hnone] at hx
  · simp [State.next, hnil]

/-- The state that `HeapTask` calls the eventual in. -/
theorem paired_heapTask (h : Paired e f args s t) (hs : s.entered = true)
    (hi : s.interrupt = some i) (hn : s.e = none) :
    Paired e f args (s.heapTask e types (f args) w i call)
      (t.into types.interface (e.call w call t.e)) := by
  obtain ⟨-, hte⟩ := h.outside hn
  have hreg : s.registered = [i] := by
    have hhead := h.interrupt.symm.trans hi
    have honce := h.once
    match hr : s.registered with
    | [] => simp [hr] at hhead
    | [j] => simpa [hr] using hhead
    | _ :: _ :: _ => simp [hr] at honce
  have hx : t.e = e.register i (f args) := by simpa [hreg] using hte
  rw [hx]
  exact paired_into h hs _

theorem caught_ne_nil {error : E} (h : types.caught error = true) :
    types.catches ≠ [] := by
  intro hn
  simp [Types.caught, hn] at h

theorem dispatch_start {arg : Option A} (hi : s.interrupt = some i) (hn : s.e = none) :
    s.dispatch e types (.dispatch f) args w .start (some arg) none =
      s.heapTask e types (f args) w i (.start arg) := by
  cases s
  cases hi
  cases hn
  rfl

theorem dispatch_stop (hi : s.interrupt = some i) (hn : s.e = none) :
    s.dispatch e types (.dispatch f) args w .stop none none =
      s.heapTask e types (f args) w i .stop := by
  cases s
  cases hi
  cases hn
  rfl

theorem dispatch_fail {error : E} (hi : s.interrupt = some i) (hn : s.e = none)
    (hc : types.caught error = true) :
    s.dispatch e types (.dispatch f) args w .fail none (some error) =
      s.heapTask e types (f args) w i (.fail error) := by
  cases s
  cases hi
  cases hn
  simp only [State.dispatch, State.wrapped, if_neg (caught_ne_nil hc)]
  rfl

theorem paired_enter (h : Paired e f args s t) (hr : s.Ready types (.enter w call)) :
    Paired e f args (s.next e types (.dispatch f) args (.enter w call))
      (t.next e types.interface (.enter w call)) := by
  obtain ⟨hs, hreg, -⟩ := hr
  have hn := h.before hs
  obtain ⟨i, hi⟩ : ∃ i, s.interrupt = some i := by
    rw [h.interrupt]
    cases hr : s.registered with
    | nil => simp [hr] at hreg
    | cons i rest => exact ⟨i, rfl⟩
  set s' : State S I V E := { s with entered := true } with hs'
  set t' : Composed S I V E := { t with entered := true } with ht'
  have h' : Paired e f args s' t' :=
    { h with entered := rfl, before := fun hb => by simp [hs'] at hb }
  have hgo (call : Call (Option A) E) : Paired e f args (s'.heapTask e types (f args) w i call)
      (t'.into types.interface (e.call w call t'.e)) := paired_heapTask h' rfl hi hn
  cases call with
  | start arg =>
    have hl : s.next e types (.dispatch f) args (.enter w (.start arg)) =
        s'.heapTask e types (f args) w i (.start (types.argument arg)) := dispatch_start hi hn
    rw [hl]
    exact hgo (.start (types.argument arg))
  | stop =>
    have hl : s.next e types (.dispatch f) args (.enter w .stop) =
        s'.heapTask e types (f args) w i .stop := dispatch_stop hi hn
    rw [hl]
    exact hgo .stop
  | fail error =>
    by_cases hc : types.caught error = true
    · have hl : s.next e types (.dispatch f) args (.enter w (.fail error)) =
          s'.heapTask e types (f args) w i (.fail error) :=
        (if_pos hc).trans (dispatch_fail hi hn hc)
      have hr : t.next e types.interface (.enter w (.fail error)) =
          t'.into types.interface (e.call w (.fail error) t'.e) := if_pos hc
      rw [hl, hr]
      exact hgo (.fail error)
    · have hl : s.next e types (.dispatch f) args (.enter w (.fail error)) =
          s'.deliver [.fail error] := if_neg hc
      have hr : t.next e types.interface (.enter w (.fail error)) =
          t'.deliver [.fail error] := if_neg hc
      rw [hl, hr]
      exact paired_deliver h' [.fail error]

theorem paired_event (h : Paired e f args s t) (hr : s.Ready types (.event w : Label I A E W)) :
    Paired e f args (s.next e types (.dispatch f) args (.event w))
      (t.next e types.interface (.event w)) := by
  cases hx : s.e with
  | none =>
    have hin := (h.outside hx).1
    simpa [State.next, Composed.next, hx, hin] using h
  | some x =>
    obtain ⟨hin, rfl⟩ := h.inside x hx
    simp only [State.next, hx, Composed.next, hin, if_true]
    exact paired_into h hr _

theorem paired_next (h : Paired e f args s t) (hr : s.Ready types l) :
    Paired e f args (s.next e types (.dispatch f) args l) (t.next e types.interface l) := by
  cases l with
  | register i => exact paired_register h hr
  | enter w call => exact paired_enter h hr
  | event w => exact paired_event h hr

omit [DecidableEq T] in
theorem ready_iff {S' : Type*} {t : Composed S' I V E} (he : s.entered = t.entered)
    (hr : s.registered = t.registered) (l : Label I A E W) :
    s.Ready types l ↔ t.Ready types l := by
  cases l <;> simp only [State.Ready, Composed.Ready, he, hr]

theorem dispatch_transparent (e : Eventual S I A V E W) (types : Types T A V E) (f : Args → S)
    (args : Args) (ls : List (Label I A E W)) :
    Transparent e types (.dispatch f) args e (f args) types.interface ls := by
  have hstep : ∀ (s : State S I V E) (t : Composed S I V E) (l : Label I A E W),
      Paired e f args s t → True →
        ((machine e types (.dispatch f) args).Enabled s l ↔
          (inline e types.interface types (f args)).Enabled t l) ∧
        ((machine e types (.dispatch f) args).Enabled s l →
          Paired e f args ((machine e types (.dispatch f) args).next s l)
            ((inline e types.interface types (f args)).next t l)) :=
    fun s t l h _ => ⟨ready_iff h.entered h.same.2.1 l, fun hr => paired_next h hr⟩
  exact Machine.exec_lockstep (C := fun _ => True) hstep (fun _ _ h => h.same) paired_init
    fun _ _ => trivial

end Dispatch

section Value

variable {e : Eventual S I A V E W} {types : Types T A V E} {v : V} {args : Args}
  {s : State S I V E} {t : Composed Unit I V E} {l : Label I A E W} {w : W}

/-- A task with a value and `Just()` of the value. -/
structure PairedValue (s : State S I V E) (t : Composed Unit I V E) : Prop where
  entered : s.entered = t.entered
  same : Same s t
  empty : s.e = none

theorem pairedValue_next (h : PairedValue s t) (hl : l.dispatches types = false) :
    PairedValue (s.next e types (.value v) args l)
      (t.next (just I A V E W v) types.interface l) := by
  obtain ⟨he, ⟨hcalls, hregs, hfailed⟩, hempty⟩ := h
  cases l with
  | register i =>
    have hregs' : s.registered ++ [i] = t.registered ++ [i] := congrArg (· ++ [i]) hregs
    exact ⟨he, ⟨hcalls, hregs', hfailed⟩, hempty⟩
  | event w =>
    have hl : s.next e types (.value v) args (.event w : Label I A E W) = s := by
      simp only [State.next, hempty]
    have hr : (t.next (just I A V E W v) types.interface (.event w)).calls = t.calls := by
      cases hin : t.inside <;> simp [Composed.next, Composed.into, Composed.deliver, just, hin]
    rw [hl]
    refine ⟨he.trans ?_, ⟨hcalls.trans hr.symm, hregs.trans ?_, hfailed⟩, hempty⟩ <;>
      cases hin : t.inside <;> simp [Composed.next, Composed.into, Composed.deliver, hin]
  | enter w call =>
    cases call with
    | start arg =>
      have hstart : s.calls ++ [.start (types.to_ v)] = t.calls ++ [.start (types.to_ v)] :=
        congrArg (· ++ [.start (types.to_ v)]) hcalls
      exact ⟨rfl, ⟨hstart, hregs, hfailed⟩, hempty⟩
    | stop => simp [Label.dispatches, Types.dispatches] at hl
    | fail error =>
      have hc : ¬ types.caught error = true := by
        simpa [Label.dispatches, Types.dispatches] using hl
      have hfail : s.calls ++ [.fail error] = t.calls ++ [.fail error] :=
        congrArg (· ++ [.fail error]) hcalls
      have hl : s.next e types (.value v) args (.enter w (.fail error)) =
          { s with entered := true }.deliver [.fail error] := if_neg hc
      have hr : t.next (just I A V E W v) types.interface (.enter w (.fail error)) =
          { t with entered := true }.deliver [.fail error] := if_neg hc
      rw [hl, hr]
      exact ⟨rfl, ⟨hfail, hregs, hfailed⟩, hempty⟩

/-- What does not reach `Dispatch()`. -/
theorem value_transparent (e : Eventual S I A V E W) (types : Types T A V E) (v : V)
    (args : Args) {ls : List (Label I A E W)} (h : ∀ l ∈ ls, l.dispatches types = false) :
    Transparent e types (.value v) args (just I A V E W v) () types.interface ls := by
  have hstep : ∀ (s : State S I V E) (t : Composed Unit I V E) (l : Label I A E W),
      PairedValue s t → l.dispatches types = false →
        ((machine e types (.value v) args).Enabled s l ↔
          (inline (just I A V E W v) types.interface types ()).Enabled t l) ∧
        ((machine e types (.value v) args).Enabled s l →
          PairedValue ((machine e types (.value v) args).next s l)
            ((inline (just I A V E W v) types.interface types ()).next t l)) :=
    fun s t l h hl => ⟨ready_iff h.entered h.same.2.1 l, fun _ => pairedValue_next h hl⟩
  exact Machine.exec_lockstep hstep (fun _ _ h => h.same) ⟨rfl, ⟨rfl, rfl, rfl⟩, rfl⟩ h

end Value

/-- A task of a callable, of `Task::Failure()` or of `Task::Success()` gives the calls of what its
callable returns, of `Raise()` or of `Just()`, between the types it has been declared with. -/
theorem task_transparent (e : Eventual S I A V E W) (types : Types T A V E) (f : Args → S)
    (args : Args) (error : E) (v : V) :
    (∀ ls, Transparent e types (.dispatch f) args e (f args) types.interface ls) ∧
    (∀ ls, Transparent (failure I A V E W error) types (.dispatch fun _ => ()) args
      (raise I A V E W error) () types.interface ls) ∧
    ∀ ls, (∀ l ∈ ls, l.dispatches types = false) →
      Transparent e types (.value v) args (just I A V E W v) () types.interface ls :=
  ⟨fun ls => dispatch_transparent e types f args ls,
    fun ls => dispatch_transparent (failure I A V E W error) types (fun _ => ()) args ls,
    fun _ h => value_transparent e types v args h⟩

section Runs

/-- No conversions, and only errors below 10 are caught. -/
def types : Types Bool ℕ ℕ ℕ :=
  ⟨some id, id, [true], [true, false], fun error => error < 10, id⟩

/-- `Catch()` of every error, with the value 7. -/
def catchAll : Eventual Unit Unit ℕ ℕ ℕ Unit where
  register _ s := s
  call _ call s :=
    match call with
    | .start arg => (s, [.start (arg.getD 0)])
    | .fail _ => (s, [.start 7])
    | .stop => (s, [.stop])
  event _ s := (s, [])

theorem catchAll_transparent :
    Transparent catchAll types (.value 5) () (just Unit ℕ ℕ ℕ Unit 5) () types.interface
      [.register (), .enter () (.fail 12)] :=
  (task_transparent catchAll types (fun _ : Unit => ()) () 1 5).2.2 _ (by decide)

/-- An error that the task is not declared to catch goes past the eventual, and a task that has a
value does not take a stop. -/
theorem task_not_transparent :
    ¬ Transparent catchAll types (.dispatch fun _ : Unit => ()) () catchAll () .plain
      [.register (), .enter () (.fail 12)] ∧
    ¬ Transparent catchAll types (.value 5) () (just Unit ℕ ℕ ℕ Unit 5) () .plain
      [.register (), .enter () .stop] := by
  have hskip : (machine catchAll types (.dispatch fun _ : Unit => ()) ()).exec
      (.init Unit Unit ℕ ℕ) [.register (), .enter () (.fail 12)] =
        some ⟨some (), none, true, [()], [.fail 12], []⟩ := by decide
  have hcatch : (inline catchAll .plain types ()).exec (.init Unit ℕ ℕ ())
      [.register (), .enter () (.fail 12)] = some ⟨(), true, true, [()], [.start 7]⟩ := by decide
  have hcheck : (machine catchAll types (.value 5) ()).exec (.init Unit Unit ℕ ℕ)
      [.register (), .enter () .stop] = some ⟨some (), none, true, [()], [], [.index]⟩ := by decide
  have hstop : (inline (just Unit ℕ ℕ ℕ Unit 5) .plain types ()).exec (.init Unit ℕ ℕ ())
      [.register (), .enter () .stop] = some ⟨(), true, true, [()], [.stop]⟩ := by decide
  constructor
  · intro h
    rw [Transparent, hskip, hcatch] at h
    cases h with
    | some h => simp [Same] at h
  · intro h
    rw [Transparent, hcheck, hstop] at h
    cases h with
    | some h => simp [Same] at h

end Runs

end Eventuals.Task
