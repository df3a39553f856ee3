import Eventuals.Composed

/-! What a composition of eventuals means, and that the continuations that are built of it do what
it means, with the interrupt registered once with each of them before it is called. -/
namespace Eventuals.Composed

open Resumption
open Transition (Machine)
open TypeTraits (Hierarchy)

variable {G O R T W V A B C D Z : Type}

/-- What comes next is called in the end. -/
def calls (p : Program G O R (Signal T W B)) : Program G O R (Option (Signal T W B)) :=
  p.bind fun signal => .done (some signal)

/-- Nothing is called if nothing has been called. -/
def onCall (f : Signal T W A → Program G O R (Option (Signal T W B))) :
    Option (Signal T W A) → Program G O R (Option (Signal T W B))
  | some signal => f signal
  | none => .done none

/-- Failures and stops go on to what comes next. -/
def onStart (f : A → Program G O R (Option (Signal T W B))) :
    Signal T W A → Program G O R (Option (Signal T W B))
  | .start a => f a
  | .fail e => .done (some (.fail e))
  | .stop => .done (some .stop)

def Signal.expected (convert : T → W → T × W) : Signal T W A → Expected T W A
  | .start a => .ok a
  | .fail e => .error (.error (e.stored convert))
  | .stop => .error .stopped

theorem plays_calls {p : Program G O R (Signal T W B)} {g g' : G} {x : List (Exchange G O R)}
    {b : Signal T W B} : (calls p).Plays g x (some b) g' ↔ p.Plays g x b g' := by
  induction p generalizing g x with
  | done a => simp only [calls, Program.bind, Program.Plays, Option.some.injEq]
  | act f p ih => exact ih g
  | ask o p ih =>
    constructor
    · rintro ⟨r, g₁, x', rfl, hp⟩
      exact ⟨r, g₁, x', rfl, (ih r).mp hp⟩
    · rintro ⟨r, g₁, x', rfl, hp⟩
      exact ⟨r, g₁, x', rfl, (ih r).mpr hp⟩

/-- What comes next has been called where something comes of it. -/
theorem plays_onCall {p : Program G O R (Option (Signal T W A))}
    {f : Signal T W A → Program G O R (Option (Signal T W B))} {g g' : G}
    {x : List (Exchange G O R)} {b : Signal T W B} :
    (p.bind (onCall f)).Plays g x (some b) g' ↔
      ∃ a g₁ x₁ x₂, x = x₁ ++ x₂ ∧ p.Plays g x₁ (some a) g₁ ∧ (f a).Plays g₁ x₂ (some b) g' := by
  rw [Program.plays_bind]
  constructor
  · rintro ⟨ending, g₁, x₁, x₂, hx, hp, hf⟩
    cases ending with
    | none => simp [onCall, Program.Plays] at hf
    | some a => exact ⟨a, g₁, x₁, x₂, hx, hp, hf⟩
  · rintro ⟨a, g₁, x₁, x₂, hx, hp, hf⟩
    exact ⟨some a, g₁, x₁, x₂, hx, hp, hf⟩

/-- What is done with each value of a stream in its turn, as long as nothing fails or stops. -/
def Stream.forEach (h : V → Program G O R (Option (Signal T W Unit))) :
    Stream G O R T W V → Program G O R (Option (Signal T W Unit))
  | .act f s => .act f fun g => (s g).forEach h
  | .ask o s => .ask o fun r => (s r).forEach h
  | .body v s => (h v).bind (onCall (onStart fun _ => s.forEach h))
  | .ended => .done (some (.start ()))
  | .fail e => .done (some (.fail e))
  | .stop => .done (some .stop)

theorem same_onCall {p p' : Program G O R (Option (Signal T W A))}
    {f f' : Signal T W A → Program G O R (Option (Signal T W B))} (hp : p.Same p')
    (h : ∀ signal, (f signal).Same (f' signal)) :
    (p.bind (onCall f)).Same (p'.bind (onCall f')) := by
  refine hp.bind fun ending => ?_
  cases ending with
  | none => exact .refl _
  | some signal => exact h signal

theorem Stream.same_forEach {h h' : V → Program G O R (Option (Signal T W Unit))}
    (hh : ∀ v, (h v).Same (h' v)) (s : Stream G O R T W V) : (s.forEach h).Same (s.forEach h') := by
  induction s with
  | act f s ih => exact .act ih
  | ask o s ih => exact .ask ih
  | body v s ih =>
    refine same_onCall (hh v) fun ended => ?_
    cases ended with
    | start u => exact ih
    | fail e => exact .refl _
    | stop => exact .refl _
  | ended => exact .refl _
  | fail e => exact .refl _
  | stop => exact .refl _

/-- What a stream comes to that is done once it has given a value: the last value that it has
given, or the error of one that gives none. -/
def Stream.head (empty : Error T W) : Option V → Stream G O R T W V → Program G O R (Signal T W V)
  | arg, .act f s => .act f fun g => (s g).head empty arg
  | arg, .ask o s => .ask o fun r => (s r).head empty arg
  | _, .body v s => s.head empty (some v)
  | some v, .ended => .done (.start v)
  | none, .ended => .done (.fail empty)
  | _, .fail e => .done (.fail e)
  | _, .stop => .done .stop

/-- What an eventual does with what comes from upstream until it calls what comes next, if it does,
where there is an interrupt or there is none. -/
def Eventual.meaning [DecidableEq T] (H : Hierarchy T) (interrupt : Bool) :
    ∀ {A B : Type}, Eventual G O R T W A B → Signal T W A → Program G O R (Option (Signal T W B))
  | _, _, .eventual start fail stop => fun signal =>
    match signal with
    | .start a => calls (start interrupt a)
    | .fail e => calls ((fail.map fun f => f interrupt e).getD (.done (.fail e)))
    | .stop => calls ((stop.map fun f => f interrupt).getD (.done .stop))
  | _, _, .raise t => onStart fun _ => .done (some (.fail t.moved))
  | _, _, .thenValue f => onStart fun a =>
    .act (fun g => (f a g).1) fun g => .done (some (.start (f a g).2))
  | _, _, .then_ act f => onStart fun a =>
    .act (act a) fun g => (f a g).meaning H interrupt (.start ())
  | _, _, .conditional condition thenAct thenF els3Act els3F => onStart fun a =>
    .act (fun g => (condition a g).1) fun g =>
      if (condition a g).2 then
        .act (thenAct a) fun g => (thenF a g).meaning H interrupt (.start ())
      else .act (els3Act a) fun g => (els3F a g).meaning H interrupt (.start ())
  | _, _, .if_ condition yes no => onStart fun _ =>
    if condition then yes.meaning H interrupt (.start ()) else no.meaning H interrupt (.start ())
  | _, _, .catch_ raised hasAll handlers => fun signal =>
    match signal with
    | .fail e =>
      match (Catch.Continuation.mk raised hasAll interrupt).taken H e.deduce with
      | some (.handled i argument) => (handlers i).meaning H interrupt (.start argument)
      | some (.forwarded _) => .done (some (.fail e))
      | none => .done none
    | signal => .done (some signal)
  | _, _, .finally_ convert => fun signal => .done (some (.start (signal.expected convert)))
  | _, _, .closure act f => fun signal => .act act fun g => (f g).meaning H interrupt signal
  | _, _, .composed left right => fun signal =>
    (left.meaning H interrupt signal).bind (onCall (right.meaning H interrupt))
  | _, _, .loop stream act f => onStart fun a =>
    (stream interrupt a).forEach fun v =>
      .act (act v) fun g => (f v g).meaning H interrupt (.start ())
  | _, _, .head stream empty => onStart fun a =>
    calls ((stream interrupt a).head ⟨H.runtimeError, empty, .rvalue⟩ none)

/-- What comes next is called. -/
def called (k : Continuation G O R T W Z B) (signal : Signal T W B) (g : G) : State G O R T W Z :=
  ⟨g, .call signal k⟩

/-- What comes next is called, or the call has returned without that. -/
def reached (k : Continuation G O R T W Z B) : Option (Signal T W B) → G → State G O R T W Z
  | some signal, g => called k signal g
  | none, g => ⟨g, .returned⟩

theorem reached_injective {b b' : Option (Signal T W B)} {g g' : G}
    (h : (reached .terminal b g : State G O R T W B) = reached .terminal b' g') :
    b = b' ∧ g = g' := by
  cases b with
  | none =>
    cases b' with
    | none =>
      cases h
      exact ⟨rfl, rfl⟩
    | some signal => cases h
  | some signal =>
    cases b' with
    | none => cases h
    | some signal' =>
      cases h
      exact ⟨rfl, rfl⟩

/-- What the last continuation has been called with. -/
def ended (s : State G O R T W Z) : Option (Signal T W Z) :=
  match s.control with
  | .call signal .terminal => some signal
  | _ => none

theorem called_of_ended {s : State G O R T W Z} {b : Signal T W Z} (h : ended s = some b) :
    s = called .terminal b s.g := by
  obtain ⟨g, control⟩ := s
  cases control with
  | call signal k =>
    cases k with
    | terminal =>
      cases h
      rfl
    | _ => cases h
  | _ => cases h

theorem reached_of_returned {s : State G O R T W Z} (h : s.control = .returned) :
    s = reached .terminal none s.g := by
  obtain ⟨g, control⟩ := s
  cases h
  rfl

section Registered

theorem registered_of_registerIf {interrupt : Bool} {k k' : Continuation G O R T W Z A}
    (h : k.registerIf interrupt = some k') (signal : Signal T W A) :
    Control.registered interrupt signal k = .call signal k' := by
  simp only [Control.registered, h]

theorem registerIf_adaptor (interrupt : Bool) (k : Continuation G O R T W Z A) :
    (Continuation.adaptor k).registerIf interrupt = some (.adaptor k) := by
  cases interrupt <;> rfl

/-- A continuation that has no `interrupt_` of its own or that has not been registered yet is
registered with what comes next. -/
theorem registerIf_of_map {interrupt : Bool} {k k' : Continuation G O R T W Z B}
    (h : k.registerIf interrupt = some k')
    (f : Bool → Continuation G O R T W Z B → Continuation G O R T W Z A)
    (hf : (f false k).register = k.register.map (f true)) :
    (f false k).registerIf interrupt = some (f interrupt k') := by
  cases interrupt with
  | false =>
    simp only [Continuation.registerIf, Bool.false_eq_true, if_false, Option.some.injEq] at h ⊢
    rw [h]
  | true =>
    simp only [Continuation.registerIf, if_true] at h ⊢
    rw [hf, h, Option.map_some]

end Registered

variable [DecidableEq T] {H : Hierarchy T} {interrupt : Bool}

/-- From the call of a continuation on the machine does what is asked of it and then calls `k`, if
that is what it comes to. -/
abbrev Does (H : Hierarchy T) (p : Program G O R (Option (Signal T W B))) (g : G)
    (k : Continuation G O R T W Z B) (s : State G O R T W Z) : Prop :=
  (performer H).Performs (reached k) p g s

theorem Does.of_tick {p : Program G O R (Option (Signal T W B))} {g : G}
    {k : Continuation G O R T W Z B} {s t : State G O R T W Z} (h : tick H s = some t)
    (ht : Does H p g k t) : Does H p g k s :=
  Performer.Performs.of_ticks (Performer.Ticks.single h) ht

theorem does_call {signal : Signal T W B} {g : G} {k : Continuation G O R T W Z B}
    {s : State G O R T W Z} (h : tick H s = some (called k signal g)) :
    Does H (.done (some signal)) g k s :=
  Performer.Ticks.single (P := performer H) h

/-- An eventual that has been called does its program. -/
theorem does_run (p : Program G O R (Signal T W B)) (g : G) (k : Continuation G O R T W Z B) :
    Does H (calls p) g k ⟨g, .run p k⟩ := by
  induction p generalizing g with
  | done signal => exact does_call rfl
  | act f p ih => exact Does.of_tick rfl (ih g (f g))
  | ask o p ih => exact ⟨_, .refl, rfl, fun r g' => ih r g'⟩

/-- What comes next goes on from where it is called. -/
theorem Does.onCall {p : Program G O R (Option (Signal T W C))}
    {f : Signal T W C → Program G O R (Option (Signal T W B))} {g : G}
    {k₁ : Continuation G O R T W Z C} {k : Continuation G O R T W Z B} {s : State G O R T W Z}
    (h : Does H p g k₁ s) (hf : ∀ signal g, Does H (f signal) g k (called k₁ signal g)) :
    Does H (p.bind (onCall f)) g k s := by
  refine Performer.Performs.bind h fun ending g => ?_
  cases ending with
  | none => exact Relation.ReflTransGen.refl
  | some signal => exact hf signal g

/-- The adaptor hands every call on. -/
theorem tick_adaptor (signal : Signal T W B) (g : G) (k : Continuation G O R T W Z B) :
    tick H ⟨g, .call signal (.adaptor k)⟩ = some ⟨g, .call signal k⟩ := by
  cases signal <;> rfl

theorem Does.adaptor {p : Program G O R (Option (Signal T W B))} {g : G}
    {k : Continuation G O R T W Z B} {s : State G O R T W Z} (h : Does H p g (.adaptor k) s) :
    Does H p g k s := by
  refine Performer.Performs.map_last h fun ending g => ?_
  cases ending with
  | none => exact Relation.ReflTransGen.refl
  | some signal => exact Performer.Ticks.single (tick_adaptor signal g k)

/-- The continuation of an eventual can be registered if what comes next can, and does what the
eventual means before it calls what comes next. -/
def Builds (H : Hierarchy T) (interrupt : Bool) (e : Eventual G O R T W A B)
    (k k' : Continuation G O R T W Z B) : Prop :=
  ∃ k₀, (e.k k).registerIf interrupt = some k₀ ∧
    ∀ signal g, Does H (e.meaning H interrupt signal) g k' ⟨g, .call signal k₀⟩

theorem Builds.does {e : Eventual G O R T W A B} {k k' : Continuation G O R T W Z B}
    (h : Builds H interrupt e k k') (signal : Signal T W A) (g : G) :
    Does H (e.meaning H interrupt signal) g k' ⟨g, .registered interrupt signal (e.k k)⟩ := by
  obtain ⟨k₀, hk₀, hdoes⟩ := h
  rw [registered_of_registerIf hk₀]
  exact hdoes signal g

/-- What a callable has returned is built around the adaptor of what comes next. -/
theorem Builds.does_adapted {e : Eventual G O R T W Unit B} {k : Continuation G O R T W Z B}
    (h : Builds H interrupt e (.adaptor k) (.adaptor k)) (g : G) :
    Does H (e.meaning H interrupt (.start ())) g k
      ⟨g, .registered interrupt (.start ()) (e.k (.adaptor k))⟩ :=
  (h.does (.start ()) g).adaptor

section Cases

variable {k k' : Continuation G O R T W Z B}

/-- What is only called after a start hands failures and stops on. -/
theorem does_onStart {k₀ : Continuation G O R T W Z A}
    {f : A → Program G O R (Option (Signal T W B))}
    (hstart : ∀ a g, Does H (f a) g k' ⟨g, .call (.start a) k₀⟩)
    (hfail : ∀ e g, k₀.fail H e g = some ⟨g, .call (.fail e) k'⟩)
    (hstop : ∀ g, k₀.stop g = some ⟨g, .call .stop k'⟩) (signal : Signal T W A) (g : G) :
    Does H (onStart f signal) g k' ⟨g, .call signal k₀⟩ := by
  cases signal with
  | start a => exact hstart a g
  | fail e => exact does_call (hfail e g)
  | stop => exact does_call (hstop g)

theorem builds_eventual (start : Bool → A → Program G O R (Signal T W B))
    (fail : Option (Bool → Error T W → Program G O R (Signal T W B)))
    (stop : Option (Bool → Program G O R (Signal T W B)))
    (hk : k.registerIf interrupt = some k') :
    Builds H interrupt (.eventual start fail stop) k k' := by
  refine ⟨_, registerIf_of_map hk (.eventual start fail stop) rfl, fun signal g => ?_⟩
  cases signal with
  | start a => exact Does.of_tick rfl (does_run _ g k')
  | fail e =>
    cases fail with
    | none => exact does_call rfl
    | some f => exact Does.of_tick rfl (does_run _ g k')
  | stop =>
    cases stop with
    | none => exact does_call rfl
    | some f => exact Does.of_tick rfl (does_run _ g k')

theorem builds_raise (t : Error T W) (hk : k.registerIf interrupt = some k') :
    Builds H interrupt (.raise t) k k' := by
  refine ⟨_, registerIf_of_map hk (fun _ => .raise t) rfl, does_onStart ?_ ?_ ?_⟩
  · intro a g
    exact does_call rfl
  · intro e g
    rfl
  · intro g
    rfl

theorem builds_thenValue (f : A → G → G × B) (hk : k.registerIf interrupt = some k') :
    Builds H interrupt (.thenValue f) k k' := by
  refine ⟨_, registerIf_of_map hk (fun _ => .thenValue f) rfl, does_onStart ?_ ?_ ?_⟩
  · intro a g
    exact does_call rfl
  · intro e g
    rfl
  · intro g
    rfl

theorem builds_then (act : A → G → G) (f : A → G → Eventual G O R T W Unit B)
    (hf : ∀ a g, Builds H interrupt (f a g) (.adaptor k') (.adaptor k'))
    (hk : k.registerIf interrupt = some k') : Builds H interrupt (.then_ act f) k k' := by
  refine ⟨_, registerIf_of_map hk (.then_ act f) rfl, does_onStart ?_ ?_ ?_⟩
  · intro a g
    exact Does.of_tick rfl ((hf a g).does_adapted (act a g))
  · intro e g
    rfl
  · intro g
    rfl

theorem builds_conditional (condition : A → G → G × Bool) (thenAct : A → G → G)
    (thenF : A → G → Eventual G O R T W Unit B) (els3Act : A → G → G)
    (els3F : A → G → Eventual G O R T W Unit B)
    (hthen : ∀ a g, Builds H interrupt (thenF a g) (.adaptor k') (.adaptor k'))
    (hels3 : ∀ a g, Builds H interrupt (els3F a g) (.adaptor k') (.adaptor k'))
    (hk : k.registerIf interrupt = some k') :
    Builds H interrupt (.conditional condition thenAct thenF els3Act els3F) k k' := by
  refine ⟨_, registerIf_of_map hk (.conditional condition thenAct thenF els3Act els3F) rfl,
    does_onStart ?_ ?_ ?_⟩
  · intro a g
    cases hc : (condition a g).2 with
    | true =>
      have hstart : tick H ⟨g, .call (.start a)
          (.conditional condition thenAct thenF els3Act els3F interrupt k')⟩ =
          some ⟨thenAct a (condition a g).1, .registered interrupt (.start ())
            ((thenF a (condition a g).1).k (.adaptor k'))⟩ := by
        simp only [tick, Continuation.start, hc, if_true]
      refine Does.of_tick hstart ?_
      simp only [Does, Performer.Performs, hc, if_true]
      exact (hthen a _).does_adapted _
    | false =>
      have hstart : tick H ⟨g, .call (.start a)
          (.conditional condition thenAct thenF els3Act els3F interrupt k')⟩ =
          some ⟨els3Act a (condition a g).1, .registered interrupt (.start ())
            ((els3F a (condition a g).1).k (.adaptor k'))⟩ := by
        simp only [tick, Continuation.start, hc, Bool.false_eq_true, if_false]
      refine Does.of_tick hstart ?_
      simp only [Does, Performer.Performs, hc, Bool.false_eq_true, if_false]
      exact (hels3 a _).does_adapted _
  · intro e g
    rfl
  · intro g
    rfl

theorem builds_if (condition : Bool) (yes no : Eventual G O R T W Unit B)
    (hyes : Builds H interrupt yes (.adaptor k') (.adaptor k'))
    (hno : Builds H interrupt no (.adaptor k') (.adaptor k'))
    (hk : k.registerIf interrupt = some k') :
    Builds H interrupt (.if_ condition yes no : Eventual G O R T W A B) k k' := by
  refine ⟨_, registerIf_of_map hk (.if_ condition yes no) rfl, does_onStart ?_ ?_ ?_⟩
  · intro a g
    cases condition with
    | true => exact Does.of_tick rfl (hyes.does_adapted g)
    | false => exact Does.of_tick rfl (hno.does_adapted g)
  · intro e g
    rfl
  · intro g
    rfl

section Fail

variable {raised : List T} {hasAll : Bool}
  {handlers : ℕ → Eventual G O R T W (Catch.Argument T W) B} {k : Continuation G O R T W Z B}
  {e : Error T W}

/-- A handler is started with what comes next, which it takes over. -/
theorem fail_of_handled {i : ℕ} {argument : Catch.Argument T W}
    (h : (Catch.Continuation.mk raised hasAll interrupt).taken H e.deduce =
      some (.handled i argument)) (g : G) :
    tick H ⟨g, .call (.fail e) (.catch_ raised hasAll handlers interrupt k)⟩ =
      some ⟨g, .registered interrupt (.start argument) ((handlers i).k k)⟩ := by
  have hcalls := Catch.fail_eq_taken (H := H) ⟨raised, hasAll, interrupt⟩ e.deduce
  rw [h] at hcalls
  cases interrupt <;>
    simp [tick, Continuation.fail, hcalls, Catch.Outcome.calls, Catch.handle, Control.registered,
      Continuation.registerIf]

theorem fail_of_forwarded {e' : Catch.Deduced T W}
    (h : (Catch.Continuation.mk raised hasAll interrupt).taken H e.deduce =
      some (.forwarded e')) (g : G) :
    tick H ⟨g, .call (.fail e) (.catch_ raised hasAll handlers interrupt k)⟩ =
      some ⟨g, .registered interrupt (.fail e) k⟩ := by
  have hcalls := Catch.fail_eq_taken (H := H) ⟨raised, hasAll, interrupt⟩ e.deduce
  rw [h] at hcalls
  cases interrupt <;>
    simp [tick, Continuation.fail, hcalls, Catch.Outcome.calls, Control.registered,
      Continuation.registerIf]

/-- Nothing is called with an error that is dropped. -/
theorem fail_of_dropped
    (h : (Catch.Continuation.mk raised hasAll interrupt).taken H e.deduce = none) (g : G) :
    tick H ⟨g, .call (.fail e) (.catch_ raised hasAll handlers interrupt k)⟩ =
      some ⟨g, .returned⟩ := by
  have hcalls := Catch.fail_eq_taken (H := H) ⟨raised, hasAll, interrupt⟩ e.deduce
  rw [h] at hcalls
  simp [tick, Continuation.fail, hcalls]

end Fail

theorem builds_catch (raised : List T) (hasAll : Bool)
    (handlers : ℕ → Eventual G O R T W (Catch.Argument T W) B)
    (hh : ∀ i, Builds H interrupt (handlers i) k k') (hk : k.registerIf interrupt = some k') :
    Builds H interrupt (.catch_ raised hasAll handlers) k k' := by
  have hcatch : (Continuation.catch_ raised hasAll handlers false k).registerIf interrupt =
      some (.catch_ raised hasAll handlers interrupt k) := by
    cases interrupt <;> rfl
  refine ⟨_, hcatch, fun signal g => ?_⟩
  cases signal with
  | start a =>
    have hstart : tick H ⟨g, .call (.start a) (.catch_ raised hasAll handlers interrupt k)⟩ =
        some (called k' (.start a) g) := by
      simp only [tick, Continuation.start, registered_of_registerIf hk, called]
    simp only [Eventual.meaning]
    exact does_call hstart
  | stop =>
    have hstop : tick H ⟨g, .call .stop (.catch_ raised hasAll handlers interrupt k)⟩ =
        some (called k' .stop g) := by
      simp only [tick, Continuation.stop, registered_of_registerIf hk, called]
    simp only [Eventual.meaning]
    exact does_call hstop
  | fail e =>
    simp only [Eventual.meaning]
    cases ho : (Catch.Continuation.mk raised hasAll interrupt).taken H e.deduce with
    | none => exact Does.of_tick (fail_of_dropped ho g) Relation.ReflTransGen.refl
    | some outcome =>
      cases outcome with
      | handled i argument =>
        exact Does.of_tick (fail_of_handled ho g) ((hh i).does (.start argument) g)
      | forwarded e' =>
        have hfail : tick H ⟨g, .call (.fail e) (.catch_ raised hasAll handlers interrupt k)⟩ =
            some (called k' (.fail e) g) := by
          rw [fail_of_forwarded ho, registered_of_registerIf hk, called]
        exact does_call hfail

theorem builds_finally (convert : T → W → T × W) {k : Continuation G O R T W Z (Expected T W A)}
    {k' : Continuation G O R T W Z (Expected T W A)} (hk : k.registerIf interrupt = some k') :
    Builds H interrupt (.finally_ convert) k k' := by
  refine ⟨_, registerIf_of_map hk (fun _ => .finally_ convert) rfl, fun signal g => ?_⟩
  cases signal <;> exact does_call rfl

theorem builds_closure (act : G → G) (f : G → Eventual G O R T W A B)
    (hf : ∀ g, Builds H interrupt (f g) k k') : Builds H interrupt (.closure act f) k k' := by
  have hclosure : (Continuation.closure act f false k).registerIf interrupt =
      some (.closure act f interrupt k) := by
    cases interrupt <;> rfl
  refine ⟨_, hclosure, fun signal g => ?_⟩
  cases signal with
  | start a => exact Does.of_tick rfl ((hf g).does (.start a) (act g))
  | fail e => exact Does.of_tick rfl ((hf g).does (.fail e) (act g))
  | stop => exact Does.of_tick rfl ((hf g).does .stop (act g))

/-- What `Map()` and `Loop()` do with what is left of a stream. -/
theorem does_next (act : V → G → G) (f : V → G → Eventual G O R T W Unit Unit)
    (hf : ∀ v g (k : Continuation G O R T W Z Unit), Builds H interrupt (f v g) (.adaptor k)
      (.adaptor k)) (s : Stream G O R T W V) (g : G) (k : Continuation G O R T W Z Unit) :
    Does H (s.forEach fun v => .act (act v) fun g => (f v g).meaning H interrupt (.start ())) g k
      ⟨g, .next s act f interrupt k⟩ := by
  induction s generalizing g with
  | act h s ih => exact Does.of_tick rfl (ih g (h g))
  | ask o s ih => exact ⟨_, .refl, rfl, fun r g' => ih r g'⟩
  | body v s ih =>
    refine Does.of_tick rfl (Does.onCall ((hf v g (.mapAdaptor s act f interrupt k)).does_adapted
      (act v g)) fun ended g => ?_)
    cases ended with
    | start u => exact Does.of_tick rfl (ih g)
    | fail e => exact does_call rfl
    | stop => exact does_call rfl
  | ended => exact does_call rfl
  | fail e => exact does_call rfl
  | stop => exact does_call rfl

theorem builds_loop {k k' : Continuation G O R T W Z Unit}
    (stream : Bool → A → Stream G O R T W V) (act : V → G → G)
    (f : V → G → Eventual G O R T W Unit Unit)
    (hf : ∀ v g (k : Continuation G O R T W Z Unit), Builds H interrupt (f v g) (.adaptor k)
      (.adaptor k)) (hk : k.registerIf interrupt = some k') :
    Builds H interrupt (.loop stream act f) k k' := by
  refine ⟨_, registerIf_of_map hk (.loop stream act f) rfl, does_onStart ?_ ?_ ?_⟩
  · intro a g
    exact Does.of_tick rfl (does_next act f hf (stream interrupt a) g k')
  · intro e g
    rfl
  · intro g
    rfl

/-- What `Head()` does with what is left of a stream. -/
theorem does_first (s : Stream G O R T W V) (arg : Option V) (empty : W) (g : G)
    (k : Continuation G O R T W Z V) :
    Does H (calls (s.head ⟨H.runtimeError, empty, .rvalue⟩ arg)) g k ⟨g, .first s arg empty k⟩ := by
  induction s generalizing arg g with
  | act h s ih => exact Does.of_tick rfl (ih g arg (h g))
  | ask o s ih => exact ⟨_, .refl, rfl, fun r g' => ih r arg g'⟩
  | body v s ih => exact Does.of_tick rfl (ih (some v) g)
  | ended => cases arg <;> exact does_call rfl
  | fail e => exact does_call rfl
  | stop => exact does_call rfl

theorem builds_head (stream : Bool → A → Stream G O R T W B) (empty : W)
    (hk : k.registerIf interrupt = some k') : Builds H interrupt (.head stream empty) k k' := by
  refine ⟨_, registerIf_of_map hk (.head stream empty) rfl, does_onStart ?_ ?_ ?_⟩
  · intro a g
    exact Does.of_tick rfl (does_first (stream interrupt a) none empty g k')
  · intro e g
    rfl
  · intro g
    rfl

theorem builds_composed {left : Eventual G O R T W A C} {right : Eventual G O R T W C B}
    (hright : Builds H interrupt right k k')
    (hleft : ∀ k₁ k₁' : Continuation G O R T W Z C, k₁.registerIf interrupt = some k₁' →
      Builds H interrupt left k₁ k₁') :
    Builds H interrupt (.composed left right) k k' := by
  obtain ⟨k₁, hk₁, hdoes₁⟩ := hright
  obtain ⟨k₀, hk₀, hdoes₀⟩ := hleft _ _ hk₁
  refine ⟨k₀, hk₀, fun signal g => ?_⟩
  exact Does.onCall (hdoes₀ signal g) fun signal g => hdoes₁ signal g

end Cases

/-- Every eventual is built around what comes next so that it does what it means; the induction is
on the eventual, with what its callables return. -/
theorem builds (e : Eventual G O R T W A B) (k k' : Continuation G O R T W Z B)
    (hk : k.registerIf interrupt = some k') : Builds H interrupt e k k' := by
  induction e with
  | eventual start fail stop => exact builds_eventual start fail stop hk
  | raise t => exact builds_raise t hk
  | thenValue f => exact builds_thenValue f hk
  | then_ act f ih =>
    exact builds_then act f (fun a g => ih a g _ _ (registerIf_adaptor interrupt k')) hk
  | conditional condition thenAct thenF els3Act els3F ihthen ihels3 =>
    exact builds_conditional condition thenAct thenF els3Act els3F
      (fun a g => ihthen a g _ _ (registerIf_adaptor interrupt k'))
      (fun a g => ihels3 a g _ _ (registerIf_adaptor interrupt k')) hk
  | if_ condition yes no ihyes ihno =>
    exact builds_if condition yes no (ihyes _ _ (registerIf_adaptor interrupt k'))
      (ihno _ _ (registerIf_adaptor interrupt k')) hk
  | catch_ raised hasAll handlers ih =>
    exact builds_catch raised hasAll handlers (fun i => ih i _ _ hk) hk
  | finally_ convert => exact builds_finally convert hk
  | closure act f ih => exact builds_closure act f fun g => ih g _ _ hk
  | composed left right ihleft ihright =>
    exact builds_composed (ihright _ _ hk) fun k₁ k₁' hk₁ => ihleft k₁ k₁' hk₁
  | loop stream act f ih =>
    exact builds_loop stream act f (fun v g k => ih v g _ _ (registerIf_adaptor interrupt k)) hk
  | head stream empty => exact builds_head stream empty hk

/-- The first call of what is built of an eventual, after the interrupt if there is one. -/
def begin (interrupt : Bool) (e : Eventual G O R T W A B) (signal : Signal T W A) (g : G) :
    State G O R T W B :=
  ⟨g, .registered interrupt signal (e.k .terminal)⟩

/-- Until its last continuation is called with `b` a run has these exchanges with the world. -/
def Runs (H : Hierarchy T) (interrupt : Bool) (e : Eventual G O R T W A B) (signal : Signal T W A)
    (g : G) (x : List (Exchange G O R)) (b : Signal T W B) (g' : G) : Prop :=
  ∃ xs, ((performer H).machine (begin interrupt e signal g)).Run (begin interrupt e signal g) xs
    (called .terminal b g') ∧ exchanges xs = x

/-- Until a call has returned without another one a run has these exchanges with the world. -/
def Drops (H : Hierarchy T) (interrupt : Bool) (e : Eventual G O R T W A B) (signal : Signal T W A)
    (g : G) (x : List (Exchange G O R)) (g' : G) : Prop :=
  ∃ xs, ((performer H).machine (begin interrupt e signal g)).Run (begin interrupt e signal g) xs
    ⟨g', .returned⟩ ∧ exchanges xs = x

section Running

variable {e : Eventual G O R T W A B} {signal : Signal T W A} {g g' : G}
  {x : List (Exchange G O R)} {b : Signal T W B}

theorem final_reached (b : Option (Signal T W B)) (g : G) :
    (performer (G := G) (O := O) (R := R) H).Final (reached .terminal b g) := by
  rcases b with _ | (a | e | _) <;> exact ⟨rfl, rfl⟩

theorem does_begin (e : Eventual G O R T W A B) (signal : Signal T W A) (g : G) :
    Does H (e.meaning H interrupt signal) g .terminal (begin interrupt e signal g) := by
  apply (builds e .terminal .terminal _).does signal g
  cases interrupt <;> rfl

theorem runs_iff_plays :
    Runs H interrupt e signal g x b g' ↔ (e.meaning H interrupt signal).Plays g x (some b) g' :=
  Performer.Performs.run_iff (a := some b) final_reached reached_injective (does_begin e signal g)

theorem drops_iff_plays :
    Drops H interrupt e signal g x g' ↔ (e.meaning H interrupt signal).Plays g x none g' :=
  Performer.Performs.run_iff (a := none) final_reached reached_injective (does_begin e signal g)

/-- Whatever is left to do ends or gets to where the world is asked. -/
theorem Does.settles {p : Program G O R (Option (Signal T W B))} {k : Continuation G O R T W Z B}
    {s : State G O R T W Z} (h : Does H p g k s) :
    ∃ t, (performer H).Ticks s t ∧ ((∃ b g, t = reached k b g) ∨ (waiting t).isSome) := by
  induction p generalizing g with
  | done b => exact ⟨_, h, .inl ⟨b, g, rfl⟩⟩
  | act f p ih => exact ih g h
  | ask o p ih =>
    obtain ⟨t, ht, hwait, -⟩ := h
    exact ⟨t, ht, .inr (Option.isSome_iff_exists.mpr ⟨_, hwait⟩)⟩

/-- No step leads out of where an assertion has failed. -/
theorem not_does_abort {p : Program G O R (Option (Signal T W B))} {k : Continuation G O R T W Z B}
    {s : State G O R T W Z} (hs : s.control = .abort) : ¬ Does H p g k s := by
  intro h
  obtain ⟨t, ht, hcases⟩ := h.settles
  have htick : (performer H).tick s = none := by simp only [performer, tick, hs]
  obtain rfl := Performer.Ticks.eq_of_final htick ht
  rcases hcases with ⟨b, g, rfl⟩ | hsome
  · cases b <;> cases hs
  · simp only [waiting, hs] at hsome
    cases hsome

end Running

/-- What `Finally(f)` means: whatever comes starts what `f` returns for it. -/
theorem meaning_finally (convert : T → W → T × W)
    (f : Expected T W A → G → Eventual G O R T W Unit B)
    (signal : Signal T W A) :
    (Finally convert f).meaning H interrupt signal =
      .act (fun g => g) fun g => (f (signal.expected convert) g).meaning H interrupt (.start ()) :=
  rfl

end Eventuals.Composed
