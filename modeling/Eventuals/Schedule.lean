import Mathlib.Logic.Function.Basic
import Eventuals.Library.Transition

/-! `Schedule(e)` on a CPU of a thread pool or on an event loop: where `e` runs, and where the
continuation after it resumes (`static-thread-pool.h`, `event-loop.h`, `scheduler.h`). -/
namespace Eventuals.Schedule

open Transition (Machine)

/-- The scheduler of a context, with the CPU its requirements are pinned to. -/
inductive Scheduler (P C L : Type*)
  | default
  | pool (pool : P) (cpu : C)
  | loop (loop : L)
  deriving DecidableEq

structure Context (P C L : Type*) where
  name : ℕ
  scheduler : Scheduler P C L
  deriving DecidableEq

inductive Thread (P C : Type*)
  /-- The thread of a pool for one of its CPUs. -/
  | worker (pool : P) (cpu : C)
  | other (id : ℕ)
  deriving DecidableEq

/-- What the code that runs on a thread may look at: the context that is current there, and the
event loop that each thread runs at the time. -/
structure Moment (P C L : Type*) where
  thread : Thread P C
  context : Context P C L
  running : Thread P C → Option L

/-- The calls of a continuation, with its value or its error. -/
inductive Call (V E : Type*)
  | start (value : V)
  | fail (error : E)
  | stop
  deriving DecidableEq

/-- What `Schedule()` has been given. -/
inductive Target (P C L : Type*)
  | pool (pool : P) (pinned : Option C)
  | loop (loop : L)
  deriving DecidableEq

/-- The stages of `Schedule()`; a call that has been submitted waits for its scheduler. -/
inductive Stage (V E : Type*)
  | idle
  | submitted (call : Call V E)
  /-- Inside `e`. -/
  | running
  /-- `Reschedule()` has submitted the call of the continuation. -/
  | rescheduled (call : Call V E)
  | finished
  deriving DecidableEq

variable {P C L V E : Type*}

section Schedulers

/-- `StaticThreadPool::member` and `StaticThreadPool::cpu`. -/
def Thread.cpu : Thread P C → Option C
  | .worker _ cpu => some cpu
  | .other _ => none

/-- `EventLoop::InEventLoop()` reads a variable of the thread that all loops share. -/
def Moment.inEventLoop (m : Moment P C L) : Bool :=
  (m.running m.thread).isSome

def Moment.switch (m : Moment P C L) (context : Context P C L) : Moment P C L :=
  { m with context := context }

variable [DecidableEq P] [DecidableEq C] [DecidableEq L]

/-- The `Continuable()` of each scheduler. -/
def continuable (context : Context P C L) (m : Moment P C L) : Bool :=
  match context.scheduler with
  | .default => m.context.scheduler = .default
  | .pool _ cpu => m.thread.cpu = some cpu
  | .loop _ => m.inEventLoop

/-- The default scheduler runs what is submitted at once. -/
def submitsAtOnce (context : Context P C L) : Bool :=
  context.scheduler = .default

/-- A thread on which the scheduler runs what has been submitted to it. -/
def Scheduler.Owns (m : Moment P C L) : Scheduler P C L → Prop
  | .default => True
  | .pool p cpu => m.thread = .worker p cpu
  | .loop l => m.running m.thread = some l

/-- Where a callback that has been submitted in a context comes to run. -/
def Serves (context : Context P C L) (m : Moment P C L) : Prop :=
  m.context = context ∧ context.scheduler.Owns m

def ServesSome (m : Moment P C L) : Option (Context P C L) → Prop
  | some context => Serves context m
  | none => False

instance (m : Moment P C L) : (s : Scheduler P C L) → Decidable (s.Owns m)
  | .default => .isTrue trivial
  | .pool p cpu => inferInstanceAs (Decidable (m.thread = .worker p cpu))
  | .loop l => inferInstanceAs (Decidable (m.running m.thread = some l))

instance (context : Context P C L) (m : Moment P C L) : Decidable (Serves context m) :=
  inferInstanceAs (Decidable (m.context = context ∧ context.scheduler.Owns m))

instance (m : Moment P C L) : (c : Option (Context P C L)) → Decidable (ServesSome m c)
  | some context => inferInstanceAs (Decidable (Serves context m))
  | none => .isFalse id

end Schedulers

def Stage.isSubmitted : Stage V E → Bool
  | .submitted _ => true
  | _ => false

def Stage.isRescheduled : Stage V E → Bool
  | .rescheduled _ => true
  | _ => false

structure State (P C L V E : Type*) where
  stage : Stage V E
  /-- `context_` -/
  context : Option (Context P C L)
  /-- The context of the `Reschedule()` in `adapted_`. -/
  previous : Option (Context P C L)
  /-- What follows is history: the calls of `Schedule()`, of `e` and of the continuation. -/
  entered : Option (Call V E × Moment P C L)
  started : Option (Call V E × Moment P C L)
  completed : Option (Call V E × Moment P C L)
  continued : Option (Call V E × Moment P C L)

inductive Label (P C L V E : Type*)
  /-- `random` is the CPU that `RandomCPU()` picks if none is pinned. -/
  | enter (call : Call V E) (random : C) (m : Moment P C L)
  /-- The scheduler of the target runs the callback. -/
  | serve (m : Moment P C L)
  /-- `e` calls its continuation. -/
  | complete (call : Call V E) (m : Moment P C L)
  /-- The scheduler of the previous context runs the callback. -/
  | resume (m : Moment P C L)

variable [DecidableEq P] [DecidableEq C] [DecidableEq L]

def Target.scheduler (random : C) : Target P C L → Scheduler P C L
  | .pool p pinned => .pool p (pinned.getD random)
  | .loop l => .loop l

/-- The test for the fast path. -/
def onTarget (m : Moment P C L) : Scheduler P C L → Bool
  | .pool _ cpu => m.thread.cpu = some cpu
  | .loop _ => m.inEventLoop
  | .default => false

namespace State

variable (s : State P C L V E)

def adapt (m : Moment P C L) : State P C L V E :=
  if s.previous.isNone then { s with previous := some m.context } else s

/-- `e` is called, after `Adapt()`. -/
def run (call : Call V E) (m : Moment P C L) : State P C L V E :=
  { s with stage := .running, started := some (call, m) }

def enter (context : Context P C L) (call : Call V E) (m : Moment P C L) : State P C L V E :=
  let s := { s with context := some context, entered := some (call, m) }
  if onTarget m context.scheduler then (s.adapt m).run call (m.switch context)
  else { s with stage := .submitted call }

def resume (call : Call V E) (m : Moment P C L) : State P C L V E :=
  { s with stage := .finished, continued := some (call, m) }

/-- `Context::Continue()` of the previous context. -/
def complete (call : Call V E) (m : Moment P C L) : State P C L V E :=
  let s := { s with completed := some (call, m) }
  match s.previous with
  | none => s
  | some previous =>
    if continuable previous m || submitsAtOnce previous then s.resume call (m.switch previous)
    else { s with stage := .rescheduled call }

end State

/-- `own` is the name of `context_`, which nobody else uses. -/
def Ready (own : ℕ) (s : State P C L V E) : Label P C L V E → Prop
  | .enter _ _ m => s.stage = .idle ∧ m.context.name ≠ own
  | .serve m => s.stage.isSubmitted = true ∧ ServesSome m s.context
  | .complete .. => s.stage = .running
  | .resume m => s.stage.isRescheduled = true ∧ ServesSome m s.previous

def next (target : Target P C L) (own : ℕ) (s : State P C L V E) :
    Label P C L V E → State P C L V E
  | .enter call random m => s.enter ⟨own, target.scheduler random⟩ call m
  | .serve m =>
    match s.stage with
    | .submitted call => (s.adapt m).run call m
    | _ => s
  | .complete call m => s.complete call m
  | .resume m =>
    match s.stage with
    | .rescheduled call => s.resume call m
    | _ => s

def State.init (P C L V E : Type*) : State P C L V E :=
  ⟨.idle, none, none, none, none, none, none⟩

def machine (target : Target P C L) (own : ℕ) : Machine (State P C L V E) (Label P C L V E) where
  Initial s := s = .init P C L V E
  Enabled := Ready own
  next := next target own

instance [DecidableEq V] [DecidableEq E] (target : Target P C L) (own : ℕ)
    (s : State P C L V E) : (l : Label P C L V E) → Decidable ((machine target own).Enabled s l)
  | .enter _ _ m => inferInstanceAs (Decidable (s.stage = .idle ∧ m.context.name ≠ own))
  | .serve m => inferInstanceAs (Decidable (s.stage.isSubmitted = true ∧ ServesSome m s.context))
  | .complete .. => inferInstanceAs (Decidable (s.stage = .running))
  | .resume m =>
    inferInstanceAs (Decidable (s.stage.isRescheduled = true ∧ ServesSome m s.previous))

/-- `Schedule()` was called on the CPU or the loop that it schedules for. -/
def CalledOnTarget (s : State P C L V E) : Prop :=
  ∃ call m context, s.entered = some (call, m) ∧ s.context = some context ∧
    context.scheduler.Owns m

/-- `e` is called as `Schedule()` was, on the target, and the continuation as `e` ends, in the
context that called `Schedule()`. -/
def Transparent (s : State P C L V E) : Prop :=
  ∃ call m context m₁ result m₂ m₃, s.entered = some (call, m) ∧ s.context = some context ∧
    s.started = some (call, m₁) ∧ context.scheduler.Owns m₁ ∧
    s.completed = some (result, m₂) ∧ s.continued = some (result, m₃) ∧ m₃.context = m.context

/-- The continuation runs on a thread of the scheduler of its context. -/
def Belongs (s : State P C L V E) : Prop :=
  ∃ call m, s.continued = some (call, m) ∧ m.context.scheduler.Owns m

/-- `e` ends on a thread that its continuation takes for one of the previous context. -/
def Mistaken (s : State P C L V E) : Prop :=
  ∃ result m previous, s.completed = some (result, m) ∧ s.previous = some previous ∧
    continuable previous m = true ∧ ¬ previous.scheduler.Owns m

section Invariant

variable {own : ℕ} {target : Target P C L} {s : State P C L V E} {l : Label P C L V E}
  {m m₁ m₂ : Moment P C L} {context previous : Context P C L} {call : Call V E}

omit [DecidableEq P] [DecidableEq C] [DecidableEq L] in
theorem owns_switch {scheduler : Scheduler P C L} :
    scheduler.Owns (m.switch context) ↔ scheduler.Owns m := by
  cases scheduler <;> rfl

omit [DecidableEq P] [DecidableEq L] in
/-- The fast path is taken on the target. -/
theorem onTarget_of_owns {scheduler : Scheduler P C L} (hd : scheduler ≠ .default)
    (h : scheduler.Owns m) : onTarget m scheduler = true := by
  cases scheduler with
  | default => exact absurd rfl hd
  | pool p cpu =>
    have ht : m.thread = .worker p cpu := h
    simp [onTarget, ht, Thread.cpu]
  | loop l =>
    have hr : m.running m.thread = some l := h
    simp [onTarget, Moment.inEventLoop, hr]

/-- `Schedule()` has been called in a context that is not its own. -/
structure Entered (own : ℕ) (s : State P C L V E) (call : Call V E) (m : Moment P C L)
    (context : Context P C L) : Prop where
  entered : s.entered = some (call, m)
  stored : s.context = some context
  named : context.name = own
  caller : m.context.name ≠ own
  scheduler : context.scheduler ≠ .default

/-- The previous context is the caller's on the fast path, and its own one on the slow path. -/
structure Started (own : ℕ) (s : State P C L V E) (m m₁ : Moment P C L)
    (context previous : Context P C L) : Prop where
  started : ∃ call, Entered own s call m context ∧ s.started = some (call, m₁)
  saved : s.previous = some previous
  path : onTarget m context.scheduler = true ∧ m₁ = m.switch context ∧ previous = m.context ∨
    onTarget m context.scheduler = false ∧ context.scheduler.Owns m₁ ∧ previous = context

/-- Where the continuation has been called once `e` has ended at `m₂`. -/
structure Continued (s : State P C L V E) (m₂ m₃ : Moment P C L) (previous : Context P C L) :
    Prop where
  completed : ∃ result, s.completed = some (result, m₂) ∧ s.continued = some (result, m₃)
  restored : m₃.context = previous
  path : continuable previous m₂ = true ∧ m₃ = m₂.switch previous ∨
    continuable previous m₂ = false ∧ previous.scheduler.Owns m₃

/-- What each stage knows of those before. -/
def Inv (own : ℕ) (s : State P C L V E) : Prop :=
  match s.stage with
  | .idle => s = .init P C L V E
  | .submitted call => s.previous = none ∧ ∃ m context, Entered own s call m context ∧
      onTarget m context.scheduler = false
  | .running => ∃ m m₁ context previous, Started own s m m₁ context previous
  | .rescheduled call => ∃ m m₁ context previous, Started own s m m₁ context previous ∧
      ∃ m₂, s.completed = some (call, m₂) ∧ continuable previous m₂ = false
  | .finished => ∃ m m₁ context previous, Started own s m m₁ context previous ∧
      ∃ m₂ m₃, Continued s m₂ m₃ previous

omit [DecidableEq P] [DecidableEq C] [DecidableEq L] in
theorem scheduler_ne_default (target : Target P C L) (random : C) :
    target.scheduler random ≠ .default := by
  cases target <;> simp [Target.scheduler]

theorem inv_enter {random : C} (h : Inv own s) (hs : s.stage = .idle)
    (hm : m.context.name ≠ own) :
    Inv own (s.enter ⟨own, target.scheduler random⟩ call m) := by
  simp only [Inv, hs] at h
  subst h
  have hsched := scheduler_ne_default target random
  unfold State.enter
  by_cases ht : onTarget m (target.scheduler random) = true
  · rw [if_pos ht]
    refine ⟨m, m.switch ⟨own, target.scheduler random⟩, _, m.context,
      ⟨call, ⟨rfl, rfl, rfl, hm, hsched⟩, rfl⟩, rfl, .inl ⟨ht, rfl, rfl⟩⟩
  · rw [if_neg ht]
    exact ⟨rfl, m, _, ⟨rfl, rfl, rfl, hm, hsched⟩, by simpa using ht⟩

theorem inv_serve (h : Inv own s) (hs : s.stage = .submitted call)
    (hm : ∀ context, s.context = some context → Serves context m) :
    Inv own ((s.adapt m).run call m) := by
  simp only [Inv, hs] at h
  obtain ⟨hp, m₀, context, hent, ht⟩ := h
  obtain ⟨hctx, howns⟩ := hm context hent.stored
  have hadapt : s.adapt m = { s with previous := some m.context } := by simp [State.adapt, hp]
  rw [hadapt]
  exact ⟨m₀, m, context, m.context, ⟨call, { hent with }, rfl⟩, rfl, .inr ⟨ht, howns, hctx⟩⟩

omit [DecidableEq P] [DecidableEq L] in
theorem Started.of_eq {t : State P C L V E} (h : Started own s m m₁ context previous)
    (he : t.entered = s.entered) (hc : t.context = s.context) (hs : t.started = s.started)
    (hp : t.previous = s.previous) : Started own t m m₁ context previous := by
  obtain ⟨⟨call, hent, hst⟩, hprev, hpath⟩ := h
  exact ⟨⟨call, { hent with entered := he.trans hent.entered, stored := hc.trans hent.stored },
    hs.trans hst⟩, hp.trans hprev, hpath⟩

theorem inv_complete (h : Inv own s) (hs : s.stage = .running) :
    Inv own (s.complete call m) := by
  simp only [Inv, hs] at h
  obtain ⟨m₀, m₁, context, previous, hst⟩ := h
  have hp := hst.saved
  simp only [State.complete, hp]
  cases hc : continuable previous m with
  | true =>
    rw [if_pos (by simp)]
    exact ⟨m₀, m₁, context, previous, hst.of_eq rfl rfl rfl hp.symm, m, m.switch previous,
      ⟨call, rfl, rfl⟩, rfl, .inl ⟨hc, rfl⟩⟩
  | false =>
    cases hd : submitsAtOnce previous with
    | true =>
      have hdefault : previous.scheduler = .default := by simpa [submitsAtOnce] using hd
      have howns : previous.scheduler.Owns (m.switch previous) := by
        rw [hdefault]
        trivial
      rw [if_pos (by simp)]
      exact ⟨m₀, m₁, context, previous, hst.of_eq rfl rfl rfl hp.symm, m, m.switch previous,
        ⟨call, rfl, rfl⟩, rfl, .inr ⟨hc, howns⟩⟩
    | false =>
      rw [if_neg (by simp)]
      exact ⟨m₀, m₁, context, previous, hst.of_eq rfl rfl rfl hp.symm, m, rfl, hc⟩

theorem inv_resume (h : Inv own s) (hs : s.stage = .rescheduled call)
    (hm : ∀ previous, s.previous = some previous → Serves previous m) :
    Inv own (s.resume call m) := by
  simp only [Inv, hs] at h
  obtain ⟨m₀, m₁, context, previous, hst, m₂, hcomp, hc⟩ := h
  obtain ⟨hctx, howns⟩ := hm previous hst.saved
  exact ⟨m₀, m₁, context, previous, hst.of_eq rfl rfl rfl rfl, m₂, m, ⟨call, hcomp, rfl⟩, hctx,
    .inr ⟨hc, howns⟩⟩

theorem inv_next (h : Inv own s) (hr : Ready own s l) : Inv own (next target own s l) := by
  cases l with
  | enter call random m => exact inv_enter h hr.1 hr.2
  | serve m =>
    cases hs : s.stage with
    | submitted call =>
      have hm : ∀ context, s.context = some context → Serves context m := by
        intro context hc
        have hm := hr.2
        rwa [hc] at hm
      simpa only [next, hs] using inv_serve h hs hm
    | idle | running | rescheduled call | finished => simp [Ready, hs, Stage.isSubmitted] at hr
  | complete call m => exact inv_complete h hr
  | resume m =>
    cases hs : s.stage with
    | rescheduled call =>
      have hm : ∀ previous, s.previous = some previous → Serves previous m := by
        intro previous hp
        have hm := hr.2
        rwa [hp] at hm
      simpa only [next, hs] using inv_resume h hs hm
    | idle | running | submitted call | finished => simp [Ready, hs, Stage.isRescheduled] at hr

theorem inv_reachable
    (h : (machine target own : Machine (State P C L V E) (Label P C L V E)).Reachable s) :
    Inv own s := by
  refine h.invariant (P := Inv own) ?_ ?_
  · rintro s rfl
    rfl
  · exact fun s l hi hr => inv_next hi hr

end Invariant

section Transparency

variable {own : ℕ} {target : Target P C L} {s : State P C L V E}
  {m m₁ m₂ m₃ : Moment P C L} {context previous : Context P C L}

/-- On the slow path the continuation is left in the context of `Schedule()` itself. -/
theorem transparent_iff (h : Started own s m m₁ context previous)
    (hc : Continued s m₂ m₃ previous) : Transparent s ↔ CalledOnTarget s := by
  obtain ⟨⟨call, hent, hst⟩, -, hpath⟩ := h
  obtain ⟨⟨result, hcomp, hcont⟩, hctx, -⟩ := hc
  constructor
  · rintro ⟨call', m', context', m₁', result', m₂', m₃', he, hx, hs, howns, hco, hk, hm⟩
    simp only [hent.entered, hent.stored, hst, hcont, Option.some.injEq, Prod.mk.injEq]
      at he hx hs hk
    obtain ⟨rfl, rfl⟩ := he
    obtain ⟨-, rfl⟩ := hs
    obtain ⟨-, rfl⟩ := hk
    subst hx
    rcases hpath with ⟨-, rfl, -⟩ | ⟨-, -, hp⟩
    · exact ⟨call, m, context, hent.entered, hent.stored, owns_switch.mp howns⟩
    · have hsame : m.context = context := hm.symm.trans (hctx.trans hp)
      exact absurd (hsame ▸ hent.named) hent.caller
  · rintro ⟨call', m', context', he, hx, howns⟩
    simp only [hent.entered, hent.stored, Option.some.injEq, Prod.mk.injEq] at he hx
    obtain ⟨rfl, rfl⟩ := he
    subst hx
    have ht := onTarget_of_owns hent.scheduler howns
    rcases hpath with ⟨-, rfl, hp⟩ | ⟨hf, -⟩
    · exact ⟨call, m, context, _, result, m₂, m₃, hent.entered, hent.stored, hst,
        owns_switch.mpr howns, hcomp, hcont, hctx.trans hp⟩
    · simp [ht] at hf

/-- The tests for a thread do not look for the pool or the loop of the previous context. -/
theorem belongs_iff (h : Started own s m m₁ context previous)
    (hc : Continued s m₂ m₃ previous) : Belongs s ↔ ¬ Mistaken s := by
  have hprev := h.saved
  obtain ⟨⟨result, hcomp, hcont⟩, hctx, hpath⟩ := hc
  have hmistaken : Mistaken s ↔
      continuable previous m₂ = true ∧ ¬ previous.scheduler.Owns m₂ := by
    constructor
    · rintro ⟨result', m', previous', hm, hp, hx⟩
      simp only [hcomp, hprev, Option.some.injEq, Prod.mk.injEq] at hm hp
      obtain ⟨-, rfl⟩ := hm
      exact hp ▸ hx
    · exact fun hx => ⟨result, m₂, previous, hcomp, hprev, hx⟩
  have hbelongs : Belongs s ↔ previous.scheduler.Owns m₃ := by
    constructor
    · rintro ⟨result', m', hm, hx⟩
      simp only [hcont, Option.some.injEq, Prod.mk.injEq] at hm
      obtain ⟨-, rfl⟩ := hm
      rwa [hctx] at hx
    · intro hx
      exact ⟨result, m₃, hcont, by rwa [hctx]⟩
  rw [hbelongs, hmistaken]
  rcases hpath with ⟨hk, rfl⟩ | ⟨hk, howns⟩
  · simp [hk, owns_switch]
  · simp [hk, howns]

section Runs

/-- The context of a thread that no other scheduler has switched. -/
def home : Context ℕ ℕ ℕ :=
  ⟨0, .default⟩

/-- A moment at which one thread runs the event loop `1` and another the event loop `2`. -/
def onThread (id : Thread ℕ ℕ) (context : Context ℕ ℕ ℕ) : Moment ℕ ℕ ℕ :=
  ⟨id, context, fun t => if t = .other 1 then some 1 else if t = .other 2 then some 2 else none⟩

/-- The worker of CPU 3 schedules for that CPU. -/
def fromWorker : List (Label ℕ ℕ ℕ ℕ ℕ) :=
  [.enter (.start 1) 0 (onThread (.worker 0 3) home),
    .complete (.fail 2) (onThread (.worker 0 3) ⟨9, .pool 0 3⟩)]

/-- A thread outside of the pool schedules for CPU 3. -/
def fromOutside : List (Label ℕ ℕ ℕ ℕ ℕ) :=
  [.enter (.start 1) 0 (onThread (.other 0) home), .serve (onThread (.worker 0 3) ⟨9, .pool 0 3⟩),
    .complete (.start 2) (onThread (.worker 0 3) ⟨9, .pool 0 3⟩)]

/-- The thread of the event loop `1` schedules for the event loop `2`. -/
def fromOtherLoop : List (Label ℕ ℕ ℕ ℕ ℕ) :=
  [.enter (.start 1) 0 (onThread (.other 1) home),
    .complete (.start 2) (onThread (.other 1) ⟨9, .loop 2⟩)]

end Runs

end Transparency

end Eventuals.Schedule
