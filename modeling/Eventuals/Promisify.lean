import Eventuals.ComposedMeaning

/-! `Run(e)`, or `*e`: the thread that waits for an eventual and runs the default event loop
meanwhile, and whoever completes the promise of the eventual (`promisify.h`, `RunOnce()` of
`event-loop.h`). No other thread runs the event loop, and the `Reschedule()` in front of the
eventual, which only changes the context that it is run in, is left out. -/
namespace Eventuals.Promisify

open Resumption
open Composed
open Transition (Machine)
open TypeTraits (Hierarchy)

/-- Who runs the continuation: the thread that waits, or another one. -/
inductive Executor
  | main
  | other
  deriving DecidableEq

/-- Where the continuation is run. -/
inductive Stage (T W A : Type)
  | running
  /-- In `Terminal()`, which has copied `loop`. -/
  | copied (signal : Signal T W A)
  /-- The promise has been set. -/
  | set

/-- Where the thread that waits stands. -/
inductive Main
  /-- In `k.Start()`. -/
  | start
  /-- About to look whether the future is ready. -/
  | poll
  /-- About to compare and exchange `running_` in `RunOnce()`. -/
  | enter
  /-- In `uv_run()`, which blocks until there is an event. -/
  | loop
  /-- In the callbacks of `uv_run()` and in `Check()`, which is the last one. -/
  | callbacks
  /-- About to load `waiters_`. -/
  | test
  | leave
  /-- In `future.get()`. -/
  | get
  | returned
  /-- The `CHECK` of `RunOnce()` has failed. -/
  | aborted
  deriving DecidableEq

variable {G O R T W A : Type}

structure State (G O R T W A : Type) where
  k : Composed.State G O R T W A
  executor : Option (Executor × Stage T W A)
  promise : Option (Signal T W A)
  main : Main
  /-- `uv_async_send()` has been called since the event loop has last looked. -/
  async : Bool
  waiters : ℕ
  /-- How many `Submit()`s have added their waiter and are yet to interrupt the event loop. -/
  submits : ℕ
  /-- `Run()` has returned, and with it the continuation is gone. -/
  freed : Bool
  /-- The continuation was used after it was gone. -/
  dangling : Bool
  /-- What follows is history. -/
  history : List (Exchange G O R)

inductive Label (G O R : Type)
  /-- The next step of whoever runs the continuation. -/
  | tick
  /-- The world has answered, and the continuation is called on that thread. -/
  | answer (by_ : Executor) (x : Exchange G O R)
  /-- The next step of the thread that waits, where a weak compare and exchange may fail. -/
  | main (spurious : Bool)
  /-- An event of another handle of the event loop. -/
  | event
  /-- `Submit()` of the event loop, by anybody: its compare and exchange, and its `Interrupt()`. -/
  | push
  | interrupt

section Machine

variable [DecidableEq T] (H : Hierarchy T)

namespace State

variable (s : State G O R T W A)

/-- Whoever runs the continuation uses it. -/
def use : State G O R T W A := { s with dangling := s.dangling || s.freed }

/-- A step of the continuation, of which the last one is in `Terminal()`. -/
def tick (hasDefault : Bool) : Executor × Stage T W A → State G O R T W A
  | (who, .running) =>
    match ended s.k with
    | some signal => { s.use with executor := some (who, .copied signal) }
    | none =>
      match Composed.tick H s.k with
      | some k => { s.use with k := k }
      | none => { s with executor := none }
  | (who, .copied signal) =>
    { s.use with promise := some signal, executor := some (who, .set) }
  | (_, .set) => { s with executor := none, async := s.async || hasDefault }

/-- A step of the thread that waits. -/
def mainStep (hasDefault spurious : Bool) : Main → State G O R T W A
  | .start => { s with main := if hasDefault then .poll else .get }
  | .poll => { s with main := if s.promise.isSome then .get else .enter }
  | .enter => { s with main := if spurious then .aborted else .loop }
  | .loop => { s with main := .callbacks, async := false }
  | .callbacks => { s with main := .test, waiters := 0 }
  | .test => { s with main := if s.waiters = 0 then .leave else .loop }
  | .leave => { s with main := .poll }
  | .get => { s with main := .returned, freed := true }
  | .returned | .aborted => s

end State

/-- Whether the thread that waits can go on. -/
def Main.Goes (async ready : Bool) : Main → Prop
  | .start | .poll | .enter | .callbacks | .test | .leave => True
  | .loop => async = true
  | .get => ready = true
  | .returned | .aborted => False

def Enabled (s : State G O R T W A) : Label G O R → Prop
  | .tick => s.executor.isSome
  | .answer who x => s.executor = none ∧ waiting s.k = some (x.question, x.before) ∧
      (who = .main → s.main = .callbacks)
  | .main _ => s.executor.map Prod.fst ≠ some .main ∧ s.main.Goes s.async s.promise.isSome
  | .event => s.main = .loop
  | .push => True
  | .interrupt => 0 < s.submits

instance (async ready : Bool) : (p : Main) → Decidable (p.Goes async ready)
  | .start | .poll | .enter | .callbacks | .test | .leave => .isTrue trivial
  | .loop => inferInstanceAs (Decidable (async = true))
  | .get => inferInstanceAs (Decidable (ready = true))
  | .returned | .aborted => .isFalse id

instance [DecidableEq G] [DecidableEq O] (s : State G O R T W A) :
    (l : Label G O R) → Decidable (Enabled s l)
  | .tick => inferInstanceAs (Decidable (_ = true))
  | .answer who _ => inferInstanceAs (Decidable (_ = none ∧ _ = some _ ∧ (who = _ → _ = _)))
  | .main _ => inferInstanceAs (Decidable (_ ≠ _ ∧ s.main.Goes _ _))
  | .event => inferInstanceAs (Decidable (_ = Main.loop))
  | .push => .isTrue trivial
  | .interrupt => inferInstanceAs (Decidable (_ < _))

def next (hasDefault : Bool) (s : State G O R T W A) : Label G O R → State G O R T W A
  | .tick => (s.executor.map (s.tick H hasDefault)).getD s
  | .answer who x =>
    { s.use with
      k := answer s.k x.answer x.after
      executor := some (who, .running)
      history := s.history ++ [x] }
  | .main spurious => s.mainStep hasDefault spurious s.main
  | .event => { s with main := .callbacks }
  | .push => { s with waiters := s.waiters + 1, submits := s.submits + 1 }
  | .interrupt => { s with submits := s.submits - 1, async := true }

def init (e : Eventual G O R T W Unit A) (g : G) : State G O R T W A where
  k := begin false e (.start ()) g
  executor := some (.main, .running)
  promise := none
  main := .start
  async := false
  waiters := 0
  submits := 0
  freed := false
  dangling := false
  history := []

/-- Only the thread that waits runs the event loop: another one would fail the `CHECK` of one of the
two, or take the event that was meant to wake the thread that waits. -/
def machine (hasDefault : Bool) (e : Eventual G O R T W Unit A) (g : G) :
    Machine (State G O R T W A) (Label G O R) where
  Initial s := s = init e g
  Enabled := Enabled
  next := next H hasDefault

instance [DecidableEq G] [DecidableEq O] (hasDefault : Bool) (e : Eventual G O R T W Unit A)
    (g : G) (s : State G O R T W A) (l : Label G O R) :
    Decidable ((machine H hasDefault e g).Enabled s l) :=
  inferInstanceAs (Decidable (Enabled s l))

end Machine

section Invariant

variable [DecidableEq T] {H : Hierarchy T} {hasDefault : Bool} {e : Eventual G O R T W Unit A}
  {g : G} {s t : State G O R T W A} {who : Executor}

/-- How far the eventual is. -/
inductive Phase (H : Hierarchy T) (e : Eventual G O R T W Unit A) (g : G)
    (s : State G O R T W A) : Prop
  | running {p : Program G O R (Option (Signal T W A))} {g' : G} (promise : s.promise = none)
      (executor : s.executor = none ∧ ((waiting s.k).isSome ∨ s.k.control = .returned) ∨
        ∃ who, s.executor = some (who, .running))
      (after : (e.meaning H false (.start ())).After g s.history p g')
      (does : Does H p g' .terminal s.k)
  | copied {who : Executor} {signal : Signal T W A} {g' : G} (promise : s.promise = none)
      (executor : s.executor = some (who, .copied signal))
      (k : s.k = called .terminal signal g')
      (plays : (e.meaning H false (.start ())).Plays g s.history (some signal) g')
  | set {signal : Signal T W A} {g' : G} (promise : s.promise = some signal)
      (executor : s.executor = none ∨ ∃ who, s.executor = some (who, .set))
      (k : s.k = called .terminal signal g')
      (plays : (e.meaning H false (.start ())).Plays g s.history (some signal) g')

/-- The interrupt that comes with the promise has not been made yet. -/
def Setting (s : State G O R T W A) : Prop := ∃ who, s.executor = some (who, .set)

structure Inv (H : Hierarchy T) (hasDefault : Bool) (e : Eventual G O R T W Unit A) (g : G)
    (s : State G O R T W A) : Prop where
  phase : Phase H e g s
  place : ∀ stage, s.executor = some (.main, stage) → s.main = .start ∨ s.main = .callbacks
  freed : s.freed = true ↔ s.main = .returned
  ready : s.main = .returned → s.promise.isSome
  dangling : s.dangling = false
  /-- Nobody is left asleep with the future ready. -/
  woken : s.promise.isSome → hasDefault = true → s.main = .enter ∨ s.main = .loop →
    Setting s ∨ s.async = true ∨ 0 < s.submits
  waiters : 0 < s.waiters → s.main = .callbacks ∨ s.async = true ∨ 0 < s.submits
  looping : hasDefault = false → s.main = .start ∨ s.main = .get ∨ s.main = .returned

theorem inv_init : Inv H hasDefault e g (init e g) where
  phase := .running rfl (.inr ⟨.main, rfl⟩) .refl (does_begin e (.start ()) g)
  place := fun _ _ => .inl rfl
  freed := by simp [init]
  ready := by simp [init]
  dangling := rfl
  woken := by simp [init]
  waiters := by simp [init]
  looping := fun _ => .inl rfl

/-- Whoever uses the continuation does so before the promise is set. -/
theorem Inv.not_freed (h : Inv H hasDefault e g s) (hp : s.promise = none) : s.freed = false := by
  rw [← Bool.not_eq_true]
  intro hf
  have hready := h.ready (h.freed.mp hf)
  rw [hp] at hready
  cases hready

theorem Inv.use_eq (h : Inv H hasDefault e g s) (hp : s.promise = none) : s.use = s := by
  have hdangling : (s.dangling || s.freed) = s.dangling := by rw [h.not_freed hp, Bool.or_false]
  unfold State.use
  rw [hdangling]

/-- What is left of the eventual is at its end, waits, goes on or has been dropped. -/
theorem tick_cases {p : Program G O R (Option (Signal T W A))} {g' : G}
    {k : Composed.State G O R T W A} (hdoes : Does H p g' .terminal k) (hended : ended k = none) :
    (∃ k', Composed.tick H k = some k' ∧ Does H p g' .terminal k') ∨
      Composed.tick H k = none ∧ ((waiting k).isSome ∨ k.control = .returned) := by
  cases ht : Composed.tick H k with
  | some k' => exact .inl ⟨k', rfl, hdoes.tick final_reached ht⟩
  | none =>
    right
    obtain ⟨t, hticks, hcases⟩ := hdoes.settles
    obtain rfl := Performer.Ticks.eq_of_final (P := performer H) ht hticks
    rcases hcases with ⟨b, g, rfl⟩ | hwait
    · cases b with
      | none => exact ⟨rfl, .inr rfl⟩
      | some signal => cases hended
    · exact ⟨rfl, .inl hwait⟩

/-- A program that the machine has brought to its end is at its end. -/
theorem plays_of_reached {p : Program G O R (Option (Signal T W A))}
    {history : List (Exchange G O R)} {g' g₁ : G} {ending : Option (Signal T W A)}
    (hafter : (e.meaning H false (.start ())).After g history p g')
    (hdoes : Does H p g' .terminal (reached .terminal ending g₁)) :
    (e.meaning H false (.start ())).Plays g history ending g₁ := by
  simpa using hafter.plays (hdoes.plays_of_last final_reached reached_injective)

theorem inv_tick (h : Inv H hasDefault e g s) {x : Executor × Stage T W A}
    (hx : s.executor = some x) : Inv H hasDefault e g (s.tick H hasDefault x) := by
  obtain ⟨who, stage⟩ := x
  cases stage with
  | running =>
    cases h.phase with
    | @copied who' signal g' hp he =>
      rw [hx] at he
      cases he
    | @set signal g' hp he =>
      rcases he with he | ⟨who', he⟩ <;> rw [hx] at he <;> cases he
    | @running p g' hp he hafter hdoes =>
      simp only [State.tick, h.use_eq hp]
      cases hended : ended s.k with
      | some signal =>
        have hk := called_of_ended hended
        have hplays : (e.meaning H false (.start ())).Plays g s.history (some signal) s.k.g := by
          rw [hk] at hdoes
          exact plays_of_reached hafter hdoes
        exact {
          phase := .copied hp rfl hk hplays
          place := fun stage' hs => by
            cases hs
            exact h.place _ hx
          freed := h.freed
          ready := h.ready
          dangling := h.dangling
          woken := fun hset => by
            simp only [hp] at hset
            cases hset
          waiters := h.waiters
          looping := h.looping }
      | none =>
        rcases tick_cases hdoes hended with ⟨k', hk', hdoes'⟩ | ⟨hnone, hwait⟩
        · simp only [hk']
          exact { h with phase := .running hp (.inr ⟨who, hx⟩) hafter hdoes' }
        · simp only [hnone]
          exact {
            phase := .running hp (.inl ⟨rfl, hwait⟩) hafter hdoes
            place := fun stage' hs => by cases hs
            freed := h.freed
            ready := h.ready
            dangling := h.dangling
            woken := fun hset => by
              simp only [hp] at hset
              cases hset
            waiters := h.waiters
            looping := h.looping }
  | copied signal =>
    cases h.phase with
    | @running p g' hp he =>
      rcases he with ⟨he, -⟩ | ⟨who', he⟩ <;> rw [hx] at he <;> cases he
    | @set signal g' hp he =>
      rcases he with he | ⟨who', he⟩ <;> rw [hx] at he <;> cases he
    | @copied who' signal' g' hp he hk hplays =>
      rw [hx] at he
      cases he
      simp only [State.tick, h.use_eq hp]
      exact {
        phase := .set rfl (.inr ⟨who, rfl⟩) hk hplays
        place := fun stage' hs => by
          cases hs
          exact h.place _ hx
        freed := h.freed
        ready := fun _ => rfl
        dangling := h.dangling
        woken := fun _ _ _ => .inl ⟨who, rfl⟩
        waiters := h.waiters
        looping := h.looping }
  | set =>
    cases h.phase with
    | @running p g' hp he =>
      rcases he with ⟨he, -⟩ | ⟨who', he⟩ <;> rw [hx] at he <;> cases he
    | @copied who' signal' g' hp he =>
      rw [hx] at he
      cases he
    | @set signal g' hp he hk hplays =>
      simp only [State.tick]
      exact {
        phase := .set hp (.inl rfl) hk hplays
        place := fun stage' hs => by cases hs
        freed := h.freed
        ready := h.ready
        dangling := h.dangling
        woken := fun _ hd _ => .inr (.inl (by simp [hd]))
        waiters := fun hw => by
          rcases h.waiters hw with hm | ha | hs
          · exact .inl hm
          · exact .inr (.inl (by simp [ha]))
          · exact .inr (.inr hs)
        looping := h.looping }

/-- A step of the thread that waits, which leaves the continuation alone. -/
theorem Inv.move (h : Inv H hasDefault e g s) (hmain : ∀ stage, s.executor ≠ some (.main, stage))
    (hk : t.k = s.k) (hexecutor : t.executor = s.executor) (hpromise : t.promise = s.promise)
    (hhistory : t.history = s.history) (hdangling : t.dangling = s.dangling)
    (hfreed : t.freed = true ↔ t.main = .returned)
    (hready : t.main = .returned → t.promise.isSome)
    (hwoken : t.promise.isSome → hasDefault = true → t.main = .enter ∨ t.main = .loop →
      Setting t ∨ t.async = true ∨ 0 < t.submits)
    (hwaiters : 0 < t.waiters → t.main = .callbacks ∨ t.async = true ∨ 0 < t.submits)
    (hlooping : hasDefault = false → t.main = .start ∨ t.main = .get ∨ t.main = .returned) :
    Inv H hasDefault e g t where
  phase := by
    cases h.phase with
    | running hp' he' hafter hdoes =>
      exact .running (hpromise ▸ hp') (by rw [hexecutor, hk]; exact he') (hhistory ▸ hafter)
        (hk ▸ hdoes)
    | copied hp' he' hk' hplays =>
      exact .copied (hpromise ▸ hp') (hexecutor ▸ he') (hk ▸ hk') (hhistory ▸ hplays)
    | set hp' he' hk' hplays =>
      exact .set (hpromise ▸ hp') (by rw [hexecutor]; exact he') (hk ▸ hk') (hhistory ▸ hplays)
  place := fun stage hs => absurd (hexecutor ▸ hs) (hmain stage)
  freed := hfreed
  ready := hready
  dangling := by rw [hdangling, h.dangling]
  woken := hwoken
  waiters := hwaiters
  looping := hlooping

theorem inv_main (h : Inv H hasDefault e g s) {spurious : Bool}
    (he : s.executor.map Prod.fst ≠ some .main ∧ s.main.Goes s.async s.promise.isSome) :
    Inv H hasDefault e g (s.mainStep hasDefault spurious s.main) := by
  obtain ⟨hexecutor, hgoes⟩ := he
  have hmain : ∀ stage, s.executor ≠ some (.main, stage) := by
    intro stage hs
    simp [hs] at hexecutor
  have hfreed : s.main ≠ .returned → s.freed = false := by
    intro hne
    rw [← Bool.not_eq_true]
    exact fun hf => hne (h.freed.mp hf)
  have hdefault : s.main ≠ .start → s.main ≠ .get → s.main ≠ .returned → hasDefault = true := by
    intro h₁ h₂ h₃
    by_contra hd
    rcases h.looping (by simpa using hd) with hm | hm | hm
    · exact h₁ hm
    · exact h₂ hm
    · exact h₃ hm
  have hwaiters : s.main ≠ .callbacks → 0 < s.waiters → s.async = true ∨ 0 < s.submits :=
    fun hne hw => (h.waiters hw).resolve_left hne
  cases hm : s.main with
  | returned | aborted =>
    rw [hm] at hgoes
    cases hgoes
  | start =>
    have hf := hfreed (by simp [hm])
    have hw := hwaiters (by simp [hm])
    cases hasDefault with
    | true =>
      exact h.move hmain rfl rfl rfl rfl rfl (by simp [State.mainStep, hf])
        (by simp [State.mainStep]) (by simp [State.mainStep]) (fun h => .inr (hw h)) (by simp)
    | false =>
      exact h.move hmain rfl rfl rfl rfl rfl (by simp [State.mainStep, hf])
        (by simp [State.mainStep]) (by simp) (fun h => .inr (hw h)) (by simp [State.mainStep])
  | poll =>
    have hf := hfreed (by simp [hm])
    have hw := hwaiters (by simp [hm])
    have hd := hdefault (by simp [hm]) (by simp [hm]) (by simp [hm])
    cases hp : s.promise with
    | some signal =>
      exact h.move hmain rfl rfl rfl rfl rfl (by simp [State.mainStep, hf, hp])
        (by simp [State.mainStep, hp]) (by simp [State.mainStep, hp]) (fun h => .inr (hw h))
        (by simp [State.mainStep, hp])
    | none =>
      exact h.move hmain rfl rfl rfl rfl rfl (by simp [State.mainStep, hf, hp])
        (by simp [State.mainStep, hp]) (by simp [State.mainStep, hp]) (fun h => .inr (hw h))
        (by simp [hd])
  | enter =>
    have hf := hfreed (by simp [hm])
    have hw := hwaiters (by simp [hm])
    have hd := hdefault (by simp [hm]) (by simp [hm]) (by simp [hm])
    cases spurious with
    | true =>
      exact h.move hmain rfl rfl rfl rfl rfl (by simp [State.mainStep, hf])
        (by simp [State.mainStep]) (by simp [State.mainStep]) (fun h => .inr (hw h)) (by simp [hd])
    | false =>
      exact h.move hmain rfl rfl rfl rfl rfl (by simp [State.mainStep, hf])
        (by simp [State.mainStep]) (fun hp hd _ => h.woken hp hd (.inl hm)) (fun h => .inr (hw h))
        (by simp [hd])
  | loop =>
    have hf := hfreed (by simp [hm])
    have hd := hdefault (by simp [hm]) (by simp [hm]) (by simp [hm])
    exact h.move hmain rfl rfl rfl rfl rfl (by simp [State.mainStep, hf])
      (by simp [State.mainStep]) (by simp [State.mainStep]) (fun _ => .inl rfl) (by simp [hd])
  | callbacks =>
    have hf := hfreed (by simp [hm])
    have hd := hdefault (by simp [hm]) (by simp [hm]) (by simp [hm])
    exact h.move hmain rfl rfl rfl rfl rfl (by simp [State.mainStep, hf])
      (by simp [State.mainStep]) (by simp [State.mainStep]) (by simp [State.mainStep])
      (by simp [hd])
  | test =>
    have hf := hfreed (by simp [hm])
    have hw := hwaiters (by simp [hm])
    have hd := hdefault (by simp [hm]) (by simp [hm]) (by simp [hm])
    by_cases hz : s.waiters = 0
    · exact h.move hmain rfl rfl rfl rfl rfl (by simp [State.mainStep, hf, hz])
        (by simp [State.mainStep, hz]) (by simp [State.mainStep, hz]) (fun h => .inr (hw h))
        (by simp [hd])
    · exact h.move hmain rfl rfl rfl rfl rfl (by simp [State.mainStep, hf, hz])
        (by simp [State.mainStep, hz]) (fun _ _ _ => .inr (hw (by omega))) (fun h => .inr (hw h))
        (by simp [hd])
  | leave =>
    have hf := hfreed (by simp [hm])
    have hw := hwaiters (by simp [hm])
    have hd := hdefault (by simp [hm]) (by simp [hm]) (by simp [hm])
    exact h.move hmain rfl rfl rfl rfl rfl (by simp [State.mainStep, hf])
      (by simp [State.mainStep]) (by simp [State.mainStep]) (fun h => .inr (hw h)) (by simp [hd])
  | get =>
    have hw := hwaiters (by simp [hm])
    rw [hm] at hgoes
    exact h.move hmain rfl rfl rfl rfl rfl (by simp [State.mainStep])
      (fun _ => hgoes) (by simp [State.mainStep]) (fun h => .inr (hw h))
      (fun _ => .inr (.inr rfl))

theorem inv_answer (h : Inv H hasDefault e g s) {x : Exchange G O R}
    (hx : s.executor = none) (hwait : waiting s.k = some (x.question, x.before))
    (hwho : who = .main → s.main = .callbacks) :
    Inv H hasDefault e g { s.use with
      k := answer s.k x.answer x.after
      executor := some (who, .running)
      history := s.history ++ [x] } := by
  cases h.phase with
  | @copied who' signal g' hp he =>
    rw [hx] at he
    cases he
  | @set signal g' hp he hk hplays =>
    have hfinal := final_reached (O := O) (R := R) (H := H) (some signal) g'
    have hnone : waiting s.k = none := by
      rw [hk]
      exact hfinal.2
    rw [hnone] at hwait
    cases hwait
  | @running p g' hp he hafter hdoes =>
    obtain ⟨q, hq, hdoes'⟩ := hdoes.waiting final_reached hwait x.answer x.after
    rw [h.use_eq hp]
    exact {
      phase := .running hp (.inr ⟨who, rfl⟩) (hafter.trans hq) hdoes'
      place := fun stage hs => by
        cases hs
        exact .inr (hwho rfl)
      freed := h.freed
      ready := h.ready
      dangling := h.dangling
      woken := fun hset => by
        simp only [hp] at hset
        cases hset
      waiters := h.waiters
      looping := h.looping }

theorem inv_next (h : Inv H hasDefault e g s) {l : Label G O R} (he : Enabled s l) :
    Inv H hasDefault e g (next H hasDefault s l) := by
  cases l with
  | tick =>
    obtain ⟨x, hx⟩ := Option.isSome_iff_exists.mp he
    simpa [next, hx] using inv_tick h hx
  | answer who x => exact inv_answer h he.1 he.2.1 he.2.2
  | main spurious => exact inv_main h he
  | event =>
    have hm : s.main = .loop := he
    have hf : s.freed = false := by
      rw [← Bool.not_eq_true]
      intro hf
      have hr := h.freed.mp hf
      rw [hm] at hr
      cases hr
    have hd : hasDefault = true := by
      by_contra hd
      rcases h.looping (by simpa using hd) with hr | hr | hr <;> rw [hm] at hr <;> cases hr
    refine h.move (fun stage hs => ?_) rfl rfl rfl rfl rfl (by simp [next, hf]) (by simp [next])
      (by simp [next]) (fun _ => .inl rfl) (by simp [hd])
    rcases h.place stage hs with hr | hr <;> rw [hm] at hr <;> cases hr
  | push =>
    exact {
      h with
      phase := by
        cases h.phase with
        | running hp hx hafter hdoes => exact .running hp hx hafter hdoes
        | copied hp hx hk hplays => exact .copied hp hx hk hplays
        | set hp hx hk hplays => exact .set hp hx hk hplays
      woken := fun _ _ _ => .inr (.inr (Nat.succ_pos _))
      waiters := fun _ => .inr (.inr (Nat.succ_pos _)) }
  | interrupt =>
    exact {
      h with
      phase := by
        cases h.phase with
        | running hp hx hafter hdoes => exact .running hp hx hafter hdoes
        | copied hp hx hk hplays => exact .copied hp hx hk hplays
        | set hp hx hk hplays => exact .set hp hx hk hplays
      woken := fun _ _ _ => .inr (.inl rfl)
      waiters := fun _ => .inr (.inl rfl) }

theorem inv_reachable (h : (machine H hasDefault e g).Reachable s) : Inv H hasDefault e g s := by
  refine h.invariant (P := Inv H hasDefault e g) ?_ fun s l hi he => inv_next hi he
  rintro s rfl
  exact inv_init

theorem main_of_next {l : Label G O R} (hl : l ≠ .main true) (ha : s.main ≠ .aborted) :
    (next H hasDefault s l).main ≠ .aborted := by
  cases l with
  | tick =>
    have hmain : ∀ x, (s.tick H hasDefault x).main = s.main := by
      rintro ⟨who, stage⟩
      cases stage with
      | running =>
        simp only [State.tick]
        split
        · rfl
        · split <;> rfl
      | copied signal => rfl
      | set => rfl
    cases hx : s.executor with
    | none => simpa [next, hx] using ha
    | some x => simpa [next, hx, hmain] using ha
  | answer who x => exact ha
  | event => simp [next]
  | push => exact ha
  | interrupt => exact ha
  | main spurious =>
    have hs : spurious = false := by
      cases spurious with
      | false => rfl
      | true => exact absurd rfl hl
    subst hs
    simp only [next]
    cases hm : s.main with
    | aborted => exact absurd hm ha
    | start | poll | test => simp only [State.mainStep]; split <;> simp
    | enter | loop | callbacks | leave | get => simp [State.mainStep]
    | returned => simp [State.mainStep, hm]

/-- A future that is ready is found ready. -/
theorem Inv.returns (h : Inv H hasDefault e g s) (htick : ¬ Enabled s .tick)
    (hmain : ¬ Enabled s (.main false)) (hinterrupt : ¬ Enabled s .interrupt) :
    s.main = .returned ∨ s.main = .aborted ∨ s.executor = none ∧ ((waiting s.k).isSome ∨
      ∃ g', (e.meaning H false (.start ())).Plays g s.history none g') := by
  have hnone : s.executor = none := by simpa [Enabled] using htick
  have hsubmits : ¬ 0 < s.submits := hinterrupt
  have hgoes : ¬ s.main.Goes s.async s.promise.isSome := by
    intro hg
    exact hmain ⟨by simp [hnone], hg⟩
  cases h.phase with
  | copied hp hx =>
    rw [hnone] at hx
    cases hx
  | running hp hx hafter hdoes =>
    rcases hx with ⟨hx, hwait | hreturned⟩ | ⟨who, hx⟩
    · exact .inr (.inr ⟨hx, .inl hwait⟩)
    · rw [reached_of_returned hreturned] at hdoes
      exact .inr (.inr ⟨hx, .inr ⟨_, plays_of_reached hafter hdoes⟩⟩)
    · rw [hnone] at hx
      cases hx
  | @set signal g' hp =>
    cases hm : s.main with
    | returned => exact .inl rfl
    | aborted => exact .inr (.inl rfl)
    | start | poll | enter | callbacks | test | leave =>
      rw [hm] at hgoes
      exact absurd trivial hgoes
    | get =>
      rw [hm] at hgoes
      have hready : s.promise.isSome = true := by simp [hp]
      exact absurd hready hgoes
    | loop =>
      rw [hm] at hgoes
      have hd : hasDefault = true := by
        by_contra hd
        rcases h.looping (by simpa using hd) with hr | hr | hr <;> rw [hm] at hr <;> cases hr
      rcases h.woken (by simp [hp]) hd (.inr hm) with ⟨who, hx⟩ | ha | hs
      · rw [hnone] at hx
        cases hx
      · exact absurd ha hgoes
      · exact absurd hs hsubmits

end Invariant

/-- An eventual that asks for a number and adds one to it. -/
def asking : Eventual ℕ Unit ℕ ℕ ℕ Unit ℕ :=
  .composed (.eventual (fun _ _ => .ask () fun n => .done (.start n)) none none)
    (.thenValue fun n g => (g, n + 1))

def classes : Hierarchy ℕ where
  isBaseOf := Nat.le
  decidable := Nat.decLe
  refl := Nat.le_refl
  trans _ _ _ := Nat.le_trans
  runtimeError := 1
  typeErasedError := 0

/-- The event loop blocks, another thread completes the promise, and its interrupt is what makes
the event loop go on. -/
def askingRun : List (Label ℕ Unit ℕ) :=
  [.tick, .tick, .main false, .main false, .main false, .answer .other ⟨(), 0, 6, 0⟩, .tick, .tick,
    .tick, .tick, .tick, .main false, .main false, .main false, .main false, .main false,
    .main false]

end Eventuals.Promisify
