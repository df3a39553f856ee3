import Mathlib.Data.Int.Init

/-! What the timer, signal and poll continuations of an event loop share: the flags, the two
scheduler contexts, the interrupt handler and the libuv handle (`event-loop.h`). -/
namespace Eventuals.EventLoop

inductive Check
  | blocked
  | started
  | completed
  | error
  | init
  | signum
  | clock
  deriving DecidableEq

/-- The libuv handle; `closing` is between `uv_close` and its callback. -/
inductive Uv
  | unused
  | inactive
  | active
  | closing
  | closed
  deriving DecidableEq

/-- What upstream calls first. -/
inductive Entry
  | start
  | fail
  | stop
  deriving DecidableEq

/-- The callbacks that are submitted with `context_`. -/
inductive Submission
  /-- `Start()`, once the handler could not be installed. -/
  | interrupted
  | start
  | fail
  | stop
  | next
  | done
  deriving DecidableEq

/-- The calls of `k_`. -/
inductive Call
  | start
  | fail
  | stop
  | begin
  | body
  | ended
  deriving DecidableEq

/-- The callbacks that are given to `uv_close`. -/
inductive OnClose
  | always (call : Call)
  /-- Checks that there is an error, and fails. -/
  | fail
  /-- Fails if there is an error. -/
  | unlessError (call : Call)
  deriving DecidableEq

structure Handle where
  entered : Option Entry
  /-- `handler_.has_value()`. -/
  registered : Bool
  installed : Bool
  triggered : Bool
  context : Option Submission
  interruptContext : Bool
  started : Bool
  completed : Bool
  closed : Bool
  error : ℤ
  uv : Uv
  onClose : Option OnClose
  /-- The calls of `k_` so far, with the handle at that time. -/
  calls : List (Call × Uv)
  failed : Option Check
  deriving DecidableEq

namespace Handle

def initial (registered : Bool) : Handle where
  entered := none
  registered := registered
  installed := false
  triggered := false
  context := none
  interruptContext := false
  started := false
  completed := false
  closed := false
  error := 0
  uv := .unused
  onClose := none
  calls := []
  failed := none

variable (h : Handle)

def abort (c : Check) : Handle :=
  { h with failed := some c }

def call (c : Call) : Handle :=
  { h with calls := h.calls ++ [(c, h.uv)] }

/-- `EventLoop::Submit()` with `context_`. -/
def submit (s : Submission) : Handle :=
  if h.context.isSome then h.abort .blocked else { h with context := some s }

def uvClose (c : OnClose) : Handle :=
  { h with uv := .closing, onClose := some c }

/-- There is a handler and it can not be installed any more. -/
def refused : Bool := h.registered && h.triggered

/-- `Start()`, up to where a handler that is there has been installed. -/
def start (accept : Handle → Handle) : Handle :=
  if h.refused then { h with entered := some .start }.submit .interrupted
  else accept { h with entered := some .start, installed := h.registered }

def fail : Handle :=
  { h with entered := some .fail }.submit .fail

def stop : Handle :=
  { h with entered := some .stop }.submit .stop

/-- `Interrupt::Trigger()`: the handler submits with `interrupt_context_`. -/
def trigger : Handle :=
  if h.installed then
    if h.interruptContext then h.abort .blocked
    else { h with triggered := true, interruptContext := true }
  else { h with triggered := true }

/-- The event loop runs what `Fail()` or `Stop()` has submitted. -/
def finish (c : Call) : Handle :=
  if h.started then h.abort .started else { h with completed := true }.call c

/-- The event loop runs the callback of `context_`; `body` stands for those which depend on the
continuation, where `completed_` has been tested. -/
def run (body : Submission → Handle → Handle) : Handle :=
  match h.context with
  | none => h
  | some s =>
    let h : Handle := { h with context := none }
    if h.completed then h
    else
      match s with
      | .interrupted => { h with completed := true }.call .stop
      | .fail => h.finish .fail
      | .stop => h.finish .stop
      | s => body s h

/-- The event loop runs what the interrupt handler has submitted; `stopped` is the result of
stopping the handle. -/
def interrupt (stopped : ℤ) : Handle :=
  let h : Handle := { h with interruptContext := false }
  if ¬ h.started then
    if h.completed then h.abort .completed else { h with completed := true }.call .stop
  else if h.completed then h
  else if h.error ≠ 0 then h.abort .error
  else
    { h with completed := true, error := if h.uv = Uv.active then stopped else h.error }.uvClose
      (.unlessError .stop)

/-- libuv runs the callback that `uv_close` was given. -/
def close : Handle :=
  match h.onClose with
  | none => h
  | some c =>
    let h : Handle := { h with closed := true, uv := .closed, onClose := none }
    match c with
    | .always c => h.call c
    | .fail => if h.error = 0 then h.abort .error else h.call .fail
    | .unlessError c => if h.error = 0 then h.call c else h.call .fail

end Handle

/-- What holds of a continuation that completes once; a poll does not. -/
structure Handle.Sound (h : Handle) : Prop where
  unfailed : h.failed = none
  unentered : h.entered = none → h.context = none ∧ h.started = false ∧ h.completed = false
  unstarted : h.started = false → h.uv = .unused ∧ h.onClose = none ∧ h.closed = false
  uncompleted : h.completed = false → h.calls = [] ∧ h.onClose = none ∧ h.closed = false ∧
    h.error = 0 ∧ (h.started = true → h.uv = .active)
  startedBy : h.started = true → h.entered = some .start
  closing : h.started = true → h.completed = true → h.closed = false →
    h.uv = .closing ∧ h.onClose.isSome = true ∧ h.calls = []
  closed : h.closed = true → h.uv = .closed ∧ h.onClose = none ∧ ∃ c, h.calls = [(c, .closed)]
  unstartedDone : h.started = false → h.completed = true →
    ∃ c, c ≠ .start ∧ h.calls = [(c, .unused)]
  onFail : h.onClose = some .fail → h.error ≠ 0
  submitted : ∀ s, h.context = some s → h.started = false ∧
    (s = .start ∧ h.entered = some .start ∨ s = .interrupted ∧ h.installed = false ∨
      s = .fail ∧ h.installed = false ∨ s = .stop ∧ h.installed = false)
  installedBy : h.installed = true → h.entered = some .start
  pending : h.interruptContext = true → h.installed = true ∧ h.triggered = true
  handled : h.installed = true → h.started = false → h.completed = true →
    h.interruptContext = false ∧ h.triggered = true

namespace Handle

variable {h : Handle} {e : ℤ}

theorem sound_initial (registered : Bool) : (initial registered).Sound := by
  constructor <;> simp [initial]

/-- Upstream has not called yet. -/
theorem Sound.fresh (hs : h.Sound) (he : h.entered = none) :
    h.context = none ∧ h.started = false ∧ h.completed = false ∧ h.installed = false ∧
      h.interruptContext = false := by
  obtain ⟨hc, hst, hco⟩ := hs.unentered he
  have hi : h.installed = false := by
    cases hh : h.installed with
    | false => rfl
    | true => simp [hs.installedBy hh] at he
  refine ⟨hc, hst, hco, hi, ?_⟩
  cases hh : h.interruptContext with
  | false => rfl
  | true => simp [(hs.pending hh).1] at hi

theorem sound_accept (hs : h.Sound) (he : h.entered = none) :
    ({ h with entered := some .start, installed := h.registered } : Handle).Sound := by
  obtain ⟨hc, hst, hco, hi, hp⟩ := hs.fresh he
  have hu := hs.uncompleted hco
  have hf := hs.unstarted hst
  have hn := hs.unfailed
  constructor <;> simp_all

theorem sound_submit_start (hs : h.Sound) (he : h.entered = some .start)
    (hc : h.context = none) (hst : h.started = false) : (h.submit .start).Sound := by
  rw [submit, if_neg (by simp [hc])]
  exact { hs with
    unentered := by simp [he]
    submitted := by simp [hst, he] }

/-- Upstream calls something that leaves the handle alone. -/
theorem sound_enter (hs : h.Sound) (he : h.entered = none) {e : Entry} {r : Submission}
    (hr : r = .interrupted ∨ r = .fail ∨ r = .stop) :
    ({ h with entered := some e }.submit r : Handle).Sound := by
  obtain ⟨hc, hst, hco, hi, hp⟩ := hs.fresh he
  rw [submit, if_neg (by simp [hc])]
  exact { hs with
    unentered := by simp
    startedBy := by simp [hst]
    submitted := by
      intro r' hr'
      cases hr'
      rcases hr with rfl | rfl | rfl <;> simp [hst, hi]
    installedBy := by simp [hi] }

theorem sound_interrupted (hs : h.Sound) (he : h.entered = none) :
    ({ h with entered := some .start }.submit .interrupted : Handle).Sound :=
  sound_enter hs he (.inl rfl)

theorem sound_fail (hs : h.Sound) (he : h.entered = none) : h.fail.Sound :=
  sound_enter hs he (.inr (.inl rfl))

theorem sound_stop (hs : h.Sound) (he : h.entered = none) : h.stop.Sound :=
  sound_enter hs he (.inr (.inr rfl))

theorem Sound.untriggered (hs : h.Sound) (ht : h.triggered = false) :
    h.interruptContext = false := by
  cases hh : h.interruptContext with
  | false => rfl
  | true => simp [(hs.pending hh).2] at ht

theorem sound_trigger (hs : h.Sound) (ht : h.triggered = false) : h.trigger.Sound := by
  have hp := hs.untriggered ht
  rw [trigger]
  split
  · next hi =>
    rw [if_neg (by simp [hp])]
    exact { hs with
      pending := fun _ => ⟨hi, rfl⟩
      handled := fun hi' hst hco => absurd (hs.handled hi' hst hco).2 (by simp [ht]) }
  · exact { hs with
      pending := by simp [hp]
      handled := fun _ hst hco => ⟨hp, rfl⟩ }

/-- A continuation that has not started completes with a call and an unused handle. -/
theorem sound_complete (hs : h.Sound) (hst : h.started = false) (hco : h.completed = false)
    (hc : h.context = none) (hen : h.entered.isSome = true)
    (hi : h.installed = true → h.interruptContext = false ∧ h.triggered = true) {c : Call}
    (hcall : c ≠ .start) : ({ h with completed := true }.call c : Handle).Sound := by
  obtain ⟨hcalls, honc, hclosed, herr, -⟩ := hs.uncompleted hco
  obtain ⟨huv, -, -⟩ := hs.unstarted hst
  have hn := hs.unfailed
  have hib := hs.installedBy
  have hpe := hs.pending
  rw [Option.isSome_iff_ne_none] at hen
  constructor <;> simp_all [call]

/-- The callback of `context_` is off the context when it runs. -/
theorem sound_unblock (hs : h.Sound) : ({ h with context := none } : Handle).Sound :=
  { hs with
    unentered := fun he => ⟨rfl, (hs.unentered he).2⟩
    submitted := by simp }

/-- The bodies of the callbacks of `context_` that `run` leaves open have to keep soundness. -/
theorem sound_run {body : Submission → Handle → Handle} (hs : h.Sound)
    (hb : ∀ h' : Handle, h'.Sound → h'.context = none → h'.started = false →
      h'.completed = false → h'.entered = some .start → (body .start h').Sound) :
    (h.run body).Sound := by
  rw [run]
  split
  · exact hs
  · next s hc =>
    have hu := sound_unblock hs
    obtain ⟨hst, hcase⟩ := hs.submitted s hc
    have hen : h.entered.isSome = true := by
      rw [Option.isSome_iff_ne_none]
      intro he
      simp [(hs.unentered he).1] at hc
    dsimp only
    split
    · exact hu
    · next hco =>
      have hco : h.completed = false := by simpa using hco
      have hdone : ∀ c ≠ .start, h.installed = false →
          ({ { h with context := none } with completed := true }.call c : Handle).Sound :=
        fun c hc hi => sound_complete hu hst hco rfl hen (by simp [hi]) hc
      rcases hcase with ⟨rfl, he⟩ | ⟨rfl, hi⟩ | ⟨rfl, hi⟩ | ⟨rfl, hi⟩
      · exact hb _ hu rfl hst hco he
      · exact hdone .stop (by decide) hi
      · simpa [finish, hst] using hdone .fail (by decide) hi
      · simpa [finish, hst] using hdone .stop (by decide) hi

theorem sound_interrupt (hs : h.Sound) (hp : h.interruptContext = true) (stopped : ℤ) :
    (h.interrupt stopped).Sound := by
  obtain ⟨hi, htr⟩ := hs.pending hp
  have hen := hs.installedBy hi
  rw [interrupt]
  dsimp only
  split
  · next hst =>
    have hst : h.started = false := by simpa using hst
    have hco : h.completed = false := by
      cases hh : h.completed with
      | false => rfl
      | true => simp [(hs.handled hi hst hh).1] at hp
    obtain ⟨hcalls, honc, hclosed, herr, -⟩ := hs.uncompleted hco
    obtain ⟨huv, -, -⟩ := hs.unstarted hst
    have hn := hs.unfailed
    have hsub := hs.submitted
    rw [if_neg (by simp [hco])]
    constructor <;> simp_all [call]
  · next hst =>
    have hst : h.started = true := by simpa using hst
    split
    · exact { hs with
        pending := by simp
        handled := by simp [hst] }
    · next hco =>
      have hco : h.completed = false := by simpa using hco
      obtain ⟨hcalls, honc, hclosed, herr, huv⟩ := hs.uncompleted hco
      have hn := hs.unfailed
      have hsub := hs.submitted
      rw [if_neg (by simp [herr])]
      constructor <;> simp_all [uvClose]

/-- The handle is closed once its event has completed the continuation. -/
theorem sound_uvClose (hs : h.Sound) (hst : h.started = true) (hco : h.completed = false)
    (c : OnClose) (hc : c = .fail → e ≠ 0) :
    ({ h with completed := true, error := e }.uvClose c : Handle).Sound := by
  obtain ⟨hcalls, honc, hclosed, herr, huv⟩ := hs.uncompleted hco
  have hn := hs.unfailed
  have hsub := hs.submitted
  have hby := hs.startedBy hst
  have hpe := hs.pending
  constructor <;> simp_all [uvClose]

/-- The one call is made with a handle that was never started or is closed. -/
theorem Sound.calls (hs : h.Sound) :
    h.calls.length ≤ 1 ∧ ∀ p ∈ h.calls, p.2 = .unused ∨ p.2 = .closed := by
  cases hco : h.completed with
  | false => simp [(hs.uncompleted hco).1]
  | true =>
    cases hst : h.started with
    | false =>
      obtain ⟨c, -, hc⟩ := hs.unstartedDone hst hco
      simp [hc]
    | true =>
      cases hcl : h.closed with
      | false => simp [(hs.closing hst hco hcl).2.2]
      | true =>
        obtain ⟨-, -, c, hc⟩ := hs.closed hcl
        simp [hc]

/-- No `CHECK` has failed, and `k_` was called at most once, with a handle that was never started
or is closed. -/
def CompletesOnce (h : Handle) : Prop :=
  h.failed = none ∧ h.calls.length ≤ 1 ∧ ∀ p ∈ h.calls, p.2 = .unused ∨ p.2 = .closed

theorem Sound.completesOnce (hs : h.Sound) : h.CompletesOnce :=
  ⟨hs.unfailed, hs.calls⟩

theorem Sound.started_of_call (hs : h.Sound) {u : Uv} (hc : (.start, u) ∈ h.calls) :
    h.started = true := by
  cases hst : h.started with
  | true => rfl
  | false =>
    cases hco : h.completed with
    | false => simp [(hs.uncompleted hco).1] at hc
    | true =>
      obtain ⟨c, hne, hcalls⟩ := hs.unstartedDone hst hco
      rw [hcalls, List.mem_singleton] at hc
      cases hc
      exact absurd rfl hne

theorem sound_close (hs : h.Sound) (hcl : h.uv = .closing) : h.close.Sound := by
  have hst : h.started = true := by
    cases hh : h.started with
    | false => simp [(hs.unstarted hh).1] at hcl
    | true => rfl
  have hco : h.completed = true := by
    cases hh : h.completed with
    | false => simp [(hs.uncompleted hh).2.2.2.2 hst] at hcl
    | true => rfl
  have hnc : h.closed = false := by
    cases hh : h.closed with
    | false => rfl
    | true => simp [(hs.closed hh).1] at hcl
  obtain ⟨-, hon, hcalls⟩ := hs.closing hst hco hnc
  obtain ⟨c, hc⟩ := Option.isSome_iff_exists.mp hon
  have hn := hs.unfailed
  have hen := hs.startedBy hst
  have hpe := hs.pending
  have hsub := hs.submitted
  have herr := hs.onFail
  have hdone : ∀ c, ({ h with closed := true, uv := .closed, onClose := none }.call c :
      Handle).Sound := by
    intro c
    constructor <;> simp_all [call]
  simp only [close, hc]
  cases c with
  | always c => exact hdone c
  | fail =>
    rw [if_neg (herr hc)]
    exact hdone .fail
  | unlessError c =>
    dsimp only
    split
    · exact hdone c
    · exact hdone .fail

end Handle

end Eventuals.EventLoop
