import Eventuals.Library.Transition
import Eventuals.Handle

/-! `EventLoop::WaitForSignal`: every order of the callbacks of one continuation. -/
namespace Eventuals.EventLoop.Signal

open Transition (Machine)

inductive Label
  | start
  | fail
  | stop
  | trigger
  /-- The event loop runs the callback of `context_`, and how `uv_signal_start_oneshot` returns. -/
  | run (started : ℤ)
  | interrupt (stopped : ℤ)
  /-- libuv reports a signal. -/
  | signal (signum : ℤ)
  | close
  deriving DecidableEq

/-- What `Start()` submits; `init` is the result of `uv_signal_init`. -/
def startSignal (init started : ℤ) (h : Handle) : Handle :=
  if h.started then h.abort .started
  else
    let h : Handle := { h with started := true }
    if init ≠ 0 then h.abort .init
    else if h.error ≠ 0 then h.abort .error
    else if started ≠ 0 then
      { h with uv := .inactive, error := started, completed := true }.uvClose .fail
    else { h with uv := .active, error := started }

/-- The callback of `uv_signal_start_oneshot`. -/
def onSignal (signum signum' : ℤ) (h : Handle) : Handle :=
  if signum ≠ signum' then h.abort .signum
  else if h.completed then h
  else { h with completed := true }.uvClose (.always .start)

def next (init signum : ℤ) (h : Handle) : Label → Handle
  | .start => h.start (·.submit .start)
  | .fail => h.fail
  | .stop => h.stop
  | .trigger => h.trigger
  | .run started => h.run fun _ => startSignal init started
  | .interrupt stopped => h.interrupt stopped
  | .signal signum' => onSignal signum signum' h
  | .close => h.close

/-- libuv reports the signal that an active handle watches, and closes what is closing. -/
def Enabled (signum : ℤ) (h : Handle) (l : Label) : Prop :=
  h.failed = none ∧
    match l with
    | .start | .fail | .stop => h.entered = none
    | .trigger => h.triggered = false
    | .run _ => h.context.isSome = true
    | .interrupt _ => h.interruptContext = true
    | .signal signum' => h.uv = .active ∧ signum' = signum
    | .close => h.uv = .closing

instance (signum : ℤ) (h : Handle) : ∀ l, Decidable (Enabled signum h l)
  | .start | .fail | .stop => inferInstanceAs (Decidable (h.failed = none ∧ h.entered = none))
  | .trigger => inferInstanceAs (Decidable (h.failed = none ∧ h.triggered = false))
  | .run _ => inferInstanceAs (Decidable (h.failed = none ∧ h.context.isSome = true))
  | .interrupt _ => inferInstanceAs (Decidable (h.failed = none ∧ h.interruptContext = true))
  | .signal signum' =>
    inferInstanceAs (Decidable (h.failed = none ∧ h.uv = .active ∧ signum' = signum))
  | .close => inferInstanceAs (Decidable (h.failed = none ∧ h.uv = .closing))

def machine (init signum : ℤ) : Machine Handle Label where
  Initial h := ∃ registered, h = .initial registered
  Enabled := Enabled signum
  next := next init signum

instance (init signum : ℤ) (h : Handle) (l : Label) :
    Decidable ((machine init signum).Enabled h l) :=
  inferInstanceAs (Decidable (Enabled signum h l))

variable {h : Handle} {init signum : ℤ}

theorem sound_startSignal (hs : h.Sound) (hi : init = 0) (started : ℤ)
    (hc : h.context = none) (hst : h.started = false) (hco : h.completed = false)
    (he : h.entered = some .start) : (startSignal init started h).Sound := by
  obtain ⟨hcalls, honc, hclosed, herr, -⟩ := hs.uncompleted hco
  have hn := hs.unfailed
  have hpe := hs.pending
  rw [startSignal, if_neg (by simp [hst])]
  dsimp only
  rw [if_neg (by simp [hi]), if_neg (by simp [herr])]
  split
  · next hne => constructor <;> simp_all [Handle.uvClose]
  · next hz => constructor <;> simp_all

theorem sound_onSignal (hs : h.Sound) (ha : h.uv = .active) : (onSignal signum signum h).Sound := by
  have hst : h.started = true := by
    cases hh : h.started with
    | false => simp [(hs.unstarted hh).1] at ha
    | true => rfl
  rw [onSignal, if_neg (by simp)]
  split
  · exact hs
  · next hco =>
    exact Handle.sound_uvClose (e := h.error) hs hst (by simpa using hco) _ (by simp)

theorem sound_next {l : Label} (hi : init = 0) (hs : h.Sound) (he : Enabled signum h l) :
    (next init signum h l).Sound := by
  obtain ⟨-, he⟩ := he
  cases l with
  | start =>
    rw [next, Handle.start]
    split
    · exact Handle.sound_interrupted hs he
    · obtain ⟨hc, hst, -⟩ := hs.fresh he
      exact Handle.sound_submit_start (Handle.sound_accept hs he) rfl hc hst
  | fail => exact Handle.sound_fail hs he
  | stop => exact Handle.sound_stop hs he
  | trigger => exact Handle.sound_trigger hs he
  | run started =>
    exact Handle.sound_run hs fun h' hs' hc hst hco hen =>
      sound_startSignal hs' hi started hc hst hco hen
  | interrupt stopped => exact Handle.sound_interrupt hs he stopped
  | signal signum' =>
    obtain ⟨ha, rfl⟩ := he
    exact sound_onSignal hs ha
  | close => exact Handle.sound_close hs he

theorem reachable_sound (hi : init = 0) (h' : (machine init signum).Reachable h) : h.Sound := by
  apply h'.invariant
  · rintro h ⟨registered, rfl⟩
    exact Handle.sound_initial registered
  · intro h l hs he
    exact sound_next hi hs he

end Eventuals.EventLoop.Signal
