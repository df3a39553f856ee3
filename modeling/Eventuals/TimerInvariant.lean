import Eventuals.Timer
import Eventuals.Signal

/-! What a timer is given to wait for, and that it completes once. -/
namespace Eventuals.EventLoop.Timer

open Transition (Machine)

variable {lib : Libuv} {overflow : ℤ → ℤ} {s t : State} {l : Label}
  {calls : List (Callback × ℤ)} {a n : ℤ}

def isTimer (c : Callback) : Bool := c = .timer

/-- The countdowns of the timer among those of its clock. -/
def State.entries (s : State) : List (Callback × ℤ) :=
  s.clock.countdowns.filter fun e => isTimer e.1

/-- What the timer was called with, once it is not with the clock any more. -/
structure Settled (s : State) : Prop where
  representable : Representable s.nanoseconds
  advanced : s.advancedPast = true → s.nanoseconds = 0 ∧ s.requested ≤ s.elapsed
  resumed : s.advancedPast = false →
    s.nanoseconds = s.requested - s.elapsed ∧ (0 ≤ s.requested → 0 ≤ s.nanoseconds)

/-- Where the timer is. What is counted is only so if `fit`, where no sum has overflowed. -/
inductive Phase (fit : Prop) (s : State) : Prop
  | idle : s.handle.entered = none → s.entries = [] → s.elapsed = 0 →
      s.nanoseconds = s.requested → s.advancedPast = false → Phase fit s
  | waiting (r : ℤ) : s.handle.entered = some .start → s.handle.context = none →
      s.handle.started = false → s.entries = [(.timer, r)] →
      (fit → r = s.requested - s.elapsed ∧ (0 < r ∨ s.elapsed = 0)) → s.advancedPast = false →
      Phase fit s
  | settled : s.handle.entered ≠ none → s.entries = [] → (fit → Settled s) → Phase fit s

structure Inv (fit : Prop) (s : State) : Prop where
  sound : s.handle.Sound
  representable : Representable s.requested
  running : s.clock.isPaused = false → s.clock.pending = []
  phase : Phase fit s
  timed : s.handle.started = true → s.timeout = some (toUInt64 (milliseconds s.nanoseconds))

variable {fit : Prop}

theorem releases_filter (s : State) (calls : List (Callback × ℤ)) :
    s.releases calls = s.releases (calls.filter fun e => isTimer e.1) := by
  induction calls generalizing s with
  | nil => rfl
  | cons e calls ih =>
    obtain ⟨c, n⟩ := e
    cases c with
    | timer => simpa [State.releases, isTimer] using ih (s.release n)
    | other m => simpa [State.releases, isTimer] using ih s

theorem waiting_iff : s.waiting = true ↔ s.entries ≠ [] := by
  simp [State.waiting, State.entries, Clock.countdowns, List.filter_eq_nil_iff, isTimer]

theorem any_timer_iff :
    (calls.any fun e => e.1 = Callback.timer) = true ↔
      (calls.filter fun e => isTimer e.1) ≠ [] := by
  simp [List.filter_eq_nil_iff, isTimer]

theorem not_any_timer (h : (calls.filter fun e => isTimer e.1) = []) :
    (calls.any fun e => e.1 = Callback.timer) = false := by
  rw [← Bool.not_eq_true, any_timer_iff]
  exact not_not_intro h

/-- The countdowns of the timer are counted down on their own. -/
theorem advance_entries {c : Clock Callback} (h : s.clock.advance overflow a = some (c, calls)) :
    (c.countdowns.filter fun e => isTimer e.1) =
        Countdown.remaining (c.advanced - s.clock.advanced) s.entries ∧
      (calls.filter fun e => isTimer e.1) =
        (Countdown.expired (c.advanced - s.clock.advanced) s.entries).map fun k => (k, 0) := by
  obtain ⟨-, hc, hcalls⟩ := advance_countdowns h
  have hexp : (Countdown.expired (c.advanced - s.clock.advanced) s.clock.countdowns).filter
      isTimer = Countdown.expired (c.advanced - s.clock.advanced) s.entries :=
    Countdown.expired_filter isTimer
  constructor
  · rw [hc]
    exact Countdown.remaining_filter isTimer
  · rw [hcalls, List.filter_map, ← hexp]
    rfl

theorem entries_of_pending_nil (h : s.clock.pending = []) : s.entries = [] := by
  simp [State.entries, Clock.countdowns, h]

theorem releases_of_nil (h : (calls.filter fun e => isTimer e.1) = []) :
    s.releases calls = s := by
  rw [releases_filter, h]
  rfl

theorem releases_of_one (h : (calls.filter fun e => isTimer e.1) = [(.timer, n)]) :
    s.releases calls = s.release n := by
  rw [releases_filter, h]
  rfl

section Handles

theorem Settled.setHandle (h : Settled s) (handle : Handle) :
    Settled { s with handle := handle } := ⟨h.1, h.2, h.3⟩

/-- A step of the handle alone that leaves what the clock relies on. -/
theorem inv_handle (hs : Inv fit s) {h : Handle} (hh : h.Sound)
    (he : h.entered = s.handle.entered) (hc : h.context = s.handle.context)
    (hst : h.started = s.handle.started) : Inv fit { s with handle := h } := by
  refine ⟨hh, hs.representable, hs.running, ?_, fun h' => hs.timed (hst ▸ h')⟩
  cases hs.phase with
  | idle h1 h2 h3 h4 h5 => exact .idle (he ▸ h1) h2 h3 h4 h5
  | waiting r h1 h2 h3 h4 h5 h6 => exact .waiting r (he ▸ h1) (hc ▸ h2) (hst ▸ h3) h4 h5 h6
  | settled h1 h2 h3 => exact .settled (he ▸ h1) h2 fun hf => (h3 hf).setHandle h

/-- Upstream has not called yet, so that the timer has not been given to the clock. -/
theorem Inv.idle (hs : Inv fit s) (he : s.handle.entered = none) :
    s.entries = [] ∧ s.elapsed = 0 ∧ s.nanoseconds = s.requested ∧ s.advancedPast = false := by
  cases hs.phase with
  | idle _ h2 h3 h4 h5 => exact ⟨h2, h3, h4, h5⟩
  | waiting r h1 => simp [he] at h1
  | settled h1 => exact absurd he h1

theorem Inv.settled_of_idle (hs : Inv fit s) (he : s.handle.entered = none) (h : Handle) :
    Settled { s with handle := h } := by
  obtain ⟨-, hel, hn, hadv⟩ := hs.idle he
  refine ⟨hn ▸ hs.representable, ?_, ?_⟩
  · intro h'
    simp [hadv] at h'
  · intro _
    simp only
    omega

/-- Upstream calls something other than `Start()`, or the timer is interrupted already. -/
theorem inv_enter (hs : Inv fit s) (he : s.handle.entered = none) {h : Handle} (hh : h.Sound)
    (hent : h.entered ≠ none) (hst : h.started = false) : Inv fit { s with handle := h } :=
  ⟨hh, hs.representable, hs.running, .settled hent (hs.idle he).1 fun _ => hs.settled_of_idle he h,
    fun h' => by simp [hst] at h'⟩

theorem inv_fail (hs : Inv fit s) (he : s.handle.entered = none) :
    Inv fit { s with handle := s.handle.fail } := by
  obtain ⟨hc, hst, -⟩ := hs.sound.fresh he
  refine inv_enter hs he (Handle.sound_fail hs.sound he) ?_ ?_ <;>
    simp [Handle.fail, Handle.submit, hc, hst]

theorem inv_stop (hs : Inv fit s) (he : s.handle.entered = none) :
    Inv fit { s with handle := s.handle.stop } := by
  obtain ⟨hc, hst, -⟩ := hs.sound.fresh he
  refine inv_enter hs he (Handle.sound_stop hs.sound he) ?_ ?_ <;>
    simp [Handle.stop, Handle.submit, hc, hst]

theorem inv_trigger (hs : Inv fit s) (ht : s.handle.triggered = false) :
    Inv fit { s with handle := s.handle.trigger } := by
  have hp := hs.sound.untriggered ht
  refine inv_handle hs (Handle.sound_trigger hs.sound ht) ?_ ?_ ?_ <;>
    simp only [Handle.trigger, hp] <;> split <;> rfl

theorem inv_interrupt (hs : Inv fit s) (hp : s.handle.interruptContext = true) (stopped : ℤ) :
    Inv fit { s with handle := s.handle.interrupt stopped } := by
  refine inv_handle hs (Handle.sound_interrupt hs.sound hp stopped) ?_ ?_ ?_ <;>
    simp only [Handle.interrupt, Handle.abort, Handle.call, Handle.uvClose] <;>
    (repeat' split) <;> rfl

theorem inv_close (hs : Inv fit s) (hcl : s.handle.uv = .closing) :
    Inv fit { s with handle := s.handle.close } := by
  refine inv_handle hs (Handle.sound_close hs.sound hcl) ?_ ?_ ?_ <;>
    simp only [Handle.close, Handle.abort, Handle.call] <;> (repeat' split) <;> rfl

theorem Inv.started_of_active (hs : Inv fit s) (ha : s.handle.uv = .active) :
    s.handle.started = true ∧ s.handle.completed = false := by
  have hst : s.handle.started = true := by
    cases hh : s.handle.started with
    | false => simp [(hs.sound.unstarted hh).1] at ha
    | true => rfl
  refine ⟨hst, ?_⟩
  cases hco : s.handle.completed with
  | false => rfl
  | true =>
    cases hcl : s.handle.closed with
    | false => simp [(hs.sound.closing hst hco hcl).1] at ha
    | true => simp [(hs.sound.closed hcl).1] at ha

theorem inv_expire (hs : Inv fit s) (ha : s.handle.uv = .active) (stopped : ℤ) :
    Inv fit (s.expire stopped) := by
  obtain ⟨hst, hco⟩ := hs.started_of_active ha
  have herr := (hs.sound.uncompleted hco).2.2.2.1
  have hsound := Handle.sound_uvClose (e := stopped) hs.sound hst hco (.unlessError .start)
    (by simp)
  simp only [State.expire, hco, herr, Bool.false_eq_true, if_false, ne_eq, not_true_eq_false]
  exact inv_handle hs hsound rfl rfl rfl

end Handles

section Starting

/-- The clock calls the timer back: what it was given is settled. -/
theorem inv_release (hh : s.handle.Sound) (he : s.handle.entered = some .start)
    (hc : s.handle.context = none) (hst : s.handle.started = false)
    (hr : Representable s.requested) (hrun : s.clock.isPaused = false → s.clock.pending = [])
    (hent : s.entries = []) (hset : fit → Settled (s.release n)) : Inv fit (s.release n) := by
  have hsub : (s.release n).handle = { s.handle with context := some .start } := by
    simp [State.release, Handle.submit, hc]
  refine ⟨Handle.sound_submit_start hh he hc hst, hr, hrun, .settled ?_ hent hset, ?_⟩
  · rw [hsub]
    simp [he]
  · rw [hsub]
    simp [hst]

/-- The timer is the only entry of its own on the clock. -/
theorem State.entries_submit {c : Clock Callback} {r : ℤ} (hent : s.entries = [])
    (hcount : c.countdowns = s.clock.countdowns ++ [(.timer, r)]) :
    ({ s with clock := c } : State).entries = [(.timer, r)] := by
  have hold : (s.clock.countdowns.filter fun e => isTimer e.1) = [] := hent
  simp only [State.entries, hcount, List.filter_append, hold]
  simp [isTimer]

theorem inv_start (hs : Inv fit s) (he : s.handle.entered = none) (hf : fit → Fits s .start) :
    Inv fit (s.start overflow) := by
  obtain ⟨hc, hst, hco, -⟩ := hs.sound.fresh he
  obtain ⟨hent, hel, hn, hadv⟩ := hs.idle he
  rw [State.start]
  split
  · next hr =>
    have hh : s.handle.start id = { s.handle with entered := some .start }.submit .interrupted := by
      rw [Handle.start, if_pos hr]
    rw [hh]
    refine inv_enter hs he (Handle.sound_interrupted hs.sound he) ?_ ?_ <;>
      simp [Handle.submit, hc, hst]
  · next hr =>
    have hh : s.handle.start id =
        { s.handle with entered := some .start, installed := s.handle.registered } := by
      rw [Handle.start, if_neg hr]
      rfl
    have hsound := Handle.sound_accept hs.sound he
    rw [hh]
    cases hp : s.clock.isPaused with
    | false =>
      simp only [Clock.submit, hp, Bool.false_eq_true, if_false, State.releases]
      refine inv_release hsound rfl hc hst hs.representable hs.running hent fun _ => ⟨?_, ?_, ?_⟩
      · exact hn ▸ hs.representable
      · intro h'
        simp [State.release, hadv] at h'
      · intro _
        simp only [State.release]
        omega
    | true =>
      have hpaused : (s.clock.submit overflow .timer s.nanoseconds).1.isPaused = true := by
        rw [Clock.submit, if_pos hp]
        exact hp
      obtain ⟨hcount, hcalls⟩ := submit_countdowns overflow hp .timer s.nanoseconds
      simp only [hcalls, State.releases]
      refine ⟨hsound, hs.representable, fun h' => ?_,
        .waiting _ rfl hc hst (State.entries_submit hent hcount) (fun hfit => ?_) hadv, ?_⟩
      · rw [hpaused] at h'
        cases h'
      · rw [result_of_representable (hf hfit hp), add_sub_cancel_right]
        have hleft : s.nanoseconds = s.requested - s.elapsed := by omega
        exact ⟨hleft, .inr hel⟩
      · intro h'
        simp [hst] at h'

theorem run_entered (h : Handle) :
    (h.run fun _ h => h).entered = h.entered ∧ (h.run fun _ h => h).started = h.started := by
  simp only [Handle.run]
  split
  · exact ⟨rfl, rfl⟩
  · split
    · exact ⟨rfl, rfl⟩
    · constructor <;> split <;> simp only [Handle.finish, Handle.abort, Handle.call] <;>
        (repeat' split) <;> rfl

theorem inv_startTimer (hl : lib.Documented) (hs : Inv fit s) (he : s.handle.entered = some .start)
    (hc : s.handle.context = none) (hst : s.handle.started = false)
    (hco : s.handle.completed = false) (hent : s.entries = []) (hset : fit → Settled s) :
    Inv fit (s.startTimer lib) := by
  obtain ⟨hcalls, honc, hclosed, herr, -⟩ := hs.sound.uncompleted hco
  have hn := hs.sound.unfailed
  have hpe := hs.sound.pending
  simp only [State.startTimer, hst, hl.1, hl.2, herr, Bool.false_eq_true, if_false, ne_eq,
    not_true_eq_false]
  refine ⟨?_, hs.representable, hs.running, .settled (by simp [he]) hent ?_, fun _ => rfl⟩
  · constructor <;> simp_all
  · exact fun hf => ⟨(hset hf).1, (hset hf).2, (hset hf).3⟩

/-- The timer is not with the clock when a callback waits in `context_`. -/
theorem Inv.settled_of_context (hs : Inv fit s) (hc : s.handle.context.isSome = true) :
    s.handle.entered ≠ none ∧ s.entries = [] ∧ (fit → Settled s) := by
  cases hs.phase with
  | idle h1 => simp [(hs.sound.unentered h1).1] at hc
  | waiting _ _ h2 => simp [h2] at hc
  | settled h1 h2 h3 => exact ⟨h1, h2, h3⟩

theorem inv_run (hl : lib.Documented) (hs : Inv fit s) (hc : s.handle.context.isSome = true) :
    Inv fit (s.run lib) := by
  obtain ⟨hent, hentries, hset⟩ := hs.settled_of_context hc
  rw [State.run]
  split
  · next hcs =>
    have hsub := hs.sound.submitted _ hcs
    have hst := hsub.1
    have he : s.handle.entered = some .start := by
      rcases hsub.2 with ⟨-, he⟩ | ⟨h', -⟩ | ⟨h', -⟩ | ⟨h', -⟩
      · exact he
      · cases h'
      · cases h'
      · cases h'
    have hu : Inv fit { s with handle := { s.handle with context := none } } :=
      ⟨Handle.sound_unblock hs.sound, hs.representable, hs.running,
        .settled hent hentries fun hf => (hset hf).setHandle _, hs.timed⟩
    dsimp only
    split
    · exact hu
    · next hco =>
      exact inv_startTimer hl hu he rfl hst (by simpa using hco) hentries
        fun hf => (hset hf).setHandle _
  · obtain ⟨hre, hrs⟩ := run_entered s.handle
    have hsound : (s.handle.run fun _ h => h).Sound :=
      Handle.sound_run hs.sound fun h' hs' _ _ _ _ => hs'
    refine ⟨hsound, hs.representable, hs.running,
      .settled (by rw [hre]; exact hent) hentries fun hf => (hset hf).setHandle _, ?_⟩
    intro h'
    exact hs.timed (hrs ▸ h')

end Starting

section Clocks

/-- The clock operations pass their checks. -/
def Proper (s : State) : Label → Prop
  | .pause _ others => s.clock.isPaused = false ∧ s.timers others = 0
  | .resume | .advance _ => s.clock.isPaused = true
  | _ => True

instance (s : State) : ∀ l, Decidable (Proper s l)
  | .pause _ others =>
    inferInstanceAs (Decidable (s.clock.isPaused = false ∧ s.timers others = 0))
  | .resume | .advance _ => inferInstanceAs (Decidable (s.clock.isPaused = true))
  | .start | .fail | .stop | .trigger | .run | .interrupt _ | .expire _ | .close | .submit .. =>
    isTrue trivial

theorem inv_clock (hs : Inv fit s) {c : Clock Callback}
    (hrun : c.isPaused = false → c.pending = [])
    (hent : (c.countdowns.filter fun e => isTimer e.1) = s.entries) :
    Inv fit { s with clock := c } := by
  refine ⟨hs.sound, hs.representable, hrun, ?_, hs.timed⟩
  cases hs.phase with
  | idle h1 h2 h3 h4 h5 => exact .idle h1 (hent.trans h2) h3 h4 h5
  | waiting r h1 h2 h3 h4 h5 h6 => exact .waiting r h1 h2 h3 (hent.trans h4) h5 h6
  | settled h1 h2 h3 =>
    exact .settled h1 (hent.trans h2) fun hf => ⟨(h3 hf).1, (h3 hf).2, (h3 hf).3⟩

theorem inv_pause (hs : Inv fit s) {uvNow others : ℕ} (hp : Proper s (.pause uvNow others)) :
    Inv fit (s.pause overflow uvNow others) := by
  obtain ⟨hp, ht⟩ := hp
  have hnil := hs.running hp
  simp only [State.pause, Clock.pause, hp, ht, Bool.false_eq_true, if_false, ne_eq,
    not_true_eq_false]
  apply inv_clock hs
  · exact fun _ => hnil
  · rw [entries_of_pending_nil hnil]
    simp [Clock.countdowns, hnil]

theorem inv_submit (hs : Inv fit s) (m : ℕ) (n : ℤ) :
    Inv fit { s with clock := (s.clock.submit overflow (.other m) n).1 } := by
  apply inv_clock hs
  · intro hp
    simp only [Clock.submit] at hp ⊢
    split at hp
    · next hp' =>
      simp only [Clock.isPaused] at hp hp'
      simp [hp] at hp'
    · next hp' =>
      rw [if_neg hp']
      exact hs.running (by simpa using hp')
  · cases hp : s.clock.isPaused with
    | false => simp [Clock.submit, hp, State.entries]
    | true =>
      rw [(submit_countdowns overflow hp _ _).1]
      simp [State.entries, isTimer]

theorem inv_resume (hs : Inv fit s) (hp : Proper s .resume) (hf : fit → Fits s .resume) :
    Inv fit (s.resume overflow) := by
  have hp : s.clock.isPaused = true := hp
  simp only [State.resume, Clock.resume, hp, if_true]
  have hcalls : ((s.clock.pending.map fun p : Pending Callback =>
      (p.callback, result overflow (p.nanoseconds - s.clock.advanced))).filter fun e =>
        isTimer e.1) = s.entries.map fun e => (e.1, result overflow e.2) := by
    simp [State.entries, Clock.countdowns, List.filter_map, Function.comp_def]
  have hnone : ∀ c : Clock Callback, c.pending = [] →
      (c.countdowns.filter fun e => isTimer e.1) = [] := by
    intro c hc
    simp [Clock.countdowns, hc]
  have hgone : s.entries = [] → Inv fit (State.releases
      { s with clock := { s.clock with pending := [], paused := none } }
      (s.clock.pending.map fun p =>
        (p.callback, result overflow (p.nanoseconds - s.clock.advanced)))) := by
    intro hnil
    rw [releases_of_nil (by rw [hcalls, hnil]; rfl)]
    exact inv_clock hs (fun _ => rfl) ((hnone _ rfl).trans hnil.symm)
  cases hs.phase with
  | idle h1 h2 h3 h4 h5 => exact hgone h2
  | settled h1 h2 h3 => exact hgone h2
  | waiting r h1 h2 h3 h4 h5 h6 =>
    have hone : s.entries.map (fun e => (e.1, result overflow e.2)) =
        [(.timer, result overflow r)] := by rw [h4]; rfl
    rw [releases_of_one (hcalls.trans hone)]
    refine inv_release hs.sound h1 h2 h3 hs.representable (fun _ => rfl) (hnone _ rfl)
      fun hfit => ?_
    have hmem : (Callback.timer, r) ∈ s.clock.countdowns := by
      have hm : (Callback.timer, r) ∈ s.entries := by simp [h4]
      exact (List.mem_filter.mp hm).1
    have hr : Representable r := by
      obtain ⟨p, hpm, hpe⟩ := List.mem_map.mp hmem
      have hre := hf hfit p hpm
      rwa [(Prod.mk.inj hpe).2] at hre
    obtain ⟨rfl, hpos⟩ := h5 hfit
    rw [result_of_representable hr]
    refine ⟨hr, ?_, ?_⟩
    · intro h'
      simp [State.release, h6] at h'
    · intro _
      have hnn : 0 ≤ s.requested → 0 ≤ s.requested - s.elapsed := by omega
      exact ⟨rfl, hnn⟩

theorem inv_advance (hs : Inv fit s) (hp : Proper s (.advance a))
    (hf : fit → Fits s (.advance a)) : Inv fit (s.advance overflow a) := by
  have hp : s.clock.isPaused = true := hp
  obtain ⟨c, calls, hadv, hpaused, ha⟩ := exists_advance overflow hp a
  obtain ⟨hent, hcall⟩ := advance_entries hadv
  have hby : fit → c.advanced - s.clock.advanced = a := by
    intro hfit
    rw [ha, result_of_representable (hf hfit), add_sub_cancel_left]
  have hrun : c.isPaused = false → c.pending = [] := by
    intro h'
    simp only [Clock.isPaused] at h' hp
    simp [hpaused, hp] at h'
  simp only [State.advance, hadv]
  have hgone : s.entries = [] → Inv fit (State.releases { s with
      clock := c
      elapsed := if s.waiting then s.elapsed + a else s.elapsed
      advancedPast := s.advancedPast || calls.any fun e => e.1 = Callback.timer } calls) := by
    intro hnil
    have hw : s.waiting = false := by
      simpa using fun h' => waiting_iff.mp h' hnil
    have hnone : (calls.filter fun e => isTimer e.1) = [] := by simp [hcall, hnil]
    have hany := not_any_timer hnone
    rw [releases_of_nil hnone]
    simp only [hw, hany, Bool.or_false, Bool.false_eq_true, if_false]
    exact inv_clock hs hrun (by rw [hent, hnil]; rfl)
  cases hs.phase with
  | idle h1 h2 h3 h4 h5 => exact hgone h2
  | settled h1 h2 h3 => exact hgone h2
  | waiting r h1 h2 h3 h4 h5 h6 =>
    have hw : s.waiting = true := waiting_iff.mpr (by simp [h4])
    rw [h4] at hent hcall
    rcases le_or_gt r (c.advanced - s.clock.advanced) with hr | hr
    · rw [Countdown.remaining_cons_of_le hr] at hent
      rw [Countdown.expired_cons_of_le hr] at hcall
      have hany : (calls.any fun e => e.1 = Callback.timer) = true :=
        any_timer_iff.mpr (by simp [hcall])
      rw [releases_of_one (n := 0) hcall]
      refine inv_release hs.sound h1 h2 h3 hs.representable hrun hent fun hfit => ⟨?_, ?_, ?_⟩
      · simp [Representable, State.release]
      · intro _
        obtain ⟨rfl, -⟩ := h5 hfit
        have hle : s.requested ≤ s.elapsed + a := by
          have hsame := hby hfit
          omega
        exact ⟨rfl, by simpa [State.release, hw] using hle⟩
      · intro h'
        simp [State.release, hany] at h'
    · rw [Countdown.remaining_cons_of_lt hr] at hent
      rw [Countdown.expired_cons_of_lt hr] at hcall
      have hany := not_any_timer hcall
      rw [releases_of_nil hcall]
      simp only [hw, hany, h6, Bool.or_false, if_true]
      refine ⟨hs.sound, hs.representable, hrun, .waiting _ h1 h2 h3 hent (fun hfit => ?_) rfl,
        hs.timed⟩
      obtain ⟨rfl, -⟩ := h5 hfit
      have hsame := hby hfit
      exact ⟨by simp only; omega, .inl (by omega)⟩

end Clocks

section Reachable

theorem inv_next (hl : lib.Documented) (hs : Inv fit s) (he : Enabled s l) (hp : Proper s l)
    (hf : fit → Fits s l) : Inv fit (next lib overflow s l) := by
  obtain ⟨-, he⟩ := he
  cases l with
  | start => exact inv_start hs he hf
  | fail => exact inv_fail hs he
  | stop => exact inv_stop hs he
  | trigger => exact inv_trigger hs he
  | run => exact inv_run hl hs he
  | interrupt stopped => exact inv_interrupt hs he stopped
  | expire stopped => exact inv_expire hs he stopped
  | close => exact inv_close hs he
  | pause uvNow others => exact inv_pause hs hp
  | resume => exact inv_resume hs hp hf
  | advance a => exact inv_advance hs hp hf
  | submit m n => exact inv_submit hs m n

/-- A clock operation that fails its check ends the run. -/
theorem proper_of_unfailed (hn : (next lib overflow s l).handle.failed = none) : Proper s l := by
  cases l with
  | pause uvNow others =>
    simp only [next, State.pause, Clock.pause] at hn
    split at hn
    · simp [Handle.abort] at hn
    · next hc =>
      split at hc
      · cases hc
      · next hp =>
        split at hc
        · cases hc
        · next ht => exact ⟨by simpa using hp, by simpa using ht⟩
  | resume =>
    simp only [next, State.resume, Clock.resume] at hn
    split at hn
    · simp [Handle.abort] at hn
    · next hc =>
      split at hc
      · next hp => exact hp
      · cases hc
  | advance a =>
    simp only [next, State.advance, Clock.advance] at hn
    split at hn
    · simp [Handle.abort] at hn
    · next hc =>
      split at hc
      · next hp => exact hp
      · cases hc
  | _ => trivial

theorem inv_initial (h : (machine lib overflow).Initial s) : Inv fit s := by
  obtain ⟨registered, requested, clock, rfl, hr, hother, hrun⟩ := h
  refine ⟨Handle.sound_initial registered, hr, hrun, .idle rfl ?_ rfl rfl rfl, fun h' => ?_⟩
  · simp only [State.entries, initial, Clock.countdowns, List.filter_eq_nil_iff, List.mem_map]
    rintro e ⟨p, hp, rfl⟩ ht
    exact hother p hp (by simpa [isTimer] using ht)
  · simp [initial, Handle.initial] at h'

theorem reachable_inv (hl : lib.Documented)
    (h : ((machine lib overflow).restrict Fits).Reachable s) (hn : s.handle.failed = none) :
    Inv True s := by
  have hall : s.handle.failed = none → Inv True s := by
    apply h.invariant (P := fun s => s.handle.failed = none → Inv True s)
    · intro s h0 _
      have hinitial : (machine lib overflow).Initial s := h0
      exact inv_initial hinitial
    · intro s l hs he hn'
      exact inv_next hl (hs he.1.1) he.1 (proper_of_unfailed hn') fun _ => he.2
  exact hall hn

end Reachable

section Accounting

/-- The clock time that passed for the timer, and the milliseconds that libuv waited. -/
def State.accounted (s : State) : ℤ := s.elapsed + s.timeout.getD 0 * 1000000

/-- What was left when the clock let go of the timer is a whole number of milliseconds. -/
def State.Whole (s : State) : Prop := 0 ≤ s.nanoseconds ∧ 1000000 ∣ s.nanoseconds

theorem toUInt64_milliseconds {n : ℤ} (hn : 0 ≤ n) (hr : Representable n) :
    (toUInt64 (milliseconds n) : ℤ) = n / 1000000 := by
  have hd : n.tdiv 1000000 = n / 1000000 := Int.tdiv_eq_ediv_of_nonneg hn
  have hlt : n / 1000000 < 2 ^ 64 := by
    have := hr.2
    omega
  have hnn : 0 ≤ n / 1000000 := by omega
  rw [toUInt64, milliseconds, hd, Int.emod_eq_of_lt hnn hlt]
  omega

/-- A timer that starts its continuation has not waited too short where whole milliseconds were
left, and not too long where no `Advance` went past it. -/
theorem timer_accounted (hl : lib.Documented)
    (h : ((machine lib overflow).restrict Fits).Reachable s) (hn : s.handle.failed = none) {u : Uv}
    (hc : (.start, u) ∈ s.handle.calls) :
    (s.Whole → s.requested ≤ s.accounted) ∧
      (s.advancedPast = true → s.Whole ∧ s.timeout = some 0) ∧
      (0 ≤ s.requested → s.advancedPast = false → s.accounted < s.requested + 1000000) ∧
      (s.requested = 0 → 0 ≤ s.elapsed → s.timeout = some 0) := by
  have hs := reachable_inv hl h hn
  have hst := hs.sound.started_of_call hc
  have ht := hs.timed hst
  have hset : Settled s := by
    cases hs.phase with
    | idle h1 => simp [(hs.sound.unentered h1).2.1] at hst
    | waiting _ _ _ h3 => simp [h3] at hst
    | settled _ _ h3 => exact h3 trivial
  have hzero : s.nanoseconds = 0 → s.timeout = some 0 := by
    intro h0
    rw [ht, h0]
    rfl
  have hacc : 0 ≤ s.nanoseconds → s.accounted = s.elapsed + s.nanoseconds / 1000000 * 1000000 := by
    intro h0
    rw [State.accounted, ht, Option.getD_some, toUInt64_milliseconds h0 hset.representable]
  cases hadv : s.advancedPast with
  | true =>
    obtain ⟨h0, hle⟩ := hset.advanced hadv
    have hw : s.Whole := ⟨by omega, by simp [h0]⟩
    refine ⟨fun _ => ?_, fun _ => ⟨hw, hzero h0⟩, fun _ h' => by simp at h', fun _ _ => hzero h0⟩
    rw [hacc hw.1, h0]
    omega
  | false =>
    obtain ⟨hleft, hnn⟩ := hset.resumed hadv
    refine ⟨?_, fun h' => by simp at h', fun h0 _ => ?_, fun h0 hel => hzero (by omega)⟩
    · rintro ⟨h0, hdvd⟩
      rw [hacc h0, Int.ediv_mul_cancel hdvd]
      omega
    · have := hnn h0
      rw [hacc this]
      omega

theorem exists_timer_accounted : ∃ s, ((machine ⟨0, 0⟩ wrap).restrict Fits).Reachable s ∧
    s.requested = 7000000 ∧ s.timeout = some 4 ∧ s.elapsed = 3000000 ∧
      s.requested ≤ s.accounted ∧ s.accounted < s.requested + 1000000 := by
  have h0 : ((machine ⟨0, 0⟩ wrap).restrict Fits).Initial (initial true 7000000 .initial) :=
    ⟨true, 7000000, .initial, rfl, by decide, by decide, fun _ => rfl⟩
  have he : ((machine ⟨0, 0⟩ wrap).restrict Fits).exec (initial true 7000000 .initial)
      [.pause 0 0, .start, .advance 3000000, .resume, .run, .expire 0, .close] = some _ := rfl
  have hr := Machine.exec_reachable (.initial h0) he
  have h := timer_accounted ⟨rfl, rfl⟩ hr rfl (u := .closed) (by decide)
  exact ⟨_, hr, rfl, rfl, rfl, h.1 ⟨by decide, by decide⟩, h.2.2.1 (by decide) rfl⟩

/-- An `Advance` can go further past a timer than a millisecond. -/
theorem exists_timer_late : ∃ s, ((machine ⟨0, 0⟩ wrap).restrict Fits).Reachable s ∧
    (.start, .closed) ∈ s.handle.calls ∧ 0 ≤ s.requested ∧
      ¬ s.accounted < s.requested + 1000000 := by
  have h0 : ((machine ⟨0, 0⟩ wrap).restrict Fits).Initial (initial true 1000000 .initial) :=
    ⟨true, 1000000, .initial, rfl, by decide, by decide, fun _ => rfl⟩
  have he : ((machine ⟨0, 0⟩ wrap).restrict Fits).exec (initial true 1000000 .initial)
      [.pause 0 0, .start, .advance 5000000, .run, .expire 0, .close] = some _ := rfl
  exact ⟨_, Machine.exec_reachable (.initial h0) he, by decide, by decide, by decide⟩

end Accounting

section Completion

theorem proper_inv (hl : lib.Documented)
    (h : ((machine lib overflow).restrict Proper).Reachable s) : Inv False s := by
  apply h.invariant
  · intro s h0
    have h0 : (machine lib overflow).Initial s := h0
    exact inv_initial h0
  · rintro s l hs ⟨he, hp⟩
    exact inv_next hl hs he hp False.elim

/-- Timers whose clock is used as its checks demand, and signals, complete at most once. -/
theorem timer_signal_complete_once {init signum : ℤ} (hl : lib.Documented) (hi : init = 0) :
    (∀ s, ((machine lib overflow).restrict Proper).Reachable s → s.handle.CompletesOnce) ∧
      ∀ h, (Signal.machine init signum).Reachable h → h.CompletesOnce :=
  ⟨fun _ h => (proper_inv hl h).sound.completesOnce,
    fun _ h => (Signal.reachable_sound hi h).completesOnce⟩

/-- A timer that is interrupted after it has been started, and a signal as well. -/
theorem timer_interrupt_complete_once :
    (∃ s, ((machine ⟨0, 0⟩ wrap).restrict Proper).Reachable s ∧
      s.handle.calls = [(.stop, .closed)] ∧ s.timeout = some 4 ∧ s.handle.CompletesOnce) ∧
      ∃ h, (Signal.machine 0 2).Reachable h ∧ h.calls = [(.stop, .closed)] ∧ h.CompletesOnce := by
  obtain ⟨htimer, hsignal⟩ :
      (∀ s, ((machine ⟨0, 0⟩ wrap).restrict Proper).Reachable s → s.handle.CompletesOnce) ∧
        ∀ h, (Signal.machine 0 2).Reachable h → h.CompletesOnce :=
    timer_signal_complete_once ⟨rfl, rfl⟩ rfl
  have h0 : ((machine ⟨0, 0⟩ wrap).restrict Proper).Initial (initial true 7000000 .initial) :=
    ⟨true, 7000000, .initial, rfl, by decide, by decide, fun _ => rfl⟩
  have he : ((machine ⟨0, 0⟩ wrap).restrict Proper).exec (initial true 7000000 .initial)
      [.pause 0 0, .start, .advance 3000000, .resume, .run, .trigger, .interrupt 0, .close] =
        some _ := rfl
  have h0' : (Signal.machine 0 2).Initial (.initial true) := ⟨true, rfl⟩
  have he' : (Signal.machine 0 2).exec (.initial true)
      [.start, .run 0, .trigger, .interrupt 0, .close] = some _ := rfl
  have hr := Machine.exec_reachable (.initial h0) he
  have hr' := Machine.exec_reachable (.initial h0') he'
  exact ⟨⟨_, hr, rfl, rfl, htimer _ hr⟩, _, hr', rfl, hsignal _ hr'⟩

/-- The clock can not be paused while the timer is active. -/
theorem exists_pause_aborts : ∃ s, (machine ⟨0, 0⟩ wrap).Reachable s ∧
    s.handle.failed = some .clock := by
  have h0 : (machine ⟨0, 0⟩ wrap).Initial (initial true 1000000 .initial) :=
    ⟨true, 1000000, .initial, rfl, by decide, by decide, fun _ => rfl⟩
  have he : (machine ⟨0, 0⟩ wrap).exec (initial true 1000000 .initial)
      [.start, .run, .pause 0 0] = some _ := rfl
  exact ⟨_, Machine.exec_reachable (.initial h0) he, rfl⟩

end Completion

end Eventuals.EventLoop.Timer
