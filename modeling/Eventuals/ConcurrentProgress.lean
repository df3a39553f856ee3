import Eventuals.ConcurrentHistory

/-! Which `CHECK`s `Concurrent(f)` may fail, and what it still waits for when it cannot go on. -/
namespace Eventuals.Concurrent

open Transition (Machine)

variable {X V E : Type*} {s t : State X V E} {l : Label X V E}

/-- `Concurrent` has no step of its own to take. -/
def Quiescent (s : State X V E) : Prop :=
  (machine X V E).Quiet (fun l => l.internal = true) s

/-- Downstream has called `Next()` and got no answer. -/
def State.Unanswered (s : State X V E) : Prop :=
  s.egress = .acquiring ∨ s.egress = .waiting ∨ s.egress = .awaitingEnded ∧ s.doneCalled = false

/-- Upstream has been sent a `Next()` or a `Done()` that it has not answered. -/
def State.Owed (s : State X V E) : Prop :=
  s.ingress = .awaitingNext ∨ s.ingress = .awaitingDone

section Checks

/-- The interrupt's handler can still be asked whether it has been triggered. -/
def Receivable (s : State X V E) : Label X V E → Prop
  | .upstreamValue _ => s.handler ≠ some false
  | _ => True

theorem notifyAll_failed (hs : s.egressSaved = true) (hw : s.waitForDone ≠ .notBegun) :
    s.notifyAll.failed = s.failed := by
  rw [notifyAll_eq hs hw]
  split <;> rfl

theorem failed_body {arg : X} (h : s.failed = none) (hc : s.handler ≠ some false) :
    (s.body arg).failed = none := by
  cases hh : s.handler with
  | none => simp [State.body, hh, h]
  | some callback =>
    cases callback with
    | false => exact absurd hh hc
    | true =>
      rcases body_cases (s := s) arg with hb | ⟨_, _, _, hb, -⟩
      · by_cases ht : s.installed = .triggered <;>
          simp [State.body, hh, State.installOrExecuteIfTriggered, ht, HandlerState.passes,
            HandlerState.value, h]
      · rw [hb]
        exact h

theorem failed_fiberEpilogue {i : ℕ} {o : Outcome E} (hi : Inv s) (h : s.failed = none)
    (hc : s.control i = some (.epilogue o)) : (s.fiberEpilogue i o).failed = none := by
  have hg := hi.ingress_of_control hc
  have hs := hi.egressSaved_of_ingress hg
  have hw := hi.waitForDone_of_ingress hg
  cases o with
  | none =>
    exact (notifyAll_failed (s := { (s.finishFiber i).record none with
      fibersDone := Concurrent.fibersDone (s.finishFiber i).fibers }) hs hw).trans h
  | some e =>
    exact (notifyAll_failed (s := ((s.finishFiber i).record (some e)).interruptFibers) hs
      hw).trans h

theorem failed_doneSection (hi : Inv s) (h : s.failed = none) (hd : s.done = .acquiring) :
    s.doneSection.failed = none := by
  have hw : s.waitForDone ≠ .notBegun := fun hw => by simpa [hd] using (hi.notBegun hw).2.2.1
  unfold State.doneSection
  dsimp only
  split
  · refine Eq.trans (congrArg State.failed (notifyDone_eq ?_)) ?_
    · exact hw
    · exact h
  · exact h

/-- A step fails a `CHECK` only where `Body()` finds the handler without its callback. -/
theorem failed_next (hi : Inv s) (h : s.failed = none) (hr : Ready s l) (hc : Receivable s l) :
    (next s l).failed = none := by
  cases l with
  | begin | upstreamInstall | next | fiberValue | fiberOutcome | ingressBegin | startFiber
  | fiberStart => exact h
  | upstreamValue arg => exact failed_body h hc
  | upstreamOutcome o =>
    simp only [next, State.upstreamOutcome]
    split <;> exact h
  | downstreamDone =>
    have hd := hi.done_idle (by simp [show s.egress = .idle from hr])
      (by simp [show s.egress = .idle from hr])
    simpa [next, State.callDone, hd] using h
  | trigger =>
    simp only [next, State.trigger]
    split
    · next hx =>
      rw [if_pos (hi.own hx).1]
      exact h
    · exact h
  | createOrReuseFiber arg contexts =>
    change (s.createOrReuseFiber arg contexts).failed = none
    rcases create_cases arg contexts hi.toBase with
      he | ⟨-, -, -, i, fibers, he, -⟩
    · rw [he]
      exact h
    · rw [he]
      exact h
  | ingressEpilogue o =>
    have hg : s.ingress ≠ .notBegun := by simp [show s.ingress = .epilogue o from hr]
    exact (notifyAll_failed (s := { s.record o with
      upstreamDone := true, fibersDone := Concurrent.fibersDone s.fibers,
      ingress := .finished }) (hi.egressSaved_of_ingress hg) (hi.waitForDone_of_ingress hg)).trans h
  | egress =>
    have he : s.egress = .acquiring := hr
    have hd := hi.done_idle (by simp [he]) (by simp [he])
    change s.egressSection.failed = none
    rcases egress_cases s with ⟨-, -, hx⟩ | ⟨-, -, -, hx⟩ | ⟨value, values, -, -, hx⟩ |
      ⟨-, -, -, -, hx⟩
    · rw [hx]
      exact h
    · rw [hx]
      exact h
    · rw [hx]
      exact h
    · rw [hx]
      simpa [State.callDone, hd] using h
  | waitForDone =>
    simp only [next, State.waitForDoneSection]
    split <;> exact h
  | ended => exact (congrArg State.failed (ended_eq hi.toBase hr)).trans h
  | done => exact failed_doneSection hi h hr
  | interrupt =>
    obtain ⟨ahead, ha⟩ := hr
    have hg := (hi.triggered (by simp [ha])).2
    exact (notifyAll_failed (s := { s with interrupted := true, interrupt := .ran }.interruptFibers)
      (hi.egressSaved_of_ingress hg) (hi.waitForDone_of_ingress hg)).trans h
  | push i value =>
    have hg := hi.ingress_of_control hr
    exact (congrArg State.failed (push_eq (hi.egressSaved_of_ingress hg))).trans h
  | fiberEpilogue i o => exact failed_fiberEpilogue hi h hr

theorem failed_reachable (h : ((machine X V E).restrict Receivable).Reachable s) :
    s.failed = none := by
  have hboth : Inv s ∧ s.failed = none := by
    refine h.invariant (P := fun s => Inv s ∧ s.failed = none) ?_ ?_
    · rintro s ⟨registered, rfl⟩
      exact ⟨inv_init registered, rfl⟩
    · intro s l hi he
      exact ⟨inv_next hi.1 he.1.2, failed_next hi.1 hi.2 he.1.2 he.2⟩
  exact hboth.2

end Checks

section Quiet

/-- Where each party stands when `Concurrent` cannot go on. -/
structure Stuck (s : State X V E) : Prop where
  egress : s.egress ≠ .acquiring
  waitForDone : s.waitForDone = .notBegun ∨ s.waitForDone = .waiting ∨ s.waitForDone = .finished
  done : s.done ≠ .acquiring
  interrupt : s.interrupt = .idle ∨ s.interrupt = .ran
  ingress : s.ingress = .notBegun ∧ s.egressSaved = false ∨ s.Owed ∨ s.ingress = .finished
  control : ∀ i c, s.control i = some c → c = .running ∨ c = .finished

theorem stuck_of_quiescent (hi : Inv s) (h : s.failed = none) (hq : Quiescent s) : Stuck s := by
  have quiet : ∀ l : Label X V E, l.internal = true → ¬ Ready s l :=
    fun l hl hr => hq l hl ⟨h, hr⟩
  have hint : ∀ ahead, s.interrupt ≠ .acquiring ahead :=
    fun ahead ha => quiet .interrupt rfl ⟨ahead, ha⟩
  have hstart : ∀ arg i, s.ingress ≠ .start arg i := fun arg i => quiet (.startFiber arg i) rfl
  refine ⟨quiet .egress rfl, ?_, quiet .done rfl, ?_, ?_, ?_⟩
  · have hw := quiet .waitForDone rfl
    have he := quiet .ended rfl
    cases hx : s.waitForDone with
    | notBegun => simp
    | waiting => simp
    | acquiring => exact (hw hx).elim
    | ending => exact (he hx).elim
    | finished => simp
  · cases hx : s.interrupt with
    | idle => simp
    | acquiring ahead => exact (hint ahead hx).elim
    | ran => simp
  · cases hx : s.ingress with
    | notBegun =>
      refine Or.inl ⟨rfl, ?_⟩
      by_contra hs
      exact quiet .ingressBegin rfl ⟨by simpa using hs, hx⟩
    | awaitingNext => exact Or.inr (Or.inl (Or.inl hx))
    | create arg => exact (quiet (.createOrReuseFiber arg fun _ => ⟨false, false⟩) rfl
        ⟨hx, hint true⟩).elim
    | start arg i => exact (hstart arg i hx).elim
    | awaitingDone => exact Or.inr (Or.inl (Or.inr hx))
    | epilogue o => exact (quiet (.ingressEpilogue o) rfl hx).elim
    | finished => simp
    | dropped => exact (hi.kept hx).elim
  · intro i c hc
    cases c with
    | created =>
      obtain ⟨arg, ha⟩ := (hi.created i).mp hc
      exact (hstart arg i ha).elim
    | submitted => exact (quiet (.fiberStart i) rfl hc).elim
    | running => simp
    | pushing value => exact (quiet (.push i value) rfl hc).elim
    | epilogue o => exact (quiet (.fiberEpilogue i o) rfl hc).elim
    | finished => simp

theorem quiescent_of_stuck (h : Stuck s) : Quiescent s := by
  rintro l hl ⟨-, hr⟩
  have hi : ∀ {ingress : Ingress X E}, s.ingress = ingress → ingress = .notBegun ∨
      ingress = .awaitingNext ∨ ingress = .awaitingDone ∨ ingress = .finished := by
    rintro _ rfl
    rcases h.ingress with hg | (hg | hg) | hg <;> simp [hg]
  have hc : ∀ {i c}, s.control i = some c → c = .running ∨ c = .finished := h.control _ _
  cases l <;> simp only [Label.internal, Bool.false_eq_true] at hl
  case ingressBegin =>
    rcases h.ingress with ⟨-, hs⟩ | (hg | hg) | hg <;> simp_all [Ready]
  case createOrReuseFiber arg contexts => simpa using hi hr.1
  case startFiber arg i => simpa using hi hr
  case ingressEpilogue o => simpa using hi hr
  case egress => exact h.egress hr
  case waitForDone => simpa [show s.waitForDone = .acquiring from hr] using h.waitForDone
  case ended => simpa [show s.waitForDone = .ending from hr] using h.waitForDone
  case done => exact h.done hr
  case interrupt =>
    obtain ⟨ahead, ha⟩ := hr
    simpa [ha] using h.interrupt
  case fiberStart i => simpa using hc hr
  case push i value => simpa using hc hr
  case fiberEpilogue i o => simpa using hc hr

/-- With no fiber left inside `f`, every fiber is done. -/
theorem Stuck.allDone (h : Stuck s) (hi : Inv s) (hf : ∀ i, s.control i ≠ some .running) :
    fibersDone s.fibers = true := by
  rw [fibersDone_iff]
  intro f hm
  obtain ⟨i, hfi⟩ := List.mem_iff_getElem?.mp hm
  have hc : s.control i = some f.control := control_eq_some.mpr ⟨f, hfi, rfl⟩
  rcases h.control i _ hc with hr | hr
  · exact absurd (hr ▸ hc) (hf i)
  · exact (hi.done_iff f hm).mpr hr

/-- Once the flags are set and downstream is done, `Ended()` has been delivered. -/
theorem Stuck.terminated (h : Stuck s) (hi : Inv s) (hd : s.done ≠ .idle)
    (hu : s.upstreamDone = true) (hf : s.fibersDone = true) : s.egress = .terminated := by
  have hdown : s.downstreamDone = true := by
    rw [hi.downstreamDone_iff]
    cases hx : s.done with
    | idle => exact (hd hx).elim
    | acquiring => exact (h.done hx).elim
    | ran => rfl
  rcases h.waitForDone with hw | hw | hw
  · exact absurd (hi.notBegun hw).2.2.1 hd
  · exact (hi.waiting hw ⟨hdown, hu, hf⟩).elim
  · exact hi.finished hw

end Quiet

section Wakeups

def Label.triggers : Label X V E → Bool
  | .trigger => true
  | _ => false

def Uninterrupted (_ : State X V E) (l : Label X V E) : Prop :=
  l.triggers = false

instance (s : State X V E) (l : Label X V E) : Decidable (Uninterrupted s l) :=
  inferInstanceAs (Decidable (l.triggers = false))

/-- Nobody waits in vain. -/
structure Awake (s : State X V E) : Prop where
  waiting : s.egress = .waiting →
    s.values = [] ∧ ¬ (s.upstreamDone = true ∧ s.fibersDone = true)
  quiescent : Quiescent s → s.Unanswered → s.Owed ∨ ∃ i, s.control i = some .running

/-- What only the steps of `Label.marks` change. -/
def State.marks (s : State X V E) : Installed × Option Bool × Bool × Bool :=
  (s.installed, s.handler, s.egressSaved, s.doneCalled)

def Label.marks : Label X V E → Bool
  | .upstreamValue _ | .upstreamInstall | .trigger | .egress | .downstreamDone => true
  | _ => false

theorem marks_next (hl : l.marks = false) : (next s l).marks = s.marks := by
  cases l with
  | upstreamValue | upstreamInstall | trigger | egress | downstreamDone =>
    simp [Label.marks] at hl
  | begin | next | fiberValue | fiberOutcome | ingressBegin | startFiber | fiberStart => rfl
  | upstreamOutcome o =>
    simp only [next, State.upstreamOutcome]
    split <;> rfl
  | createOrReuseFiber arg contexts =>
    simp only [next, State.createOrReuseFiber]
    split
    · split <;> rfl
    · rfl
  | ingressEpilogue o =>
    obtain ⟨e, w, c, -, -, hx⟩ := ingressEpilogue_shape s o
    simp only [next, hx]
    rfl
  | waitForDone =>
    simp only [next, State.waitForDoneSection]
    split <;> rfl
  | ended =>
    simp only [next, State.endedSection]
    split <;> rfl
  | done =>
    obtain ⟨w, c, -, hx⟩ := doneSection_shape s
    simp only [next, hx]
    rfl
  | interrupt =>
    obtain ⟨e, w, c, -, -, hx⟩ := notifyAll_shape
      ({ s with interrupted := true, interrupt := .ran }.interruptFibers)
    simp only [next, State.interruptSection, hx]
    rfl
  | push i value =>
    obtain ⟨e, c, -, hx⟩ := push_shape s i value
    simp only [next, hx]
    rfl
  | fiberEpilogue i o =>
    obtain ⟨e, w, c, -, -, hx⟩ := fiberEpilogue_shape s i o
    simp only [next, hx]
    split <;> rfl

theorem marks_egressSection :
    s.egressSection.marks = (s.installed, s.handler, true, s.doneCalled) := by
  rcases egress_cases s with ⟨-, -, hx⟩ | ⟨-, -, -, hx⟩ | ⟨value, values, -, -, hx⟩ |
    ⟨-, -, -, -, hx⟩
  · rw [hx]
    rfl
  · rw [hx]
    rfl
  · rw [hx]
    rfl
  · obtain ⟨d, c, hd⟩ := callDone_shape { s with egressSaved := true, egress := .awaitingEnded }
    rw [hx, hd]
    rfl

theorem marks_downstreamDone :
    (next s .downstreamDone).marks = (s.installed, s.handler, s.egressSaved, true) := by
  obtain ⟨d, c, hd⟩ := callDone_shape { s with egress := .awaitingEnded, doneCalled := true }
  simp only [next, hd]
  rfl

theorem not_triggered (h : ((machine X V E).restrict Uninterrupted).Reachable s) :
    s.installed ≠ .triggered := by
  refine h.invariant (P := fun s => s.installed ≠ .triggered) ?_ ?_
  · rintro s ⟨registered, rfl⟩
    simp [State.init]
  · rintro s l ht ⟨⟨-, hr⟩, hc⟩
    cases hl : l.marks with
    | false =>
      have hx : (next s l).installed = s.installed := congrArg Prod.fst (marks_next hl)
      exact hx ▸ ht
    | true =>
      cases l <;> simp only [Label.marks, Bool.false_eq_true] at hl
      case upstreamValue arg =>
        change (s.body arg).installed ≠ .triggered
        rcases body_cases (s := s) arg with hb | ⟨_, _, _, hb, hx⟩
        · rw [hb]
          exact ht
        · rw [hb]
          rcases hx with ⟨-, -, rfl, -⟩ | ⟨-, hx, -⟩ | ⟨-, -, -, rfl, -⟩
          · exact ht
          · exact absurd hx ht
          · simp
      case upstreamInstall => simp [machine, Machine.restrict, next]
      case trigger => simp [Uninterrupted, Label.triggers] at hc
      case egress =>
        have hm : s.egressSection.installed = s.installed := congrArg Prod.fst marks_egressSection
        change s.egressSection.installed ≠ .triggered
        rwa [hm]
      case downstreamDone =>
        have hm : (next s .downstreamDone).installed = s.installed :=
          congrArg Prod.fst marks_downstreamDone
        change (next s .downstreamDone).installed ≠ .triggered
        rwa [hm]

theorem failed_uninterrupted (h : ((machine X V E).restrict Uninterrupted).Reachable s) :
    s.failed = none := by
  induction h with
  | initial h0 =>
    obtain ⟨registered, rfl⟩ := h0
    rfl
  | @step s t l h hs ih =>
    obtain ⟨⟨⟨-, hr⟩, -⟩, rfl⟩ := hs
    have hi := inv_reachable h.of_restrict
    refine failed_next hi ih hr ?_
    cases l with
    | upstreamValue arg =>
      intro hx
      exact not_triggered h (hi.triggered (hi.handler_iff.mp hx)).1
    | _ => trivial

/-- Downstream goes unanswered only as long as upstream or a fiber has more to say. -/
theorem Stuck.owed_or_running (hs : Stuck s) (hi : Inv s) (hh : History s) (hu : s.Unanswered) :
    s.Owed ∨ ∃ i, s.control i = some .running := by
  by_contra hn
  simp only [not_or, not_exists] at hn
  have hall := hs.allDone hi hn.2
  rcases hu with he | he | ⟨he, hc⟩
  · exact hs.egress he
  · have hup : s.upstreamDone = true := by
      rcases hs.ingress with ⟨-, hg⟩ | hg | hg
      · simp [hi.saved (Or.inr he)] at hg
      · exact absurd hg hn.1
      · exact hi.upstreamDone_iff.mpr hg
    exact (hi.egress_waiting he).2 ⟨hup, hi.cached hup hall⟩
  · obtain ⟨-, -, hup, hfd⟩ := hh.natural hc (hi.awaiting he)
    have := hs.terminated hi (hi.awaiting he) hup hfd
    simp [he] at this

theorem awake_of_uninterrupted (h : ((machine X V E).restrict Uninterrupted).Reachable s) :
    Awake s := by
  have hi := inv_reachable h.of_restrict
  have hh := history_reachable h.of_restrict
  have hf := failed_uninterrupted h
  exact ⟨hi.egress_waiting, fun hq hu => (stuck_of_quiescent hi hf hq).owed_or_running hi hh hu⟩

/-- A fiber waits inside `f` and upstream owes an answer, while downstream waits. -/
def blockedFiber : List (Label ℕ ℕ ℕ) :=
  [.begin, .next, .egress, .ingressBegin, .upstreamValue 1, .createOrReuseFiber 1 free,
    .startFiber 1 0, .fiberStart 0]

theorem blockedFiber_awake : ∃ s : State ℕ ℕ ℕ,
    s.egress = .waiting ∧ s.control 0 = some .running ∧ Awake s := by
  obtain ⟨s, hs, hp⟩ := Machine.exists_reachable_of_exec
    (M := (machine ℕ ℕ ℕ).restrict Uninterrupted) blockedFiber
    (fun s => decide (s.egress = .waiting ∧ s.control 0 = some .running)) ⟨true, rfl⟩ (by decide)
  obtain ⟨he, hc⟩ := of_decide_eq_true hp
  exact ⟨s, he, hc, awake_of_uninterrupted hs⟩

end Wakeups

section Done

/-- Downstream calls `Done()` only after a `Next()`, and no value comes from upstream once the
interrupt has run the handler's callback. -/
def Asked (s : State X V E) : Label X V E → Prop
  | .upstreamValue _ => s.handler ≠ some false
  | .downstreamDone => s.egressSaved = true
  | _ => True

instance (s : State X V E) : (l : Label X V E) → Decidable (Asked s l)
  | .upstreamValue _ => inferInstanceAs (Decidable (s.handler ≠ some false))
  | .downstreamDone => inferInstanceAs (Decidable (s.egressSaved = true))
  | .begin | .upstreamOutcome _ | .upstreamInstall | .next | .trigger | .fiberValue .. |
    .fiberOutcome .. | .ingressBegin | .createOrReuseFiber .. | .startFiber .. |
    .ingressEpilogue _ | .egress | .waitForDone | .ended | .done | .interrupt | .fiberStart _ |
    .push .. | .fiberEpilogue .. => isTrue trivial

/-- Downstream gets `Ended()` after its `Done()`, once upstream has answered and the interrupted
fibers have finished. -/
structure EndsOnDone (s : State X V E) : Prop where
  once : s.terminals.length ≤ 1
  ended : s.doneCalled = true → s.terminals ≠ [] → s.terminals = [none]
  delivered : s.doneCalled = true → Quiescent s → ¬ s.Owed →
    (∀ f ∈ s.fibers, f.interrupted = true → f.control ≠ .running) → s.terminals = [none]

theorem marks_body {arg : X} :
    (s.body arg).egressSaved = s.egressSaved ∧ (s.body arg).doneCalled = s.doneCalled := by
  rcases body_cases (s := s) arg with hb | ⟨_, _, _, hb, -⟩ <;> simp [hb, State.fail]

theorem saved_next (hs : s.doneCalled = true → s.egressSaved = true) (hc : Asked s l) :
    (next s l).doneCalled = true → (next s l).egressSaved = true := by
  cases hl : l.marks with
  | false =>
    have hm := marks_next (s := s) hl
    simp only [State.marks, Prod.mk.injEq] at hm
    rw [hm.2.2.1, hm.2.2.2]
    exact hs
  | true =>
    cases l <;> simp only [Label.marks, Bool.false_eq_true] at hl
    case upstreamValue arg =>
      change (s.body arg).doneCalled = true → (s.body arg).egressSaved = true
      rw [marks_body.1, marks_body.2]
      exact hs
    case upstreamInstall => exact hs
    case trigger =>
      simp only [next, State.trigger]
      split
      · split <;> exact hs
      · exact hs
    case egress =>
      have hm := marks_egressSection (s := s)
      simp only [State.marks, Prod.mk.injEq] at hm
      exact fun _ => hm.2.2.1
    case downstreamDone =>
      have hm := marks_downstreamDone (s := s)
      simp only [State.marks, Prod.mk.injEq] at hm
      exact fun _ => hm.2.2.1.trans hc

theorem saved_reachable (h : ((machine X V E).restrict Asked).Reachable s) :
    s.doneCalled = true → s.egressSaved = true := by
  refine h.invariant (P := fun s => s.doneCalled = true → s.egressSaved = true) ?_ ?_
  · rintro s ⟨registered, rfl⟩
    simp [State.init]
  · intro s l hs he
    exact saved_next hs he.2

/-- Where upstream has answered and every fiber is done, a `Done()` has been answered. -/
theorem Stuck.ended (h : Stuck s) (hi : Inv s) (hd : s.done ≠ .idle) (hs : s.egressSaved = true)
    (ho : ¬ s.Owed) (hf : fibersDone s.fibers = true) : s.egress = .terminated := by
  have hu : s.upstreamDone = true := by
    rcases h.ingress with ⟨-, hg⟩ | hg | hg
    · simp [hs] at hg
    · exact absurd hg ho
    · exact hi.upstreamDone_iff.mpr hg
  exact h.terminated hi hd hu (hi.cached hu hf)

theorem endsOnDone_of_asked (h : ((machine X V E).restrict Asked).Reachable s) : EndsOnDone s := by
  have hi := inv_reachable h.of_restrict
  have hh := history_reachable h.of_restrict
  have hf := failed_reachable (h.mono (D := Receivable) fun s l hc => by
    cases l <;> first | exact hc | trivial)
  refine ⟨(concurrent_correct h.of_restrict).once, ?_, ?_⟩
  · intro hc ht
    simpa [hc] using (hh.terminals_eq ht).2
  · intro hc hq ho hint
    have hst := stuck_of_quiescent hi hf hq
    have hd : s.done = .ran := by
      cases hx : s.done with
      | idle => exact (hh.doneCalled hc hx).elim
      | acquiring => exact (hst.done hx).elim
      | ran => rfl
    have hall : fibersDone s.fibers = true := by
      refine hst.allDone hi fun i hr => ?_
      obtain ⟨f, hf, hfc⟩ := control_eq_some.mp hr
      have hm := List.mem_of_getElem? hf
      have hnd : f.done = false := by
        by_contra hnd
        have := (hi.done_iff f hm).mp (by simpa using hnd)
        simp [this] at hfc
      exact hint f hm (hi.stopped (Or.inr (hi.downstreamDone_iff.mpr hd)) f hm hnd) hfc
    have ht := hst.ended hi (by simp [hd]) (saved_reachable h hc) ho hall
    simpa [hc] using hh.terminated ht

/-- Downstream is done with the first value while the fiber that produced it has more to do. -/
def doneAfterFirst : List (Label ℕ ℕ ℕ) :=
  blockedFiber ++ [.fiberValue 0 10, .push 0 10, .egress, .downstreamDone, .done,
    .fiberOutcome 0 (some .stopped), .fiberEpilogue 0 (some .stopped), .upstreamOutcome none,
    .ingressEpilogue none, .waitForDone, .ended]

theorem doneAfterFirst_ends : ∃ s : State ℕ ℕ ℕ,
    s.doneCalled = true ∧ s.recorded = [.stopped] ∧ s.terminals = [none] ∧ EndsOnDone s := by
  obtain ⟨s, hs, hp⟩ := Machine.exists_reachable_of_exec (M := (machine ℕ ℕ ℕ).restrict Asked)
    doneAfterFirst (fun s => decide (s.doneCalled = true ∧ s.recorded = [.stopped] ∧
      s.terminals = [none])) ⟨true, rfl⟩ (by decide)
  obtain ⟨hd, hr, ht⟩ := of_decide_eq_true hp
  exact ⟨s, hd, hr, ht, endsOnDone_of_asked hs⟩

/-- `_TakeRange::Continuation` (`take.h`), where it stands in the range. -/
structure TakeRange where
  begin : ℕ
  amount : ℕ
  i : ℕ

def takeFirst (amount : ℕ) : TakeRange :=
  { begin := 0, amount := amount, i := 0 }

/-- What its `Next()` calls of the stream it takes from, unless a `CHECK` fails. -/
def TakeRange.next (t : TakeRange) : Option (Label X V E) :=
  if t.i < t.begin + t.amount then some .next
  else if t.i = t.begin + t.amount then some .downstreamDone
  else none

/-- `Concurrent(f) >> TakeFirst(0)`. -/
def takeNothing : List (Label ℕ ℕ ℕ) :=
  .begin :: (takeFirst 0).next.toList ++ [.done]

/-- The ingress never begins, so nobody ever sets `upstream_done_`. -/
theorem takeNothing_hangs :
    ¬ ∀ s : State ℕ ℕ ℕ, (machine ℕ ℕ ℕ).Reachable s → EndsOnDone s := by
  intro hall
  obtain ⟨s, hs, hp⟩ := Machine.exists_reachable_of_exec (M := machine ℕ ℕ ℕ) takeNothing
    (fun s => decide (s.fibers = [] ∧ s.doneCalled = true ∧ s.terminals = [] ∧
      s.ingress = .notBegun ∧ s.egressSaved = false ∧ s.egress = .awaitingEnded ∧
      s.waitForDone = .waiting ∧ s.done = .ran ∧ s.interrupt = .idle)) ⟨true, rfl⟩ (by decide)
  obtain ⟨hf, hd, ht, hi, hsaved, he, hw, hdone, hint⟩ := of_decide_eq_true hp
  have hst : Stuck s :=
    { egress := by simp [he]
      waitForDone := by simp [hw]
      done := by simp [hdone]
      interrupt := by simp [hint]
      ingress := Or.inl ⟨hi, hsaved⟩
      control := by simp [State.control, hf] }
  have hended := (hall s hs).delivered hd (quiescent_of_stuck hst) (by simp [State.Owed, hi])
    (by simp [hf])
  simp [ht] at hended

end Done

section Interrupts

/-- As `Asked`, and the interrupt is not triggered while a fiber is at work and an upstream handler
has taken the place of `Concurrent`'s. -/
def Uncrossed (s : State X V E) : Label X V E → Prop
  | .trigger => s.installed = .upstream → fibersDone s.fibers = true
  | l => Asked s l

theorem Uncrossed.asked (h : Uncrossed s l) : Asked s l := by
  cases l <;> first | exact h | trivial

instance (s : State X V E) (l : Label X V E) : Decidable (Uncrossed s l) :=
  match l with
  | .trigger => inferInstanceAs (Decidable (s.installed = .upstream → fibersDone s.fibers = true))
  | .upstreamValue arg => inferInstanceAs (Decidable (Asked s (.upstreamValue arg)))
  | .downstreamDone => inferInstanceAs (Decidable (Asked s .downstreamDone))
  | .begin | .upstreamOutcome _ | .upstreamInstall | .next | .fiberValue .. |
    .fiberOutcome .. | .ingressBegin | .createOrReuseFiber .. | .startFiber .. |
    .ingressEpilogue _ | .egress | .waitForDone | .ended | .done | .interrupt | .fiberStart _ |
    .push .. | .fiberEpilogue .. => isTrue trivial

/-- Nothing is left for `Concurrent` to do, and downstream has called it. -/
def Settled (s : State X V E) : Prop :=
  Quiescent s ∧ s.egress ≠ .notBegun ∧ s.egress ≠ .idle

/-- What an interrupt leaves behind once it has been triggered. -/
structure Interruptible (s : State X V E) : Prop where
  checks : s.installed = .triggered → s.failed = none
  fibers : s.installed = .triggered → (∀ ahead, s.interrupt ≠ .acquiring ahead) →
    ∀ f ∈ s.fibers, f.done = false → f.interrupted = true
  upstream : s.installed = .triggered → Settled s → s.ingress ≠ .awaitingNext →
    s.ingress = .awaitingDone ∨ s.upstreamOver = true
  delivered : s.installed = .triggered → Settled s → ¬ s.Owed →
    (∀ i, s.control i ≠ some .running) → s.terminals ≠ []

/-- The ingress has a value in hand. -/
def Ingress.Busy (ingress : Ingress X E) : Prop :=
  (∃ arg, ingress = .create arg) ∨ ∃ arg i, ingress = .start arg i

/-- The fibers when the handler has not run, or has not been installed. -/
structure Handled (s : State X V E) : Prop where
  unregistered : s.handler = none → s.installed = .placeholder
  other : s.installed = .upstream → ¬ s.ingress.Busy
  first : s.installed = .placeholder → s.handler ≠ none →
    s.fibers = [] ∧ ¬ s.ingress.Busy
  late : s.installed = .triggered → s.handler = some true →
    fibersDone s.fibers = true ∧ ¬ s.ingress.Busy

/-- No fiber starts and no value is taken in hand. -/
structure Steady (s t : State X V E) : Prop where
  busy : t.ingress.Busy → s.ingress.Busy
  empty : ¬ s.ingress.Busy → s.fibers = [] → t.fibers = []
  done : ¬ s.ingress.Busy → fibersDone s.fibers = true → fibersDone t.fibers = true

theorem Steady.of_eq (hi : t.ingress = s.ingress) (hf : t.fibers = s.fibers) : Steady s t :=
  ⟨fun h => hi ▸ h, fun _ h => hf.trans h, fun _ h => by rwa [hf]⟩

theorem Steady.of_modify {i : ℕ} {g : Fiber V E → Fiber V E} (hi : t.ingress = s.ingress)
    (hf : t.fibers = s.fibers.modify i g) (hg : ∀ f, (g f).done = f.done) : Steady s t :=
  ⟨fun h => hi ▸ h, fun _ h => by simp [hf, h], fun _ h => by rwa [hf, fibersDone_modify hg]⟩

theorem Steady.of_interrupt (hi : t.ingress = s.ingress)
    (hf : t.fibers = (interruptFibers s.fibers).1) : Steady s t :=
  ⟨fun h => hi ▸ h, fun _ h => by simp [hf, h, interruptFibers],
    fun _ h => by rwa [hf, fibersDone_interrupt]⟩

theorem Steady.of_busy (hb : s.ingress.Busy) : Steady s t :=
  ⟨fun _ => hb, fun h => absurd hb h, fun h => absurd hb h⟩

theorem Handled.keep (h : Handled s) (hm : t.installed = s.installed ∧ t.handler = s.handler)
    (hs : Steady s t) : Handled t := by
  obtain ⟨hb, he, hd⟩ := hs
  refine ⟨?_, ?_, ?_, ?_⟩
  · rw [hm.1, hm.2]
    exact h.unregistered
  · rw [hm.1]
    exact fun hi hb' => h.other hi (hb hb')
  · rw [hm.1, hm.2]
    intro hi hn
    obtain ⟨hf, hg⟩ := h.first hi hn
    exact ⟨he hg hf, fun hb' => hg (hb hb')⟩
  · rw [hm.1, hm.2]
    intro hi hn
    obtain ⟨hf, hg⟩ := h.late hi hn
    exact ⟨hd hg hf, fun hb' => hg (hb hb')⟩

theorem marks_pair (hl : l.marks = false) :
    (next s l).installed = s.installed ∧ (next s l).handler = s.handler := by
  have hm := marks_next (s := s) hl
  simp only [State.marks, Prod.mk.injEq] at hm
  exact ⟨hm.1, hm.2.1⟩

theorem egressSection_fibers :
    s.egressSection.fibers = s.fibers ∧ s.egressSection.ingress = s.ingress := by
  rcases egress_cases s with ⟨-, -, hx⟩ | ⟨-, -, -, hx⟩ | ⟨value, values, -, -, hx⟩ |
    ⟨-, -, -, -, hx⟩
  · simp [hx]
  · simp [hx]
  · simp [hx]
  · obtain ⟨d, c, hd⟩ := callDone_shape { s with egressSaved := true, egress := .awaitingEnded }
    simp [hx, hd]

theorem steady_next (hi : Inv s) (hr : Ready s l) (hl : ∀ arg, l ≠ .upstreamValue arg) :
    Steady s (next s l) := by
  cases l with
  | upstreamValue arg => exact absurd rfl (hl arg)
  | begin | next | upstreamInstall => exact .of_eq rfl rfl
  | upstreamOutcome o =>
    simp only [next, State.upstreamOutcome]
    split
    · exact .of_eq rfl rfl
    · exact ⟨by simp [Ingress.Busy], fun _ h => h, fun _ h => h⟩
  | downstreamDone =>
    obtain ⟨d, c, hd⟩ := callDone_shape { s with egress := .awaitingEnded, doneCalled := true }
    simp only [next, hd]
    exact .of_eq rfl rfl
  | trigger =>
    simp only [next, State.trigger]
    split
    · split <;> exact .of_eq rfl rfl
    · exact .of_eq rfl rfl
  | fiberValue i value => exact .of_modify rfl rfl fun _ => rfl
  | fiberOutcome i o => exact .of_modify rfl rfl fun _ => rfl
  | fiberStart i => exact .of_modify rfl rfl fun _ => rfl
  | ingressBegin => exact ⟨by simp [next, Ingress.Busy], fun _ h => h, fun _ h => h⟩
  | createOrReuseFiber arg contexts => exact .of_busy (Or.inl ⟨arg, hr.1⟩)
  | startFiber arg i => exact .of_busy (Or.inr ⟨arg, i, hr⟩)
  | ingressEpilogue o =>
    obtain ⟨e, w, c, -, -, hx⟩ := ingressEpilogue_shape s o
    simp only [next, hx]
    exact ⟨by simp [Ingress.Busy], fun _ h => h, fun _ h => h⟩
  | egress => exact .of_eq egressSection_fibers.2 egressSection_fibers.1
  | waitForDone =>
    simp only [next, State.waitForDoneSection]
    split <;> exact .of_eq rfl rfl
  | ended =>
    simp only [next, State.endedSection]
    split <;> exact .of_eq rfl rfl
  | done =>
    obtain ⟨w, c, -, hx⟩ := doneSection_shape s
    simp only [next, hx]
    exact .of_interrupt rfl rfl
  | interrupt =>
    obtain ⟨e, w, c, -, -, hx⟩ := notifyAll_shape
      ({ s with interrupted := true, interrupt := .ran }.interruptFibers)
    simp only [next, State.interruptSection, hx]
    exact .of_interrupt rfl rfl
  | push i value =>
    obtain ⟨e, c, -, hx⟩ := push_shape s i value
    simp only [next, hx]
    exact .of_modify rfl rfl fun _ => rfl
  | fiberEpilogue i o =>
    obtain ⟨e, w, c, -, -, hx⟩ := fiberEpilogue_shape s i o
    have hn := hi.not_fibersDone hr (by simp)
    simp only [next, hx]
    refine ⟨fun h => ?_, fun _ h => by simp [h, fibersDone] at hn, fun _ h => absurd h hn⟩
    split at h <;> exact h

theorem handled_body {arg : X} (h : Handled s) : Handled (s.body arg) := by
  rcases body_cases (s := s) arg with hb | ⟨handler, installed, interrupt, hb, hx⟩
  · exact hb ▸ { h with }
  · rw [hb]
    rcases hx with ⟨hn, rfl, rfl, -⟩ | ⟨-, -, rfl, rfl, -⟩ | ⟨-, -, rfl, rfl, -⟩
    · have hp := h.unregistered hn
      exact ⟨fun _ => hp, by simp [hp], by simp, by simp⟩
    · exact ⟨by simp, by simp, by simp, by simp⟩
    · exact ⟨by simp, by simp, by simp, by simp⟩

theorem handled_trigger (h : Handled s) (hr : Ready s .trigger) (hc : Uncrossed s .trigger) :
    Handled s.trigger := by
  unfold State.trigger
  split
  · split
    · exact ⟨by simp, by simp, by simp, by simp⟩
    · exact { h with }
  · next hn =>
    have hs : s.handler ≠ none := Option.isSome_iff_ne_none.mp hr.1
    refine ⟨fun hx => absurd hx hs, by simp, by simp, fun _ _ => ?_⟩
    cases hi : s.installed with
    | placeholder =>
      obtain ⟨hf, hb⟩ := h.first hi hs
      exact ⟨by simp [hf, fibersDone], hb⟩
    | concurrent => exact absurd hi hn
    | upstream => exact ⟨hc hi, h.other hi⟩
    | triggered => exact absurd hi hr.2

theorem handled_next (h : Handled s) (hi : Inv s) (hr : Ready s l) (hc : Uncrossed s l) :
    Handled (next s l) := by
  cases hl : l.marks with
  | true =>
    cases l <;> simp only [Label.marks, Bool.false_eq_true] at hl
    case upstreamValue arg => exact handled_body h
    case upstreamInstall =>
      refine ⟨fun hn => ?_, fun _ => ?_, by simp [next], by simp [next]⟩
      · simp [next] at hn
        simp [hn, Ready] at hr
      · rcases hr.2.2 with hg | hg | hg <;> simp [next, hg, Ingress.Busy]
    case trigger => exact handled_trigger h hr hc
    case egress =>
      have hm := marks_egressSection (s := s)
      simp only [State.marks, Prod.mk.injEq] at hm
      exact h.keep ⟨hm.1, hm.2.1⟩ (steady_next hi hr (by simp))
    case downstreamDone =>
      have hm := marks_downstreamDone (s := s)
      simp only [State.marks, Prod.mk.injEq] at hm
      exact h.keep ⟨hm.1, hm.2.1⟩ (steady_next hi hr (by simp))
  | false =>
    refine h.keep (marks_pair hl) (steady_next hi hr ?_)
    rintro arg rfl
    simp [Label.marks] at hl

theorem handled_reachable (h : ((machine X V E).restrict Uncrossed).Reachable s) : Handled s := by
  have hboth : Inv s ∧ Handled s := by
    refine h.invariant (P := fun s => Inv s ∧ Handled s) ?_ ?_
    · rintro s ⟨registered, rfl⟩
      refine ⟨inv_init registered, ⟨?_, ?_, ?_, ?_⟩⟩ <;>
        cases registered <;> simp [State.init, Ingress.Busy]
    · intro s l hi he
      exact ⟨inv_next hi.1 he.1.2, handled_next hi.2 hi.1 he.1.2 he.2⟩
  exact hboth.2

theorem interruptible_of_uncrossed (h : ((machine X V E).restrict Uncrossed).Reachable s) :
    Interruptible s := by
  have hi := inv_reachable h.of_restrict
  have hh := history_reachable h.of_restrict
  have hasked := h.mono (D := Asked) fun _ _ => Uncrossed.asked
  have hf := failed_reachable (hasked.mono (D := Receivable) fun s l hc => by
    cases l <;> first | exact hc | trivial)
  have hhandled := handled_reachable h
  have hsaved := saved_reachable hasked
  -- Once it has been asked, downstream waits, has called `Done()` or has its last event.
  have saved : s.egress ≠ .notBegun → s.egress ≠ .idle → Stuck s → s.egress ≠ .terminated →
      s.egressSaved = true := by
    intro hn hd hst ht
    cases he : s.egress with
    | notBegun => exact absurd he hn
    | idle => exact absurd he hd
    | acquiring => exact absurd he hst.egress
    | waiting => exact hi.saved (Or.inr he)
    | awaitingEnded =>
      cases hc : s.doneCalled with
      | true => exact hsaved hc
      | false =>
        have hu := (hh.natural hc (hi.awaiting he)).2.2.1
        exact hi.saved (Or.inl (by simp [hi.upstreamDone_iff.mp hu]))
    | terminated => exact absurd he ht
  refine ⟨fun _ => hf, ?_, ?_, ?_⟩
  · intro ht hx f hm hd
    cases hint : s.interrupt with
    | idle =>
      have hs : s.handler = some true := by
        cases hs : s.handler with
        | none => simp [hhandled.unregistered hs] at ht
        | some b =>
          cases b with
          | true => rfl
          | false => exact absurd hint (hi.handler_iff.mp hs)
      have := fibersDone_iff.mp (hhandled.late ht hs).1 f hm
      simp [hd] at this
    | acquiring ahead => exact absurd hint (hx ahead)
    | ran => exact hi.stopped (Or.inl (hi.interrupted_iff.mpr hint)) f hm hd
  · rintro ht ⟨hq, hn, hd⟩ ha
    have hst := stuck_of_quiescent hi hf hq
    by_cases he : s.egress = .terminated
    · exact Or.inr (hh.afterAll he).1
    rcases hst.ingress with ⟨-, hg⟩ | (hg | hg) | hg
    · simp [saved hn hd hst he] at hg
    · exact absurd hg ha
    · exact Or.inl hg
    · exact Or.inr (hh.upstreamOver.mpr (Or.inr (Or.inr hg)))
  · rintro ht ⟨hq, hn, hd⟩ ho hr
    have hst := stuck_of_quiescent hi hf hq
    have hall := hst.allDone hi hr
    by_cases he : s.egress = .terminated
    · simp [hh.terminated he]
    have hu : s.upstreamDone = true := by
      rcases hst.ingress with ⟨-, hg⟩ | hg | hg
      · simp [saved hn hd hst he] at hg
      · exact absurd hg ho
      · exact hi.upstreamDone_iff.mpr hg
    have hfd := hi.cached hu hall
    have hdone : s.done ≠ .idle := by
      cases hx : s.egress with
      | notBegun => exact absurd hx hn
      | idle => exact absurd hx hd
      | acquiring => exact absurd hx hst.egress
      | waiting => exact absurd ⟨hu, hfd⟩ (hi.egress_waiting hx).2
      | awaitingEnded => exact hi.awaiting hx
      | terminated => exact absurd hx he
    exact absurd (hst.terminated hi hdone hu hfd) he

/-- The interrupt is triggered before the first value: it goes for the lock ahead of the ingress,
which finds it and asks upstream to be done. -/
def triggeredBefore : List (Label ℕ ℕ ℕ) :=
  [.begin, .next, .egress, .ingressBegin, .trigger, .upstreamValue 1, .interrupt,
    .createOrReuseFiber 1 free, .upstreamOutcome none, .ingressEpilogue none, .egress, .done,
    .waitForDone, .ended]

theorem triggeredBefore_interruptible : ∃ s : State ℕ ℕ ℕ,
    s.installed = .triggered ∧ s.interrupted = true ∧ s.terminals = [none] ∧
      Interruptible s := by
  obtain ⟨s, hs, hp⟩ := Machine.exists_reachable_of_exec
    (M := (machine ℕ ℕ ℕ).restrict Uncrossed) triggeredBefore
    (fun s => decide (s.installed = .triggered ∧ s.interrupted = true ∧ s.terminals = [none]))
    ⟨true, rfl⟩ (by decide)
  obtain ⟨ht, hi, hn⟩ := of_decide_eq_true hp
  exact ⟨s, ht, hi, hn, interruptible_of_uncrossed hs⟩

/-- The interrupt is triggered between two values. -/
def triggeredBetween : List (Label ℕ ℕ ℕ) :=
  blockedFiber ++ [.trigger, .interrupt, .upstreamValue 2]

/-- The callback has run, and `InstallOrExecuteIfTriggered()` checks that there is one. -/
theorem triggeredBetween_fails :
    ¬ ∀ s : State ℕ ℕ ℕ, (machine ℕ ℕ ℕ).Reachable s → Interruptible s := by
  intro hall
  obtain ⟨s, hs, hp⟩ := Machine.exists_reachable_of_exec (M := machine ℕ ℕ ℕ) triggeredBetween
    (fun s => decide (s.installed = .triggered ∧ s.failed = some .callback)) ⟨true, rfl⟩
    (by decide)
  obtain ⟨ht, hf⟩ := of_decide_eq_true hp
  simp [(hall s hs).checks ht] at hf

end Interrupts

end Eventuals.Concurrent
