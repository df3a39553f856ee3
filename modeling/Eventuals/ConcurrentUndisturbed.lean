import Eventuals.ConcurrentProgress

/-! Runs of `Concurrent(f)` in which nobody interrupts, fails, stops or calls `Done()`. -/
namespace Eventuals.Concurrent

open Transition (Machine)

variable {X V E : Type*} {s t : State X V E} {l : Label X V E}

def Undisturbed (_ : State X V E) : Label X V E → Prop
  | .upstreamOutcome o | .fiberOutcome _ o => o = none
  | .upstreamInstall | .downstreamDone | .trigger => False
  | _ => True

theorem Undisturbed.uninterrupted (h : Undisturbed s l) : Uninterrupted s l := by
  cases l <;> first | exact h.elim | rfl

/-- Nothing has gone wrong and nothing has been turned away. -/
structure Calm (s : State X V E) : Prop where
  doneCalled : s.doneCalled = false
  recorded : s.recorded = []
  failing : ¬ s.Failing
  bypassed : ¬ s.Bypassed
  taken : s.ingress ≠ .awaitingDone

section Steps

variable {i : ℕ} {arg : X} {o : Outcome E} {c c' : Fiber.Control V E}

theorem calm_init (registered : Bool) : Calm (State.init X V E registered) := by
  constructor <;> simp [State.init, State.Failing, State.Bypassed, State.control]

theorem Calm.keep (h : Calm s) (hd : t.doneCalled = s.doneCalled) (hr : t.recorded = s.recorded)
    (hf : t.Failing → s.Failing) (hb : t.Bypassed → s.Bypassed)
    (ht : t.ingress = .awaitingDone → s.ingress = .awaitingDone) : Calm t :=
  ⟨hd.trans h.doneCalled, hr.trans h.recorded, fun hx => h.failing (hf hx),
    fun hx => h.bypassed (hb hx), fun hx => h.taken (ht hx)⟩

/-- No fiber has come to fail. -/
theorem failing_of_control (h : t.Failing) (hi : ∀ e, t.ingress ≠ .epilogue (some e))
    (hc : ∀ j e, t.control j = some (.epilogue (some e)) →
      s.control j = some (.epilogue (some e))) : s.Failing := by
  rcases h with ⟨e, he⟩ | ⟨j, e, hj⟩
  · exact absurd he (hi e)
  · exact Or.inr ⟨j, e, hc j e hj⟩

theorem failing_setControl (hc : s.control i = some c) (hn : ∀ e, c' ≠ .epilogue (some e))
    (h : (s.setControl i c').Failing) : s.Failing := by
  rcases h with h | ⟨j, e, hj⟩
  · exact Or.inl h
  · rw [control_setControl hc] at hj
    split at hj
    · simp only [Option.some.injEq] at hj
      exact absurd hj (hn e)
    · exact Or.inr ⟨j, e, hj⟩

theorem Calm.outcome_eq (h : Calm s) (hi : s.ingress = .epilogue o) : o = none := by
  cases o with
  | none => rfl
  | some e => exact absurd (Or.inl ⟨e, hi⟩) h.failing

theorem Calm.fiberOutcome_eq (h : Calm s) (hc : s.control i = some (.epilogue o)) : o = none := by
  cases o with
  | none => rfl
  | some e => exact absurd (Or.inr ⟨i, e, hc⟩) h.failing

theorem Calm.done_idle (h : Calm s) (hi : Inv s) (hh : History s) (hn : s.ingress ≠ .finished) :
    s.done = .idle := by
  by_contra hd
  exact hi.not_upstreamDone hn (hh.natural h.doneCalled hd).2.2.1

/-- Upstream has ended, and not before `Begin()`. -/
theorem upstreamOutcome_eq (hi : Inv s) (hr : Ready s (.upstreamOutcome none)) :
    s.upstreamOutcome none =
        { s with ingress := .epilogue none, upstreamOver := true, failures := s.failures ++ [] } ∧
      (s.ingress = .awaitingNext ∨ s.ingress = .awaitingDone) := by
  have hg : s.ingress = .awaitingNext ∨ s.ingress = .awaitingDone := by
    simpa [Ready] using hr
  have he : s.egress ≠ .notBegun := fun he => by
    refine hi.waitForDone_of_ingress ?_ (hi.begun he)
    rcases hg with hg | hg <;> simp [hg]
  refine ⟨?_, hg⟩
  simp only [State.upstreamOutcome, if_neg he]
  rfl

/-- The handler is there, or there is none to be. -/
theorem body_eq (hi : Inv s) (hf : s.failed = none) (ht : s.installed ≠ .triggered) (arg : X) :
    ∃ handler installed interrupt, s.body arg = { s with
      handler := handler, installed := installed, interrupt := interrupt,
      ingress := .create arg } := by
  have hh : s.handler ≠ some false := fun hh =>
    ht (hi.triggered (hi.handler_iff.mp hh)).1
  have hn : (s.body arg).failed = none := failed_body hf hh
  rcases body_cases (s := s) arg with hb | ⟨handler, installed, interrupt, hb, -⟩
  · simp [hb, State.fail] at hn
  · exact ⟨handler, installed, interrupt, hb⟩

/-- Every value in hand gets a fiber. -/
theorem Calm.create (h : Calm s) (hi : Inv s) (hh : History s) (ht : s.installed ≠ .triggered)
    (contexts : ℕ → Context) (hg : s.ingress = .create arg) :
    ∃ i fibers,
      s.createOrReuseFiber arg contexts =
        { s with fibers := fibers, fibersDone := false, ingress := .start arg i } ∧
      (∀ c, s.control i = some c → c = .finished) ∧
      ∀ j, fibers[j]? = if j = i then some createFiber else s.fibers[j]? := by
  have hd := h.done_idle hi hh (by simp [hg])
  have hdown : s.downstreamDone = false := by
    by_contra hx
    have := hi.downstreamDone_iff.mp (by simpa using hx)
    simp [hd] at this
  have hint : s.interrupted = false := by
    by_contra hx
    have hr := hi.interrupted_iff.mp (by simpa using hx)
    exact ht (hi.triggered (by simp [hr])).1
  have hs : s.stoppedOrError = none := by
    rw [hh.recorded h.bypassed, h.recorded]
    rfl
  rcases create_cases arg contexts hi.toBase with hr | ⟨-, -, -, i, fibers, hr, hcases⟩
  · simp only [State.createOrReuseFiber, hdown, hint, hs] at hr
    have hx := congrArg State.ingress hr
    simp only [Bool.or_self, Option.isSome_none, Bool.not_false, if_true] at hx
    split at hx
    · simp [State.fail, hg] at hx
    · simp at hx
  · refine ⟨i, fibers, hr, ?_, create_getElem? hcases⟩
    intro c hc
    obtain ⟨f, hf, hfc⟩ := control_eq_some.mp hc
    rcases hcases with ⟨hl, -⟩ | ⟨f', hf', hfd, -, -, -⟩
    · simp [hl] at hf
    · rw [hf, Option.some.injEq] at hf'
      subst hf'
      exact hfc ▸ (hi.done_iff f (List.mem_of_getElem? hf)).mp hfd

theorem calm_egressSection (h : Calm s) (hi : Inv s) (he : s.egress = .acquiring) :
    Calm s.egressSection := by
  have hw := hi.waitForDone_of_egress (by simp [he]) (by simp [he])
  rcases egress_cases s with ⟨-, -, hr⟩ | ⟨-, -, -, hr⟩ | ⟨value, values, -, -, hr⟩ |
    ⟨-, -, -, -, hr⟩
  · rw [hr]
    exact h.keep rfl rfl id (fun hb => absurd hb.2 hw) id
  · rw [hr]
    exact h.keep rfl rfl id (fun hb => absurd hb.2 hw) id
  · rw [hr]
    exact h.keep rfl rfl id (fun hb => absurd hb.2 hw) id
  · obtain ⟨d, c, hd⟩ := callDone_shape { s with egressSaved := true, egress := .awaitingEnded }
    rw [hr, hd]
    exact h.keep rfl rfl id (fun hb => absurd hb.2 hw) id

theorem calm_next (h : Calm s) (hi : Inv s) (hh : History s) (ht : s.installed ≠ .triggered)
    (hr : Ready s l) (hc : Undisturbed s l) : Calm (next s l) := by
  cases l with
  | upstreamInstall | downstreamDone | trigger => exact hc.elim
  | begin =>
    exact h.keep rfl rfl id (fun hb => by simp [State.Bypassed, next, State.begin] at hb) id
  | upstreamValue arg =>
    change Calm (s.body arg)
    rcases body_cases (s := s) arg with hb | ⟨_, _, _, hb, -⟩
    · exact hb ▸ { h with }
    · rw [hb]
      exact h.keep rfl rfl (fun hf => hf.imp_left (by simp)) id (by simp)
  | upstreamOutcome o =>
    obtain rfl : o = none := hc
    simp only [next, (upstreamOutcome_eq hi hr).1]
    exact h.keep rfl rfl (fun hf => hf.imp_left (by simp)) id (by simp)
  | next => exact h.keep rfl rfl id (fun hb => by simp [State.Bypassed, next] at hb) id
  | fiberValue i value => exact h.keep rfl rfl (failing_setControl hr (by simp)) id id
  | fiberOutcome i o =>
    obtain rfl : o = none := hc
    exact h.keep rfl (by simp [next, State.setControl]) (failing_setControl hr (by simp)) id id
  | ingressBegin =>
    exact h.keep rfl rfl (fun hf => hf.imp_left (by simp [next])) id (by simp [next])
  | createOrReuseFiber arg contexts =>
    obtain ⟨i, fibers, hx, -, hget⟩ := h.create hi hh ht contexts hr.1
    have hcontrol := control_of_getElem? hget
    simp only [next, hx]
    refine h.keep rfl rfl (fun hf => failing_of_control hf (by simp) ?_) id (by simp)
    intro j e hj
    simp only [State.control, hcontrol] at hj
    split at hj
    · simp at hj
    · exact hj
  | startFiber arg i =>
    have hcontrol := control_startFiber ((hi.created i).mpr ⟨arg, hr⟩)
    refine h.keep rfl rfl (fun hf => failing_of_control hf (by simp [next, State.startFiber]) ?_) id
      (by simp [next, State.startFiber])
    intro j e hj
    simp only [next, hcontrol] at hj
    split at hj
    · simp at hj
    · exact hj
  | ingressEpilogue o =>
    obtain rfl := h.outcome_eq hr
    have hw := hi.waitForDone_of_ingress (by simp [show s.ingress = .epilogue none from hr])
    obtain ⟨e, w, c, -, hw', hx⟩ := ingressEpilogue_shape s none
    simp only [next, hx]
    refine h.keep rfl (by simp [State.record]) (fun hf => hf.imp_left (by simp)) (fun hb => ?_)
      (by simp)
    rcases hw' with rfl | rfl
    · exact absurd hb.2 hw
    · exact absurd hb.2 (by simpa using hw)
  | egress => exact calm_egressSection h hi hr
  | waitForDone =>
    simp only [next, State.waitForDoneSection]
    split
    · exact h.keep rfl rfl id (fun hb => by simp [State.Bypassed] at hb) id
    · exact h.keep rfl rfl id (fun hb => by simp [State.Bypassed] at hb) id
  | ended =>
    simp only [next, ended_eq hi.toBase hr]
    exact h.keep rfl rfl id (fun hb => by simp [State.Bypassed] at hb) id
  | done =>
    have hw : s.waitForDone ≠ .notBegun := fun hw => by
      simpa [show s.done = .acquiring from hr] using (hi.notBegun hw).2.2.1
    obtain ⟨w, c, hw', hx⟩ := doneSection_shape s
    simp only [next, hx]
    refine h.keep rfl rfl (fun hf => hf.imp_right ?_) (fun hb => ?_) id
    · rintro ⟨j, e, hj⟩
      refine ⟨j, e, ?_⟩
      simpa [State.control, State.interruptFibers, interruptFibers, Function.comp_def,
        trigger_control] using hj
    · rcases hw' with rfl | rfl
      · exact absurd hb.2 hw
      · exact absurd hb.2 (by simpa using hw)
  | interrupt =>
    obtain ⟨ahead, ha⟩ := hr
    exact absurd (hi.triggered (by simp [ha])).1 ht
  | fiberStart i => exact h.keep rfl rfl (failing_setControl hr (by simp)) id id
  | push i value =>
    have hw := hi.waitForDone_of_ingress (hi.ingress_of_control hr)
    obtain ⟨e, c, -, hx⟩ := push_shape s i value
    simp only [next, hx]
    exact h.keep rfl rfl (failing_setControl hr (by simp)) (fun hb => absurd hb.2 hw) id
  | fiberEpilogue i o =>
    obtain rfl := h.fiberOutcome_eq hr
    have hw := hi.waitForDone_of_ingress (hi.ingress_of_control hr)
    have hcontrol := control_finishFiber hr
    obtain ⟨e, w, c, -, hw', hx⟩ := fiberEpilogue_shape s i none
    simp only [next, hx]
    refine h.keep rfl (by simp [State.record, State.finishFiber]) (fun hf => hf.imp_right ?_)
      (fun hb => ?_) id
    · rintro ⟨j, e, hj⟩
      change (s.finishFiber i).control j = _ at hj
      rw [hcontrol] at hj
      split at hj
      · simp at hj
      · exact ⟨j, e, hj⟩
    · rcases hw' with rfl | rfl
      · exact absurd hb.2 hw
      · exact absurd hb.2 (by simpa using hw)

end Steps

theorem calm_reachable (h : ((machine X V E).restrict Undisturbed).Reachable s) : Calm s := by
  induction h with
  | initial h0 =>
    obtain ⟨registered, rfl⟩ := h0
    exact calm_init registered
  | @step s t l h hs ih =>
    obtain ⟨⟨⟨-, hr⟩, hc⟩, rfl⟩ := hs
    exact calm_next ih (inv_reachable h.of_restrict) (history_reachable h.of_restrict)
      (not_triggered (h.mono fun _ _ => Undisturbed.uninterrupted)) hr hc

section Moves

variable {i : ℕ} {arg : X} {o : Outcome E} {c : Fiber.Control V E}

/-- The fiber that a step moves, and where to. -/
def Label.moves : Label X V E → Option (ℕ × Fiber.Control V E)
  | .startFiber _ i => some (i, .submitted)
  | .fiberStart i | .push i _ => some (i, .running)
  | .fiberValue i value => some (i, .pushing value)
  | .fiberOutcome i o => some (i, .epilogue o)
  | .fiberEpilogue i _ => some (i, .finished)
  | _ => none

/-- Where a step takes the ingress. -/
def Label.ingress (ingress : Ingress X E) : Label X V E → Ingress X E
  | .upstreamValue arg => .create arg
  | .upstreamOutcome o => .epilogue o
  | .ingressBegin | .startFiber .. => .awaitingNext
  | .ingressEpilogue _ => .finished
  | _ => ingress

def State.Untouched (s : State X V E) : Prop :=
  ∀ f ∈ s.fibers, f.interrupted = false

/-- What an undisturbed step does to the ingress and to the fibers. -/
structure Moves (s : State X V E) (l : Label X V E) (t : State X V E) : Prop where
  ingress : t.ingress = l.ingress s.ingress
  length : t.fibers.length = s.fibers.length
  control : ∀ j, t.control j = match l.moves with
    | some (i, c) => if j = i then some c else s.control j
    | none => s.control j
  untouched : s.Untouched → t.Untouched

theorem Moves.of_fibers (hm : l.moves = none) (hg : t.ingress = l.ingress s.ingress)
    (hf : t.fibers = s.fibers) : Moves s l t := by
  refine ⟨hg, by rw [hf], fun j => ?_, fun h => ?_⟩
  · rw [hm]
    simp [State.control, hf]
  · simpa [State.Untouched, hf] using h

theorem Moves.of_modify {g : Fiber V E → Fiber V E} {c' : Fiber.Control V E}
    (hm : l.moves = some (i, c)) (hc : s.control i = some c')
    (hg : t.ingress = l.ingress s.ingress) (hf : t.fibers = s.fibers.modify i g)
    (hgc : ∀ f, (g f).control = c) (hgi : ∀ f, (g f).interrupted = f.interrupted) :
    Moves s l t := by
  obtain ⟨f, hfi, -⟩ := control_eq_some.mp hc
  refine ⟨hg, by rw [hf, List.length_modify], fun j => ?_, fun h => ?_⟩
  · rw [hm]
    by_cases hj : j = i
    · simp [State.control, hf, hj, hfi, hgc]
    · simp [State.control, hf, hj, Ne.symm hj]
  · rw [State.Untouched, hf]
    refine forall_mem_modify h fun f' hf' => ?_
    rw [hgi]
    exact h f' (List.mem_of_getElem? hf')

/-- `InterruptFibers()` does nothing to fibers that are done. -/
theorem untouched_interruptFibers (h : s.Untouched) (hd : fibersDone s.fibers = true) :
    s.interruptFibers.Untouched := by
  intro f hf
  simp only [State.interruptFibers, interruptFibers, List.mem_map] at hf
  obtain ⟨f', hf', rfl⟩ := hf
  have hdone := fibersDone_iff.mp hd f' hf'
  simpa [Fiber.trigger, hdone] using h f' hf'

theorem moves_next (h : Calm s) (hi : Inv s) (hh : History s) (hn : s.failed = none)
    (ht : s.installed ≠ .triggered) (hr : Ready s l) (hc : Undisturbed s l)
    (hl : ∀ arg contexts, l ≠ .createOrReuseFiber arg contexts) : Moves s l (next s l) := by
  cases l with
  | upstreamInstall | downstreamDone | trigger => exact hc.elim
  | createOrReuseFiber arg contexts => exact absurd rfl (hl arg contexts)
  | begin | next | ingressBegin => exact .of_fibers rfl rfl rfl
  | upstreamValue arg =>
    obtain ⟨handler, installed, interrupt, hb⟩ := body_eq hi hn ht arg
    simp only [next, hb]
    exact .of_fibers rfl rfl rfl
  | upstreamOutcome o =>
    obtain rfl : o = none := hc
    simp only [next, (upstreamOutcome_eq hi hr).1]
    exact .of_fibers rfl rfl rfl
  | fiberValue i value => exact .of_modify rfl hr rfl rfl (fun _ => rfl) fun _ => rfl
  | fiberOutcome i o => exact .of_modify rfl hr rfl rfl (fun _ => rfl) fun _ => rfl
  | fiberStart i => exact .of_modify rfl hr rfl rfl (fun _ => rfl) fun _ => rfl
  | startFiber arg i =>
    exact .of_modify rfl ((hi.created i).mpr ⟨arg, hr⟩) rfl rfl (fun _ => rfl) fun _ => rfl
  | ingressEpilogue o =>
    obtain ⟨e, w, c, -, -, hx⟩ := ingressEpilogue_shape s o
    simp only [next, hx]
    exact .of_fibers rfl rfl rfl
  | egress => exact .of_fibers rfl egressSection_fibers.2 egressSection_fibers.1
  | waitForDone =>
    simp only [next, State.waitForDoneSection]
    split <;> exact .of_fibers rfl rfl rfl
  | ended =>
    simp only [next, ended_eq hi.toBase hr]
    exact .of_fibers rfl rfl rfl
  | done =>
    obtain ⟨w, c, -, hx⟩ := doneSection_shape s
    have hdone : s.done ≠ .idle := by simp [show s.done = .acquiring from hr]
    have hall := hi.allDone (hh.natural h.doneCalled hdone).2.2.2
    simp only [next, hx]
    refine ⟨rfl, ?_, fun j => ?_, fun hu => untouched_interruptFibers hu hall⟩
    · simp [State.interruptFibers, interruptFibers]
    · simp [State.control, State.interruptFibers, interruptFibers, Function.comp_def,
        trigger_control, Label.moves]
  | interrupt =>
    obtain ⟨ahead, ha⟩ := hr
    exact absurd (hi.triggered (by simp [ha])).1 ht
  | push i value =>
    obtain ⟨e, c, -, hx⟩ := push_shape s i value
    simp only [next, hx]
    exact .of_modify rfl hr rfl rfl (fun _ => rfl) fun _ => rfl
  | fiberEpilogue i o =>
    obtain rfl := h.fiberOutcome_eq hr
    obtain ⟨e, w, c, -, -, hx⟩ := fiberEpilogue_shape s i none
    simp only [next, hx]
    exact .of_modify rfl hr rfl rfl (fun _ => rfl) fun _ => rfl

/-- What has gone downstream stays. -/
theorem terminals_next : s.terminals <+: (next s l).terminals := by
  have same : ∀ {t : State X V E}, t.terminals = s.terminals → s.terminals <+: t.terminals :=
    fun h => h ▸ List.prefix_rfl
  cases l with
  | begin | next | upstreamInstall | ingressBegin | fiberValue i value | fiberOutcome i o
  | fiberStart i | startFiber arg i => exact same rfl
  | upstreamValue arg =>
    rcases body_cases (s := s) arg with hb | ⟨_, _, _, hb, -⟩
    · exact same (congrArg State.terminals hb :)
    · exact same (congrArg State.terminals hb :)
  | upstreamOutcome o =>
    simp only [next, State.upstreamOutcome]
    split
    · exact List.prefix_append ..
    · exact same rfl
  | downstreamDone =>
    obtain ⟨d, c, hd⟩ := callDone_shape { s with egress := .awaitingEnded, doneCalled := true }
    exact same (congrArg State.terminals hd :)
  | trigger =>
    simp only [next, State.trigger]
    repeat' split
    all_goals exact same rfl
  | createOrReuseFiber arg contexts =>
    simp only [next, State.createOrReuseFiber]
    repeat' split
    all_goals exact same rfl
  | ingressEpilogue o =>
    obtain ⟨e, w, c, -, -, hx⟩ := ingressEpilogue_shape s o
    exact same (congrArg State.terminals hx :)
  | egress =>
    change s.terminals <+: s.egressSection.terminals
    rcases egress_cases s with ⟨-, -, hx⟩ | ⟨-, -, -, hx⟩ | ⟨value, values, -, -, hx⟩ |
      ⟨-, -, -, -, hx⟩
    · exact same (congrArg State.terminals hx :)
    · rw [hx]
      exact List.prefix_append ..
    · exact same (congrArg State.terminals hx :)
    · obtain ⟨d, c, hd⟩ := callDone_shape { s with egressSaved := true, egress := .awaitingEnded }
      exact same (congrArg State.terminals (hx.trans hd) :)
  | waitForDone =>
    simp only [next, State.waitForDoneSection]
    split <;> exact same rfl
  | ended =>
    simp only [next, State.endedSection]
    split
    · exact same rfl
    · exact List.prefix_append ..
  | done =>
    obtain ⟨w, c, -, hx⟩ := doneSection_shape s
    exact same (congrArg State.terminals hx :)
  | interrupt =>
    obtain ⟨e, w, c, -, -, hx⟩ := notifyAll_shape
      ({ s with interrupted := true, interrupt := .ran }.interruptFibers)
    exact same (congrArg State.terminals hx :)
  | push i value =>
    obtain ⟨e, c, -, hx⟩ := push_shape s i value
    exact same (congrArg State.terminals hx :)
  | fiberEpilogue i o =>
    obtain ⟨e, w, c, -, -, hx⟩ := fiberEpilogue_shape s i o
    simp only [next, hx]
    split <;> exact same rfl

/-- A value in hand gets a fiber that is new or has finished. -/
structure Creates (s : State X V E) (arg : X) (i : ℕ) (t : State X V E) : Prop where
  ingress : t.ingress = .start arg i
  finished : ∀ c, s.control i = some c → c = .finished
  length : s.fibers.length ≤ t.fibers.length
  control : ∀ j, t.control j = if j = i then some .created else s.control j
  untouched : s.Untouched → t.Untouched

theorem creates_next (h : Calm s) (hi : Inv s) (hh : History s) (ht : s.installed ≠ .triggered)
    {contexts : ℕ → Context} (hr : Ready s (.createOrReuseFiber arg contexts)) :
    ∃ i, Creates s arg i (next s (.createOrReuseFiber arg contexts)) := by
  obtain ⟨i, fibers, hx, hfin, hget⟩ := h.create hi hh ht contexts hr.1
  refine ⟨i, ?_⟩
  simp only [next, hx]
  refine ⟨rfl, hfin, ?_, control_of_getElem? hget, fun hu f hf => ?_⟩
  · by_contra hlt
    have hj := hget fibers.length
    rw [List.getElem?_eq_none (Nat.le_refl _)] at hj
    split at hj
    · cases hj
    · rw [eq_comm, List.getElem?_eq_none_iff] at hj
      exact hlt hj
  · obtain ⟨j, hj⟩ := List.mem_iff_getElem?.mp hf
    rw [hget] at hj
    split at hj
    · cases hj
      rfl
    · exact hu f (List.mem_of_getElem? hj)

theorem untouched_reachable (h : ((machine X V E).restrict Undisturbed).Reachable s) :
    s.Untouched := by
  induction h with
  | initial h0 =>
    obtain ⟨registered, rfl⟩ := h0
    simp [State.Untouched, State.init]
  | @step s t l h hs ih =>
    obtain ⟨⟨⟨hn, hr⟩, hc⟩, rfl⟩ := hs
    have hi := inv_reachable h.of_restrict
    have hh := history_reachable h.of_restrict
    have ht := not_triggered (h.mono fun _ _ => Undisturbed.uninterrupted)
    by_cases hl : ∃ arg contexts, l = .createOrReuseFiber arg contexts
    · obtain ⟨arg, contexts, rfl⟩ := hl
      obtain ⟨i, hx⟩ := creates_next (calm_reachable h) hi hh ht hr
      exact hx.untouched ih
    · exact (moves_next (calm_reachable h) hi hh hn ht hr hc
        fun arg contexts hx => hl ⟨arg, contexts, hx⟩).untouched ih

end Moves

end Eventuals.Concurrent
