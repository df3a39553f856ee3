import Eventuals.JoinInvariant

/-! Whom `interrupter_()` of `DoAll()` and `ForkJoin()` reaches, and when it is run. -/
namespace Eventuals.Join

open Transition (Machine)

variable {V E : Type*} {construct : Construct} {forks i j n : ℕ} {s t : State V E}
  {c c' : Fiber.Control V E} {fibers fibers' : List (Fiber V E)}

section Reached

/-- Every fiber there will be has been interrupted. -/
def Reached (forks : ℕ) (fibers : List (Fiber V E)) : Prop :=
  fibers.length = forks ∧ ∀ (k : ℕ) (f : Fiber V E), fibers[k]? = some f → f.interrupted = true

/-- A run of `interrupter_()` has come to fiber `j` of `n`. -/
structure Upto (forks : ℕ) (fibers : List (Fiber V E)) (j n : ℕ) : Prop where
  all : n = forks ∧ fibers.length = forks
  before : ∀ (k : ℕ) (f : Fiber V E), k < j → fibers[k]? = some f → f.interrupted = true
  completed : ∀ (k : ℕ) (f : Fiber V E), fibers[k]? = some f → f.completion ≠ none →
    f.interrupted = true

/-- The same fibers, with as many interrupted or more. -/
structure Further (fibers fibers' : List (Fiber V E)) : Prop where
  length : fibers'.length = fibers.length
  fiber : ∀ (k : ℕ) (f' : Fiber V E), fibers'[k]? = some f' → ∃ f, fibers[k]? = some f ∧
    f'.completion = f.completion ∧ (f.interrupted = true → f'.interrupted = true)

theorem Reached.further (h : Reached forks fibers) (hf : Further fibers fibers') :
    Reached forks fibers' := by
  refine ⟨hf.length.trans h.1, fun k f' hk => ?_⟩
  obtain ⟨f, hkf, -, hi⟩ := hf.fiber k f' hk
  exact hi (h.2 k f hkf)

theorem Upto.further (h : Upto forks fibers j n) (hf : Further fibers fibers') :
    Upto forks fibers' j n := by
  refine ⟨⟨h.all.1, hf.length.trans h.all.2⟩, fun k f' hkj hk => ?_, fun k f' hk hc => ?_⟩
  · obtain ⟨f, hkf, -, hi⟩ := hf.fiber k f' hk
    exact hi (h.before k f hkj hkf)
  · obtain ⟨f, hkf, hx, hi⟩ := hf.fiber k f' hk
    exact hi (h.completed k f hkf (hx ▸ hc))

theorem Upto.reached (h : Upto forks fibers j n) (hn : n ≤ j) : Reached forks fibers := by
  obtain ⟨hall, hlen⟩ := h.all
  refine ⟨hlen, fun k f hk => h.before k f ?_ hk⟩
  have := (List.getElem?_eq_some_iff.mp hk).1
  omega

theorem further_setControl (s : State V E) (i : ℕ) (c : Fiber.Control V E) :
    Further s.fibers (s.setControl i c).fibers := by
  refine ⟨length_setControl s i c, fun k f' hk => ?_⟩
  simp only [State.setControl, List.getElem?_modify] at hk
  cases hf : s.fibers[k]? with
  | none => simp [hf] at hk
  | some f =>
    rw [hf] at hk
    simp only [Option.map_eq_map, Option.map_some, Option.some.injEq] at hk
    refine ⟨f, rfl, ?_⟩
    subst hk
    split
    · exact ⟨rfl, id⟩
    · exact ⟨rfl, id⟩

theorem further_set {f : Fiber V E} (hf : fibers[j]? = some f) :
    Further fibers (fibers.set j { f with interrupted := true }) := by
  refine ⟨List.length_set, fun k f' hk => ?_⟩
  by_cases hjk : j = k
  · subst hjk
    rw [List.getElem?_set_self (List.getElem?_eq_some_iff.mp hf).1, Option.some.injEq] at hk
    exact ⟨f, hf, hk ▸ rfl, fun _ => hk ▸ rfl⟩
  · rw [List.getElem?_set_ne hjk] at hk
    exact ⟨f', hk, rfl, id⟩

theorem further_refl (fibers : List (Fiber V E)) : Further fibers fibers :=
  ⟨rfl, fun _ f' hk => ⟨f', hk, rfl, id⟩⟩

/-- The run triggers the interrupt of its next fiber, which has not completed or is not
interrupted by this. -/
theorem triggerFiber_upto (h : Upto forks s.fibers j n) :
    (s.triggerFiber j).late = s.late ∧ Further s.fibers (s.triggerFiber j).fibers ∧
      Upto forks (s.triggerFiber j).fibers (j + 1) n := by
  have step : ∀ fibers', Further s.fibers fibers' →
      (∀ f : Fiber V E, fibers'[j]? = some f → f.interrupted = true) →
      Upto forks fibers' (j + 1) n := by
    intro fibers' hf hj
    have hu := h.further hf
    refine ⟨hu.all, fun k f hk hkf => ?_, hu.completed⟩
    rcases Nat.lt_succ_iff_lt_or_eq.mp hk with hlt | rfl
    · exact hu.before k f hlt hkf
    · exact hj f hkf
  unfold State.triggerFiber
  split
  · next f hf =>
    split
    · next hi =>
      refine ⟨rfl, further_refl _, step _ (further_refl _) fun f' hf' => ?_⟩
      rw [hf, Option.some.injEq] at hf'
      exact hf' ▸ hi
    · next hi =>
      have hc : f.completion = none := by
        by_contra hc
        exact hi (h.completed j f hf hc)
      refine ⟨by simp [hc], further_set hf, step _ (further_set hf) fun f' hf' => ?_⟩
      rw [List.getElem?_set_self (List.getElem?_eq_some_iff.mp hf).1, Option.some.injEq] at hf'
      exact hf' ▸ rfl
  · next hf =>
    refine ⟨rfl, further_refl _, step _ (further_refl _) fun f' hf' => ?_⟩
    simp [hf] at hf'

end Reached

section Started

/-- `Start()` found the interrupt triggered already and has told the continuation to stop. -/
structure Stopped (s : State V E) : Prop where
  start : s.start = .returned
  fibers : s.fibers = []
  handler : s.handler = .uninstalled
  used : s.used = []

/-- What holds of every run, interrupted before `Start()` or not. -/
structure Started (construct : Construct) (forks : ℕ) (s : State V E) : Prop where
  begun : s.start = .notStarted → s.handler = .uninstalled ∧ s.used = []
  inv : Inv construct forks s ∨ Stopped s

theorem Stopped.not_enabled (h : Stopped s) (l : Label V E) : ¬ Enabled construct forks s l := by
  obtain ⟨hs, hf, hh, -⟩ := h
  have hfiber : ∀ i, s.fiber i = none := by simp [State.fiber, hf]
  intro he
  cases l <;> simp [Enabled, hs, hh, hfiber] at he

theorem start_use (s : State V E) (i : ℕ) : (s.use i).start = s.start := by
  unfold State.use
  split <;> rfl

theorem start_triggerFiber (s : State V E) (j : ℕ) : (s.triggerFiber j).start = s.start := by
  obtain ⟨fibers, late, hs, -⟩ := triggerFiber_shape s j
  rw [hs]

theorem start_begin (s : State V E) (installed : Option Bool) :
    (s.begin forks installed).start ≠ .notStarted := by
  cases installed with
  | none => simp [State.begin]
  | some b => cases b <;> simp [State.begin]

theorem start_next {l : Label V E} (hs : s.start ≠ .notStarted) :
    (next construct forks s l).start ≠ .notStarted := by
  cases l with
  | start installed => exact start_begin s installed
  | build index => cases construct <;> simp [next, State.build]
  | submit index =>
    cases construct with
    | doAll =>
      simp only [next, State.submit]
      split <;> simp
    | forkJoin => simp [next, State.submit]
  | startReturns => simp [next]
  | trigger | complete => exact hs
  | handlerInterrupts =>
    simp only [next, State.handlerInterrupts]
    split <;> exact hs
  | handlerTriggers j n => exact (start_triggerFiber s j).trans_ne hs
  | write i completion => exact (start_use s i).trans_ne hs
  | decrement i completion => exact (start_use s i).trans_ne hs
  | call i completion =>
    simp only [next, State.call]
    split <;> exact hs
  | interrupts i => exact (start_use s i).trans_ne hs
  | triggers i j n => exact ((start_triggerFiber (s.use i) j).trans (start_use s i)).trans_ne hs

theorem label_start {l : Label V E} (h : Inv construct forks s) (hs : s.start = .notStarted)
    (hh : s.handler = .uninstalled) (he : Enabled construct forks s l) :
    ∃ installed, l = .start installed := by
  have hfiber : ∀ i, s.fiber i = none := by simp [State.fiber, (h.notStarted hs).1]
  cases l with
  | start installed => exact ⟨installed, rfl⟩
  | trigger | complete | build | submit | startReturns | handlerInterrupts | handlerTriggers
  | write | decrement | call | interrupts | triggers =>
    simp [Enabled, hs, hh, hfiber] at he

theorem started_next {l : Label V E} (h : Started construct forks s)
    (he : Enabled construct forks s l) : Started construct forks (next construct forks s l) := by
  obtain ⟨hbegun, hinv | hstopped⟩ := h
  · have hbegun' : (next construct forks s l).start ≠ .notStarted := by
      by_cases hs : s.start = .notStarted
      · obtain ⟨installed, rfl⟩ := label_start hinv hs (hbegun hs).1 he
        exact start_begin s installed
      · exact start_next hs
    refine ⟨fun hn => absurd hn hbegun', ?_⟩
    by_cases hl : Uninterrupted s l
    · exact Or.inl (inv_next hinv he hl)
    · cases l <;> simp only [Uninterrupted, not_true_eq_false, not_not] at hl
      subst hl
      exact Or.inr ⟨rfl, (hinv.notStarted he).1, (hbegun he).1, (hbegun he).2⟩
  · exact absurd he (hstopped.not_enabled l)

theorem started_reachable (h : (machine construct forks V E).Reachable s) :
    Started construct forks s := by
  refine Machine.Reachable.invariant (fun s hs => ?_) (fun s l hs he => started_next hs he) h
  obtain rfl : s = State.init V E := hs
  exact ⟨fun _ => ⟨rfl, rfl⟩, Or.inl inv_init⟩

end Started

section Timely

/-- Some run of `interrupter_()` is in its loop. -/
def Interrupting (s : State V E) : Prop :=
  (∃ j n, s.handler = .triggering j n) ∨ ∃ i j n, s.fiber i = some (.triggering j n)

/-- `interrupter_()` is run when all the fibers exist and those that have completed are
interrupted, and while it loops only a fiber that is interrupted completes. -/
def Timely (forks : ℕ) (s : State V E) : Label V E → Prop
  | .handlerInterrupts | .interrupts _ => s.fibers.length = forks ∧
    ∀ (k : ℕ) (f : Fiber V E), s.fibers[k]? = some f → f.completion ≠ none → f.interrupted = true
  | .complete i _ => Interrupting s →
    ∀ f : Fiber V E, s.fibers[i]? = some f → f.interrupted = true
  | _ => True

def Signal.succeeds : Signal V E → Bool
  | .start _ => true
  | _ => false

/-- Whom the runs of `interrupter_()` have reached, and whom they still will. -/
structure Sound (forks : ℕ) (s : State V E) : Prop where
  missing : s.missing = false
  late : s.late = []
  handler : ∀ j n, s.handler = .triggering j n → Upto forks s.fibers j n
  fiber : ∀ i j n, s.fiber i = some (.triggering j n) → Upto forks s.fibers j n
  triggered : s.handler = .returned → Reached forks s.fibers
  failed : ∀ (i : ℕ) (f : Fiber V E) (c : Signal V E), s.fibers[i]? = some f →
    f.control = .returned → f.completion = some c → c.succeeds = false →
    s.counter = 0 ∨ Reached forks s.fibers

/-- The steps that the interrupts do not depend on. -/
theorem Sound.setControl (h : Sound forks s) (hc : s.fiber i = some c)
    (htriggering : ∀ j n, c' = .triggering j n → Upto forks s.fibers j n)
    (hreturned : ∀ (f : Fiber V E) (x : Signal V E), s.fibers[i]? = some f → c' = .returned →
      f.completion = some x → x.succeeds = false → s.counter = 0 ∨ Reached forks s.fibers)
    (hf : t.fibers = (s.setControl i c').fibers) (h0 : s.counter = 0 → t.counter = 0)
    (hh : t.handler = s.handler) (hl : t.late = s.late) (hm : t.missing = s.missing) :
    Sound forks t := by
  have hfurther : Further s.fibers t.fibers := hf ▸ further_setControl s i c'
  have hfiber : ∀ k, t.fiber k = if k = i then some c' else s.fiber k := by
    intro k
    rw [← fiber_setControl hc c' k, State.fiber, State.fiber, hf]
  refine ⟨hm.trans h.missing, hl.trans h.late, fun j n hj => ?_, fun k j n hk => ?_, fun hr => ?_,
    fun k f x hk hx hcompl hfail => ?_⟩
  · exact (h.handler j n (hh ▸ hj)).further hfurther
  · rw [hfiber] at hk
    split at hk
    · exact (htriggering j n (Option.some.inj hk)).further hfurther
    · exact (h.fiber k j n hk).further hfurther
  · exact (h.triggered (hh ▸ hr)).further hfurther
  · have hor : s.counter = 0 ∨ Reached forks s.fibers := by
      obtain ⟨f', hf', hcf, -⟩ := hfurther.fiber k f hk
      have hkc : t.fiber k = some .returned := fiber_eq_some.mpr ⟨f, hk, hx⟩
      rw [hfiber] at hkc
      split at hkc
      · next hki =>
        subst hki
        exact hreturned f' x hf' (Option.some.inj hkc) (hcf ▸ hcompl) hfail
      · obtain ⟨f'', hf'', hcontrol⟩ := fiber_eq_some.mp hkc
        obtain rfl : f' = f'' := by simpa [hf'] using hf''
        exact h.failed k f' x hf' hcontrol (hcf ▸ hcompl) hfail
    exact hor.imp h0 fun hr => hr.further hfurther

theorem Sound.use (h : Sound forks s) (i : ℕ) : Sound forks (s.use i) := by
  obtain ⟨used, hu⟩ := use_shape s i
  rw [hu]
  exact { h with }

/-- A run of `interrupter_()` goes from one fiber to the next. -/
theorem Sound.triggerFiber (h : Sound forks s) (hu : Upto forks s.fibers j n) :
    Sound forks (s.triggerFiber j) := by
  obtain ⟨hlate, hf, -⟩ := triggerFiber_upto hu
  obtain ⟨fibers, late, hs, hp⟩ := triggerFiber_shape s j
  have hfiber := fun k => fiber_triggerFiber s k j
  rw [hs] at hlate hf hfiber ⊢
  refine ⟨h.missing, hlate.trans h.late, fun j n hj => (h.handler j n hj).further hf,
    fun i j n hi => (h.fiber i j n ((hfiber i).symm.trans hi)).further hf,
    fun hr => (h.triggered hr).further hf, fun k f x hk hx hcompl hfail => ?_⟩
  obtain ⟨f', hf', hcf, -⟩ := hf.fiber k f hk
  obtain ⟨f'', hf'', hcontrol⟩ := fiber_eq_some.mp
    ((hfiber k).symm.trans (fiber_eq_some.mpr ⟨f, hk, hx⟩))
  obtain rfl : f' = f'' := by simpa [hf'] using hf''
  exact (h.failed k f' x hf' hcontrol (hcf ▸ hcompl) hfail).imp_right fun hr => hr.further hf

theorem Sound.withHandler (h : Sound forks s) {handler : Handler}
    (htriggering : ∀ j n, handler = .triggering j n → Upto forks s.fibers j n)
    (hreturned : handler = .returned → Reached forks s.fibers) :
    Sound forks { s with handler := handler } :=
  { h with handler := htriggering, triggered := hreturned }

theorem Upto.nextControl (h : Upto forks fibers j n) :
    (∀ j' n', (State.nextControl j n : Fiber.Control V E) = .triggering j' n' →
      Upto forks fibers j' n') ∧
    ((State.nextControl j n : Fiber.Control V E) = .returned → Reached forks fibers) := by
  unfold State.nextControl
  split
  · refine ⟨fun j' n' hx => ?_, fun hx => by simp at hx⟩
    simp only [Fiber.Control.triggering.injEq] at hx
    exact hx.1 ▸ hx.2 ▸ h
  · next hn => exact ⟨fun j' n' hx => by simp at hx, fun _ => h.reached (by omega)⟩

theorem Upto.nextHandler (h : Upto forks fibers j n) :
    (∀ j' n', State.nextHandler j n = .triggering j' n' → Upto forks fibers j' n') ∧
    (State.nextHandler j n = .returned → Reached forks fibers) := by
  unfold State.nextHandler
  split
  · refine ⟨fun j' n' hx => ?_, fun hx => by simp at hx⟩
    simp only [Handler.triggering.injEq] at hx
    exact hx.1 ▸ hx.2 ▸ h
  · next hn => exact ⟨fun j' n' hx => by simp at hx, fun _ => h.reached (by omega)⟩

theorem upto_zero (hlen : fibers.length = forks)
    (hc : ∀ (k : ℕ) (f : Fiber V E), fibers[k]? = some f → f.completion ≠ none →
      f.interrupted = true) : Upto forks fibers 0 fibers.length :=
  ⟨⟨hlen, hlen⟩, fun k _ hk => absurd hk (Nat.not_lt_zero k), hc⟩

theorem sound_begin (h : Sound forks s) (hi : Inv construct forks s) (hs : s.start = .notStarted)
    (hh : s.handler = .uninstalled) (installed : Option Bool) :
    Sound forks (s.begin forks installed) := by
  obtain ⟨hfibers, -⟩ := hi.notStarted hs
  have key : ∀ start values counter handler calls,
      (handler = .installed ∨ handler = .uninstalled) →
      Sound forks { s with
        start := start, values := values, counter := counter, handler := handler,
        calls := calls } := by
    intro start values counter handler calls hx
    refine ⟨h.missing, h.late, fun j n hj => ?_, h.fiber, fun hr => ?_, ?_⟩
    · rcases hx with rfl | rfl <;> simp at hj
    · rcases hx with rfl | rfl <;> simp at hr
    · simp [hfibers]
  cases installed with
  | none => exact key _ _ _ _ s.calls (Or.inr rfl)
  | some b =>
    cases b with
    | true => exact key _ _ _ _ s.calls (Or.inl rfl)
    | false => exact key _ s.values s.counter s.handler _ (Or.inr hh)

/-- No run of `interrupter_()` was early enough for another fiber to be made. -/
theorem sound_append (h : Sound forks s) (hlen : s.fibers.length < forks) (n : ℕ) (start : Start) :
    Sound forks
      { s with fibers := s.fibers ++ List.replicate n State.newFiber, start := start } := by
  have hreached : ¬ Reached forks s.fibers := fun hr => by
    have := hr.1
    omega
  have hupto : ∀ j n, ¬ Upto forks s.fibers j n := fun j n hu => by
    have := hu.all.2
    omega
  have hfiber := fun j => fiber_append s n j start
  refine ⟨h.missing, h.late, fun j n hj => (hupto j n (h.handler j n hj)).elim, fun i j n hi => ?_,
    fun hr => (hreached (h.triggered hr)).elim, fun i f c hf hr hc hfail => ?_⟩
  · rw [hfiber] at hi
    split at hi
    · exact (hupto j n (h.fiber i j n hi)).elim
    · split at hi <;> simp at hi
  · have hf' : (s.fibers ++ List.replicate n State.newFiber)[i]? = some f := hf
    rcases Nat.lt_or_ge i s.fibers.length with hlt | hge
    · rw [List.getElem?_append_left hlt] at hf'
      exact (h.failed i f c hf' hr hc hfail).imp_right fun hr => (hreached hr).elim
    · rw [List.getElem?_append_right hge] at hf'
      obtain rfl := List.eq_of_mem_replicate (List.mem_of_getElem? hf')
      simp [State.newFiber] at hr

theorem sound_build (h : Sound forks s) (hi : Inv construct forks s) {index : ℕ}
    (hs : s.start = .building index) (hlt : index < forks) :
    Sound forks (s.build construct forks index) := by
  obtain ⟨hlen, hzero⟩ := hi.building index hs
  cases construct with
  | doAll =>
    obtain rfl := hzero rfl
    have hnil : s.fibers = [] := List.eq_nil_of_length_eq_zero hlen
    have hx := sound_append h (by omega) forks (.submitting 0)
    rw [hnil, List.nil_append] at hx
    exact hx
  | forkJoin => exact sound_append h (by omega) 1 _

theorem sound_complete (h : Sound forks s) (hc : s.fiber i = some .running)
    {completion : Signal V E}
    (ht : Interrupting s → ∀ f : Fiber V E, s.fibers[i]? = some f → f.interrupted = true) :
    Sound forks (s.completeEventual i completion) := by
  have hfiber := fiber_completeEventual hc completion
  -- A fiber other than `i` is as before, and `i` has been interrupted if it has to be.
  have hget : ∀ (k : ℕ) (f : Fiber V E), (s.completeEventual i completion).fibers[k]? = some f →
      ∃ f', s.fibers[k]? = some f' ∧ f.interrupted = f'.interrupted ∧
        (k ≠ i → f.completion = f'.completion) := by
    intro k f hk
    simp only [State.completeEventual, List.getElem?_modify] at hk
    cases hf : s.fibers[k]? with
    | none => simp [hf] at hk
    | some f' =>
      rw [hf] at hk
      simp only [Option.map_eq_map, Option.map_some, Option.some.injEq] at hk
      refine ⟨f', rfl, ?_⟩
      subst hk
      split
      · next hik => exact ⟨rfl, fun hn => absurd hik.symm hn⟩
      · exact ⟨rfl, fun _ => rfl⟩
  have hlen : (s.completeEventual i completion).fibers.length = s.fibers.length := by
    simp [State.completeEventual]
  have hreached : Reached forks s.fibers →
      Reached forks (s.completeEventual i completion).fibers := fun hr => by
    refine ⟨hlen.trans hr.1, fun k f hk => ?_⟩
    obtain ⟨f', hk', hint, -⟩ := hget k f hk
    exact hint.trans (hr.2 k f' hk')
  have hupto : Interrupting s → ∀ j n, Upto forks s.fibers j n →
      Upto forks (s.completeEventual i completion).fibers j n := by
    intro hx j n hu
    refine ⟨⟨hu.all.1, hlen.trans hu.all.2⟩, fun k f hkj hk => ?_, fun k f hk hcompl => ?_⟩
    · obtain ⟨f', hk', hint, -⟩ := hget k f hk
      exact hint.trans (hu.before k f' hkj hk')
    · obtain ⟨f', hk', hint, hsame⟩ := hget k f hk
      by_cases hki : k = i
      · exact hint.trans (ht hx f' (hki ▸ hk'))
      · exact hint.trans (hu.completed k f' hk' (hsame hki ▸ hcompl))
  refine ⟨h.missing, h.late, fun j n hj => hupto (Or.inl ⟨j, n, hj⟩) j n (h.handler j n hj),
    fun k j n hk => ?_, fun hr => hreached (h.triggered hr), fun k f c hk hr hcompl hfail => ?_⟩
  · rw [hfiber] at hk
    split at hk
    · simp at hk
    · exact hupto (Or.inr ⟨k, j, n, hk⟩) j n (h.fiber k j n hk)
  · have hkc := (hfiber k).symm.trans (fiber_eq_some.mpr ⟨f, hk, hr⟩)
    split at hkc
    · simp at hkc
    · next hki =>
      obtain ⟨f', hk', -, hsame⟩ := hget k f hk
      obtain ⟨f'', hk'', hcontrol⟩ := fiber_eq_some.mp hkc
      obtain rfl : f' = f'' := by simpa [hk'] using hk''
      exact (h.failed k f' c hk' hcontrol (hsame hki ▸ hcompl) hfail).imp_right hreached

theorem sound_decrement (h : Sound forks s) (hi : Inv construct forks s) {completion : Signal V E}
    (hc : s.fiber i = some (.decrementing completion)) :
    Sound forks (s.decrement i completion) := by
  obtain ⟨used, hu⟩ := decrement_eq s i completion
  rw [hu]
  refine h.setControl hc (fun j n hx => ?_) (fun f x hf hx hcompl hfail => ?_) rfl
    (fun h0 => by simp [State.setControl, h0]) rfl rfl rfl
  · unfold State.afterDecrement at hx
    split at hx
    · simp at hx
    · cases completion <;> simp at hx
  · obtain ⟨f', hf', hfc⟩ := fiber_eq_some.mp hc
    obtain rfl : f = f' := by simpa [hf] using hf'
    have hfit := hi.fits i f hf
    simp only [Fiber.Fits, hfc] at hfit
    obtain rfl : completion = x := by simpa [hfit.1] using hcompl
    unfold State.afterDecrement at hx
    split at hx
    · simp at hx
    · cases completion with
      | start v => simp [Signal.succeeds] at hfail
      | fail e => simp at hx
      | stop => simp at hx

theorem sound_next {l : Label V E} (h : Sound forks s) (hi : Inv construct forks s)
    (hforks : construct = .doAll → 0 < forks)
    (hh : s.start = .notStarted → s.handler = .uninstalled)
    (he : Enabled construct forks s l) (ht : Timely forks s l) :
    Sound forks (next construct forks s l) := by
  cases l with
  | start installed => exact sound_begin h hi he (hh he) installed
  | trigger => exact h.withHandler (by simp) (by simp)
  | complete i completion => exact sound_complete h he ht
  | build index => exact sound_build h hi he.1 he.2
  | submit index =>
    obtain ⟨hc, -⟩ := hi.submitting index he
    exact h.setControl hc (by simp) (fun _ _ _ hx => by simp at hx) rfl id rfl rfl rfl
  | startReturns => exact { h with }
  | handlerInterrupts =>
    obtain ⟨hlen, hcompleted⟩ := ht
    have hn : ¬ (construct = .doAll ∧ s.fibers = []) := by
      rintro ⟨rfl, hnil⟩
      have := hforks rfl
      simp [hnil] at hlen
      omega
    have hu := (upto_zero hlen hcompleted).nextHandler
    have hx := h.withHandler hu.1 hu.2
    simpa only [next, State.handlerInterrupts, if_neg hn] using hx
  | handlerTriggers j n =>
    have hu := h.handler j n he
    have hu' := (triggerFiber_upto hu).2.2.nextHandler
    exact (h.triggerFiber hu).withHandler hu'.1 hu'.2
  | write i completion =>
    obtain ⟨used, hu⟩ := write_eq s i completion
    have hx : next construct forks s (.write i completion) = _ := hu
    rw [hx]
    exact h.setControl he (by simp) (fun _ _ _ hx => by simp at hx) rfl id rfl rfl rfl
  | decrement i completion => exact sound_decrement h hi he
  | call i completion =>
    have h0 := (hi.last i completion he).1
    simp only [next, State.call]
    split <;>
      exact h.setControl he (by simp) (fun _ _ _ _ _ _ => Or.inl h0) rfl id rfl rfl rfl
  | interrupts i =>
    obtain ⟨hlen, hcompleted⟩ := ht
    have hu := (upto_zero hlen hcompleted).nextControl
    obtain ⟨used, hs⟩ := use_shape s i
    have hx : (s.use i).fibers = s.fibers := by rw [hs]
    have hc : (s.use i).fiber i = some .interrupting := by
      rw [hs]
      exact he
    exact (h.use i).setControl hc (hx ▸ hu.1) (fun _ _ _ hr _ _ => Or.inr (hx ▸ hu.2 hr)) rfl id
      rfl rfl rfl
  | triggers i j n =>
    obtain ⟨used, hs⟩ := use_shape s i
    have hx : (s.use i).fibers = s.fibers := by rw [hs]
    have hc : ((s.use i).triggerFiber j).fiber i = some (.triggering j n) := by
      rw [fiber_triggerFiber, hs]
      exact he
    have hu : Upto forks (s.use i).fibers j n := hx ▸ h.fiber i j n he
    have hu' := (triggerFiber_upto hu).2.2.nextControl
    exact ((h.use i).triggerFiber hu).setControl hc hu'.1
      (fun _ _ _ hr _ _ => Or.inr (hu'.2 hr)) rfl id rfl rfl rfl

theorem sound_reachable (hforks : construct = .doAll → 0 < forks)
    (h : ((machine construct forks V E).restrict (Timely forks)).Reachable s) : Sound forks s := by
  have hboth : Started construct forks s ∧ Sound forks s := by
    refine Machine.Reachable.invariant (P := fun s => Started construct forks s ∧ Sound forks s)
      (fun s hs => ?_) (fun s l hs he => ?_) h
    · obtain rfl : s = State.init V E := hs
      refine ⟨started_reachable (.initial rfl), rfl, rfl, ?_, ?_, ?_, ?_⟩ <;>
        simp [State.init, State.fiber]
    · refine ⟨started_next hs.1 he.1, ?_⟩
      rcases hs.1.inv with hi | hstopped
      · exact sound_next hs.2 hi hforks (fun hn => (hs.1.begun hn).1) he.1 he.2
      · exact absurd he.1 (hstopped.not_enabled l)
  exact hboth.2

/-- Once `Start()` has returned, every fiber that has not completed is interrupted if the
handler's callback has returned, or the callback of a fiber that failed or stopped. Nobody
interrupts a fiber that has completed, or goes for the fibers before there are any. -/
structure Reaches (s : State V E) : Prop where
  triggered : s.start = .returned → s.handler = .returned →
    ∀ f ∈ s.fibers, f.completion = none → f.interrupted = true
  failed : s.start = .returned →
    ∀ f ∈ s.fibers, f.control = .returned → (∃ c, f.completion = some c ∧ c.succeeds = false) →
    ∀ g ∈ s.fibers, g.completion = none → g.interrupted = true
  late : s.late = []
  missing : s.missing = false

theorem Reached.mem (h : Reached forks fibers) {f : Fiber V E} (hf : f ∈ fibers) :
    f.interrupted = true := by
  obtain ⟨i, hi⟩ := List.mem_iff_getElem?.mp hf
  exact h.2 i f hi

theorem reaches (hforks : construct = .doAll → 0 < forks)
    (h : ((machine construct forks V E).restrict (Timely forks)).Reachable s) : Reaches s := by
  have hs := sound_reachable hforks h
  refine ⟨fun _ hr f hf _ => (hs.triggered hr).mem hf,
    fun _ f hf hr ⟨c, hc, hfail⟩ g hg hnone => ?_, hs.late, hs.missing⟩
  obtain ⟨i, hi⟩ := List.mem_iff_getElem?.mp hf
  rcases hs.failed i f c hi hr hc hfail with h0 | hreached
  · rcases (started_reachable h.of_restrict).inv with hinv | hstopped
    · obtain ⟨cs, hcs, -⟩ := hinv.completions h0
      have hm := List.mem_map_of_mem (f := Fiber.completion) hg
      rw [hcs, hnone] at hm
      simp at hm
    · rw [hstopped.fibers] at hg
      simp at hg
  · exact hreached.mem hg

section Executing

def Handler.loops : Handler → Bool
  | .triggering .. => true
  | _ => false

def Fiber.Control.loops : Fiber.Control V E → Bool
  | .triggering .. => true
  | _ => false

theorem interrupting_iff :
    Interrupting s ↔ s.handler.loops = true ∨ ∃ f ∈ s.fibers, f.control.loops = true := by
  constructor
  · rintro (⟨j, n, hj⟩ | ⟨i, j, n, hi⟩)
    · exact .inl (by rw [hj]; rfl)
    · obtain ⟨f, hf, hc⟩ := fiber_eq_some.mp hi
      exact .inr ⟨f, List.mem_of_getElem? hf, by rw [hc]; rfl⟩
  · rintro (h | ⟨f, hf, h⟩)
    · cases hh : s.handler with
      | triggering j n => exact .inl ⟨j, n, hh⟩
      | uninstalled | installed | interrupting | returned =>
        rw [hh] at h
        cases h
    · obtain ⟨i, hi⟩ := List.mem_iff_getElem?.mp hf
      cases hc : f.control with
      | triggering j n => exact .inr ⟨i, j, n, fiber_eq_some.mpr ⟨f, hi, hc⟩⟩
      | created | running | writing | decrementing | completing | interrupting | returned =>
        rw [hc] at h
        cases h

instance (s : State V E) : Decidable (Interrupting s) := decidable_of_iff _ interrupting_iff.symm

theorem forall_getElem?_iff {P : Fiber V E → Prop} :
    (∀ f ∈ fibers, P f) ↔ ∀ (k : ℕ) (f : Fiber V E), fibers[k]? = some f → P f := by
  constructor
  · intro h k f hk
    exact h f (List.mem_of_getElem? hk)
  · intro h f hf
    obtain ⟨k, hk⟩ := List.mem_iff_getElem?.mp hf
    exact h k f hk

/-- Every fiber that has completed has been interrupted. -/
instance [DecidableEq V] [DecidableEq E] (forks : ℕ) (s : State V E) :
    Decidable (s.fibers.length = forks ∧ ∀ (k : ℕ) (f : Fiber V E), s.fibers[k]? = some f →
      f.completion ≠ none → f.interrupted = true) :=
  decidable_of_iff (s.fibers.length = forks ∧
      ∀ f ∈ s.fibers, f.completion ≠ none → f.interrupted = true)
    (and_congr_right' forall_getElem?_iff)

instance [DecidableEq V] [DecidableEq E] (forks : ℕ) (s : State V E) :
    ∀ l, Decidable (Timely forks s l)
  | .handlerInterrupts | .interrupts _ => inferInstanceAs (Decidable (s.fibers.length = forks ∧
      ∀ (k : ℕ) (f : Fiber V E), s.fibers[k]? = some f → f.completion ≠ none →
        f.interrupted = true))
  | .complete i _ => inferInstanceAs (Decidable (Interrupting s →
      ∀ f ∈ s.fibers[i]?, f.interrupted = true))
  | .start _ | .trigger | .build _ | .submit _ | .startReturns | .handlerTriggers .. | .write ..
  | .decrement .. | .call .. | .triggers .. => isTrue trivial

end Executing

/-- The handler's callback interrupts two fibers. The first fails as soon as it is interrupted, and
goes for the other one itself. -/
def failsInterrupted : List (Label ℕ ℕ) :=
  [.start (some true), .build 0, .submit 0, .build 1, .submit 1, .startReturns, .trigger,
    .handlerInterrupts, .handlerTriggers 0 2, .complete 0 (.fail 7), .write 0 (.fail 7),
    .handlerTriggers 1 2, .decrement 0 (.fail 7), .interrupts 0, .triggers 0 0 2, .triggers 0 1 2]

theorem failsInterrupted_reaches : ∃ s,
    ((machine .forkJoin 2 ℕ ℕ).restrict (Timely 2)).Reachable s ∧ s.start = .returned ∧
      s.handler = .returned ∧
      s.fibers = [⟨.returned, true, some (.fail 7)⟩, ⟨.running, true, none⟩] ∧ Reaches s := by
  have h0 : ((machine .forkJoin 2 ℕ ℕ).restrict (Timely 2)).Initial (State.init ℕ ℕ) := rfl
  have he : ((machine .forkJoin 2 ℕ ℕ).restrict (Timely 2)).exec (State.init ℕ ℕ)
      failsInterrupted = some _ := rfl
  have hr := Machine.exec_reachable (.initial h0) he
  exact ⟨_, hr, rfl, rfl, rfl, reaches (by simp) hr⟩

/-- The first of two fibers fails inside `Start()`. -/
def failsInStart : List (Label ℕ ℕ) :=
  [.start (some true), .build 0, .submit 0, .complete 0 (.fail 7), .write 0 (.fail 7),
    .decrement 0 (.fail 7), .interrupts 0, .triggers 0 0 1, .build 1, .submit 1, .startReturns]

/-- The second fiber is made afterwards and runs on. -/
theorem failsInStart_missed : ¬ ∀ s, (machine .forkJoin 2 ℕ ℕ).Reachable s → Reaches s := by
  intro h
  obtain ⟨s, hs, hp⟩ := Machine.exists_reachable_of_exec (M := machine .forkJoin 2 ℕ ℕ) failsInStart
    (fun s => decide (s.start = .returned ∧
      s.fibers[0]? = some (⟨.returned, true, some (.fail 7)⟩ : Fiber ℕ ℕ) ∧
      s.fibers[1]? = some (⟨.running, false, none⟩ : Fiber ℕ ℕ))) rfl (by decide)
  obtain ⟨hstart, h0, h1⟩ := of_decide_eq_true hp
  have hi := (h s hs).failed hstart _ (List.mem_of_getElem? h0) rfl ⟨_, rfl, rfl⟩ _
    (List.mem_of_getElem? h1) rfl
  simp at hi

end Timely

section Used

/-- `k_` is called when no fiber is still to run `interrupter_()`, or running it. -/
def Last (s : State V E) : Label V E → Prop
  | .call .. => ∀ i, s.fiber i ≠ some .interrupting ∧ ∀ j n, s.fiber i ≠ some (.triggering j n)
  | _ => True

/-- Nobody has used the continuation after the call, and nobody will. -/
structure Unused (s : State V E) : Prop where
  used : s.used = []
  idle : s.calls ≠ [] →
    ∀ i, s.fiber i ≠ some .interrupting ∧ ∀ j n, s.fiber i ≠ some (.triggering j n)

/-- After the call only `Start()` and the handler's callback have anything left to do. -/
theorem Unused.control (h : Unused s) (hi : Inv construct forks s) (hn : s.calls ≠ [])
    (hc : s.fiber i = some c) : c = .returned := by
  have h0 := (hi.called hn).counter
  cases c with
  | created | running | writing | decrementing =>
    exact absurd h0 (hi.counter_ne_zero hc (by simp [Fiber.Control.Counted]))
  | completing x => exact absurd (hi.last i x hc).2.1 hn
  | interrupting => exact absurd hc (h.idle hn i).1
  | triggering j n => exact absurd hc ((h.idle hn i).2 j n)
  | returned => rfl

theorem Unused.calls_eq (h : Unused s) (hi : Inv construct forks s) (hc : s.fiber i = some c)
    (hne : c ≠ .returned) : s.calls = [] := by
  by_contra hn
  exact hne (h.control hi hn hc)

theorem Unused.of_calls (hu : t.used = []) (hc : t.calls = []) : Unused t :=
  ⟨hu, fun hn => absurd hc hn⟩

theorem Unused.same (h : Unused s) (hu : t.used = s.used) (hc : t.calls = s.calls)
    (hf : ∀ i, t.fiber i = s.fiber i) : Unused t :=
  ⟨hu.trans h.used, fun hn i => by
    rw [hf]
    exact h.idle (hc ▸ hn) i⟩

theorem unused_next {l : Label V E} (h : Unused s) (hi : Inv construct forks s)
    (he : Enabled construct forks s l) (hl : Uninterrupted s l) (hlast : Last s l) :
    Unused (next construct forks s l) := by
  cases l with
  | start installed =>
    have hcalls := hi.calls_of_notStarted he
    cases installed with
    | none => exact .of_calls h.used hcalls
    | some b =>
      cases b with
      | true => exact .of_calls h.used hcalls
      | false => exact absurd rfl hl
  | trigger => exact h.same rfl rfl fun _ => rfl
  | complete i completion => exact .of_calls h.used (h.calls_eq hi he (by simp))
  | build index =>
    have hcalls : s.calls = [] := by
      refine hi.not_called fun h0 => ?_
      have := (hi.all_counted h0).1
      have := (hi.building index he.1).1
      have := hi.values (by simp [he.1])
      have := he.2
      omega
    cases construct <;> exact .of_calls h.used hcalls
  | submit index =>
    obtain ⟨hc, -⟩ := hi.submitting index he
    exact .of_calls h.used (h.calls_eq hi hc (by simp))
  | startReturns => exact h.same rfl rfl fun _ => rfl
  | handlerInterrupts =>
    simp only [next, State.handlerInterrupts]
    split <;> exact h.same rfl rfl fun _ => rfl
  | handlerTriggers j n =>
    have hf := fun i => fiber_triggerFiber s i j
    obtain ⟨fibers, late, hs, -⟩ := triggerFiber_shape s j
    simp only [next, State.handlerTriggers, hs] at hf ⊢
    exact h.same rfl rfl hf
  | write i completion =>
    have hcalls := h.calls_eq hi he (by simp)
    have huse : s.use i = s := if_pos hcalls
    simp only [next, State.write, huse]
    exact .of_calls h.used hcalls
  | decrement i completion =>
    have hcalls := h.calls_eq hi he (by simp)
    have huse : s.use i = s := if_pos hcalls
    simp only [next, State.decrement, huse]
    exact .of_calls h.used hcalls
  | call i completion =>
    have hidle : ∀ k, (s.setControl i .returned).fiber k ≠ some .interrupting ∧
        ∀ j n, (s.setControl i .returned).fiber k ≠ some (.triggering j n) := by
      intro k
      rw [fiber_setControl he]
      split
      · simp
      · exact hlast k
    simp only [next, State.call]
    split <;> exact ⟨h.used, fun _ => hidle⟩
  | interrupts i =>
    have hcalls := h.calls_eq hi he (by simp)
    have huse : s.use i = s := if_pos hcalls
    simp only [next, State.interrupts, huse]
    exact .of_calls h.used hcalls
  | triggers i j n =>
    have hcalls := h.calls_eq hi he (by simp)
    have huse : s.use i = s := if_pos hcalls
    obtain ⟨fibers, late, hs, -⟩ := triggerFiber_shape s j
    simp only [next, State.triggers, huse, hs]
    exact .of_calls h.used hcalls

theorem unused_reachable
    (h : ((machine construct forks V E).restrict Last).Reachable s) : Unused s := by
  have hboth : Started construct forks s ∧ Unused s := by
    refine Machine.Reachable.invariant (P := fun s => Started construct forks s ∧ Unused s)
      (fun s hs => ?_) (fun s l hs he => ?_) h
    · obtain rfl : s = State.init V E := hs
      exact ⟨started_reachable (.initial rfl), .of_calls rfl rfl⟩
    · obtain ⟨hstarted, hu⟩ := hs
      refine ⟨started_next hstarted he.1, ?_⟩
      rcases hstarted.inv with hi | hstopped
      · by_cases hl : Uninterrupted s l
        · exact unused_next hu hi he.1 hl he.2
        · cases l <;> simp only [Uninterrupted, not_true_eq_false, not_not] at hl
          subst hl
          have hfibers := (hi.notStarted he.1).1
          exact ⟨hu.used, fun _ k => by simp [Machine.restrict, machine, next, State.begin,
            State.fiber, hfibers]⟩
      · exact absurd he.1 (hstopped.not_enabled l)
  exact hboth.2

theorem not_used (h : ((machine construct forks V E).restrict Last).Reachable s) : s.used = [] :=
  (unused_reachable h).used

/-- The fiber is to run `interrupter_()`, or running it. -/
def Fiber.Control.interrupts : Fiber.Control V E → Bool
  | .interrupting | .triggering .. => true
  | _ => false

theorem interrupts_eq_false :
    c.interrupts = false ↔ c ≠ .interrupting ∧ ∀ j n, c ≠ .triggering j n := by
  cases c <;> simp [Fiber.Control.interrupts]

theorem last_iff : (∀ f ∈ s.fibers, f.control.interrupts = false) ↔
    ∀ i, s.fiber i ≠ some .interrupting ∧ ∀ j n, s.fiber i ≠ some (.triggering j n) := by
  simp only [interrupts_eq_false, forall_getElem?_iff]
  constructor
  · intro h i
    refine ⟨fun hi => ?_, fun j n hi => ?_⟩
    · obtain ⟨f, hf, hc⟩ := fiber_eq_some.mp hi
      exact (h i f hf).1 hc
    · obtain ⟨f, hf, hc⟩ := fiber_eq_some.mp hi
      exact (h i f hf).2 j n hc
  · intro h i f hf
    refine ⟨fun hc => ?_, fun j n hc => ?_⟩
    · exact (h i).1 (fiber_eq_some.mpr ⟨f, hf, hc⟩)
    · exact (h i).2 j n (fiber_eq_some.mpr ⟨f, hf, hc⟩)

instance (s : State V E) : ∀ l, Decidable (Last s l)
  | .call .. => decidable_of_iff _ last_iff
  | .start _ | .trigger | .complete .. | .build _ | .submit _ | .startReturns | .handlerInterrupts
  | .handlerTriggers .. | .write .. | .decrement .. | .interrupts _ | .triggers .. => isTrue trivial

/-- The first of two fibers fails and has interrupted the second when that stops, the last one. -/
def stopsInterrupted : List (Label ℕ ℕ) :=
  [.start none, .build 0, .submit 0, .submit 1, .complete 0 (.fail 7), .write 0 (.fail 7),
    .decrement 0 (.fail 7), .interrupts 0, .triggers 0 0 2, .triggers 0 1 2, .complete 1 .stop,
    .write 1 .stop, .decrement 1 .stop, .call 1 .stop]

theorem stopsInterrupted_not_used : ∃ s,
    ((machine .doAll 2 ℕ ℕ).restrict Last).Reachable s ∧ s.calls = [(some 1, .stop)] ∧
      s.order = [0, 1] ∧ s.used = [] := by
  have h0 : ((machine .doAll 2 ℕ ℕ).restrict Last).Initial (State.init ℕ ℕ) := rfl
  have he : ((machine .doAll 2 ℕ ℕ).restrict Last).exec (State.init ℕ ℕ) stopsInterrupted =
      some _ := rfl
  have hr := Machine.exec_reachable (.initial h0) he
  exact ⟨_, hr, rfl, rfl, not_used hr⟩

/-- The first of two fibers fails and counts down, and the second completes before the first goes
on. -/
def completesBetween : List (Label ℕ ℕ) :=
  [.start none, .build 0, .submit 0, .submit 1, .complete 0 (.fail 7), .write 0 (.fail 7),
    .decrement 0 (.fail 7), .complete 1 (.start 1), .write 1 (.start 1), .decrement 1 (.start 1),
    .call 1 (.start 1), .interrupts 0]

/-- It runs `interrupter_()` when `k_` has been called. -/
theorem completesBetween_used : ¬ ∀ s, (machine .doAll 2 ℕ ℕ).Reachable s → s.used = [] := by
  intro h
  obtain ⟨s, hs, hp⟩ := Machine.exists_reachable_of_exec (M := machine .doAll 2 ℕ ℕ)
    completesBetween (fun s => decide (s.used = [0])) rfl (by decide)
  have hu := h s hs
  rw [of_decide_eq_true hp] at hu
  simp at hu

end Used

end Eventuals.Join
