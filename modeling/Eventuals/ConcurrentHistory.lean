import Eventuals.ConcurrentInvariant

/-! What `Concurrent(f)` hands downstream, against what the fibers produced and what failed. -/
namespace Eventuals.Concurrent

open Transition (Machine)

variable {X V E : Type*} {s t : State X V E}

/-- The values of fiber number `i`. -/
def ofFiber (i : ℕ) (values : List (ℕ × V)) : List (ℕ × V) :=
  values.filter fun p => p.1 = i

/-- The value that fiber number `i` has produced and not pushed. -/
def pending (i : ℕ) : Option (Fiber.Control V E) → List (ℕ × V)
  | some (.pushing value) => [(i, value)]
  | _ => []

/-- Upstream failed or stopped before `Begin()`. -/
def State.Bypassed (s : State X V E) : Prop :=
  s.egress = .terminated ∧ s.waitForDone = .notBegun

/-- Some epilogue has yet to record a stop or an error. -/
def State.Failing (s : State X V E) : Prop :=
  (∃ e, s.ingress = .epilogue (some e)) ∨ ∃ i e, s.control i = some (.epilogue (some e))

structure History (s : State X V E) : Prop where
  delivered : s.delivered ++ s.values = s.pushed
  produced : ∀ i, ofFiber i s.pushed ++ pending i (s.control i) = ofFiber i s.produced
  fresh : s.egress = .notBegun → s.values = [] ∧ s.recorded = [] ∧ s.stoppedOrError = none
  recorded : ¬ s.Bypassed → s.stoppedOrError = s.recorded.head?
  failures : s.failures ≠ [] → s.recorded ≠ [] ∨ s.Failing
  upstreamOver : s.upstreamOver = true ↔
    s.Bypassed ∨ (∃ o, s.ingress = .epilogue o) ∨ s.ingress = .finished
  doneCalled : s.doneCalled = true → s.done ≠ .idle
  natural : s.doneCalled = false → s.done ≠ .idle →
    s.recorded = [] ∧ s.values = [] ∧ s.upstreamDone = true ∧ s.fibersDone = true
  terminals : s.egress ≠ .terminated → s.terminals = []
  terminated : s.egress = .terminated →
    s.terminals = [if s.doneCalled then none else s.recorded.head?]
  afterAll : s.egress = .terminated → s.upstreamOver = true ∧ fibersDone s.fibers = true
  doneAfterAll : s.egress = .terminated → s.Bypassed ∨ s.upstreamDone = true
  flushed : s.egress = .terminated → s.doneCalled = false → s.recorded = [] → s.values = []

section Steps

variable {i j : ℕ} {arg : X} {o : Outcome E} {value : V} {c c' : Fiber.Control V E}

theorem ofFiber_append (i : ℕ) (l l' : List (ℕ × V)) :
    ofFiber i (l ++ l') = ofFiber i l ++ ofFiber i l' :=
  List.filter_append ..

theorem ofFiber_singleton (i j : ℕ) (v : V) :
    ofFiber i [(j, v)] = if i = j then [(j, v)] else [] := by
  by_cases h : i = j
  · simp [ofFiber, h]
  · simp [ofFiber, h, Ne.symm h]

theorem control_setControl (hc : s.control i = some c) (c' : Fiber.Control V E) (j : ℕ) :
    (s.setControl i c').control j = if j = i then some c' else s.control j := by
  obtain ⟨f, hf, -⟩ := control_eq_some.mp hc
  by_cases hij : j = i
  · subst hij
    simp [State.control, State.setControl, hf]
  · simp [State.control, State.setControl, hij, Ne.symm hij]

theorem Failing.setControl (h : s.Failing) (hc : s.control i = some c)
    (hn : ∀ e, c ≠ .epilogue (some e)) : (s.setControl i c').Failing := by
  rcases h with h | ⟨j, e, hj⟩
  · exact Or.inl h
  · refine Or.inr ⟨j, e, ?_⟩
    have hij : j ≠ i := by
      rintro rfl
      rw [hc, Option.some.injEq] at hj
      exact hn e hj
    simpa [control_setControl hc, hij] using hj

theorem not_bypassed (hw : s.waitForDone ≠ .notBegun) : ¬ s.Bypassed :=
  fun hb => hw hb.2

theorem history_init (registered : Bool) : History (State.init X V E registered) := by
  constructor <;> simp [State.init, ofFiber, pending, State.control, State.Bypassed]

theorem History.produced_congr (h : History s) (hpushed : t.pushed = s.pushed)
    (hproduced : t.produced = s.produced)
    (hp : ∀ j, pending j (t.control j) = pending j (s.control j)) (j : ℕ) :
    ofFiber j t.pushed ++ pending j (t.control j) = ofFiber j t.produced := by
  rw [hpushed, hproduced, hp]
  exact h.produced j

theorem Failing.keep (h : s.Failing) (hg : ∀ e, s.ingress ≠ .epilogue (some e))
    (hc : ∀ i e, s.control i = some (.epilogue (some e)) →
      t.control i = some (.epilogue (some e))) : t.Failing := by
  rcases h with ⟨e, he⟩ | ⟨i, e, hi⟩
  · exact (hg e he).elim
  · exact Or.inr ⟨i, e, hc i e hi⟩

theorem History.fail (h : History s) (c : Check) : History (s.fail c) :=
  { h with }

theorem history_begin (h : History s) (hi : Inv s) (he : s.egress = .notBegun) :
    History s.begin := by
  have hd := (hi.notBegun (hi.begun he)).2.2.1
  have hb : ¬ s.Bypassed := fun hb => by simp [hb.1] at he
  have hb' : ¬ s.begin.Bypassed := fun hb => by simp [State.begin, State.Bypassed] at hb
  exact { h with
    fresh := by simp [State.begin]
    recorded := fun _ => h.recorded hb
    upstreamOver := h.upstreamOver.trans (or_congr (iff_of_false hb hb') Iff.rfl)
    natural := fun _ ha => absurd hd ha
    terminals := fun _ => h.terminals (by simp [he])
    terminated := by simp [State.begin]
    afterAll := by simp [State.begin]
    doneAfterAll := by simp [State.begin]
    flushed := by simp [State.begin] }

/-- Where the ingress stands with respect to upstream's last event. -/
def Ingress.Open (ingress : Ingress X E) : Prop :=
  (∀ o, ingress ≠ .epilogue o) ∧ ingress ≠ .finished

theorem not_over (hi : s.ingress.Open) :
    ¬ ((∃ o, s.ingress = .epilogue o) ∨ s.ingress = .finished) := by
  rintro (⟨o, ho⟩ | hf)
  · exact hi.1 o ho
  · exact hi.2 hf

theorem History.moveIngress (h : History s) (ingress : Ingress X E) (hi : s.ingress.Open)
    (hi' : ingress.Open) : History ({ s with ingress := ingress } : State X V E) :=
  { h with
    failures := fun hf => (h.failures hf).imp_right fun hf => hf.imp_left fun ⟨_, he⟩ =>
      absurd he (hi.1 _)
    upstreamOver := h.upstreamOver.trans (or_congr Iff.rfl (iff_of_false (not_over hi)
      (not_over (s := ({ s with ingress := ingress } : State X V E)) hi'))) }

theorem history_body (h : History s) (hi : s.ingress = .awaitingNext) :
    History (s.body arg) := by
  rcases body_cases (s := s) arg with hb | ⟨handler, installed, interrupt, hb, -⟩
  · exact hb ▸ h.fail _
  · rw [hb]
    have hm := h.moveIngress (.create arg) (by simp [hi, Ingress.Open])
      (by simp [Ingress.Open])
    exact { hm with }

theorem history_upstreamOutcome (h : History s) (hi : Inv s)
    (hr : s.egress = .notBegun ∧ o.isSome ∨ s.ingress = .awaitingNext ∨
      s.ingress = .awaitingDone) : History (s.upstreamOutcome o) := by
  unfold State.upstreamOutcome
  split
  · next he =>
    obtain ⟨-, hs, hd, -⟩ := hi.notBegun (hi.begun he)
    have hg : s.ingress = .notBegun := by
      by_contra hg
      simp [hi.saved (Or.inl hg)] at hs
    have ho : o.isSome := by
      rcases hr with hr | hr | hr
      · exact hr.2
      · simp [hr] at hg
      · simp [hr] at hg
    obtain ⟨e, rfl⟩ := Option.isSome_iff_exists.mp ho
    obtain ⟨hv, hrec, -⟩ := h.fresh he
    have hc : s.doneCalled = false := by
      by_contra hc
      exact h.doneCalled (by simpa using hc) hd
    exact { h with
      fresh := by simp
      recorded := fun hb => (hb ⟨rfl, hi.begun he⟩).elim
      failures := by simp
      upstreamOver := by simp [State.Bypassed, hi.begun he]
      natural := fun _ ha => absurd hd ha
      terminals := by simp
      terminated := by simp [h.terminals (by simp [he]), hc, hrec]
      afterAll := by simp [hi.noFibers hg, fibersDone]
      doneAfterAll := fun _ => Or.inl ⟨rfl, hi.begun he⟩
      flushed := fun _ _ _ => hv }
  · next he =>
    have hg : s.ingress = .awaitingNext ∨ s.ingress = .awaitingDone := by
      rcases hr with hr | hr
      · exact absurd hr.1 he
      · exact hr
    exact { h with
      failures := fun hf => by
        cases o with
        | some e => exact Or.inr (Or.inl ⟨e, rfl⟩)
        | none =>
          rcases h.failures (by simpa using hf) with hf | ⟨e, hf⟩ | hf
          · exact Or.inl hf
          · rcases hg with hg | hg <;> simp [hg] at hf
          · exact Or.inr (Or.inr hf)
      upstreamOver := by simp
      afterAll := fun ht => ⟨rfl, (h.afterAll ht).2⟩ }

theorem history_request (h : History s) (he : s.egress = .idle) :
    History { s with egress := .acquiring } := by
  have hb : ¬ s.Bypassed := fun hb => by simp [hb.1] at he
  have hb' : ¬ State.Bypassed { s with egress := .acquiring } := fun hb => by
    simp [State.Bypassed] at hb
  exact { h with
    fresh := by simp
    recorded := fun _ => h.recorded hb
    upstreamOver := h.upstreamOver.trans (or_congr (iff_of_false hb hb') Iff.rfl)
    terminals := fun _ => h.terminals (by simp [he])
    terminated := by simp
    afterAll := by simp
    doneAfterAll := by simp
    flushed := by simp }

theorem history_downstreamDone (h : History s) (hi : Inv s) (he : s.egress = .idle) :
    History ({ s with egress := .awaitingEnded, doneCalled := true }.callDone) := by
  have hd := hi.done_idle (by simp [he]) (by simp [he])
  have hb : ¬ s.Bypassed := fun hb => by simp [hb.1] at he
  have hb' : ¬ State.Bypassed
      { s with egress := .awaitingEnded, doneCalled := true, done := .acquiring } := fun hb => by
    simp [State.Bypassed] at hb
  unfold State.callDone
  rw [if_pos hd]
  exact { h with
    fresh := by simp
    recorded := fun _ => h.recorded hb
    upstreamOver := h.upstreamOver.trans (or_congr (iff_of_false hb hb') Iff.rfl)
    doneCalled := by simp
    natural := by simp
    terminals := fun _ => h.terminals (by simp [he])
    terminated := by simp
    afterAll := by simp
    doneAfterAll := by simp
    flushed := by simp }

theorem history_trigger (h : History s) : History s.trigger := by
  unfold State.trigger
  split
  · split
    · exact { h with }
    · exact h.fail _
  · exact { h with }

theorem history_fiberValue (h : History s) (hc : s.control i = some .running) :
    History { s.setControl i (.pushing value) with produced := s.produced ++ [(i, value)] } :=
  { h with
    produced := fun j => by
      have hj := h.produced j
      have hcj := control_setControl hc (.pushing value) j
      change ofFiber j s.pushed ++ pending j ((s.setControl i (.pushing value)).control j) = _
      rw [hcj, ofFiber_append, ofFiber_singleton, ← hj]
      by_cases hij : j = i
      · subst hij
        simp [hc, pending]
      · simp [hij]
    failures := fun hf => (h.failures hf).imp_right fun hf =>
      Failing.setControl hf hc (by simp)
    afterAll := fun ht => ⟨(h.afterAll ht).1, by
      simpa [State.setControl, fibersDone_modify] using (h.afterAll ht).2⟩ }

theorem pending_setControl (hc : s.control i = some c) (c' : Fiber.Control V E)
    (hp : pending i (some c') = pending i (some c)) (j : ℕ) :
    pending j ((s.setControl i c').control j) = pending j (s.control j) := by
  rw [control_setControl hc]
  by_cases hij : j = i
  · subst hij
    simpa [hc] using hp
  · simp [hij]

theorem history_fiberOutcome (h : History s) (hc : s.control i = some .running) :
    History { s.setControl i (.epilogue o) with failures := s.failures ++ o.toList } :=
  { h with
    produced := fun j => by
      change ofFiber j s.pushed ++ pending j ((s.setControl i (.epilogue o)).control j) = _
      rw [pending_setControl hc (.epilogue o) rfl]
      exact h.produced j
    failures := fun hf => by
      cases o with
      | some e =>
        refine Or.inr (Or.inr ⟨i, e, ?_⟩)
        change (s.setControl i (.epilogue (some e))).control i = _
        simp [control_setControl hc]
      | none =>
        exact (h.failures (by simpa using hf)).imp_right fun hf =>
          Failing.setControl hf hc (by simp)
    afterAll := fun ht => ⟨(h.afterAll ht).1, by
      simpa [State.setControl, fibersDone_modify] using (h.afterAll ht).2⟩ }

theorem history_fiberStart (h : History s) (hc : s.control i = some .submitted) :
    History (s.setControl i .running) :=
  { h with
    produced := fun j => by
      rw [pending_setControl hc .running rfl]
      exact h.produced j
    failures := fun hf => (h.failures hf).imp_right fun hf =>
      Failing.setControl hf hc (by simp)
    afterAll := fun ht => ⟨(h.afterAll ht).1, by
      simpa [State.setControl, fibersDone_modify] using (h.afterAll ht).2⟩ }

theorem Base.not_upstreamDone (h : Base s) (hi : s.ingress ≠ .finished) :
    s.upstreamDone ≠ true := by
  rwa [Ne, h.upstreamDone_iff]

/-- As long as the ingress is open, no terminal event has been delivered. -/
theorem History.not_terminated (h : History s) (hi : s.ingress.Open)
    (hw : s.waitForDone ≠ .notBegun) : s.egress ≠ .terminated := by
  intro ht
  rcases h.upstreamOver.mp (h.afterAll ht).1 with hb | ho
  · exact hw hb.2
  · exact not_over hi ho

theorem control_of_getElem? {fibers : List (Fiber V E)}
    (h : ∀ j, fibers[j]? = if j = i then some createFiber else s.fibers[j]?) (j : ℕ) :
    fibers[j]?.map Fiber.control = if j = i then some .created else s.control j := by
  by_cases hj : j = i
  · simp [h, hj, createFiber]
  · simp [State.control, h, hj]

theorem control_startFiber (hc : s.control i = some c) (j : ℕ) :
    (s.startFiber i).control j = if j = i then some .submitted else s.control j := by
  obtain ⟨f, hf, -⟩ := control_eq_some.mp hc
  by_cases hj : j = i
  · simp [State.control, State.startFiber, hj, hf]
  · simp [State.control, State.startFiber, hj, Ne.symm hj]

theorem history_createOrReuseFiber (h : History s) (hi : Inv s) {contexts : ℕ → Context}
    (hg : s.ingress = .create arg) : History (s.createOrReuseFiber arg contexts) := by
  have ho : s.ingress.Open := by simp [hg, Ingress.Open]
  have hw := hi.waitForDone_of_ingress (by simp [hg])
  have ht := h.not_terminated ho hw
  have hu := hi.not_upstreamDone (by simp [hg])
  rcases create_cases arg contexts hi.toBase with
    hr | ⟨-, -, -, i, fibers, hr, hcases⟩
  · exact hr ▸ h.moveIngress .awaitingDone ho (by simp [Ingress.Open])
  · have hget := create_getElem? hcases
    have hold : ∀ c, s.control i = some c → c = .finished := by
      intro c hc
      obtain ⟨f, hf, hfc⟩ := control_eq_some.mp hc
      rcases hcases with ⟨hl, -⟩ | ⟨f', hf', hd, -, -, -⟩
      · simp [hl] at hf
      · rw [hf, Option.some.injEq] at hf'
        subst hf'
        rw [← hfc]
        exact (hi.done_iff f (List.mem_of_getElem? hf)).mp hd
    have hcontrol : ∀ j, State.control ({ s with
        fibers := fibers, fibersDone := false, ingress := .start arg i } : State X V E) j =
          if j = i then some .created else s.control j := control_of_getElem? hget
    have hm := h.moveIngress (.start arg i) ho (by simp [Ingress.Open])
    rw [hr]
    exact { hm with
      produced := h.produced_congr rfl rfl fun j => by
        rw [hcontrol]
        by_cases hj : j = i
        · cases hc : s.control j with
          | none => simp [hj, pending]
          | some c =>
            subst hj
            simp [hold c hc, pending]
        · simp [hj]
      failures := fun hf => (h.failures hf).imp_right fun hf => Failing.keep hf (fun e => ho.1 _)
        fun j e hj => by
          have hne : j ≠ i := by
            rintro rfl
            simpa using hold _ hj
          rw [hcontrol, if_neg hne, hj]
      natural := fun hc hd => absurd (h.natural hc hd).2.2.1 hu
      afterAll := fun ht' => absurd ht' ht }

theorem history_startFiber (h : History s) (hi : Inv s) (hg : s.ingress = .start arg i) :
    History (s.startFiber i) := by
  have ho : s.ingress.Open := by simp [hg, Ingress.Open]
  have hw := hi.waitForDone_of_ingress (by simp [hg])
  have hc := (hi.created i).mpr ⟨arg, hg⟩
  have hm := h.moveIngress .awaitingNext ho (by simp [Ingress.Open])
  have hcontrol := control_startFiber hc
  exact { hm with
    produced := h.produced_congr rfl rfl fun j => by
      rw [hcontrol]
      by_cases hj : j = i
      · subst hj
        simp [hc, pending]
      · simp [hj]
    failures := fun hf => (h.failures hf).imp_right fun hf => Failing.keep hf (fun e => ho.1 _)
      fun j e hj => by
        have hne : j ≠ i := by
          rintro rfl
          simp [hj] at hc
        rw [hcontrol, if_neg hne, hj]
    afterAll := fun ht => absurd ht (h.not_terminated ho hw) }

theorem History.notified (h : History s) : History { s with egress := s.egress.notified } := by
  have hb : State.Bypassed { s with egress := s.egress.notified } ↔ s.Bypassed := by
    simp [State.Bypassed]
  exact { h with
    fresh := by simpa using h.fresh
    recorded := fun hn => h.recorded fun hb' => hn (hb.mpr hb')
    upstreamOver := h.upstreamOver.trans (or_congr hb.symm Iff.rfl)
    terminals := by simpa using h.terminals
    terminated := by simpa using h.terminated
    afterAll := by simpa using h.afterAll
    doneAfterAll := fun ht => (h.doneAfterAll (by simpa using ht)).imp_left hb.mpr
    flushed := by simpa using h.flushed }

theorem History.moveWaitForDone (h : History s) (hw : s.waitForDone ≠ .notBegun) {w : WaitForDone}
    (hw' : w ≠ .notBegun) : History { s with waitForDone := w } := by
  have hb := not_bypassed hw
  have hb' : ¬ State.Bypassed { s with waitForDone := w } := not_bypassed hw'
  exact { h with
    recorded := fun _ => h.recorded hb
    upstreamOver := h.upstreamOver.trans (or_congr (iff_of_false hb hb') Iff.rfl)
    doneAfterAll := fun ht => (h.doneAfterAll ht).imp_left fun hx => absurd hx hb }

theorem History.notifyAll (h : History s) (hs : s.egressSaved = true)
    (hw : s.waitForDone ≠ .notBegun) : History s.notifyAll := by
  rw [notifyAll_eq hs hw]
  split
  · exact h.notified.moveWaitForDone hw (by simpa using hw)
  · exact h

theorem History.notifyDone (h : History s) (hw : s.waitForDone ≠ .notBegun) :
    History (if s.upstreamDone && s.fibersDone then s.notifyDone else s) := by
  split
  · rw [notifyDone_eq hw]
    exact h.moveWaitForDone hw (by simpa using hw)
  · exact h

theorem history_push (h : History s) (hi : Inv s) (hc : s.control i = some (.pushing value)) :
    History (s.push i value) := by
  have hg := hi.ingress_of_control hc
  have hcontrol := control_setControl hc .running
  have hn := hi.not_fibersDone hc (by simp)
  have ht : s.egress ≠ .terminated := fun ht => hn (h.afterAll ht).2
  rw [push_eq (hi.saved (Or.inl hg))]
  exact { h.notified with
    delivered := by
      change s.delivered ++ (s.values ++ [(i, value)]) = s.pushed ++ [(i, value)]
      rw [← h.delivered, List.append_assoc]
    produced := fun j => by
      have hj := h.produced j
      change ofFiber j (s.pushed ++ [(i, value)]) ++
        pending j ((s.setControl i .running).control j) = ofFiber j s.produced
      rw [hcontrol, ofFiber_append, ofFiber_singleton, ← hj]
      by_cases hji : j = i
      · subst hji
        simp [hc, pending]
      · simp [hji]
    fresh := fun he => absurd (hi.begun (by simpa using he)) (hi.waitForDone_of_ingress hg)
    failures := fun hf => (h.failures hf).imp_right fun hf =>
      Failing.setControl hf hc (by simp)
    natural := fun hd ha => absurd (hi.allDone (h.natural hd ha).2.2.2) hn
    afterAll := fun he => absurd (by simpa using he) ht
    doneAfterAll := fun he => absurd (by simpa using he) ht
    flushed := fun he => absurd (by simpa using he) ht }

/-- The epilogue has taken down how its stream or fiber finished. -/
theorem History.record (h : History s) (hi : Inv s) (o : Outcome E)
    (hw : s.waitForDone ≠ .notBegun) (ht : s.egress ≠ .terminated)
    (hn : s.done ≠ .idle → s.doneCalled = true) : History (s.record o) :=
  { h with
    fresh := fun he => absurd (hi.begun he) hw
    recorded := fun hb => by
      simp only [State.record, h.recorded hb]
      cases s.recorded <;> cases o <;> rfl
    failures := fun hf => (h.failures hf).imp_left fun hr => by
      simp [State.record, hr]
    natural := fun hc hd => by
      have hc' : s.doneCalled = false := hc
      simp [hn hd] at hc'
    terminated := fun he => absurd he ht
    afterAll := fun he => absurd he ht
    flushed := fun he => absurd he ht }

theorem History.interruptFibers (h : History s) (hi : Base s) : History s.interruptFibers :=
  { h with
    produced := h.produced_congr rfl rfl fun j => by
      simp [State.control, State.interruptFibers, Concurrent.interruptFibers, Function.comp_def,
        trigger_control]
    failures := fun hf => (h.failures hf).imp_right fun hf => by
      rcases hf with hf | ⟨j, e, hj⟩
      · exact Or.inl hf
      · refine Or.inr ⟨j, e, ?_⟩
        simpa [State.control, State.interruptFibers, Concurrent.interruptFibers,
          Function.comp_def, trigger_control] using hj
    natural := fun hc hd => by
      obtain ⟨hr, hv, hu, hf⟩ := h.natural hc hd
      refine ⟨hr, hv, hu, ?_⟩
      simpa [State.interruptFibers, not_interruptFibers] using hi.allDone hf
    afterAll := fun ht => ⟨(h.afterAll ht).1, by
      simpa [State.interruptFibers, fibersDone_interrupt] using (h.afterAll ht).2⟩ }

theorem control_finishFiber (hc : s.control i = some c) (j : ℕ) :
    (s.finishFiber i).control j = if j = i then some .finished else s.control j := by
  obtain ⟨f, hf, -⟩ := control_eq_some.mp hc
  by_cases hij : j = i
  · simp [State.control, State.finishFiber, hij, hf]
  · simp [State.control, State.finishFiber, hij, Ne.symm hij]

theorem History.finishFiber (h : History s) (hi : Inv s) (hc : s.control i = some (.epilogue o)) :
    History { (s.finishFiber i).record o with
      fibersDone := Concurrent.fibersDone (s.finishFiber i).fibers } := by
  have hn := hi.not_fibersDone hc (by simp)
  have ht : s.egress ≠ .terminated := fun ht => hn (h.afterAll ht).2
  have hr := h.record hi o (hi.waitForDone_of_ingress (hi.ingress_of_control hc)) ht fun hd => by
    by_contra hf
    exact hn (hi.allDone (h.natural (by simpa using hf) hd).2.2.2)
  have hcontrol := control_finishFiber hc
  exact { hr with
    produced := h.produced_congr rfl rfl fun j => by
      change pending j ((s.finishFiber i).control j) = _
      rw [hcontrol]
      by_cases hj : j = i
      · subst hj
        simp [hc, pending]
      · simp [hj]
    failures := fun hf => by
      change s.recorded ++ o.toList ≠ [] ∨ _
      rcases h.failures hf with hf | hf | ⟨j, e, hj⟩
      · simp [hf]
      · exact Or.inr (Or.inl hf)
      · by_cases hij : j = i
        · subst hij
          rw [hc] at hj
          simp only [Option.some.injEq, Fiber.Control.epilogue.injEq] at hj
          simp [hj]
        · refine Or.inr (Or.inr ⟨j, e, ?_⟩)
          change (s.finishFiber i).control j = _
          rw [hcontrol, if_neg hij, hj]
    natural := fun hd ha => absurd (hi.allDone (h.natural hd ha).2.2.2) hn
    afterAll := fun he => absurd he ht }

theorem history_fiberEpilogue (h : History s) (hi : Inv s)
    (hc : s.control i = some (.epilogue o)) : History (s.fiberEpilogue i o) := by
  have hg := hi.ingress_of_control hc
  have hs := hi.egressSaved_of_ingress hg
  have hw := hi.waitForDone_of_ingress hg
  have hf := h.finishFiber hi hc
  unfold State.fiberEpilogue
  cases o with
  | none => exact hf.notifyAll hs hw
  | some e => exact (hf.interruptFibers (hi.finishFiber hc)).notifyAll hs hw

theorem history_ingressEpilogue (h : History s) (hi : Inv s) (hg : s.ingress = .epilogue o) :
    History (s.ingressEpilogue o) := by
  have hs := hi.egressSaved_of_ingress (by simp [hg])
  have hw := hi.waitForDone_of_ingress (by simp [hg])
  have hu := hi.not_upstreamDone (by simp [hg])
  have ht : s.egress ≠ .terminated := fun ht => by
    rcases h.doneAfterAll ht with hb | hd
    · exact hw hb.2
    · exact hu hd
  have hr := h.record hi o hw ht fun hd => by
    by_contra hf
    exact hu (h.natural (by simpa using hf) hd).2.2.1
  have hh : History ({ s.record o with
      upstreamDone := true, fibersDone := Concurrent.fibersDone s.fibers,
      ingress := .finished } : State X V E) :=
    { hr with
      failures := fun hf => by
        change s.recorded ++ o.toList ≠ [] ∨ _
        rcases h.failures hf with hf | ⟨e, hf⟩ | hf
        · simp [hf]
        · rw [hg, Ingress.epilogue.injEq] at hf
          simp [hf]
        · exact Or.inr (Or.inr hf)
      upstreamOver := by
        have ho := h.upstreamOver
        simp only [hg] at ho
        simpa [State.record] using ho
      doneAfterAll := fun he => absurd he ht
      natural := fun hd ha => absurd (h.natural hd ha).2.2.1 hu }
  exact hh.notifyAll hs hw

theorem history_interruptSection (h : History s) (hi : Inv s) {ahead : Bool}
    (hx : s.interrupt = .acquiring ahead) : History s.interruptSection := by
  have hg := (hi.triggered (by simp [hx])).2
  have hh : History ({ s with interrupted := true, interrupt := .ran }.interruptFibers) :=
    { h.interruptFibers hi.toBase with }
  exact hh.notifyAll (hi.egressSaved_of_ingress hg) (hi.waitForDone_of_ingress hg)

theorem history_doneSection (h : History s) (hi : Inv s) (hd : s.done = .acquiring) :
    History s.doneSection := by
  have hw : s.waitForDone ≠ .notBegun := fun hw => by simpa [hd] using (hi.notBegun hw).2.2.1
  have hf := h.interruptFibers hi.toBase
  have hh : History ({ s with downstreamDone := true, done := .ran }.interruptFibers) :=
    { hf with
      doneCalled := fun _ => by simp [State.interruptFibers]
      natural := fun hc _ => hf.natural hc (by simp [State.interruptFibers, hd]) }
  exact hh.notifyDone hw

theorem history_waitForDoneSection (h : History s) (hw : s.waitForDone = .acquiring) :
    History s.waitForDoneSection := by
  unfold State.waitForDoneSection
  split
  · exact h.moveWaitForDone (by simp [hw]) (by simp)
  · exact h.moveWaitForDone (by simp [hw]) (by simp)

theorem history_endedSection (h : History s) (hi : Inv s) (hw : s.waitForDone = .ending) :
    History s.endedSection := by
  have he := hi.awaiting_of_ending hw
  obtain ⟨-, hu, hf⟩ := hi.ending (Or.inl hw)
  have hb : ¬ s.Bypassed := not_bypassed (by simp [hw])
  have ho : s.upstreamOver = true :=
    h.upstreamOver.mpr (Or.inr (Or.inr (hi.upstreamDone_iff.mp hu)))
  have hb' : ¬ State.Bypassed { s with
      waitForDone := .finished, egress := .terminated,
      terminals := s.terminals ++ [none] } := not_bypassed (by simp)
  have hn : s.doneCalled = false → s.recorded = [] ∧ s.values = [] := by
    intro hc
    obtain ⟨hr, hv, -⟩ := h.natural hc (hi.awaiting he)
    exact ⟨hr, hv⟩
  rw [ended_eq hi.toBase hw]
  exact { h with
    fresh := by simp
    recorded := fun _ => h.recorded hb
    upstreamOver := h.upstreamOver.trans (or_congr (iff_of_false hb hb') Iff.rfl)
    terminals := by simp
    terminated := fun _ => by
      cases hc : s.doneCalled with
      | true => simp [h.terminals (by simp [he])]
      | false => simp [h.terminals (by simp [he]), (hn hc).1]
    afterAll := fun _ => ⟨ho, hi.allDone hf⟩
    doneAfterAll := fun _ => Or.inr hu
    flushed := fun _ hc _ => (hn hc).2 }

theorem history_egressSection (h : History s) (hi : Inv s) (he : s.egress = .acquiring) :
    History s.egressSection := by
  have hw := hi.waitForDone_of_egress (by simp [he]) (by simp [he])
  have hd := hi.done_idle (by simp [he]) (by simp [he])
  have hb := not_bypassed hw
  have hc : s.doneCalled = false := by
    by_contra hc
    exact h.doneCalled (by simpa using hc) hd
  have hbase : ∀ e, e ≠ .notBegun → e ≠ .terminated →
      History { s with egressSaved := true, egress := e } := fun e hne hnt =>
    { h with
      fresh := fun hx => absurd hx hne
      recorded := fun _ => h.recorded hb
      upstreamOver := h.upstreamOver.trans (or_congr (iff_of_false hb (not_bypassed hw)) Iff.rfl)
      terminals := fun _ => h.terminals (by simp [he])
      terminated := fun hx => absurd hx hnt
      afterAll := fun hx => absurd hx hnt
      doneAfterAll := fun hx => absurd hx hnt
      flushed := fun hx => absurd hx hnt }
  rcases egress_cases s with ⟨-, -, hr⟩ | ⟨hs, hu, hf, hr⟩ | ⟨value, values, hv, -, hr⟩ |
    ⟨hv, hs, hu, hf, hr⟩
  · exact hr ▸ hbase .waiting (by simp) (by simp)
  · have ho : s.upstreamOver = true :=
      h.upstreamOver.mpr (Or.inr (Or.inr (hi.upstreamDone_iff.mp hu)))
    have hrec := h.recorded hb
    rw [hr]
    exact { h with
      fresh := by simp
      recorded := fun _ => hrec
      upstreamOver := h.upstreamOver.trans (or_congr (iff_of_false hb (not_bypassed hw)) Iff.rfl)
      terminals := by simp
      terminated := fun _ => by simp [h.terminals (by simp [he]), hc, hrec]
      afterAll := fun _ => ⟨ho, hi.allDone hf⟩
      doneAfterAll := fun _ => Or.inr hu
      flushed := fun _ _ hn => by
        have hn' : s.recorded = [] := hn
        simp [hrec, hn'] at hs }
  · rw [hr]
    exact { hbase .idle (by simp) (by simp) with
      delivered := by simp [← h.delivered, hv]
      fresh := by simp
      natural := fun _ ha => absurd hd ha
      flushed := by simp }
  · rw [hr]
    unfold State.callDone
    rw [if_pos hd]
    have hrec : s.recorded = [] := by
      have := h.recorded hb
      rw [hs] at this
      exact List.head?_eq_none_iff.mp this.symm
    exact { hbase .awaitingEnded (by simp) (by simp) with
      doneCalled := by simp
      natural := fun _ _ => ⟨hrec, hv, hu, hf⟩ }

end Steps

theorem history_next {l : Label X V E} (h : History s) (hi : Inv s) (hr : Ready s l) :
    History (next s l) := by
  cases l with
  | begin => exact history_begin h hi hr
  | upstreamValue arg => exact history_body h hr
  | upstreamOutcome o => exact history_upstreamOutcome h hi hr
  | upstreamInstall => exact { h with }
  | next => exact history_request h hr
  | downstreamDone => exact history_downstreamDone h hi hr
  | trigger => exact history_trigger h
  | fiberValue i value => exact history_fiberValue h hr
  | fiberOutcome i o => exact history_fiberOutcome h hr
  | ingressBegin =>
    exact h.moveIngress .awaitingNext (by simp [hr.2, Ingress.Open]) (by simp [Ingress.Open])
  | createOrReuseFiber arg contexts => exact history_createOrReuseFiber h hi hr.1
  | startFiber arg i => exact history_startFiber h hi hr
  | ingressEpilogue o => exact history_ingressEpilogue h hi hr
  | egress => exact history_egressSection h hi hr
  | waitForDone => exact history_waitForDoneSection h hr
  | ended => exact history_endedSection h hi hr
  | done => exact history_doneSection h hi hr
  | interrupt => exact history_interruptSection h hi hr.choose_spec
  | fiberStart i => exact history_fiberStart h hr
  | push i value => exact history_push h hi hr
  | fiberEpilogue i o => exact history_fiberEpilogue h hi hr

theorem history_reachable (h : (machine X V E).Reachable s) : History s := by
  have hboth : Inv s ∧ History s := by
    refine h.invariant (P := fun s => Inv s ∧ History s) ?_ ?_
    · rintro s ⟨registered, rfl⟩
      exact ⟨inv_init registered, history_init registered⟩
    · intro s l hi he
      exact ⟨inv_next hi.1 he.2, history_next hi.2 hi.1 he.2⟩
  exact hboth.2

/-- What downstream sees, in any state that is reached. -/
structure Correct (s : State X V E) : Prop where
  delivered : s.delivered <+: s.pushed
  inOrder : ∀ i, ofFiber i s.delivered <+: ofFiber i s.produced
  complete : s.doneCalled = false → s.terminals = [none] →
    s.delivered = s.pushed ∧ ∀ i, ofFiber i s.delivered = ofFiber i s.produced
  once : s.terminals.length ≤ 1
  afterAll : s.terminals ≠ [] → s.upstreamOver = true ∧ ∀ f ∈ s.fibers, f.done = true
  first : s.failures ≠ [] → s.doneCalled = false → s.terminals ≠ [] →
    ∃ e, s.recorded.head? = some e ∧ s.terminals = [some e]
  reuse : ∀ arg contexts i f, Ready s (.createOrReuseFiber arg contexts) →
    (s.createOrReuseFiber arg contexts).ingress = .start arg i → s.fibers[i]? = some f →
    f.done = true ∧ f.control = .finished ∧ (contexts i).inUse = false ∧
      (contexts i).blocked = false

theorem History.inOrder (h : History s) (i : ℕ) :
    ofFiber i s.delivered <+: ofFiber i s.produced := by
  rw [← h.produced, ← h.delivered, ofFiber_append, List.append_assoc]
  exact List.prefix_append ..

theorem Inv.pending_nil (h : Inv s) (hd : fibersDone s.fibers = true) (i : ℕ) :
    pending i (s.control i) = [] := by
  cases hc : s.control i with
  | none => rfl
  | some c =>
    by_cases hf : c = .finished
    · rw [hf]
      rfl
    · exact absurd hd (h.not_fibersDone hc hf)

theorem History.complete (h : History s) (hi : Inv s) (ht : s.egress = .terminated)
    (hv : s.values = []) :
    s.delivered = s.pushed ∧ ∀ i, ofFiber i s.delivered = ofFiber i s.produced := by
  have hp : s.delivered = s.pushed := by
    rw [← h.delivered, hv, List.append_nil]
  refine ⟨hp, fun i => ?_⟩
  rw [hp, ← h.produced, hi.pending_nil (h.afterAll ht).2, List.append_nil]

theorem Inv.reuse (h : Inv s) {arg : X} {contexts : ℕ → Context} {i : ℕ} {f : Fiber V E}
    (hr : (s.createOrReuseFiber arg contexts).ingress = .start arg i)
    (hf : s.fibers[i]? = some f) :
    f.done = true ∧ f.control = .finished ∧ (contexts i).inUse = false ∧
      (contexts i).blocked = false := by
  rcases create_cases arg contexts h.toBase with
    he | ⟨-, -, -, j, fibers, he, hcases⟩
  · simp [he] at hr
  · rw [he] at hr
    simp only [Ingress.start.injEq, true_and] at hr
    subst hr
    rcases hcases with ⟨hl, -⟩ | ⟨f', hf', hd, hu, hb, -⟩
    · simp [hl] at hf
    · rw [hf, Option.some.injEq] at hf'
      subst hf'
      exact ⟨hd, (h.done_iff f (List.mem_of_getElem? hf)).mp hd, hu, hb⟩

theorem History.terminals_eq (h : History s) (ht : s.terminals ≠ []) :
    s.egress = .terminated ∧
      s.terminals = [if s.doneCalled then none else s.recorded.head?] := by
  have he : s.egress = .terminated := by
    by_contra he
    exact ht (h.terminals he)
  exact ⟨he, h.terminated he⟩

theorem History.not_failing (h : History s) (hi : Inv s) (ht : s.egress = .terminated) :
    ¬ s.Failing := by
  have hd := (h.afterAll ht).2
  rintro (⟨e, he⟩ | ⟨i, e, hc⟩)
  · rcases h.doneAfterAll ht with hb | hu
    · exact hi.waitForDone_of_ingress (by simp [he]) hb.2
    · exact hi.not_upstreamDone (by simp [he]) hu
  · exact hi.not_fibersDone hc (by simp) hd

theorem concurrent_correct (h : (machine X V E).Reachable s) : Correct s := by
  have hi := inv_reachable h
  have hh := history_reachable h
  refine ⟨?_, hh.inOrder, ?_, ?_, ?_, ?_, ?_⟩
  · rw [← hh.delivered]
    exact List.prefix_append ..
  · intro hc ht
    obtain ⟨he, hn⟩ := hh.terminals_eq (by simp [ht])
    have hrec : s.recorded = [] := by
      simpa [hc, ht] using hn.symm
    exact hh.complete hi he (hh.flushed he hc hrec)
  · by_cases ht : s.terminals = []
    · simp [ht]
    · simp [(hh.terminals_eq ht).2]
  · intro ht
    obtain ⟨ho, hd⟩ := hh.afterAll (hh.terminals_eq ht).1
    exact ⟨ho, fibersDone_iff.mp hd⟩
  · intro hf hc ht
    obtain ⟨he, hn⟩ := hh.terminals_eq ht
    have hrec := (hh.failures hf).resolve_right (hh.not_failing hi he)
    cases hr : s.recorded with
    | nil => exact absurd hr hrec
    | cons e es => exact ⟨e, rfl, by simpa [hc, hr] using hn⟩
  · intro arg contexts i f _ hr hf
    exact hi.reuse hr hf

def free : ℕ → Context :=
  fun _ => ⟨false, false⟩

/-- The fiber that produced 10 and 11 is used again for the second upstream value. -/
def reuseFiber : List (Label ℕ ℕ ℕ) :=
  [.begin, .next, .egress, .ingressBegin, .upstreamValue 1, .createOrReuseFiber 1 free,
    .startFiber 1 0, .fiberStart 0, .fiberValue 0 10, .push 0 10, .egress, .next, .fiberValue 0 11,
    .push 0 11, .egress, .fiberOutcome 0 none, .fiberEpilogue 0 none, .upstreamValue 2,
    .createOrReuseFiber 2 free, .startFiber 2 0, .next, .egress, .fiberStart 0, .fiberValue 0 20,
    .upstreamOutcome none, .ingressEpilogue none, .push 0 20, .egress, .fiberOutcome 0 none,
    .fiberEpilogue 0 none, .next, .egress, .done, .waitForDone, .ended]

theorem reuseFiber_correct : ∃ s : State ℕ ℕ ℕ,
    s.fibers.length = 1 ∧ s.delivered = [(0, 10), (0, 11), (0, 20)] ∧ s.terminals = [none] ∧
      Correct s := by
  obtain ⟨s, hs, hp⟩ := Machine.exists_reachable_of_exec (M := machine ℕ ℕ ℕ) reuseFiber
    (fun s => decide (s.fibers.length = 1 ∧ s.delivered = [(0, 10), (0, 11), (0, 20)] ∧
      s.terminals = [none])) ⟨true, rfl⟩ (by decide)
  obtain ⟨hf, hd, ht⟩ := of_decide_eq_true hp
  exact ⟨s, hf, hd, ht, concurrent_correct hs⟩

end Eventuals.Concurrent
