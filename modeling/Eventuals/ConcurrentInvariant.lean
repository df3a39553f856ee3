import Eventuals.Concurrent

/-! The flags of `Concurrent(f)` against its fibers and against where each party stands. -/
namespace Eventuals.Concurrent

open Transition (Machine)

variable {X V E : Type*} {s : State X V E}

section Fibers

variable {fibers fibers' : List (Fiber V E)} {contexts : ℕ → Context} {i j k : ℕ}

theorem forall_mem_modify {P : Fiber V E → Prop} {g : Fiber V E → Fiber V E}
    (h : ∀ f ∈ fibers, P f) (hg : ∀ f, fibers[i]? = some f → P (g f)) :
    ∀ f ∈ fibers.modify i g, P f := by
  intro f hf
  obtain ⟨j, hj⟩ := List.mem_iff_getElem?.mp hf
  rw [List.getElem?_modify] at hj
  by_cases hij : i = j
  · subst hij
    cases hi : fibers[i]? with
    | none => simp [hi] at hj
    | some f' =>
      have hf' : g f' = f := by simpa [hi] using hj
      exact hf' ▸ hg f' hi
  · have hj : fibers[j]? = some f := by simpa [hij] using hj
    exact h f (List.mem_of_getElem? hj)

theorem fibersDone_iff : fibersDone fibers = true ↔ ∀ f ∈ fibers, f.done = true := by
  simp [fibersDone]

theorem fibersDone_modify {g : Fiber V E → Fiber V E} (hg : ∀ f, (g f).done = f.done) :
    fibersDone (fibers.modify i g) = fibersDone fibers := by
  have hmap : (fibers.modify i g).map Fiber.done = fibers.map Fiber.done := by
    refine List.ext_getElem? fun j => ?_
    simp only [List.getElem?_map, List.getElem?_modify]
    by_cases hij : i = j <;> cases fibers[j]? <;> simp [hij, hg]
  have hall : ∀ l : List (Fiber V E), fibersDone l = (l.map Fiber.done).all id := by
    intro l
    simp [fibersDone]
  rw [hall, hall, hmap]

theorem trigger_done (f : Fiber V E) : f.trigger.done = f.done := by
  unfold Fiber.trigger
  split <;> rfl

theorem trigger_control (f : Fiber V E) : f.trigger.control = f.control := by
  unfold Fiber.trigger
  split <;> rfl

theorem trigger_context (f : Fiber V E) : f.trigger.context = f.context := by
  unfold Fiber.trigger
  split <;> rfl

theorem trigger_interrupted (f : Fiber V E) (h : f.done = false) :
    f.trigger.interrupted = true := by
  simp [Fiber.trigger, h]

theorem fibersDone_interrupt : fibersDone (interruptFibers fibers).1 = fibersDone fibers := by
  simp [fibersDone, interruptFibers, List.all_map, Function.comp_def, trigger_done]

theorem not_interruptFibers : (!(interruptFibers fibers).2) = fibersDone fibers := by
  simp [fibersDone, interruptFibers, List.not_any_eq_all_not]

/-- The fiber is new at the end of the list, or was done and its context free. -/
theorem createOrReuse_ok (h : createOrReuse contexts k fibers = .ok (j, fibers')) :
    ∃ i, j = k + i ∧ (i = fibers.length ∧ fibers' = fibers ++ [createFiber] ∨
      ∃ f, fibers[i]? = some f ∧ f.done = true ∧ (contexts j).inUse = false ∧
        (contexts j).blocked = false ∧ fibers' = fibers.set i createFiber) := by
  induction fibers generalizing k j fibers' with
  | nil =>
    simp only [createOrReuse, Except.ok.injEq, Prod.mk.injEq] at h
    exact ⟨0, by omega, Or.inl ⟨rfl, h.2.symm⟩⟩
  | cons f fibers ih =>
    simp only [createOrReuse] at h
    split at h
    · simp at h
    · next f' hf =>
      simp only [Except.ok.injEq, Prod.mk.injEq] at h
      obtain ⟨rfl, rfl⟩ := h
      simp only [Fiber.reuse] at hf
      split at hf
      · simp at hf
      split at hf
      · simp at hf
      split at hf
      · simp at hf
      next hd _ hc =>
      simp only [Except.ok.injEq, Option.some.injEq] at hf
      simp only [Bool.or_eq_true, not_or, Bool.not_eq_true] at hc
      exact ⟨0, rfl, Or.inr ⟨f, rfl, by simpa using hd, hc.1, hc.2, by simp [hf]⟩⟩
    · split at h
      · simp at h
      next hr =>
      simp only [Except.ok.injEq, Prod.mk.injEq] at h
      obtain ⟨rfl, rfl⟩ := h
      obtain ⟨i, hi, hr⟩ := ih hr
      refine ⟨i + 1, by omega, ?_⟩
      rcases hr with ⟨hl, he⟩ | ⟨f', hf', hd, hu, hb, he⟩
      · exact Or.inl ⟨by simp [hl], by simp [he]⟩
      · exact Or.inr ⟨f', by simpa using hf', hd, hu, hb, by simp [he]⟩

theorem createOrReuse_ne_error (h : ∀ f ∈ fibers, f.done = true → f.context = true) (c : Check) :
    createOrReuse contexts k fibers ≠ .error c := by
  induction fibers generalizing k with
  | nil => simp [createOrReuse]
  | cons f fibers ih =>
    have ih := ih (k := k + 1) fun g hg => h g (List.mem_cons_of_mem _ hg)
    have hf := h f List.mem_cons_self
    intro he
    simp only [createOrReuse] at he
    split at he
    · next hr =>
      simp only [Fiber.reuse] at hr
      split at hr
      · simp at hr
      next hd =>
      have hc : f.context = true := hf (by simpa using hd)
      rw [if_neg (by simp [hc])] at hr
      split at hr <;> simp at hr
    · simp at he
    · split at he
      · next hr =>
        simp only [Except.error.injEq] at he
        exact ih (he ▸ hr)
      · simp at he

end Fibers

section Notifications

@[simp] theorem Egress.notified_ne_waiting (e : Egress) : e.notified ≠ .waiting := by
  cases e <;> simp [notified]

@[simp] theorem Egress.notified_eq_iff {e c : Egress} (hw : c ≠ .waiting) (ha : c ≠ .acquiring) :
    e.notified = c ↔ e = c := by
  cases e <;> simp [notified, hw.symm, ha.symm]

@[simp] theorem WaitForDone.notified_ne_waiting (w : WaitForDone) : w.notified ≠ .waiting := by
  cases w <;> simp [notified]

@[simp] theorem WaitForDone.notified_eq_iff {w c : WaitForDone} (hw : c ≠ .waiting)
    (ha : c ≠ .acquiring) : w.notified = c ↔ w = c := by
  cases w <;> simp [notified, hw.symm, ha.symm]

/-- Whatever becomes of a notification, it leaves everything else alone. -/
theorem notifyEgress_shape (s : State X V E) :
    ∃ e c, (e = s.egress ∨ e = s.egress.notified) ∧
      s.notifyEgress = { s with egress := e, failed := c } := by
  unfold State.notifyEgress
  split
  · exact ⟨_, _, Or.inr rfl, rfl⟩
  · exact ⟨_, _, Or.inl rfl, rfl⟩

theorem notifyDone_shape (s : State X V E) :
    ∃ w c, (w = s.waitForDone ∨ w = s.waitForDone.notified) ∧
      s.notifyDone = { s with waitForDone := w, failed := c } := by
  unfold State.notifyDone
  split
  · exact ⟨_, _, Or.inl rfl, rfl⟩
  · exact ⟨_, _, Or.inr rfl, rfl⟩

theorem notifyAll_shape (s : State X V E) :
    ∃ e w c, (e = s.egress ∨ e = s.egress.notified) ∧
      (w = s.waitForDone ∨ w = s.waitForDone.notified) ∧
      s.notifyAll = { s with egress := e, waitForDone := w, failed := c } := by
  unfold State.notifyAll
  split
  · obtain ⟨e, c, he, hs⟩ := notifyEgress_shape s
    obtain ⟨w, c', hw, hs'⟩ := notifyDone_shape s.notifyEgress
    refine ⟨e, w, c', he, ?_, ?_⟩
    · rwa [hs] at hw
    · rw [hs', hs]
  · exact ⟨_, _, _, Or.inl rfl, Or.inl rfl, rfl⟩

theorem callDone_shape (s : State X V E) :
    ∃ d c, s.callDone = { s with done := d, failed := c } := by
  unfold State.callDone
  split
  · exact ⟨_, _, rfl⟩
  · exact ⟨_, _, rfl⟩

theorem notifyEgress_eq (h : s.egressSaved = true) :
    s.notifyEgress = { s with egress := s.egress.notified } := by
  simp [State.notifyEgress, h]

theorem notifyDone_eq (h : s.waitForDone ≠ .notBegun) :
    s.notifyDone = { s with waitForDone := s.waitForDone.notified } := by
  simp [State.notifyDone, h]

theorem notifyAll_eq (hs : s.egressSaved = true) (hw : s.waitForDone ≠ .notBegun) :
    s.notifyAll =
      if s.upstreamDone && s.fibersDone then
        { s with egress := s.egress.notified, waitForDone := s.waitForDone.notified }
      else s := by
  unfold State.notifyAll
  split
  · rw [notifyEgress_eq hs]
    exact notifyDone_eq hw
  · rfl

theorem ingressEpilogue_shape (s : State X V E) (o : Outcome E) :
    ∃ e w c, (e = s.egress ∨ e = s.egress.notified) ∧
      (w = s.waitForDone ∨ w = s.waitForDone.notified) ∧
      s.ingressEpilogue o = { s.record o with
        upstreamDone := true, fibersDone := Concurrent.fibersDone s.fibers,
        ingress := .finished, egress := e, waitForDone := w, failed := c } :=
  notifyAll_shape { s.record o with
    upstreamDone := true, fibersDone := Concurrent.fibersDone s.fibers, ingress := .finished }

theorem doneSection_shape (s : State X V E) :
    ∃ w c, (w = s.waitForDone ∨ w = s.waitForDone.notified) ∧
      s.doneSection = { s.interruptFibers with
        downstreamDone := true, done := .ran, waitForDone := w, failed := c } := by
  unfold State.doneSection
  dsimp only
  split
  · exact notifyDone_shape ({ s with downstreamDone := true, done := .ran }.interruptFibers)
  · exact ⟨_, _, Or.inl rfl, rfl⟩

theorem push_shape (s : State X V E) (i : ℕ) (value : V) :
    ∃ e c, (e = s.egress ∨ e = s.egress.notified) ∧
      s.push i value = { s.setControl i .running with
        values := s.values ++ [(i, value)], pushed := s.pushed ++ [(i, value)],
        egress := e, failed := c } :=
  notifyEgress_shape { s.setControl i .running with
    values := s.values ++ [(i, value)], pushed := s.pushed ++ [(i, value)] }

theorem fiberEpilogue_shape (s : State X V E) (i : ℕ) (o : Outcome E) :
    ∃ e w c, (e = s.egress ∨ e = s.egress.notified) ∧
      (w = s.waitForDone ∨ w = s.waitForDone.notified) ∧ s.fiberEpilogue i o =
      { (if o.isSome then ((s.finishFiber i).record o).interruptFibers
        else { (s.finishFiber i).record o with
          fibersDone := Concurrent.fibersDone (s.finishFiber i).fibers }) with
        egress := e, waitForDone := w, failed := c } := by
  cases o with
  | none => exact notifyAll_shape { (s.finishFiber i).record none with
      fibersDone := Concurrent.fibersDone (s.finishFiber i).fibers }
  | some e => exact notifyAll_shape ((s.finishFiber i).record (some e)).interruptFibers

end Notifications

/-- What holds of the flags also while a section is about to notify. -/
structure Base (s : State X V E) : Prop where
  done_iff : ∀ f ∈ s.fibers, (f.done = true ↔ f.control = .finished)
  context : ∀ f ∈ s.fibers, f.control ≠ .created → f.context = true
  created : ∀ i, s.control i = some .created ↔ ∃ arg, s.ingress = .start arg i
  noFibers : s.ingress = .notBegun → s.fibers = []
  saved : s.ingress ≠ .notBegun ∨ s.egress = .waiting → s.egressSaved = true
  notBegun : s.waitForDone = .notBegun →
    (s.egress = .notBegun ∨ s.egress = .terminated) ∧ s.egressSaved = false ∧ s.done = .idle ∧
      s.interrupt = .idle
  begun : s.egress = .notBegun → s.waitForDone = .notBegun
  upstreamDone_iff : s.upstreamDone = true ↔ s.ingress = .finished
  allDone : s.fibersDone = true → fibersDone s.fibers = true
  cached : s.upstreamDone = true → fibersDone s.fibers = true → s.fibersDone = true
  downstreamDone_iff : s.downstreamDone = true ↔ s.done = .ran
  interrupted_iff : s.interrupted = true ↔ s.interrupt = .ran
  stopped : s.interrupted = true ∨ s.downstreamDone = true →
    ∀ f ∈ s.fibers, f.done = false → f.interrupted = true
  ending : s.waitForDone = .ending ∨ s.waitForDone = .finished →
    s.downstreamDone = true ∧ s.upstreamDone = true ∧ s.fibersDone = true
  awaiting : s.egress = .awaitingEnded → s.done ≠ .idle
  asked : s.done ≠ .idle →
    s.egress = .awaitingEnded ∨ s.egress = .terminated ∧ s.waitForDone = .finished
  finished : s.waitForDone = .finished → s.egress = .terminated
  handler_iff : s.handler = some false ↔ s.interrupt ≠ .idle
  triggered : s.interrupt ≠ .idle → s.installed = .triggered ∧ s.ingress ≠ .notBegun
  own : s.installed = .concurrent → s.handler = some true ∧ s.ingress ≠ .notBegun
  ahead : s.interrupt = .acquiring true → ∃ arg, s.ingress = .create arg
  kept : s.ingress ≠ .dropped

/-- The flags, and that nobody waits for what already is. -/
structure Inv (s : State X V E) : Prop extends Base s where
  egress_waiting : s.egress = .waiting →
    s.values = [] ∧ ¬ (s.upstreamDone = true ∧ s.fibersDone = true)
  waiting : s.waitForDone = .waiting →
    ¬ (s.downstreamDone = true ∧ s.upstreamDone = true ∧ s.fibersDone = true)

section Steps

variable {i : ℕ} {arg : X} {o : Outcome E} {value : V}

theorem Base.waitForDone_ne (h : Base s) (hs : s.egressSaved = true) :
    s.waitForDone ≠ .notBegun := by
  intro hw
  simpa [hs] using (h.notBegun hw).2.1

theorem Base.notified (h : Base s) : Base { s with egress := s.egress.notified } :=
  { h with
    saved := fun hi => h.saved (hi.imp_right fun hw => absurd hw (Egress.notified_ne_waiting _))
    notBegun := by simpa using h.notBegun
    begun := by simpa using h.begun
    awaiting := by simpa using h.awaiting
    asked := by simpa using h.asked
    finished := by simpa using h.finished }

theorem Base.notifiedDone (h : Base s) : Base { s with waitForDone := s.waitForDone.notified } :=
  { h with
    notBegun := by simpa using h.notBegun
    begun := by simpa using h.begun
    ending := by simpa using h.ending
    asked := by simpa using h.asked
    finished := by simpa using h.finished }

theorem Base.inv_notifyAll (h : Base s) (hs : s.egressSaved = true)
    (hv : s.egress = .waiting → s.values = []) : Inv s.notifyAll := by
  rw [notifyAll_eq hs (h.waitForDone_ne hs)]
  split
  · exact { h.notified.notifiedDone with
      egress_waiting := fun hw => absurd hw (Egress.notified_ne_waiting _)
      waiting := fun hw => absurd hw (WaitForDone.notified_ne_waiting _) }
  · next hf =>
    simp only [Bool.and_eq_true] at hf
    exact { h with
      egress_waiting := fun hw => ⟨hv hw, hf⟩
      waiting := fun _ hd => hf hd.2 }

theorem inv_init (registered : Bool) : Inv (State.init X V E registered) := by
  refine ⟨⟨?_, ?_, ?_, ?_, ?_, ?_, ?_, ?_, ?_, ?_, ?_, ?_, ?_, ?_, ?_, ?_, ?_, ?_, ?_, ?_, ?_, ?_⟩,
    ?_, ?_⟩ <;> cases registered <;> simp [State.init, State.control]

theorem Inv.fail (h : Inv s) (c : Check) : Inv (s.fail c) :=
  { h with }

theorem inv_begin (h : Inv s) (he : s.egress = .notBegun) : Inv s.begin := by
  obtain ⟨-, hsaved, hdone, hint⟩ := h.notBegun (h.begun he)
  have hd : s.downstreamDone ≠ true := by
    rw [Ne, h.downstreamDone_iff, hdone]
    simp
  exact { h with
    saved := fun hi => h.saved (hi.imp_right (by simp [State.begin]))
    notBegun := by simp [State.begin]
    begun := by simp [State.begin]
    ending := by simp [State.begin]
    awaiting := by simp [State.begin]
    asked := fun ha => absurd hdone ha
    finished := by simp [State.begin]
    egress_waiting := by simp [State.begin]
    waiting := fun _ hf => hd hf.1 }

theorem inv_upstreamOutcome (h : Inv s)
    (hr : s.egress = .notBegun ∨ s.ingress = .awaitingNext ∨ s.ingress = .awaitingDone) :
    Inv (s.upstreamOutcome o) := by
  unfold State.upstreamOutcome
  split
  · next he =>
    have hb := h.notBegun (h.begun he)
    exact { h with
      saved := fun hi => h.saved (hi.imp_right (by simp))
      notBegun := fun _ => ⟨Or.inr rfl, hb.2⟩
      begun := by simp
      awaiting := by simp
      asked := fun ha => absurd hb.2.2.1 ha
      finished := fun _ => rfl
      egress_waiting := by simp }
  · next he =>
    have hi : s.ingress = .awaitingNext ∨ s.ingress = .awaitingDone := hr.resolve_left he
    have hu : s.upstreamDone ≠ true := by
      rw [Ne, h.upstreamDone_iff]
      rcases hi with hi | hi <;> simp [hi]
    exact { h with
      created := fun i => (h.created i).trans (by rcases hi with hi | hi <;> simp [hi])
      noFibers := by simp
      saved := fun _ => h.saved (Or.inl (by rcases hi with hi | hi <;> simp [hi]))
      upstreamDone_iff := by simpa using hu
      triggered := fun ht => ⟨(h.triggered ht).1, by simp⟩
      own := fun hc => ⟨(h.own hc).1, by simp⟩
      kept := by simp
      ahead := fun ha => by
        obtain ⟨arg, hc⟩ := h.ahead ha
        rcases hi with hi | hi <;> simp [hi] at hc }

/-- A value goes on to the ingress, whatever the handler does. -/
theorem body_cases (arg : X) :
    s.body arg = s.fail .callback ∨
    ∃ handler installed interrupt,
      s.body arg = { s with
        handler := handler, installed := installed, interrupt := interrupt,
        ingress := .create arg } ∧
      (s.handler = none ∧ handler = none ∧ installed = s.installed ∧ interrupt = s.interrupt ∨
        s.handler = some true ∧ s.installed = .triggered ∧ handler = some false ∧
          installed = .triggered ∧ interrupt = .acquiring true ∨
        s.handler = some true ∧ s.installed ≠ .triggered ∧ handler = some true ∧
          installed = .concurrent ∧ interrupt = s.interrupt) := by
  cases hh : s.handler with
  | none => exact Or.inr ⟨none, s.installed, s.interrupt, by simp [State.body, hh]⟩
  | some callback =>
    cases callback with
    | false => exact Or.inl (by simp [State.body, hh, State.installOrExecuteIfTriggered])
    | true =>
      by_cases ht : s.installed = .triggered
      · refine Or.inr ⟨some false, .triggered, .acquiring true, ?_, by simp [ht]⟩
        simp [State.body, hh, State.installOrExecuteIfTriggered, ht, HandlerState.passes,
          HandlerState.value]
      · refine Or.inr ⟨some true, .concurrent, s.interrupt, ?_, by simp [ht]⟩
        simp [State.body, hh, State.installOrExecuteIfTriggered, ht, HandlerState.passes,
          HandlerState.value]

theorem Base.waitForDone_of_ingress (h : Base s) (hi : s.ingress ≠ .notBegun) :
    s.waitForDone ≠ .notBegun :=
  h.waitForDone_ne (h.saved (Or.inl hi))

theorem Base.interrupt_idle (h : Base s) (hh : s.handler ≠ some false) : s.interrupt = .idle := by
  by_contra hi
  exact hh (h.handler_iff.mpr hi)

theorem inv_body (h : Inv s) (hi : s.ingress = .awaitingNext) : Inv (s.body arg) := by
  have hu : s.upstreamDone ≠ true := by
    rw [Ne, h.upstreamDone_iff, hi]
    simp
  have hw := h.waitForDone_of_ingress (by simp [hi])
  have hbase : Base { s with ingress := .create arg } :=
    { h with
      created := fun i => (h.created i).trans (by simp [hi])
      noFibers := by simp
      saved := fun _ => h.saved (Or.inl (by simp [hi]))
      upstreamDone_iff := by simpa using hu
      triggered := fun ht => ⟨(h.triggered ht).1, by simp⟩
      own := fun hc => ⟨(h.own hc).1, by simp⟩
      kept := by simp
      ahead := fun _ => ⟨arg, rfl⟩ }
  rcases body_cases (s := s) arg with hb | ⟨handler, installed, interrupt, hb, hcases⟩
  · exact hb ▸ h.fail _
  · rw [hb]
    rcases hcases with ⟨hh, rfl, rfl, rfl⟩ | ⟨hh, -, rfl, rfl, rfl⟩ | ⟨hh, -, rfl, rfl, rfl⟩
    · exact { hbase, h with
        handler_iff := by simpa [hh] using h.handler_iff
        own := fun hc => by simpa [hh] using (h.own hc).1 }
    · have hint := h.interrupt_idle (by simp [hh])
      exact { hbase, h with
        notBegun := fun hn => absurd hn hw
        interrupted_iff := by simpa [hint] using h.interrupted_iff
        handler_iff := by simp
        triggered := fun _ => ⟨rfl, by simp⟩
        own := by simp
        ahead := fun _ => ⟨arg, rfl⟩ }
    · have hint := h.interrupt_idle (by simp [hh])
      exact { hbase, h with
        handler_iff := by simp [hint]
        triggered := fun hne => absurd hint hne
        own := fun _ => ⟨rfl, by simp⟩ }

theorem inv_upstreamInstall (h : Inv s) (ht : s.installed ≠ .triggered) :
    Inv { s with installed := .upstream } :=
  { h with
    triggered := fun hi => absurd (h.triggered hi).1 ht
    own := by simp }

theorem inv_trigger (h : Inv s) (ht : s.installed ≠ .triggered) : Inv s.trigger := by
  have hint : s.interrupt = .idle := by
    by_contra hi
    exact ht (h.triggered hi).1
  unfold State.trigger
  split
  · next hc =>
    obtain ⟨hh, hi⟩ := h.own hc
    rw [if_pos hh]
    exact { h with
      notBegun := fun hn => absurd hn (h.waitForDone_of_ingress hi)
      interrupted_iff := by simpa [hint] using h.interrupted_iff
      handler_iff := by simp
      triggered := fun _ => ⟨rfl, hi⟩
      own := by simp
      ahead := by simp }
  · exact { h with
      triggered := fun hne => absurd hint hne
      own := by simp }

theorem inv_next_request (h : Inv s) (he : s.egress = .idle) :
    Inv { s with egress := .acquiring } :=
  { h with
    saved := fun hi => h.saved (hi.imp_right (by simp))
    notBegun := fun hn => by simpa [he] using (h.notBegun hn).1
    begun := by simp
    awaiting := by simp
    asked := fun hd => by simpa [he] using h.asked hd
    finished := fun hf => by simpa [he] using h.finished hf
    egress_waiting := by simp }

theorem Base.done_idle (h : Base s) (ha : s.egress ≠ .awaitingEnded) (ht : s.egress ≠ .terminated) :
    s.done = .idle := by
  by_contra hd
  rcases h.asked hd with he | he
  · exact ha he
  · exact ht he.1

theorem Base.waitForDone_of_egress (h : Base s) (hn : s.egress ≠ .notBegun)
    (ht : s.egress ≠ .terminated) : s.waitForDone ≠ .notBegun := by
  intro hw
  rcases (h.notBegun hw).1 with he | he
  · exact hn he
  · exact ht he

/-- `Done()` where nobody has called it, from downstream or from `Until()`. -/
theorem Inv.callDone (h : Inv s) (hd : s.done = .idle) (hw : s.waitForDone ≠ .notBegun) :
    Inv ({ s with egress := .awaitingEnded }.callDone) := by
  unfold State.callDone
  rw [if_pos hd]
  have hdown : s.downstreamDone ≠ true := by
    rw [Ne, h.downstreamDone_iff, hd]
    simp
  exact { h with
    saved := fun hi => h.saved (hi.imp_right (by simp))
    notBegun := fun hn => absurd hn hw
    begun := by simp
    downstreamDone_iff := by simpa using hdown
    awaiting := by simp
    asked := fun _ => Or.inl rfl
    finished := fun hf => absurd (h.ending (Or.inr hf)).1 hdown
    egress_waiting := by simp }

theorem inv_downstreamDone (h : Inv s) (he : s.egress = .idle) :
    Inv ({ s with egress := .awaitingEnded, doneCalled := true }.callDone) := by
  have h' : Inv { s with doneCalled := true } := { h with }
  refine h'.callDone ?_ ?_
  · exact h.done_idle (by simp [he]) (by simp [he])
  · exact h.waitForDone_of_egress (by simp [he]) (by simp [he])

theorem control_eq_some {c : Fiber.Control V E} :
    s.control i = some c ↔ ∃ f, s.fibers[i]? = some f ∧ f.control = c := by
  simp [State.control]

/-- Fiber number `i` moves on without getting done. -/
theorem Base.modify (h : Base s) {g : Fiber V E → Fiber V E} {ingress : Ingress X E}
    (hd : ∀ f, (g f).done = f.done) (hi : ∀ f, (g f).interrupted = f.interrupted)
    (hc : ∀ f, s.fibers[i]? = some f → f.control ≠ .finished ∧ (g f).control ≠ .created ∧
      (g f).control ≠ .finished ∧ (g f).context = true)
    (hs : ∀ j, (∃ arg, ingress = .start arg j) ↔ j ≠ i ∧ ∃ arg, s.ingress = .start arg j)
    (hf : ingress = .finished ↔ s.ingress = .finished)
    (hn : ingress = .notBegun ↔ s.ingress = .notBegun)
    (hx : s.interrupt = .acquiring true → ∃ arg, ingress = .create arg)
    (hk : ingress ≠ .dropped) :
    Base { s with fibers := s.fibers.modify i g, ingress := ingress } :=
  { h with
    done_iff := forall_mem_modify h.done_iff fun f hf => by
      obtain ⟨h1, -, h3, -⟩ := hc f hf
      simp [hd, h.done_iff f (List.mem_of_getElem? hf), h1, h3]
    context := forall_mem_modify h.context fun f hf _ => (hc f hf).2.2.2
    created := fun j => by
      rw [hs]
      by_cases hij : j = i
      · subst hij
        simp only [State.control, List.getElem?_modify_eq, Option.map_eq_map, Option.map_map,
          ne_eq, not_true_eq_false, false_and, iff_false]
        cases hj : s.fibers[j]? with
        | none => simp
        | some f => simpa using (hc f hj).2.1
      · have hij' : i ≠ j := fun he => hij he.symm
        have hj : (s.fibers.modify i g)[j]? = s.fibers[j]? := by
          simp [hij']
        simpa [State.control, hj, hij] using h.created j
    noFibers := fun hb => by simp [h.noFibers (hn.mp hb)]
    saved := fun hb => h.saved (hb.imp_left fun hb hb' => hb (hn.mpr hb'))
    upstreamDone_iff := h.upstreamDone_iff.trans hf.symm
    allDone := fun hb => by simpa [fibersDone_modify hd] using h.allDone hb
    cached := fun hu hb => h.cached hu (by simpa [fibersDone_modify hd] using hb)
    stopped := fun hb => forall_mem_modify (h.stopped hb) fun f hf => by
      simpa [hd, hi] using h.stopped hb f (List.mem_of_getElem? hf)
    triggered := fun hb => ⟨(h.triggered hb).1, fun hb' => (h.triggered hb).2 (hn.mp hb')⟩
    own := fun hb => ⟨(h.own hb).1, fun hb' => (h.own hb).2 (hn.mp hb')⟩
    ahead := hx
    kept := hk }

theorem Inv.modify (h : Inv s) {fibers : List (Fiber V E)} {ingress : Ingress X E}
    (hb : Base { s with fibers := fibers, ingress := ingress }) :
    Inv { s with fibers := fibers, ingress := ingress } :=
  { hb, h with }

/-- The positions between `startFiber` and the epilogue. -/
def Fiber.Control.Started (c : Fiber.Control V E) : Prop :=
  c ≠ .created ∧ c ≠ .finished

theorem Base.not_created (h : Base s) {c : Fiber.Control V E} (hc : s.control i = some c)
    (hs : c.Started) (arg : X) : s.ingress ≠ .start arg i := by
  intro hi
  have hcr := (h.created i).mpr ⟨arg, hi⟩
  rw [hc, Option.some.injEq] at hcr
  exact hs.1 hcr

theorem Inv.setControl (h : Inv s) {c : Fiber.Control V E} (hc : s.control i = some c)
    (c' : Fiber.Control V E) (hs : c.Started) (hs' : c'.Started) : Inv (s.setControl i c') := by
  refine h.modify (h.toBase.modify (fun _ => rfl) (fun _ => rfl) ?_ ?_ Iff.rfl Iff.rfl h.ahead
    h.kept)
  · intro f hf
    obtain ⟨f', hf', hfc⟩ := control_eq_some.mp hc
    rw [hf, Option.some.injEq] at hf'
    subst hf'
    exact ⟨hfc ▸ hs.2, hs'.1, hs'.2, h.context f (List.mem_of_getElem? hf) (hfc ▸ hs.1)⟩
  · intro j
    refine ⟨fun ⟨arg, hj⟩ => ⟨?_, arg, hj⟩, fun hj => hj.2⟩
    rintro rfl
    exact h.not_created hc hs arg hj

theorem inv_ingressBegin (h : Inv s) (hs : s.egressSaved = true) (hi : s.ingress = .notBegun) :
    Inv ({ s with ingress := .awaitingNext } : State X V E) :=
  { h with
    created := fun i => (h.created i).trans (by simp [hi])
    noFibers := by simp
    saved := fun _ => hs
    upstreamDone_iff := by
      rw [h.upstreamDone_iff, hi]
      simp
    triggered := fun ht => ⟨(h.triggered ht).1, by simp⟩
    own := fun hc => ⟨(h.own hc).1, by simp⟩
    kept := by simp
    ahead := fun ha => by
      obtain ⟨arg, hc⟩ := h.ahead ha
      simp [hi] at hc }

theorem inv_startFiber (h : Inv s) (hi : s.ingress = .start arg i) : Inv (s.startFiber i) := by
  refine h.modify (h.toBase.modify (fun _ => rfl) (fun _ => rfl) ?_ ?_ ?_ ?_ ?_ (by simp))
  · intro f hf
    obtain ⟨f', hf', hfc⟩ := control_eq_some.mp ((h.created i).mpr ⟨arg, hi⟩)
    rw [hf, Option.some.injEq] at hf'
    subst hf'
    simp [hfc]
  · intro j
    simp [hi, eq_comm]
  · simp [hi]
  · simp [hi]
  · intro ha
    obtain ⟨arg, hc⟩ := h.ahead ha
    simp [hi] at hc

/-- The fiber that an upstream value gets, with the list as it is then. -/
theorem create_cases (arg : X) (contexts : ℕ → Context) (h : Base s) :
    s.createOrReuseFiber arg contexts = { s with ingress := .awaitingDone } ∨
    s.downstreamDone = false ∧ s.interrupted = false ∧ s.stoppedOrError = none ∧
    ∃ i fibers,
      s.createOrReuseFiber arg contexts =
        { s with fibers := fibers, fibersDone := false, ingress := .start arg i } ∧
      (i = s.fibers.length ∧ fibers = s.fibers ++ [createFiber] ∨
        ∃ f, s.fibers[i]? = some f ∧ f.done = true ∧ (contexts i).inUse = false ∧
          (contexts i).blocked = false ∧ fibers = s.fibers.set i createFiber) := by
  unfold State.createOrReuseFiber
  split
  · next hn =>
    simp only [Bool.not_eq_true', Bool.or_eq_false_iff, Option.isSome_eq_false_iff,
      Option.isNone_iff_eq_none] at hn
    refine Or.inr ⟨hn.1.1, hn.1.2, hn.2, ?_⟩
    split
    · next hr =>
      refine (createOrReuse_ne_error ?_ _ hr).elim
      intro f hf hd
      refine h.context f hf ?_
      rw [(h.done_iff f hf).mp hd]
      simp
    · next i fibers hr =>
      obtain ⟨j, rfl, hj⟩ := createOrReuse_ok hr
      exact ⟨j, fibers, by simp, by simpa using hj⟩
  · exact Or.inl rfl

theorem create_getElem? {contexts : ℕ → Context} {fibers fibers' : List (Fiber V E)}
    (h : i = fibers.length ∧ fibers' = fibers ++ [createFiber] ∨
      ∃ f, fibers[i]? = some f ∧ f.done = true ∧ (contexts i).inUse = false ∧
        (contexts i).blocked = false ∧ fibers' = fibers.set i createFiber) (j : ℕ) :
    fibers'[j]? = if j = i then some createFiber else fibers[j]? := by
  rcases h with ⟨rfl, rfl⟩ | ⟨f, hf, -, -, -, rfl⟩
  · rw [List.getElem?_append]
    grind
  · have hlt : i < fibers.length := (List.getElem?_eq_some_iff.mp hf).1
    rw [List.getElem?_set]
    grind

theorem inv_createOrReuseFiber (h : Inv s) {contexts : ℕ → Context}
    (hi : s.ingress = .create arg) (hx : s.interrupt ≠ .acquiring true) :
    Inv (s.createOrReuseFiber arg contexts) := by
  have hu : s.upstreamDone ≠ true := by
    rw [Ne, h.upstreamDone_iff, hi]
    simp
  rcases create_cases arg contexts h.toBase with
    hr | ⟨hd, hint, -, i, fibers, hr, hcases⟩
  · rw [hr]
    exact { h with
      created := fun i => (h.created i).trans (by simp [hi])
      noFibers := by simp
      saved := fun _ => h.saved (Or.inl (by simp [hi]))
      upstreamDone_iff := by simpa using hu
      triggered := fun ht => ⟨(h.triggered ht).1, by simp⟩
      own := fun hc => ⟨(h.own hc).1, by simp⟩
      kept := by simp
      ahead := fun ha => absurd ha hx }
  · have hmem : ∀ f ∈ fibers, f = createFiber ∨ f ∈ s.fibers := by
      intro f hf
      rcases hcases with ⟨-, rfl⟩ | ⟨_, -, -, -, -, rfl⟩
      · simpa [or_comm] using hf
      · exact (List.mem_or_eq_of_mem_set hf).symm
    have hget := create_getElem? hcases
    rw [hr]
    exact { h with
      done_iff := fun f hf => by
        rcases hmem f hf with rfl | hf
        · simp [createFiber]
        · exact h.done_iff f hf
      context := fun f hf hc => by
        rcases hmem f hf with rfl | hf
        · simp [createFiber] at hc
        · exact h.context f hf hc
      created := fun j => by
        by_cases hj : j = i
        · subst hj
          simp [State.control, hget, createFiber]
        · have := h.created j
          simp only [State.control, hget, hj, if_false] at this ⊢
          rw [this]
          simp [hi, Ne.symm hj]
      noFibers := by simp
      saved := fun _ => h.saved (Or.inl (by simp [hi]))
      upstreamDone_iff := by simpa using hu
      allDone := by simp
      cached := fun hc => absurd hc hu
      stopped := by simp [hd, hint]
      ending := fun he => absurd (h.ending he).2.1 hu
      triggered := fun ht => ⟨(h.triggered ht).1, by simp⟩
      own := fun hc => ⟨(h.own hc).1, by simp⟩
      kept := by simp
      ahead := fun ha => absurd ha hx
      egress_waiting := fun hw => ⟨(h.egress_waiting hw).1, by simp⟩
      waiting := by simp }

theorem Base.not_fibersDone (h : Base s) {c : Fiber.Control V E} (hc : s.control i = some c)
    (hf : c ≠ .finished) : fibersDone s.fibers ≠ true := by
  intro hd
  obtain ⟨f, hfi, rfl⟩ := control_eq_some.mp hc
  have hmem := List.mem_of_getElem? hfi
  exact hf ((h.done_iff f hmem).mp (fibersDone_iff.mp hd f hmem))

theorem Base.ingress_of_control (h : Base s) {c : Fiber.Control V E} (hc : s.control i = some c) :
    s.ingress ≠ .notBegun := by
  intro hi
  simp [State.control, h.noFibers hi] at hc

theorem push_eq (hs : s.egressSaved = true) :
    s.push i value = { s.setControl i .running with
      values := s.values ++ [(i, value)], pushed := s.pushed ++ [(i, value)],
      egress := s.egress.notified } :=
  notifyEgress_eq hs

theorem inv_push (h : Inv s) (hc : s.control i = some (.pushing value)) : Inv (s.push i value) := by
  have hs : s.egressSaved = true := h.saved (Or.inl (h.ingress_of_control hc))
  have hb := h.setControl hc .running (by simp [Fiber.Control.Started])
    (by simp [Fiber.Control.Started])
  rw [push_eq hs]
  exact { hb.notified with
    egress_waiting := fun hw => absurd hw (Egress.notified_ne_waiting _)
    waiting := hb.waiting }

theorem interruptFibers_interrupted :
    ∀ f ∈ s.interruptFibers.fibers, f.done = false → f.interrupted = true := by
  simp only [State.interruptFibers, Concurrent.interruptFibers, List.mem_map,
    forall_exists_index, and_imp, forall_apply_eq_imp_iff₂, trigger_done]
  exact fun f _ hd => trigger_interrupted f hd

theorem Base.interruptFibers (h : Base s) : Base s.interruptFibers :=
  { h with
    done_iff := by simpa [State.interruptFibers, Concurrent.interruptFibers, trigger_done,
      trigger_control] using h.done_iff
    context := by simpa [State.interruptFibers, Concurrent.interruptFibers, trigger_context,
      trigger_control] using h.context
    created := fun i => by
      refine Iff.trans ?_ (h.created i)
      simp [State.control, State.interruptFibers, Concurrent.interruptFibers, trigger_control]
    noFibers := fun hi => by
      simp [State.interruptFibers, Concurrent.interruptFibers, h.noFibers hi]
    allDone := by simp [State.interruptFibers, not_interruptFibers, fibersDone_interrupt]
    cached := by simp [State.interruptFibers, not_interruptFibers, fibersDone_interrupt]
    stopped := fun _ => interruptFibers_interrupted
    ending := fun he => by
      have := h.ending he
      exact ⟨this.1, this.2.1, by
        simpa [State.interruptFibers, not_interruptFibers] using h.allDone this.2.2⟩ }

theorem Base.egressSaved_of_ingress (h : Base s) (hi : s.ingress ≠ .notBegun) :
    s.egressSaved = true :=
  h.saved (Or.inl hi)

/-- The fiber is done, and `fibers_done_` has been computed anew. -/
theorem Base.finishFiber (h : Base s) (hc : s.control i = some (.epilogue o)) :
    Base { (s.finishFiber i).record o with
      fibersDone := Concurrent.fibersDone (s.finishFiber i).fibers } :=
  { h with
    done_iff := forall_mem_modify h.done_iff fun f _ => by simp
    context := forall_mem_modify h.context fun f hf _ => by
      obtain ⟨f', hf', hfc⟩ := control_eq_some.mp hc
      rw [hf, Option.some.injEq] at hf'
      subst hf'
      exact h.context f (List.mem_of_getElem? hf) (by simp [hfc])
    created := fun j => by
      by_cases hij : i = j
      · subst hij
        have hn : ¬ ∃ arg, s.ingress = .start arg i := fun ⟨arg, ha⟩ =>
          h.not_created hc (by simp [Fiber.Control.Started]) arg ha
        simpa [State.control, State.record, State.finishFiber] using hn
      · have hj : (s.finishFiber i).fibers[j]? = s.fibers[j]? := by
          simp [State.finishFiber, hij]
        have hcj : State.control { (s.finishFiber i).record o with
            fibersDone := Concurrent.fibersDone (s.finishFiber i).fibers } j = s.control j :=
          congrArg (Option.map Fiber.control) hj
        exact hcj ▸ h.created j
    noFibers := fun hi => absurd hi (h.ingress_of_control hc)
    allDone := fun hd => hd
    cached := fun _ hd => hd
    stopped := fun hs => forall_mem_modify (h.stopped hs) fun f _ => by simp
    ending := fun he =>
      absurd (h.allDone (h.ending he).2.2) (h.not_fibersDone hc (by simp)) }

theorem inv_fiberEpilogue (h : Inv s) (hc : s.control i = some (.epilogue o)) :
    Inv (s.fiberEpilogue i o) := by
  have hs := h.egressSaved_of_ingress (h.ingress_of_control hc)
  have hb := h.finishFiber hc
  have hv := fun hw => (h.egress_waiting hw).1
  unfold State.fiberEpilogue
  cases o with
  | none => exact hb.inv_notifyAll hs hv
  | some e => exact hb.interruptFibers.inv_notifyAll hs hv

theorem inv_ingressEpilogue (h : Inv s) (hi : s.ingress = .epilogue o) :
    Inv (s.ingressEpilogue o) := by
  have hs := h.egressSaved_of_ingress (by simp [hi])
  have hu : s.upstreamDone ≠ true := by
    rw [Ne, h.upstreamDone_iff, hi]
    simp
  have hb : Base ({ s.record o with
      upstreamDone := true, fibersDone := Concurrent.fibersDone s.fibers,
      ingress := .finished } : State X V E) :=
    { h with
      created := fun i => (h.created i).trans (by simp [hi])
      noFibers := by simp
      saved := fun _ => hs
      upstreamDone_iff := by simp
      allDone := fun hd => hd
      cached := fun _ hd => hd
      ending := fun he => absurd (h.ending he).2.1 hu
      triggered := fun ht => ⟨(h.triggered ht).1, by simp⟩
      own := fun hc => ⟨(h.own hc).1, by simp⟩
      kept := by simp
      ahead := fun ha => by
        obtain ⟨arg, hc⟩ := h.ahead ha
        simp [hi] at hc }
  exact hb.inv_notifyAll hs fun hw => (h.egress_waiting hw).1

theorem inv_interruptSection (h : Inv s) {ahead : Bool} (hi : s.interrupt = .acquiring ahead) :
    Inv s.interruptSection := by
  obtain ⟨ht, hg⟩ := h.triggered (by simp [hi])
  have hb : Base ({ s with interrupted := true, interrupt := .ran }.interruptFibers) :=
    { h.interruptFibers with
      notBegun := fun hw => absurd hw (h.waitForDone_of_ingress hg)
      interrupted_iff := by simp [State.interruptFibers]
      stopped := fun _ => interruptFibers_interrupted
      handler_iff := by simpa [State.interruptFibers, hi] using h.handler_iff
      triggered := fun _ => ⟨ht, hg⟩
      ahead := by simp [State.interruptFibers] }
  exact hb.inv_notifyAll (h.egressSaved_of_ingress hg) fun hw => (h.egress_waiting hw).1

theorem Base.inv_notifyDone (h : Base s) (hw : s.waitForDone ≠ .notBegun)
    (he : s.egress ≠ .waiting) :
    Inv (if s.upstreamDone && s.fibersDone then s.notifyDone else s) := by
  split
  · rw [notifyDone_eq hw]
    exact { h.notifiedDone with
      egress_waiting := fun hx => absurd hx he
      waiting := fun hx => absurd hx (WaitForDone.notified_ne_waiting _) }
  · next hf =>
    simp only [Bool.and_eq_true] at hf
    exact { h with
      egress_waiting := fun hx => absurd hx he
      waiting := fun _ hx => hf hx.2 }

theorem inv_doneSection (h : Inv s) (hd : s.done = .acquiring) : Inv s.doneSection := by
  have hw : s.waitForDone ≠ .notBegun := fun hw => by simpa [hd] using (h.notBegun hw).2.2.1
  have he : s.egress ≠ .waiting := by
    rcases h.asked (by simp [hd]) with he | he <;> simp [he]
  have hb : Base ({ s with downstreamDone := true, done := .ran }.interruptFibers) :=
    { h.interruptFibers with
      notBegun := fun hn => absurd hn hw
      downstreamDone_iff := by simp [State.interruptFibers]
      stopped := fun _ => interruptFibers_interrupted
      ending := fun hx => ⟨rfl, (h.interruptFibers.ending hx).2⟩
      awaiting := by simp [State.interruptFibers]
      asked := fun _ => h.asked (by simp [hd]) }
  exact hb.inv_notifyDone hw he

theorem inv_waitForDoneSection (h : Inv s) (hw : s.waitForDone = .acquiring) :
    Inv s.waitForDoneSection := by
  have hasked : s.done ≠ .idle → s.egress = .awaitingEnded := by
    intro hd
    rcases h.asked hd with he | he
    · exact he
    · simp [hw] at he
  unfold State.waitForDoneSection
  split
  · next hn =>
    exact { h with
      notBegun := by simp
      begun := fun he => by simpa [hw] using h.begun he
      ending := by simp
      asked := fun hd => Or.inl (hasked hd)
      finished := by simp
      waiting := fun _ hf => by
        obtain ⟨hd, hu, hb⟩ : s.downstreamDone = true ∧ s.upstreamDone = true ∧
          s.fibersDone = true := hf
        simp [hd, hu, hb] at hn }
  · next hn =>
    simp only [Bool.or_eq_true, Bool.not_eq_true', not_or, Bool.not_eq_false] at hn
    exact { h with
      notBegun := by simp
      begun := fun he => by simpa [hw] using h.begun he
      ending := fun _ => ⟨hn.1.1, hn.1.2, hn.2⟩
      asked := fun hd => Or.inl (hasked hd)
      finished := by simp
      waiting := by simp }

theorem Base.awaiting_of_ending (h : Base s) (hw : s.waitForDone = .ending) :
    s.egress = .awaitingEnded := by
  have hd := h.downstreamDone_iff.mp (h.ending (Or.inl hw)).1
  rcases h.asked (by simp [hd]) with he | he
  · exact he
  · simp [hw] at he

theorem ended_eq (h : Base s) (hw : s.waitForDone = .ending) :
    s.endedSection =
      { s with waitForDone := .finished, egress := .terminated,
               terminals := s.terminals ++ [none] } := by
  simp [State.endedSection, h.awaiting_of_ending hw]

theorem inv_endedSection (h : Inv s) (hw : s.waitForDone = .ending) : Inv s.endedSection := by
  rw [ended_eq h.toBase hw]
  exact { h with
    saved := fun hi => h.saved (hi.imp_right (by simp))
    notBegun := by simp
    begun := by simp
    ending := fun _ => h.ending (Or.inl hw)
    awaiting := by simp
    asked := fun _ => Or.inr ⟨rfl, rfl⟩
    finished := fun _ => rfl
    egress_waiting := by simp
    waiting := by simp }

/-- What an egress section does: it waits, fails or stops, hands out a value or is at the end. -/
theorem egress_cases (s : State X V E) :
    s.values = [] ∧ ¬ (s.upstreamDone = true ∧ s.fibersDone = true) ∧
      s.egressSection = { s with egressSaved := true, egress := .waiting } ∨
    s.stoppedOrError ≠ none ∧ s.upstreamDone = true ∧ s.fibersDone = true ∧
      s.egressSection = { s with
        egressSaved := true, egress := .terminated,
        terminals := s.terminals ++ [s.stoppedOrError] } ∨
    (∃ value values, s.values = value :: values ∧
      (s.stoppedOrError = none ∨ ¬ (s.upstreamDone = true ∧ s.fibersDone = true)) ∧
      s.egressSection = { s with
        egressSaved := true, egress := .idle, values := values,
        delivered := s.delivered ++ [value] }) ∨
    s.values = [] ∧ s.stoppedOrError = none ∧ s.upstreamDone = true ∧ s.fibersDone = true ∧
      s.egressSection = { s with egressSaved := true, egress := .awaitingEnded }.callDone := by
  unfold State.egressSection
  cases hv : s.values with
  | nil =>
    by_cases hd : s.upstreamDone = true ∧ s.fibersDone = true
    · cases s.stoppedOrError <;> simp [hd]
    · left
      have hd' : (s.upstreamDone && s.fibersDone) = false := by
        simpa using hd
      simp [hd, hd']
  | cons value values =>
    by_cases hd : s.upstreamDone = true ∧ s.fibersDone = true
    · cases s.stoppedOrError <;> simp [hd]
    · have hd' : (s.upstreamDone && s.fibersDone) = false := by
        simpa using hd
      right; right; left
      refine ⟨value, values, rfl, Or.inr hd, ?_⟩
      simp only [Bool.and_assoc]
      simp [hd']

/-- Before `Done()` the egress moves on, except to where it waits for the end. -/
theorem Inv.moveEgress (h : Inv s) (hw : s.waitForDone ≠ .notBegun) (hd : s.done = .idle)
    (hf : s.waitForDone ≠ .finished) {egress : Egress} {values delivered : List (ℕ × V)}
    {terminals : List (Outcome E)} (hb : egress ≠ .notBegun) (ha : egress ≠ .awaitingEnded)
    (he : egress = .waiting → values = [] ∧ ¬ (s.upstreamDone = true ∧ s.fibersDone = true)) :
    Inv { s with
      egressSaved := true, egress := egress, values := values, delivered := delivered,
      terminals := terminals } :=
  { h with
    saved := fun _ => rfl
    notBegun := fun hn => absurd hn hw
    begun := fun hn => absurd hn hb
    awaiting := fun hx => absurd hx ha
    asked := fun hx => absurd hd hx
    finished := fun hx => absurd hx hf
    egress_waiting := he }

theorem inv_egressSection (h : Inv s) (he : s.egress = .acquiring) : Inv s.egressSection := by
  have hw := h.waitForDone_of_egress (by simp [he]) (by simp [he])
  have hd := h.done_idle (by simp [he]) (by simp [he])
  have hf : s.waitForDone ≠ .finished := by
    intro hf
    have hterminated := h.finished hf
    rw [he] at hterminated
    cases hterminated
  rcases egress_cases s with ⟨hv, hn, hr⟩ | ⟨-, -, -, hr⟩ | ⟨value, values, -, -, hr⟩ |
    ⟨-, -, -, -, hr⟩
  · rw [hr]
    exact h.moveEgress hw hd hf (by simp) (by simp) fun _ => ⟨hv, hn⟩
  · rw [hr]
    exact h.moveEgress hw hd hf (by simp) (by simp) (by simp)
  · rw [hr]
    exact h.moveEgress hw hd hf (by simp) (by simp) (by simp)
  · have hs : Inv { s with egressSaved := true } :=
      { h with
        saved := fun _ => rfl
        notBegun := fun hn => absurd hn hw }
    rw [hr]
    exact hs.callDone hd hw

end Steps

theorem inv_next {l : Label X V E} (h : Inv s) (hr : Ready s l) : Inv (next s l) := by
  cases l with
  | begin => exact inv_begin h hr
  | upstreamValue arg => exact inv_body h hr
  | upstreamOutcome o => exact inv_upstreamOutcome h (hr.imp_left And.left)
  | upstreamInstall => exact inv_upstreamInstall h hr.2.1
  | next => exact inv_next_request h hr
  | downstreamDone => exact inv_downstreamDone h hr
  | trigger => exact inv_trigger h hr.2
  | fiberValue i value =>
    exact { h.setControl hr _ (by simp [Fiber.Control.Started])
      (by simp [Fiber.Control.Started]) with }
  | fiberOutcome i o =>
    exact { h.setControl hr _ (by simp [Fiber.Control.Started])
      (by simp [Fiber.Control.Started]) with }
  | ingressBegin => exact inv_ingressBegin h hr.1 hr.2
  | createOrReuseFiber arg contexts => exact inv_createOrReuseFiber h hr.1 hr.2
  | startFiber arg i => exact inv_startFiber h hr
  | ingressEpilogue o => exact inv_ingressEpilogue h hr
  | egress => exact inv_egressSection h hr
  | waitForDone => exact inv_waitForDoneSection h hr
  | ended => exact inv_endedSection h hr
  | done => exact inv_doneSection h hr
  | interrupt => exact inv_interruptSection h hr.choose_spec
  | fiberStart i =>
    exact h.setControl hr _ (by simp [Fiber.Control.Started]) (by simp [Fiber.Control.Started])
  | push i value => exact inv_push h hr
  | fiberEpilogue i o => exact inv_fiberEpilogue h hr

theorem inv_reachable (h : (machine X V E).Reachable s) : Inv s := by
  refine h.invariant ?_ ?_
  · rintro s ⟨registered, rfl⟩
    exact inv_init registered
  · intro s l hi he
    exact inv_next hi he.2

end Eventuals.Concurrent
