import Eventuals.Poll

/-! Which events a poll delivers, and that an interrupt can deliver one that nobody asked for. -/
namespace Eventuals.EventLoop.Poll

open Transition (Machine)

/-- What holds of the handle of a poll, whatever interrupts it. -/
structure Inv (h : Handle) (busy : Bool) : Prop where
  unfailed : h.failed = none
  unentered : h.entered = none → h.context = none ∧ h.started = false ∧ h.completed = false
  unstarted : h.started = false → h.uv = .unused ∧ busy = false
  uncompleted : h.completed = false → h.onClose = none ∧ h.error = 0
  startedBy : h.started = true → h.entered = some .start
  active : h.uv = .active → h.started = true ∧ h.completed = false ∧ busy = false ∧
    h.context = none
  closing : h.uv = .closing → h.completed = true ∧ h.onClose.isSome = true
  onFail : h.onClose = some .fail → h.error ≠ 0
  onClose : ∀ c, h.onClose = some c → c = .fail ∨ c = .unlessError .stop ∨ c = .unlessError .ended
  submitted : ∀ r, h.context = some r →
    (h.started = false ∧ (r = .start ∧ h.entered = some .start ∨
      (r = .interrupted ∨ r = .fail ∨ r = .stop) ∧ h.installed = false)) ∨
    (h.started = true ∧ busy = false ∧ (r = .next ∨ r = .done))
  installedBy : h.installed = true → h.entered = some .start
  pending : h.interruptContext = true → h.installed = true ∧ h.triggered = true
  handled : h.installed = true → h.started = false → h.completed = true →
    h.interruptContext = false ∧ h.triggered = true

variable {h h' : Handle} {s : State} {busy : Bool} {c : Call} {u : Uv}

theorem step_of_quiet (hc : h.calls = s.handle.calls) : s.step h = { s with handle := h } := by
  simp [State.step, hc]

theorem step_of_call (hc : h.calls = s.handle.calls ++ [(c, u)]) :
    s.step h = ⟨h, s.busy || (c = .begin || c = .body), s.events ++ [.call c]⟩ := by
  simp [State.step, hc]

theorem Inv.fresh (hi : Inv h busy) (he : h.entered = none) :
    h.context = none ∧ h.started = false ∧ h.completed = false ∧ h.installed = false ∧
      h.interruptContext = false ∧ busy = false := by
  obtain ⟨hc, hst, hco⟩ := hi.unentered he
  have hin : h.installed = false := by
    cases hh : h.installed with
    | false => rfl
    | true => simp [hi.installedBy hh] at he
  refine ⟨hc, hst, hco, hin, ?_, (hi.unstarted hst).2⟩
  cases hh : h.interruptContext with
  | false => rfl
  | true => simp [(hi.pending hh).1] at hin

section Entering

theorem inv_enter (hi : Inv h busy) (he : h.entered = none) (e : Entry) (r : Submission)
    (installed : Bool)
    (hr : r = .start ∧ e = .start ∨ (r = .interrupted ∨ r = .fail ∨ r = .stop) ∧
      installed = false)
    (hin : installed = true → e = .start) :
    Inv ({ h with entered := some e, installed := installed, context := some r }) busy := by
  obtain ⟨hc, hst, hco, hnin, hic, hb⟩ := hi.fresh he
  have hu := hi.unstarted hst
  have hn := hi.unfailed
  have hun := hi.uncompleted hco
  have hof := hi.onFail
  constructor <;> simp_all

theorem Inv.untriggered (hi : Inv h busy) (ht : h.triggered = false) :
    h.interruptContext = false := by
  cases hh : h.interruptContext with
  | false => rfl
  | true => simp [(hi.pending hh).2] at ht

theorem inv_trigger (hi : Inv h busy) (ht : h.triggered = false) : Inv h.trigger busy := by
  have hp := hi.untriggered ht
  rw [Handle.trigger]
  split
  · next hin =>
    rw [if_neg (by simp [hp])]
    exact { hi with
      pending := fun _ => ⟨hin, rfl⟩
      handled := fun hi' hst hco => absurd (hi.handled hi' hst hco).2 (by simp [ht]) }
  · exact { hi with
      pending := by simp [hp]
      handled := fun _ hst hco => ⟨hp, rfl⟩ }

theorem inv_request (hi : Inv h true) {r : Submission} (hr : r = .next ∨ r = .done) :
    Inv (h.submit r) false := by
  have hst : h.started = true := by
    cases hh : h.started with
    | false => simp [(hi.unstarted hh).2] at *
    | true => rfl
  have hc : h.context = none := by
    cases hh : h.context with
    | none => rfl
    | some r' =>
      rcases hi.submitted r' hh with ⟨hf, -⟩ | ⟨-, hb, -⟩
      · simp [hst] at hf
      · cases hb
  rw [Handle.submit, if_neg (by simp [hc])]
  exact { hi with
    unentered := fun he => by simp [hi.startedBy hst] at he
    unstarted := fun h' => by simp [hst] at h'
    active := fun ha => by simpa using (hi.active ha).2.2.1
    submitted := by simp [hst, hr] }

end Entering

section Running

theorem inv_unblock (hi : Inv h busy) : Inv { h with context := none } busy :=
  { hi with
    unentered := fun he => ⟨rfl, (hi.unentered he).2⟩
    active := fun ha => ⟨(hi.active ha).1, (hi.active ha).2.1, (hi.active ha).2.2.1, rfl⟩
    submitted := by simp }

/-- A stream that has not begun is completed by a call. -/
theorem inv_complete (hi : Inv h busy) (hst : h.started = false) (hco : h.completed = false)
    (hen : h.entered ≠ none)
    (hin : h.installed = true → h.interruptContext = false ∧ h.triggered = true) (c : Call) :
    Inv ({ h with completed := true }.call c) busy := by
  have hu := hi.unstarted hst
  have hn := hi.unfailed
  have hun := hi.uncompleted hco
  have hib := hi.installedBy
  have hpe := hi.pending
  have hsub := hi.submitted
  constructor <;> simp_all [Handle.call]

theorem inv_startPoll (hi : Inv h busy) (hst : h.started = false) (hco : h.completed = false)
    (hc : h.context = none) (hen : h.entered = some .start) (init : ℤ) :
    ∃ c, (startPoll h init).calls = h.calls ++ [(c, (startPoll h init).uv)] ∧
      Inv (startPoll h init) (busy || (c = .begin || c = .body)) ∧
      (startPoll h init).started = true ∧
      (c = .begin ∧ (startPoll h init).completed = false ∨
        c = .fail ∧ (startPoll h init).completed = true ∧ (startPoll h init).uv = .unused) := by
  have hu := hi.unstarted hst
  have hn := hi.unfailed
  have hun := hi.uncompleted hco
  have hpe := hi.pending
  rw [startPoll, if_neg (by simp [hst])]
  dsimp only
  split
  · next hz =>
    refine ⟨.begin, rfl, ?_, rfl, .inl ⟨rfl, hco⟩⟩
    constructor <;> simp_all [Handle.call]
  · next hz =>
    refine ⟨.fail, rfl, ?_, rfl, .inr ⟨rfl, rfl, hu.1⟩⟩
    constructor <;> simp_all [Handle.call]

theorem inv_nextPoll (hi : Inv h false) (hst : h.started = true) (hco : h.completed = false)
    (hc : h.context = none) (started : ℤ) : Inv (nextPoll h started) false := by
  have hn := hi.unfailed
  have hun := hi.uncompleted hco
  have hby := hi.startedBy hst
  have hpe := hi.pending
  rw [nextPoll, if_neg (by simp [hst])]
  dsimp only
  split <;> constructor <;> simp_all [Handle.uvClose]

theorem inv_donePoll (hi : Inv h false) (hst : h.started = true) (hco : h.completed = false)
    (hc : h.context = none) (stopped : ℤ) : Inv (donePoll h stopped) false := by
  have hn := hi.unfailed
  have hun := hi.uncompleted hco
  have hby := hi.startedBy hst
  have hpe := hi.pending
  rw [donePoll, if_neg (by simp [hst])]
  dsimp only
  constructor <;> simp_all [Handle.uvClose]

end Running

section Protocol

/-- Where downstream has to stand. -/
def position (h : Handle) (busy : Bool) : Downstream :=
  if h.completed = false then
    if h.started = false then .idle else if busy then .processing else .awaiting
  else if h.uv = .closing then .awaiting else .finished

/-- A step whose events the protocol allows. -/
structure Allowed (s t : State) : Prop where
  events : ∃ es, t.events = s.events ++ es ∧
    es.foldlM Downstream.event (position s.handle s.busy) = some (position t.handle t.busy)
  idle : t.handle.completed = true → t.busy = false

theorem allowed_quiet (hc : h.calls = s.handle.calls)
    (hp : position h s.busy = position s.handle s.busy)
    (hb : h.completed = true → s.busy = false) : Allowed s (s.step h) := by
  rw [step_of_quiet hc]
  exact ⟨⟨[], by simp, by simp [hp]⟩, hb⟩

theorem allowed_call (hc : h.calls = s.handle.calls ++ [(c, u)])
    (hp : Downstream.event (position s.handle s.busy) (.call c) =
      some (position h (s.busy || (c = .begin || c = .body))))
    (hb : h.completed = true → (s.busy || (c = .begin || c = .body)) = false) :
    Allowed s (s.step h) := by
  rw [step_of_call hc]
  refine ⟨⟨[.call c], rfl, ?_⟩, hb⟩
  simp [List.foldlM, hp]

/-- What a step keeps in any case, and what it keeps when it is allowed to. -/
def Keeps (s t : State) : Prop :=
  Inv t.handle t.busy ∧ ((s.handle.completed = true → s.busy = false) → Allowed s t)

theorem keeps_quiet (hi : Inv h s.busy) (hc : h.calls = s.handle.calls)
    (hco : h.completed = s.handle.completed) (hst : h.started = s.handle.started)
    (hcl : h.uv = .closing ↔ s.handle.uv = .closing) : Keeps s (s.step h) := by
  refine ⟨?_, fun hb => allowed_quiet hc ?_ (by rwa [hco])⟩
  · rwa [step_of_quiet hc]
  · simp only [position, hco, hst, hcl]

theorem keeps_enter (hi : Inv s.handle s.busy) (he : s.handle.entered = none) (e : Entry)
    (r : Submission) (installed : Bool)
    (hr : r = .start ∧ e = .start ∨ (r = .interrupted ∨ r = .fail ∨ r = .stop) ∧
      installed = false)
    (hin : installed = true → e = .start) :
    Keeps s (s.step { s.handle with
      entered := some e, installed := installed, context := some r }) :=
  keeps_quiet (inv_enter hi he e r installed hr hin) rfl rfl rfl Iff.rfl

theorem keeps_start (hi : Inv s.handle s.busy) (he : s.handle.entered = none) :
    Keeps s (s.step (s.handle.start (·.submit .start))) := by
  obtain ⟨hc, -, -, hin, -⟩ := hi.fresh he
  simp only [Handle.start, Handle.submit, hc, Option.isSome_none, Bool.false_eq_true, if_false]
  split
  · have hk := keeps_enter hi he .start .interrupted false (by simp) (by simp)
    rwa [← hin] at hk
  · exact keeps_enter hi he .start .start s.handle.registered (by simp) (fun _ => rfl)

theorem keeps_fail (hi : Inv s.handle s.busy) (he : s.handle.entered = none) :
    Keeps s (s.step s.handle.fail) := by
  obtain ⟨hc, -, -, hin, -⟩ := hi.fresh he
  have hk := keeps_enter hi he .fail .fail false (by simp) (by simp)
  rw [← hin] at hk
  simpa [Handle.fail, Handle.submit, hc] using hk

theorem keeps_stop (hi : Inv s.handle s.busy) (he : s.handle.entered = none) :
    Keeps s (s.step s.handle.stop) := by
  obtain ⟨hc, -, -, hin, -⟩ := hi.fresh he
  have hk := keeps_enter hi he .stop .stop false (by simp) (by simp)
  rw [← hin] at hk
  simpa [Handle.stop, Handle.submit, hc] using hk

theorem keeps_trigger (hi : Inv s.handle s.busy) (ht : s.handle.triggered = false) :
    Keeps s (s.step s.handle.trigger) := by
  have hp := hi.untriggered ht
  refine keeps_quiet (inv_trigger hi ht) ?_ ?_ ?_ ?_ <;>
    simp only [Handle.trigger, hp] <;> split <;> rfl

theorem keeps_request (hi : Inv s.handle s.busy) (hb : s.busy = true) {r : Submission}
    (hr : r = .next ∨ r = .done) : Keeps s (s.request r) := by
  have hinv := inv_request (hb ▸ hi) hr
  refine ⟨hinv, fun hidle => ?_⟩
  have hco : s.handle.completed = false := by
    cases hh : s.handle.completed with
    | false => rfl
    | true => simp [hidle hh] at hb
  have hst : s.handle.started = true := by
    cases hh : s.handle.started with
    | false => simp [(hi.unstarted hh).2] at hb
    | true => rfl
  refine ⟨⟨[.request], rfl, ?_⟩, fun _ => rfl⟩
  have hsame : (s.handle.submit r).completed = false ∧ (s.handle.submit r).started = true := by
    simp only [Handle.submit]
    split <;> exact ⟨hco, hst⟩
  simp [position, hco, hst, hb, State.request, hsame, List.foldlM, Downstream.event]

/-- A stream that has not begun ends by one call. -/
theorem keeps_complete (hi : Inv h s.busy) (hst : h.started = false)
    (hco : h.completed = false) (hen : h.entered ≠ none)
    (hin : h.installed = true → h.interruptContext = false ∧ h.triggered = true)
    (hsame : h.calls = s.handle.calls ∧ s.handle.started = false ∧ s.handle.completed = false)
    (hcall : c = .stop ∨ c = .fail) : Keeps s (s.step ({ h with completed := true }.call c)) := by
  obtain ⟨hcalls, hst', hco'⟩ := hsame
  obtain ⟨huv, hb⟩ := hi.unstarted hst
  have hquiet : (c = .begin || c = .body) = false := by
    rcases hcall with rfl | rfl <;> rfl
  have hc' : ({ h with completed := true }.call c : Handle).calls =
      s.handle.calls ++ [(c, h.uv)] := by
    simp [Handle.call, hcalls]
  refine ⟨?_, fun _ => allowed_call hc' ?_ fun _ => by simp [hb, hquiet]⟩
  · rw [step_of_call hc']
    simpa [hquiet] using inv_complete hi hst hco hen hin c
  · rcases hcall with rfl | rfl <;>
      simp [position, Handle.call, hst', hco', huv, Downstream.event]

/-- The callback that `Start()` has submitted. -/
theorem keeps_startPoll (hi : Inv s.handle s.busy) (hst : s.handle.started = false)
    (hco : s.handle.completed = false) (he : s.handle.entered = some .start) (init : ℤ) :
    Keeps s (s.step (startPoll { s.handle with context := none } init)) := by
  have hstart := inv_startPoll (inv_unblock hi) hst hco rfl he init
  have hb := (hi.unstarted hst).2
  generalize startPoll _ init = h' at hstart ⊢
  obtain ⟨c, hcalls, hinv, hst', hres⟩ := hstart
  refine ⟨by rw [step_of_call hcalls]; exact hinv, fun _ => allowed_call hcalls ?_ ?_⟩
  · rcases hres with ⟨rfl, hco'⟩ | ⟨rfl, hco', huv⟩
    · simp [position, hst, hco, hst', hco', Downstream.event]
    · simp [position, hst, hco, hco', huv, Downstream.event]
  · intro hco'
    rcases hres with ⟨rfl, hf⟩ | ⟨rfl, -, -⟩
    · simp [hf] at hco'
    · simp [hb]

/-- The callback that `Next()` has submitted. -/
theorem keeps_nextPoll (hi : Inv s.handle s.busy) (hst : s.handle.started = true)
    (hco : s.handle.completed = false) (hb : s.busy = false) (started : ℤ) :
    Keeps s (s.step (nextPoll { s.handle with context := none } started)) := by
  have hu := inv_unblock hi
  rw [hb] at hu
  have hinv := inv_nextPoll hu hst hco rfl started
  have hcalls : (nextPoll { s.handle with context := none } started).calls =
      s.handle.calls := by
    simp only [nextPoll, hst, not_true_eq_false, if_false, Handle.uvClose]
    split <;> rfl
  refine ⟨by rw [step_of_quiet hcalls, hb]; exact hinv,
    fun _ => allowed_quiet hcalls ?_ fun _ => hb⟩
  simp only [nextPoll, hst, not_true_eq_false, if_false, Handle.uvClose]
  split <;> simp [position, hst, hco, hb]

/-- The callback that `Done()` has submitted. -/
theorem keeps_donePoll (hi : Inv s.handle s.busy) (hst : s.handle.started = true)
    (hco : s.handle.completed = false) (hb : s.busy = false) (stopped : ℤ) :
    Keeps s (s.step (donePoll { s.handle with context := none } stopped)) := by
  have hu := inv_unblock hi
  rw [hb] at hu
  have hinv := inv_donePoll hu hst hco rfl stopped
  have hcalls : (donePoll { s.handle with context := none } stopped).calls =
      s.handle.calls := by
    simp [donePoll, hst, Handle.uvClose]
  refine ⟨by rw [step_of_quiet hcalls, hb]; exact hinv,
    fun _ => allowed_quiet hcalls ?_ fun _ => hb⟩
  simp [donePoll, position, hst, hco, hb, Handle.uvClose]

theorem keeps_run (hi : Inv s.handle s.busy) (hc : s.handle.context.isSome = true)
    (init started stopped : ℤ) :
    Keeps s (s.step (s.handle.run (body init started stopped))) := by
  obtain ⟨r, hr⟩ := Option.isSome_iff_exists.mp hc
  have hu := inv_unblock hi
  have hen : s.handle.entered ≠ none := fun he => by simp [(hi.unentered he).1] at hc
  cases hco : s.handle.completed with
  | true =>
    have hrun : s.handle.run (body init started stopped) = { s.handle with context := none } := by
      simp [Handle.run, hr, hco]
    rw [hrun]
    exact keeps_quiet hu rfl rfl rfl Iff.rfl
  | false =>
    rcases hi.submitted r hr with ⟨hst, ⟨rfl, he⟩ | ⟨hcase, hin⟩⟩ | ⟨hst, hb, hcase⟩
    · have hrun : s.handle.run (body init started stopped) =
          startPoll { s.handle with context := none } init := by
        simp [Handle.run, hr, hco, body]
      rw [hrun]
      exact keeps_startPoll hi hst hco he init
    · have hdone : ∀ c, c = .stop ∨ c = .fail → Keeps s (s.step
          ({ { s.handle with context := none } with completed := true }.call c)) :=
        fun c hcall => keeps_complete hu hst hco hen (by simp [hin]) ⟨rfl, hst, hco⟩ hcall
      rcases hcase with rfl | rfl | rfl
      · simpa [Handle.run, hr, hco] using hdone .stop (.inl rfl)
      · simpa [Handle.run, hr, hco, Handle.finish, hst] using hdone .fail (.inr rfl)
      · simpa [Handle.run, hr, hco, Handle.finish, hst] using hdone .stop (.inl rfl)
    · rcases hcase with rfl | rfl
      · have hrun : s.handle.run (body init started stopped) =
            nextPoll { s.handle with context := none } started := by
          simp [Handle.run, hr, hco, body]
        rw [hrun]
        exact keeps_nextPoll hi hst hco hb started
      · have hrun : s.handle.run (body init started stopped) =
            donePoll { s.handle with context := none } stopped := by
          simp [Handle.run, hr, hco, body]
        rw [hrun]
        exact keeps_donePoll hi hst hco hb stopped

/-- A handle whose poll has succeeded calls what comes next, which is busy then. -/
theorem Inv.polled (hi : Inv h busy) (ha : h.uv = .active) :
    Inv ({ h with uv := .inactive, error := 0 }.call .body) true where
  unfailed := hi.unfailed
  unentered he := by
    have hby := (hi.startedBy (hi.active ha).1).symm.trans he
    cases hby
  unstarted hs := by
    have hst := (hi.active ha).1.symm.trans hs
    cases hst
  uncompleted hc := ⟨(hi.uncompleted hc).1, rfl⟩
  startedBy := hi.startedBy
  active hu := by cases hu
  closing hu := by cases hu
  onFail ho := by
    have hnone := (hi.uncompleted (hi.active ha).2.1).1.symm.trans ho
    cases hnone
  onClose := hi.onClose
  submitted r hr := by
    have hnone := (hi.active ha).2.2.2.symm.trans hr
    cases hnone
  installedBy := hi.installedBy
  pending := hi.pending
  handled := hi.handled

/-- A handle whose poll has failed is being closed. -/
theorem Inv.pollFailed (hi : Inv h busy) (ha : h.uv = .active) {error : ℤ} (hne : error ≠ 0) :
    Inv ({ h with uv := .inactive, completed := true, error := error }.uvClose .fail) busy where
  unfailed := hi.unfailed
  unentered he := by
    have hby := (hi.startedBy (hi.active ha).1).symm.trans he
    cases hby
  unstarted hs := by
    have hst := (hi.active ha).1.symm.trans hs
    cases hst
  uncompleted hc := by cases hc
  startedBy := hi.startedBy
  active hu := by cases hu
  closing _ := ⟨rfl, rfl⟩
  onFail _ := hne
  onClose c ho := by
    cases ho
    exact .inl rfl
  submitted r hr := by
    have hnone := (hi.active ha).2.2.2.symm.trans hr
    cases hnone
  installedBy := hi.installedBy
  pending := hi.pending
  handled _ hs := by
    have hst := (hi.active ha).1.symm.trans hs
    cases hst

theorem keeps_poll (hi : Inv s.handle s.busy) (ha : s.handle.uv = .active)
    (status stopped : ℤ) : Keeps s (s.step (onPoll s.handle status stopped)) := by
  obtain ⟨hst, hco, hb, hc⟩ := hi.active ha
  have hun := hi.uncompleted hco
  rw [onPoll, if_neg (by simp [hco]), if_neg (by simp [hun.2])]
  dsimp only
  split
  · next hz =>
    obtain ⟨-, rfl⟩ := hz
    have hcalls : ({ s.handle with uv := .inactive, error := 0 }.call .body : Handle).calls =
        s.handle.calls ++ [(.body, .inactive)] := rfl
    refine ⟨?_, fun _ => allowed_call hcalls ?_ fun h' => ?_⟩
    · rw [step_of_call hcalls, hb]
      exact hi.polled ha
    · simp [position, hst, hco, hb, Handle.call, Downstream.event]
    · simp [Handle.call, hco] at h'
  · next hz =>
    have hcalls : ({ s.handle with
        uv := .inactive
        completed := true
        error := if stopped = 0 then status else stopped }.uvClose .fail : Handle).calls =
        s.handle.calls := rfl
    refine ⟨?_, fun _ => allowed_quiet hcalls ?_ fun _ => hb⟩
    · rw [step_of_quiet hcalls]
      have hne : (if stopped = 0 then status else stopped) ≠ 0 := by
        split
        · next h0 => exact fun hs => hz ⟨hs, h0⟩
        · next h0 => exact h0
      exact hi.pollFailed ha hne
    · simp [position, hst, hco, hb, Handle.uvClose]

/-- A handle that has been closed calls what comes next. -/
theorem Inv.closed (hi : Inv h busy) (hst : h.started = true) (hco : h.completed = true)
    (c : Call) :
    Inv ({ h with closed := true, uv := .closed, onClose := none }.call c) busy where
  unfailed := hi.unfailed
  unentered he := by
    have hby := (hi.startedBy hst).symm.trans he
    cases hby
  unstarted hs := by
    have hst' := hst.symm.trans hs
    cases hst'
  uncompleted hc := by
    have hco' := hco.symm.trans hc
    cases hco'
  startedBy := hi.startedBy
  active ha := by cases ha
  closing hc := by cases hc
  onFail ho := by cases ho
  onClose c ho := by cases ho
  submitted := hi.submitted
  installedBy := hi.installedBy
  pending := hi.pending
  handled := hi.handled

theorem keeps_close (hi : Inv s.handle s.busy) (hcl : s.handle.uv = .closing) :
    Keeps s (s.step s.handle.close) := by
  obtain ⟨hco, hon⟩ := hi.closing hcl
  obtain ⟨o, ho⟩ := Option.isSome_iff_exists.mp hon
  have hst : s.handle.started = true := by
    cases hh : s.handle.started with
    | false => simp [(hi.unstarted hh).1] at hcl
    | true => rfl
  have hdone : ∀ c, c = .stop ∨ c = .ended ∨ c = .fail → Keeps s (s.step
      ({ s.handle with closed := true, uv := .closed, onClose := none }.call c)) := by
    intro c hcase
    have hquiet : (c = .begin || c = .body) = false := by
      rcases hcase with rfl | rfl | rfl <;> rfl
    have hcalls : ({ s.handle with closed := true, uv := .closed, onClose := none }.call c :
        Handle).calls = s.handle.calls ++ [(c, .closed)] := rfl
    refine ⟨?_, fun hb => allowed_call hcalls ?_ fun _ => by simp [hb hco, hquiet]⟩
    · rw [step_of_call hcalls, hquiet, Bool.or_false]
      exact hi.closed hst hco c
    · rcases hcase with rfl | rfl | rfl <;>
        simp [position, Handle.call, hco, hcl, Downstream.event]
  simp only [Handle.close, ho]
  rcases hi.onClose o ho with rfl | rfl | rfl <;> dsimp only
  · rw [if_neg (hi.onFail ho)]
    exact hdone .fail (by simp)
  · split
    · exact hdone .stop (by simp)
    · exact hdone .fail (by simp)
  · split
    · exact hdone .ended (by simp)
    · exact hdone .fail (by simp)

end Protocol

section Interrupting

variable {l : Label} {stopped : ℤ}

/-- The interrupt of a stream that has begun and not completed closes its handle. -/
theorem interrupt_started (hi : Inv h busy) (hst : h.started = true)
    (hco : h.completed = false) : h.interrupt stopped =
      { h with
        interruptContext := false, completed := true
        error := if h.uv = Uv.active then stopped else h.error }.uvClose (.unlessError .stop) := by
  simp [Handle.interrupt, hst, hco, (hi.uncompleted hco).2]

theorem inv_interrupt_started (hi : Inv h busy) (hst : h.started = true)
    (hco : h.completed = false) : Inv (h.interrupt stopped) busy := by
  have hn := hi.unfailed
  have hby := hi.startedBy hst
  have hsub := hi.submitted
  rw [interrupt_started hi hst hco]
  constructor <;> simp_all [Handle.uvClose]

theorem keeps_interrupt (hi : Inv s.handle s.busy) (hp : s.handle.interruptContext = true) :
    Inv (next s (.interrupt stopped)).handle (next s (.interrupt stopped)).busy ∧
      (Asked s (.interrupt stopped) → (s.handle.completed = true → s.busy = false) →
        Allowed s (next s (.interrupt stopped))) := by
  obtain ⟨hin, htr⟩ := hi.pending hp
  have hen : s.handle.entered ≠ none := by simp [hi.installedBy hin]
  have hu : Inv { s.handle with interruptContext := false } s.busy :=
    { hi with
      pending := by simp
      handled := fun _ _ _ => ⟨rfl, htr⟩ }
  cases hst : s.handle.started with
  | false =>
    have hco : s.handle.completed = false := by
      cases hh : s.handle.completed with
      | false => rfl
      | true => simp [(hi.handled hin hst hh).1] at hp
    have hrun : s.handle.interrupt stopped =
        { s.handle with interruptContext := false, completed := true }.call .stop := by
      simp [Handle.interrupt, hst, hco]
    have hk : Keeps s (s.step (s.handle.interrupt stopped)) := by
      rw [hrun]
      exact keeps_complete hu hst hco hen (fun _ => ⟨rfl, htr⟩) ⟨rfl, hst, hco⟩ (.inl rfl)
    exact ⟨hk.1, fun _ => hk.2⟩
  | true =>
    cases hco : s.handle.completed with
    | true =>
      have hrun : s.handle.interrupt stopped = { s.handle with interruptContext := false } := by
        simp [Handle.interrupt, hst, hco]
      have hk : Keeps s (s.step (s.handle.interrupt stopped)) := by
        rw [hrun]
        exact keeps_quiet hu rfl rfl rfl Iff.rfl
      exact ⟨hk.1, fun _ hb => hk.2 (hco ▸ hb)⟩
    | false =>
      have hcalls : (s.handle.interrupt stopped).calls = s.handle.calls := by
        rw [interrupt_started hi hst hco]
        rfl
      refine ⟨?_, fun ha _ => allowed_quiet hcalls ?_ fun _ => ha hst hco⟩
      · simp only [next, step_of_quiet hcalls]
        exact inv_interrupt_started hi hst hco
      · rw [interrupt_started hi hst hco]
        simp [position, hst, hco, ha hst hco, Handle.uvClose]

theorem keeps_next (hi : Inv s.handle s.busy) (he : Enabled s l) :
    Inv (next s l).handle (next s l).busy ∧
      (Asked s l → (s.handle.completed = true → s.busy = false) → Allowed s (next s l)) := by
  obtain ⟨-, he⟩ := he
  have hany : ∀ {t}, Keeps s t → Inv t.handle t.busy ∧
      (Asked s l → (s.handle.completed = true → s.busy = false) → Allowed s t) :=
    fun hk => ⟨hk.1, fun _ => hk.2⟩
  cases l with
  | start => exact hany (keeps_start hi he)
  | fail => exact hany (keeps_fail hi he)
  | stop => exact hany (keeps_stop hi he)
  | trigger => exact hany (keeps_trigger hi he)
  | next => exact hany (keeps_request hi he (.inl rfl))
  | done => exact hany (keeps_request hi he (.inr rfl))
  | run init started stopped => exact hany (keeps_run hi he init started stopped)
  | interrupt stopped => exact keeps_interrupt hi he
  | poll status stopped => exact hany (keeps_poll hi he status stopped)
  | close => exact hany (keeps_close hi he)

theorem inv_initial (registered : Bool) : Inv (initial registered).handle false := by
  constructor <;> simp [initial, Handle.initial]

theorem reachable_inv (h' : machine.Reachable s) : Inv s.handle s.busy := by
  apply h'.invariant
  · rintro s ⟨registered, rfl⟩
    exact inv_initial registered
  · intro s l hs he
    exact (keeps_next hs he).1

/-- Downstream stands where the state says, as long as no interrupt came unasked. -/
structure Stands (s : State) : Prop where
  after : Downstream.after s.events = some (position s.handle s.busy)
  idle : s.handle.completed = true → s.busy = false

theorem stands_of_allowed {t : State} (hs : Stands s) (ha : Allowed s t) : Stands t := by
  obtain ⟨es, hes, hfold⟩ := ha.events
  refine ⟨?_, ha.idle⟩
  rw [Downstream.after, hes, List.foldlM_append]
  change (Downstream.after s.events >>= fun d => es.foldlM Downstream.event d) = _
  rw [hs.after]
  exact hfold

theorem asked_stands (h' : (machine.restrict Asked).Reachable s) :
    Inv s.handle s.busy ∧ Stands s := by
  apply h'.invariant
  · rintro s ⟨registered, rfl⟩
    exact ⟨inv_initial registered, rfl, by simp [initial]⟩
  · rintro s l ⟨hi, hs⟩ ⟨he, ha⟩
    obtain ⟨hinv, hallowed⟩ := keeps_next hi he
    exact ⟨hinv, stands_of_allowed hs (hallowed ha hs.idle)⟩

/-- Downstream gets a `Stop` or `Fail` in the middle of what it processes. -/
theorem violates_of_not_asked (h' : (machine.restrict Asked).Reachable s)
    (he : machine.Enabled s (.interrupt stopped)) (hn : ¬ Asked s (.interrupt stopped)) :
    ∃ t u, machine.Step s (.interrupt stopped) t ∧ machine.Step t .close u ∧ ¬ u.Obeys := by
  obtain ⟨hi, hs⟩ := asked_stands h'
  simp only [Asked, Classical.not_imp, Bool.not_eq_false] at hn
  obtain ⟨hst, hco, hb⟩ := hn
  have hquiet : (s.handle.interrupt stopped).calls = s.handle.calls := by
    rw [interrupt_started hi hst hco]
    rfl
  have hinv : Inv (s.handle.interrupt stopped) s.busy := inv_interrupt_started hi hst hco
  have ht : next s (.interrupt stopped) = { s with handle := s.handle.interrupt stopped } :=
    step_of_quiet hquiet
  have hcl : (s.handle.interrupt stopped).uv = .closing := by
    rw [interrupt_started hi hst hco]
    rfl
  have hcalls : ∃ c, (s.handle.interrupt stopped).close.calls =
      (s.handle.interrupt stopped).calls ++ [(c, .closed)] ∧ (c = .stop ∨ c = .fail) := by
    rw [interrupt_started hi hst hco]
    generalize (if s.handle.uv = Uv.active then stopped else s.handle.error) = e
    by_cases he : e = 0
    · exact ⟨.stop, by simp [Handle.close, Handle.uvClose, Handle.call, he], .inl rfl⟩
    · exact ⟨.fail, by simp [Handle.close, Handle.uvClose, Handle.call, he], .inr rfl⟩
  refine ⟨_, _, ⟨he, rfl⟩, ⟨⟨?_, ?_⟩, rfl⟩, ?_⟩
  · change (next s (.interrupt stopped)).handle.failed = none
    rw [ht]
    exact hinv.unfailed
  · change (next s (.interrupt stopped)).handle.uv = .closing
    rw [ht]
    exact hcl
  · obtain ⟨c, hcalls, hc⟩ := hcalls
    have hpos : position s.handle s.busy = .processing := by simp [position, hst, hco, hb]
    have hev : (next (next s (.interrupt stopped)) .close).events = s.events ++ [.call c] := by
      rw [ht, next, step_of_call hcalls]
    change ¬ (next (next s (.interrupt stopped)) .close).Obeys
    rw [State.Obeys, Downstream.after, hev, List.foldlM_append]
    change ¬ ((Downstream.after s.events >>= fun d =>
      [Event.call c].foldlM Downstream.event d).isSome = true)
    rw [hs.after, hpos]
    rcases hc with rfl | rfl <;> simp [List.foldlM, Downstream.event]

/-- No `CHECK` fails in any run, and a poll obeys the protocol of streams in every run whose
interrupts come while downstream waits for an event; each other interrupt can break the protocol. -/
theorem poll_obeys_when_asked (h : machine.Reachable s) :
    s.handle.failed = none ∧
      ((machine.restrict Asked).Reachable s → s.Obeys ∧
        ∀ stopped, machine.Enabled s (.interrupt stopped) → ¬ Asked s (.interrupt stopped) →
          ∃ t u, machine.Step s (.interrupt stopped) t ∧ machine.Step t .close u ∧ ¬ u.Obeys) := by
  refine ⟨(reachable_inv h).unfailed, fun ha => ⟨?_, ?_⟩⟩
  · rw [State.Obeys, (asked_stands ha).2.after]
    rfl
  · intro stopped he hn
    exact violates_of_not_asked ha he hn

/-- A poll that is interrupted while downstream waits for the second event. -/
def interruptedAsking : List Label :=
  [.start, .run 0 0 0, .next, .run 0 0 0, .poll 0 0, .next, .run 0 0 0, .trigger, .interrupt 0,
    .close]

theorem exists_poll_obeys : ∃ s, (machine.restrict Asked).Reachable s ∧
    s.events.getLast? = some (.call .stop) ∧ s.handle.failed = none ∧ s.Obeys := by
  have he : (machine.restrict Asked).exec (initial true) interruptedAsking = some _ := rfl
  have h0 : (machine.restrict Asked).Initial (initial true) := ⟨true, rfl⟩
  have ha := Machine.exec_reachable (.initial h0) he
  obtain ⟨hfailed, hobeys⟩ := poll_obeys_when_asked ha.of_restrict
  exact ⟨_, ha, rfl, hfailed, (hobeys ha).1⟩

theorem interrupt_while_processing : ∃ s, machine.Reachable s ∧ ¬ s.Obeys := by
  have he : machine.exec (initial true)
      [.start, .run 0 0 0, .next, .run 0 0 0, .poll 0 0, .trigger, .interrupt 0, .close] =
      some _ := rfl
  exact ⟨_, Machine.exec_reachable (.initial ⟨true, rfl⟩) he, by decide⟩

end Interrupting

end Eventuals.EventLoop.Poll
