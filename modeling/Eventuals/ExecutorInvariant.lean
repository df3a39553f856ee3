import Eventuals.Executor
import Eventuals.ErrorsSound

/-! Every eventual that is submitted to an executor before its shutdown runs once, whatever the
others raise, and the control loop finishes after all of them. -/
namespace Eventuals.Executor

open Function (update)
open Transition (Machine)
open TypeTraits (Hierarchy)

variable {W T : Type*} {E : Type} [DecidableEq W] [DecidableEq E] {H : Hierarchy E}
  {s t : State W T E} {l : Label W T E} {i : ℕ}

section Parts

/-- The `Catch()` handles every error. -/
theorem caught_eq (H : Hierarchy E) (i : ℕ) (result : Result E) :
    caught H i result = (.fiberValue i () : Concurrent.Label T Unit E) := by
  cases result with
  | succeeded => rfl
  | raised error => simp [caught, handlers, Errors.Handlers.tryHandle]

/-- The call of `Concurrent` that a step makes. -/
def State.calls (s : State W T E) : Label W T E → Option (Concurrent.Label T Unit E)
  | .read => s.taken.map upstream
  | .concurrent l => some l
  | .reschedule i =>
    match s.jobs i with
    | .rescheduling _ => some (.fiberValue i ())
    | _ => none
  | .ended i => some (.fiberOutcome i none)
  | _ => none

theorem next_concurrent (H : Hierarchy E) (s : State W T E) (l : Label W T E) :
    (next H s l).concurrent =
      (s.calls l).elim s.concurrent (Concurrent.next s.concurrent) := by
  cases l with
  | pipe l | concurrent l | ended i | loop l => rfl
  | read => cases ht : s.taken <;> simp [next, State.calls, ht]
  | start i => cases hj : s.jobs i <;> simp [next, State.calls, hj]
  | finish i result => cases hj : s.jobs i <;> simp [next, State.calls, hj]
  | reschedule i => cases hj : s.jobs i <;> simp [next, State.calls, hj, caught_eq]

/-- Nobody interrupts, fails or stops `Concurrent`. -/
theorem calls_undisturbed (he : Enabled H s l) {c : Concurrent.Label T Unit E}
    (hc : s.calls l = some c) :
    Concurrent.Enabled s.concurrent c ∧ Concurrent.Undisturbed s.concurrent c := by
  cases l with
  | pipe l | start i | finish i result | loop l => cases hc
  | read =>
    simp only [State.calls, Option.map_eq_some_iff] at hc
    obtain ⟨r, hr, rfl⟩ := hc
    simp only [Enabled, hr] at he
    refine ⟨he.2, ?_⟩
    cases r with
    | none => rfl
    | some eventual => trivial
  | concurrent l =>
    obtain rfl := Option.some.inj hc
    refine ⟨he.1, ?_⟩
    have hu := he.2
    cases l <;> trivial
  | reschedule i =>
    cases hj : s.jobs i with
    | rescheduling result =>
      simp only [State.calls, hj, Option.some.injEq] at hc
      simp only [Enabled, hj, State.Reschedules, caught_eq] at he
      exact hc ▸ ⟨he, trivial⟩
    | idle | given eventual | running eventual | mapped => simp [State.calls, hj] at hc
  | ended i =>
    obtain rfl := Option.some.inj hc
    refine ⟨?_, rfl⟩
    cases hj : s.jobs i with
    | mapped => simpa only [Enabled, hj, State.Ends] using he
    | idle | given eventual | running eventual | rescheduling result =>
      simp [Enabled, hj, State.Ends] at he

theorem concurrent_reachable (h : (machine W T H).Reachable s) :
    ((Concurrent.machine T Unit E).restrict Concurrent.Undisturbed).Reachable s.concurrent := by
  induction h with
  | initial h0 => exact .initial ⟨true, congrArg State.concurrent h0⟩
  | @step s t l _ hst ih =>
    obtain ⟨he, rfl⟩ := hst
    change Machine.Reachable _ (next H s l).concurrent
    rw [next_concurrent]
    cases hc : s.calls l with
    | none => exact ih
    | some c =>
      obtain ⟨he', hu⟩ := calls_undisturbed he hc
      exact ih.next ⟨he', hu⟩

theorem concurrent_unfailed (h : (machine W T H).Reachable s) : s.concurrent.failed = none :=
  Concurrent.failed_uninterrupted
    ((concurrent_reachable h).mono fun _ _ => Concurrent.Undisturbed.uninterrupted)

theorem next_pipe (hl : ∀ l', l ≠ .pipe l') : (next H s l).pipe = s.pipe := by
  cases l with
  | pipe l => exact absurd rfl (hl l)
  | concurrent l | ended i | loop l => rfl
  | read | start i | finish i result | reschedule i =>
    simp only [next]
    split <;> rfl

theorem next_loop (hl : ∀ l', l ≠ .loop l') : (next H s l).loop = s.loop := by
  cases l with
  | loop l => exact absurd rfl (hl l)
  | pipe l | concurrent l | ended i => rfl
  | read | start i | finish i result | reschedule i =>
    simp only [next]
    split <;> rfl

theorem pipe_reachable (h : (machine W T H).Reachable s) :
    (ConditionVariable.machine (Pipe.program T) .idle .empty).Reachable s.pipe := by
  induction h with
  | initial h0 => exact .initial (congrArg State.pipe h0)
  | @step s t l _ hst ih =>
    obtain ⟨he, rfl⟩ := hst
    by_cases hl : ∃ l', l = .pipe l'
    · obtain ⟨l, rfl⟩ := hl
      exact ih.next he.1
    · change Machine.Reachable _ (next H s l).pipe
      rwa [next_pipe fun l' hx => hl ⟨l', hx⟩]

omit [DecidableEq W] [DecidableEq E] in
/-- Only the thread of the loop finishes it. -/
theorem task_of_finishes {l : ControlLoop.Label (Option W)} (h : s.Finishes l) :
    ControlLoop.Task none s.loop l := by
  rintro w c rfl
  cases w with
  | none => simp [show c = .finish from h.1]
  | some w => simp [show c = .wait from h]

theorem loop_reachable (h : (machine W T H).Reachable s) :
    ((ControlLoop.machine (Option W)).restrict (ControlLoop.Task none)).Reachable s.loop := by
  induction h with
  | initial h0 => exact .initial (congrArg State.loop h0)
  | @step s t l _ hst ih =>
    obtain ⟨he, rfl⟩ := hst
    by_cases hl : ∃ l', l = .loop l'
    · obtain ⟨l, rfl⟩ := hl
      exact ih.next ⟨he.1, task_of_finishes he.2⟩
    · change Machine.Reachable _ (next H s l).loop
      rwa [next_loop fun l' hx => hl ⟨l', hx⟩]

/-- What a call does to the ingress and the fibers of `Concurrent`. -/
theorem call_cases (h : (machine W T H).Reachable s) (he : Enabled H s l)
    {c : Concurrent.Label T Unit E} (hc : s.calls l = some c) :
    (∃ arg contexts i, c = .createOrReuseFiber arg contexts ∧
        s.concurrent.ingress = .create arg ∧
        Concurrent.Creates s.concurrent arg i (next H s l).concurrent) ∨
      Concurrent.Moves s.concurrent c (next H s l).concurrent := by
  have hn : (next H s l).concurrent = Concurrent.next s.concurrent c := by
    rw [next_concurrent, hc]
    rfl
  obtain ⟨⟨hf, hr⟩, hu⟩ := calls_undisturbed he hc
  have hreach := concurrent_reachable h
  have hcalm := Concurrent.calm_reachable hreach
  have hi := Concurrent.inv_reachable hreach.of_restrict
  have hh := Concurrent.history_reachable hreach.of_restrict
  have ht := Concurrent.not_triggered
    (hreach.mono fun _ _ => Concurrent.Undisturbed.uninterrupted)
  rw [hn]
  by_cases hl : ∃ arg contexts, c = .createOrReuseFiber arg contexts
  · obtain ⟨arg, contexts, rfl⟩ := hl
    obtain ⟨i, hx⟩ := Concurrent.creates_next hcalm hi hh ht hr
    exact .inl ⟨arg, contexts, i, rfl, hr.1, hx⟩
  · exact .inr (Concurrent.moves_next hcalm hi hh hf ht hr hu
      fun arg contexts hx => hl ⟨arg, contexts, hx⟩)

end Parts

section Reader

variable {T : Type*} {c : Pipe.Control T} {d : Pipe.Data T}

/-- Where the reader may stand. -/
def isReading : Pipe.Control T → Bool
  | .idle | .read | .takeValue | .notifyDrained | .done | .ended => true
  | _ => false

theorem isReading_target (h : isReading c = true) :
    isReading (Pipe.code c d).target = true ∧ (Pipe.code c d).target ≠ .read ∧
      ((Pipe.code c d).target = .takeValue → c = .read) ∧
      ((Pipe.code c d).target ≠ .idle → c ≠ .idle) := by
  cases c <;> simp only [isReading, Bool.false_eq_true] at h
  case takeValue =>
    simp only [Pipe.code]
    split
    · split <;> simp [Monitor.Instr.target, isReading]
    · simp [Monitor.Instr.target, isReading]
  all_goals simp [Pipe.code, Monitor.Instr.target, isReading]

theorem target_of_user (hr : c ≠ .read) (ht : c ≠ .takeValue) :
    (Pipe.code c d).target ≠ .read ∧ (Pipe.code c d).target ≠ .takeValue := by
  cases c <;> simp only [Pipe.code]
  case read => exact absurd rfl hr
  case takeValue => exact absurd rfl ht
  all_goals repeat' split
  all_goals simp [Monitor.Instr.target]

end Reader

/-- Where the reader stands, and what it has got. -/
structure Reading (s : State W T E) : Prop where
  reader : isReading (s.pipe.pc none) = true
  users : ∀ w, s.pipe.pc (some w) ≠ .read ∧ s.pipe.pc (some w) ≠ .takeValue
  fresh : s.pipe.pc none = .read ∨ s.pipe.pc none = .takeValue → s.taken = none
  asked : s.pipe.pc none ≠ .idle ∨ s.taken ≠ none → s.concurrent.ingress = .awaitingNext
  drained : s.taken = some none ∨ (∃ o, s.concurrent.ingress = .epilogue o) ∨
    s.concurrent.ingress = .finished → s.pipe.data.isClosed = true ∧ s.pipe.data.values = []

section Reading

theorem reading_arrive (h : Reading s) {w : Option W} {c : Pipe.Control T}
    (he : Enabled H s (.pipe (.arrive w c))) : Reading (next H s (.pipe (.arrive w c))) := by
  have hpc : (next H s (.pipe (.arrive w c))).pipe.pc = update s.pipe.pc w c := rfl
  have htaken : (next H s (.pipe (.arrive w c))).taken = s.taken := by
    cases w <;> rfl
  obtain ⟨-, ha⟩ := he
  cases w with
  | none =>
    obtain ⟨rfl, hg, ht⟩ := ha
    constructor
    · simp [hpc, isReading]
    · simpa [hpc] using h.users
    · exact fun _ => htaken.trans ht
    · exact fun _ => hg
    · rw [htaken]
      exact h.drained
  | some w =>
    have hc : c ≠ .read ∧ c ≠ .takeValue := by
      cases c <;> simp [State.Arrives, isSubmitOrShutdown] at ha ⊢
    have hnone : (next H s (.pipe (.arrive (some w) c))).pipe.pc none = s.pipe.pc none := by
      simp [hpc]
    constructor
    · rw [hnone]
      exact h.reader
    · intro v
      by_cases hv : v = w
      · simpa [hpc, hv] using hc
      · simpa [hpc, hv] using h.users v
    · rw [hnone, htaken]
      exact h.fresh
    · rw [hnone, htaken]
      exact h.asked
    · rw [htaken]
      exact h.drained

/-- What a step of the thread that holds the lock does to the fields and to where threads stand. -/
theorem pipe_run (H : Hierarchy E) (s : State W T E) (w : Option W) :
    (next H s (.pipe (.run w))).pipe.data =
        (Pipe.code (s.pipe.pc w) s.pipe.data).store s.pipe.data ∧
      (∀ v, v ≠ w → (next H s (.pipe (.run w))).pipe.pc v = s.pipe.pc v) ∧
      ((next H s (.pipe (.run w))).pipe.pc w = s.pipe.pc w ∧
          (∀ d c, Pipe.code (s.pipe.pc w) s.pipe.data ≠ .assign d c) ∨
        (next H s (.pipe (.run w))).pipe.pc w =
          (Pipe.code (s.pipe.pc w) s.pipe.data).target) := by
  obtain ⟨hd, hpc⟩ := ConditionVariable.run_fields s.pipe w
    (Pipe.code (s.pipe.pc w) s.pipe.data)
  refine ⟨hd, fun v hv => ?_, ?_⟩
  · rcases hpc with ⟨hp, -⟩ | hp
    · exact congrFun hp v
    · exact (congrFun hp v).trans (Function.update_of_ne hv ..)
  · rcases hpc with ⟨hp, hn⟩ | hp
    · exact .inl ⟨congrFun hp w, hn⟩
    · exact .inr ((congrFun hp w).trans (Function.update_self ..))

/-- The reader takes a value, or finds the pipe closed and empty. -/
theorem reading_takeValue (h : Reading s) (hc : s.pipe.pc none = .takeValue)
    (hf : (next H s (.pipe (.run none))).pipe.data.failed = false) :
    Reading (next H s (.pipe (.run none))) := by
  obtain ⟨hd, husers, hpc⟩ := pipe_run H s none
  obtain ⟨hreads, hnr, hnt, -⟩ := isReading_target (d := s.pipe.data) h.reader
  have ht : (next H s (.pipe (.run none))).taken = some s.pipe.data.values.head? := by
    simp [next, State.takes, hc]
  have hp : (next H s (.pipe (.run none))).pipe.pc none =
      (Pipe.code (s.pipe.pc none) s.pipe.data).target := by
    rcases hpc with ⟨-, hn⟩ | hp
    · cases hv : s.pipe.data.values <;> simp [hc, hv, Pipe.code] at hn
    · exact hp
  constructor
  · rw [hp]
    exact hreads
  · intro w
    rw [husers (some w) (by simp)]
    exact h.users w
  · rw [hp]
    rintro (hx | hx)
    · exact absurd hx hnr
    · exact absurd (hnt hx) (by simp [hc])
  · exact fun _ => h.asked (.inl (by simp [hc]))
  · rintro (hx | hx)
    · rw [ht, Option.some.injEq, List.head?_eq_none_iff] at hx
      have ho : s.pipe.data.failed = false ∧ s.pipe.data.isClosed = true := by
        rw [hd] at hf
        simpa [hc, hx, Pipe.code, Monitor.Instr.store] using hf
      rw [hd]
      exact Pipe.store_drained ho.2 hx
    · rw [hd]
      exact Pipe.store_drained (h.drained (.inr hx)).1 (h.drained (.inr hx)).2

theorem reading_run_none (h : Reading s)
    (hf : (next H s (.pipe (.run none))).pipe.data.failed = false) :
    Reading (next H s (.pipe (.run none))) := by
  by_cases hc : s.pipe.pc none = .takeValue
  · exact reading_takeValue h hc hf
  obtain ⟨hd, husers, hpc⟩ := pipe_run H s none
  obtain ⟨hreads, hnr, hnt, hni⟩ := isReading_target (d := s.pipe.data) h.reader
  have ht : (next H s (.pipe (.run none))).taken = s.taken := by
    simp only [next, State.takes]
  have hp : (next H s (.pipe (.run none))).pipe.pc none = s.pipe.pc none ∨
      (next H s (.pipe (.run none))).pipe.pc none =
        (Pipe.code (s.pipe.pc none) s.pipe.data).target := hpc.imp_left And.left
  constructor
  · rcases hp with hp | hp <;> rw [hp]
    · exact h.reader
    · exact hreads
  · intro w
    rw [husers (some w) (by simp)]
    exact h.users w
  · rw [ht]
    intro hx
    rcases hp with hp | hp <;> rw [hp] at hx
    · exact h.fresh hx
    · exact h.fresh (.inl (hnt (hx.resolve_left hnr)))
  · rw [ht]
    intro hx
    refine h.asked (hx.imp_left fun hx => ?_)
    rcases hp with hp | hp <;> rw [hp] at hx
    · exact hx
    · exact hni hx
  · rw [ht, hd]
    intro hx
    exact Pipe.store_drained (h.drained hx).1 (h.drained hx).2

theorem reading_run_some (h : Reading s) (w : W) :
    Reading (next H s (.pipe (.run (some w)))) := by
  obtain ⟨hd, hothers, hpc⟩ := pipe_run H s (some w)
  have hnone := hothers none (by simp)
  constructor
  · rw [hnone]
    exact h.reader
  · intro v
    by_cases hvw : v = w
    · subst hvw
      rcases hpc with ⟨hp, -⟩ | hp <;> rw [hp]
      · exact h.users v
      · exact target_of_user (h.users v).1 (h.users v).2
    · rw [hothers (some v) (by simpa using hvw)]
      exact h.users v
  · rw [hnone]
    exact h.fresh
  · rw [hnone]
    exact h.asked
  · rw [hd]
    intro hx
    exact Pipe.store_drained (h.drained hx).1 (h.drained hx).2

/-- The reader passes on what it has got once it has left the lock. -/
theorem reading_read (h : Reading s) (he : Enabled H s .read) (hi : s.pipe.pc none = .idle)
    (hg : ∀ r, s.taken = some r → (next H s .read).concurrent.ingress =
      (upstream r : Concurrent.Label T Unit E).ingress s.concurrent.ingress) :
    Reading (next H s .read) := by
  cases ht : s.taken with
  | none => simp [Enabled, ht, State.Reads] at he
  | some r =>
    have hg := hg r ht
    have hp : (next H s .read).pipe = s.pipe := next_pipe (by simp)
    have ht' : (next H s .read).taken = none := by simp [next, ht]
    constructor
    · rw [hp]
      exact h.reader
    · rw [hp]
      exact h.users
    · exact fun _ => ht'
    · rw [hp, ht']
      simp [hi]
    · rw [hp, ht']
      intro hx
      cases r with
      | none => exact h.drained (.inl ht)
      | some eventual =>
        rw [hg] at hx
        simp [upstream, Concurrent.Label.ingress] at hx

omit [DecidableEq W] [DecidableEq E] in
theorem Reading.keep (h : Reading s) (hp : t.pipe = s.pipe) (ht : t.taken = s.taken)
    (ha : s.concurrent.ingress = .awaitingNext → t.concurrent.ingress = .awaitingNext)
    (ho : (∃ o, t.concurrent.ingress = .epilogue o) ∨ t.concurrent.ingress = .finished →
      (∃ o, s.concurrent.ingress = .epilogue o) ∨ s.concurrent.ingress = .finished) :
    Reading t := by
  constructor
  · rw [hp]
    exact h.reader
  · rw [hp]
    exact h.users
  · rw [hp, ht]
    exact h.fresh
  · rw [hp, ht]
    exact fun hx => ha (h.asked hx)
  · rw [hp, ht]
    exact fun hx => h.drained (hx.imp_right ho)

/-- The steps of `Concurrent` itself wait for the ingress to be elsewhere than with the reader. -/
theorem reading_concurrent (h : Reading s) (hs : (machine W T H).Reachable s)
    {c : Concurrent.Label T Unit E} (he : Enabled H s (.concurrent c)) :
    Reading (next H s (.concurrent c)) := by
  refine h.keep rfl rfl ?_ ?_
  · intro hg
    rcases call_cases hs he rfl with ⟨arg, contexts, i, rfl, hr, -⟩ | hm
    · simp [hg] at hr
    · rw [hm.ingress, hg]
      obtain ⟨⟨-, hr⟩, hu⟩ := he
      cases c <;> simp_all [Concurrent.Ready, Concurrent.Label.ingress, isUninterrupted,
        Concurrent.Label.internal]
  · intro ho
    rcases call_cases hs he rfl with ⟨arg, contexts, i, rfl, -, hx⟩ | hm
    · simp [hx.ingress] at ho
    · rw [hm.ingress] at ho
      obtain ⟨⟨-, hr⟩, hu⟩ := he
      cases c <;> simp_all [Concurrent.Ready, Concurrent.Label.ingress, isUninterrupted,
        Concurrent.Label.internal]

theorem reading_next (h : Reading s) (hs : (machine W T H).Reachable s) (he : Enabled H s l) :
    Reading (next H s l) := by
  have hs' : (machine W T H).Reachable (next H s l) := hs.next he
  have quiet : ∀ {t : State W T E}, t.pipe = s.pipe → t.taken = s.taken →
      t.concurrent.ingress = s.concurrent.ingress → Reading t := by
    intro t hp ht hg
    refine h.keep hp ht ?_ ?_ <;> rw [hg]
    · exact id
    · exact id
  cases l with
  | pipe l =>
    cases l with
    | arrive w c => exact reading_arrive h he
    | resume w => cases w <;> exact ⟨h.reader, h.users, h.fresh, h.asked, h.drained⟩
    | run w =>
      cases w with
      | none =>
        obtain ⟨q, -, hc⟩ := Pipe.pipe_correct (pipe_reachable hs')
        exact reading_run_none h hc.checks
      | some w => exact reading_run_some h w
  | read =>
    have hi : s.pipe.pc none = .idle := by
      cases ht : s.taken with
      | none => simp [Enabled, ht, State.Reads] at he
      | some r =>
        simp only [Enabled, ht] at he
        exact Pipe.outside_idle (pipe_reachable hs) he.1
    refine reading_read h he hi fun r hr => ?_
    have hc : s.calls (.read : Label W T E) = some (upstream r) := by simp [State.calls, hr]
    rcases call_cases hs he hc with ⟨arg, contexts, i, hx, -⟩ | hm
    · cases r <;> cases hx
    · exact hm.ingress
  | concurrent c => exact reading_concurrent h hs he
  | start i | finish i result =>
    simp only [next]
    split
    · exact quiet rfl rfl rfl
    · exact h
  | reschedule i =>
    simp only [next]
    split
    · rw [caught_eq]
      exact quiet rfl rfl rfl
    · exact h
  | ended i =>
    exact quiet rfl rfl rfl
  | loop l => exact quiet rfl rfl rfl

theorem reading_reachable (h : (machine W T H).Reachable s) : Reading s := by
  induction h with
  | initial h0 =>
    obtain rfl := h0
    constructor <;> simp [State.init, ConditionVariable.initial, isReading, Concurrent.State.init]
  | @step s t l h hst ih =>
    obtain ⟨he, rfl⟩ := hst
    exact reading_next ih h he

end Reading

/-- Where a fiber stands with a job. -/
def Holds : Job T E → Option (Concurrent.Fiber.Control Unit E) → Prop
  | .idle, c => c ≠ some .submitted ∧ c ≠ some .running ∧ c ≠ some (.pushing ())
  | .given _, c => c = some .submitted ∨ c = some .running
  | .running _, c | .rescheduling _, c => c = some .running
  | .mapped, c => c = some (.pushing ()) ∨ c = some .running

def State.given (s : State W T E) : List T :=
  jobsOf s.jobs s.concurrent.fibers.length Job.given?

/-- Each value that the reader has taken is in one place, and each job is with a fiber. -/
structure Accounted [DecidableEq T] (s : State W T E) : Prop where
  started : ∀ e, s.started.count e + s.given.count e +
    (arg? s.concurrent.ingress).toList.count e + s.taken.join.toList.count e =
      (Pipe.returnedValues s.pipe.data.history).count e
  completed : ∀ e, (s.completed.map Prod.fst).count e + s.running.count e = s.started.count e
  jobs : ∀ i, Holds (s.jobs i) (s.concurrent.control i)

section Accounts

variable [DecidableEq T] {job : Job T E}

omit [DecidableEq E] in
theorem count_jobsOf_update (jobs : ℕ → Job T E) {n : ℕ} (hi : i < n) (job : Job T E)
    (get : Job T E → Option T) (e : T) :
    (get (jobs i)).toList.count e + (jobsOf (update jobs i job) n get).count e =
      (get job).toList.count e + (jobsOf jobs n get).count e := by
  have hplaces : (fun j => get (update jobs i job j)) =
      update (fun j => get (jobs j)) i (get job) := by
    funext j
    by_cases hj : j = i
    · simp [hj]
    · simp [hj]
  have h := Tokens.held_update (fun j => get (jobs j)) List.nodup_range
    (List.mem_range.mpr hi) (get job)
  rw [← hplaces] at h
  simpa only [jobsOf, List.count_append] using h.count_eq e

omit [DecidableEq W] [DecidableEq E] [DecidableEq T] in
theorem lt_of_control {c : Concurrent.Fiber.Control Unit E}
    (h : s.concurrent.control i = some c) : i < s.concurrent.fibers.length := by
  obtain ⟨f, hf, -⟩ := Concurrent.control_eq_some.mp h
  exact (List.getElem?_eq_some_iff.mp hf).1

omit [DecidableEq W] [DecidableEq E] in
/-- A job in hand is that of a fiber. -/
theorem Accounted.lt (h : Accounted s) (hj : s.jobs i ≠ .idle) :
    i < s.concurrent.fibers.length := by
  have hold := h.jobs i
  cases hx : s.jobs i with
  | idle => exact absurd hx hj
  | given eventual | mapped =>
    rw [hx] at hold
    rcases hold with hc | hc <;> exact lt_of_control hc
  | running eventual | rescheduling result =>
    rw [hx] at hold
    exact lt_of_control hold

omit [DecidableEq W] [DecidableEq E] in
/-- The job of one fiber changes, with what has been started and completed. -/
theorem Accounted.move (h : Accounted s) (i : ℕ) (job : Job T E)
    (hi : i < s.concurrent.fibers.length)
    (hjobs : t.jobs = update s.jobs i job) (hpipe : t.pipe = s.pipe) (htaken : t.taken = s.taken)
    (hlength : t.concurrent.fibers.length = s.concurrent.fibers.length)
    (hcontrol : ∀ j, j ≠ i → t.concurrent.control j = s.concurrent.control j)
    (hold : Holds job (t.concurrent.control i))
    (hstarted : ∀ e, t.started.count e + job.given?.toList.count e +
      (arg? t.concurrent.ingress).toList.count e =
        s.started.count e + (s.jobs i).given?.toList.count e +
          (arg? s.concurrent.ingress).toList.count e)
    (hcompleted : ∀ e, (t.completed.map Prod.fst).count e + job.running?.toList.count e +
      s.started.count e = (s.completed.map Prod.fst).count e +
        (s.jobs i).running?.toList.count e + t.started.count e) : Accounted t := by
  refine ⟨fun e => ?_, fun e => ?_, fun j => ?_⟩
  · have hc := count_jobsOf_update s.jobs hi job Job.given? e
    have hs := h.started e
    have ht := hstarted e
    simp only [State.given, hjobs, hpipe, htaken, hlength] at hs ⊢
    omega
  · have hc := count_jobsOf_update s.jobs hi job Job.running? e
    have hs := h.completed e
    have ht := hcompleted e
    simp only [State.running, hjobs, hlength] at hs ⊢
    omega
  · rw [hjobs]
    by_cases hji : j = i
    · subst hji
      rwa [Function.update_self]
    · rw [Function.update_of_ne hji, hcontrol j hji]
      exact h.jobs j

theorem accounted_start (h : Accounted s) (he : Enabled H s (.start i)) :
    Accounted (next H s (.start i)) := by
  cases hj : s.jobs i with
  | given eventual =>
    simp only [Enabled, hj, State.Starts] at he
    simp only [next, hj]
    refine h.move i (.running eventual) (h.lt (by simp [hj])) rfl rfl rfl rfl
      (fun _ _ => rfl) he (fun e => ?_) fun e => ?_
    · simp [hj, Job.given?]
    · simp [hj, Job.running?]
      omega
  | idle | running eventual | rescheduling result | mapped =>
    simp [Enabled, hj, State.Starts] at he

theorem accounted_finish (h : Accounted s) {result : Result E}
    (he : Enabled H s (.finish i result)) : Accounted (next H s (.finish i result)) := by
  cases hj : s.jobs i with
  | running eventual =>
    have hold := h.jobs i
    rw [hj] at hold
    simp only [next, hj]
    refine h.move i (.rescheduling result) (h.lt (by simp [hj])) rfl rfl rfl rfl
      (fun _ _ => rfl) hold (fun e => ?_) fun e => ?_
    · simp [hj, Job.given?]
    · simp [hj, Job.running?]
  | idle | given eventual | rescheduling result | mapped =>
    simp [Enabled, hj, Job.running?] at he

theorem accounted_reschedule (h : Accounted s) (hs : (machine W T H).Reachable s)
    (he : Enabled H s (.reschedule i)) : Accounted (next H s (.reschedule i)) := by
  cases hj : s.jobs i with
  | rescheduling result =>
    have hc : s.calls (.reschedule i) = some (.fiberValue i ()) := by simp [State.calls, hj]
    rcases call_cases hs he hc with ⟨arg, contexts, i, hx, -⟩ | hm
    · cases hx
    have hcontrol := hm.control
    simp only [Concurrent.Label.moves] at hcontrol
    refine h.move i .mapped (h.lt (by simp [hj])) (by simp [next, hj]) (next_pipe (by simp))
      (by simp [next, hj]) hm.length (fun j hji => by rw [hcontrol, if_neg hji])
      (by simp [hcontrol, Holds]) (fun e => ?_) fun e => ?_
    · rw [hm.ingress]
      simp [next, hj, Job.given?, Concurrent.Label.ingress]
    · simp [next, hj, Job.running?]
  | idle | given eventual | running eventual | mapped =>
    simp [Enabled, hj, State.Reschedules] at he

theorem accounted_ended (h : Accounted s) (hs : (machine W T H).Reachable s)
    (he : Enabled H s (.ended i)) : Accounted (next H s (.ended i)) := by
  cases hj : s.jobs i with
  | mapped =>
    rcases call_cases hs he rfl with ⟨arg, contexts, i, hx, -⟩ | hm
    · cases hx
    have hcontrol := hm.control
    simp only [Concurrent.Label.moves] at hcontrol
    refine h.move i .idle (h.lt (by simp [hj])) rfl rfl rfl hm.length
      (fun j hji => by rw [hcontrol, if_neg hji]) (by simp [hcontrol, Holds]) (fun e => ?_)
      fun e => ?_
    · rw [hm.ingress]
      simp [next, hj, Job.given?, Concurrent.Label.ingress]
    · simp [next, hj, Job.running?]
  | idle | given eventual | running eventual | rescheduling result =>
    simp [Enabled, hj, State.Ends] at he

omit [DecidableEq W] [DecidableEq E] in
/-- The jobs stay, and so does where they are held. -/
theorem Accounted.keep (h : Accounted s) (hjobs : t.jobs = s.jobs)
    (hstarted : t.started = s.started) (hcompleted : t.completed = s.completed)
    (hlength : s.concurrent.fibers.length ≤ t.concurrent.fibers.length)
    (hcontrol : ∀ i, Holds (s.jobs i) (s.concurrent.control i) →
      Holds (s.jobs i) (t.concurrent.control i))
    (hvalues : ∀ e, (arg? t.concurrent.ingress).toList.count e + t.taken.join.toList.count e +
      (Pipe.returnedValues s.pipe.data.history).count e =
        (arg? s.concurrent.ingress).toList.count e + s.taken.join.toList.count e +
          (Pipe.returnedValues t.pipe.data.history).count e) : Accounted t := by
  have idle : ∀ j, s.concurrent.fibers.length ≤ j → s.jobs j = .idle := by
    intro j hj
    by_contra hn
    have hlt := h.lt hn
    omega
  have hget : ∀ get : Job T E → Option T, get .idle = none →
      jobsOf t.jobs t.concurrent.fibers.length get =
        jobsOf s.jobs s.concurrent.fibers.length get := by
    intro get hget
    rw [hjobs]
    exact Tokens.held_range hlength fun j hj => by rw [idle j hj, hget]
  refine ⟨fun e => ?_, fun e => ?_, fun i => ?_⟩
  · have hs := h.started e
    have hv := hvalues e
    rw [State.given, hget _ rfl, hstarted]
    rw [State.given] at hs
    omega
  · rw [State.running, hget _ rfl, hstarted, hcompleted]
    exact h.completed e
  · rw [hjobs]
    exact hcontrol i (h.jobs i)

theorem accounted_read (h : Accounted s) (hr : Reading s) (hs : (machine W T H).Reachable s)
    (he : Enabled H s .read) : Accounted (next H s .read) := by
  cases ht : s.taken with
  | none => simp [Enabled, ht, State.Reads] at he
  | some r =>
    have hg := hr.asked (.inr (by simp [ht]))
    have hc : s.calls (.read : Label W T E) = some (upstream r) := by simp [State.calls, ht]
    rcases call_cases hs he hc with ⟨arg, contexts, i, hx, -⟩ | hm
    · cases r <;> cases hx
    refine h.keep (by simp [next, ht]) (by simp [next, ht]) (by simp [next, ht]) hm.length.ge
      (fun i hi => ?_) fun e => ?_
    · rw [hm.control]
      cases r <;> exact hi
    · have hp : (next H s .read).pipe = s.pipe := next_pipe (by simp)
      have ht' : (next H s .read).taken = none := by simp [next, ht]
      rw [hm.ingress, hp, ht', hg, ht]
      cases r <;> simp [upstream, Concurrent.Label.ingress, arg?]

omit [DecidableEq W] [DecidableEq E] [DecidableEq T] in
/-- A job follows its fiber. -/
theorem holds_moves {c : Concurrent.Label T Unit E} {j : ℕ}
    {control : Concurrent.Fiber.Control Unit E}
    (hu : isUninterrupted c = true) (hr : Concurrent.Ready s.concurrent c)
    (hn : ∀ eventual j, c ≠ .startFiber eventual j) (hm : c.moves = some (j, control))
    (h : Holds job (s.concurrent.control j)) : Holds job (some control) := by
  cases c <;>
    simp only [Concurrent.Label.moves, Option.some.injEq, Prod.mk.injEq, reduceCtorEq] at hm
  case startFiber eventual j => exact absurd rfl (hn eventual j)
  case fiberValue j value => simp [isUninterrupted, Concurrent.Label.internal] at hu
  case fiberOutcome j o => simp [isUninterrupted, Concurrent.Label.internal] at hu
  all_goals
    obtain ⟨rfl, rfl⟩ := hm
    rw [show s.concurrent.control _ = some _ from hr] at h
    cases job <;> simp_all [Holds]

omit [DecidableEq W] [DecidableEq E] [DecidableEq T] in
theorem holds_idle {c : Option (Concurrent.Fiber.Control Unit E)}
    (hc : ∀ x, c = some x → x = .created ∨ x = .finished) (h : Holds job c) : job = .idle := by
  cases job with
  | idle => rfl
  | given eventual | mapped =>
    rcases h with h | h <;> rcases hc _ h with hx | hx <;> cases hx
  | running eventual | rescheduling result =>
    rcases hc _ h with hx | hx <;> cases hx

/-- The fiber of the value in hand is started with it. -/
theorem accounted_startFiber (h : Accounted s) (hs : (machine W T H).Reachable s) {arg : T}
    (he : Enabled H s (.concurrent (.startFiber arg i)))
    (hm : Concurrent.Moves s.concurrent (.startFiber arg i)
      (next H s (.concurrent (.startFiber arg i))).concurrent) :
    Accounted (next H s (.concurrent (.startFiber arg i))) := by
  have hg : s.concurrent.ingress = .start arg i := he.1.2
  have hi := Concurrent.inv_reachable (concurrent_reachable hs).of_restrict
  have hc : s.concurrent.control i = some .created := (hi.created i).mpr ⟨arg, hg⟩
  have hj : s.jobs i = .idle := by
    refine holds_idle (fun x hx => .inl ?_) (h.jobs i)
    rw [hc, Option.some.injEq] at hx
    exact hx.symm
  have hcontrol := hm.control
  simp only [Concurrent.Label.moves] at hcontrol
  refine h.move i (.given arg) (lt_of_control hc) rfl rfl rfl hm.length
    (fun j hji => by rw [hcontrol, if_neg hji]) (by simp [hcontrol, Holds]) (fun e => ?_)
    fun e => ?_
  · rw [hm.ingress, hg, hj]
    simp [next, Job.given?, Concurrent.Label.ingress, arg?]
  · simp [next, hj, Job.running?]

theorem accounted_concurrent (h : Accounted s) (hs : (machine W T H).Reachable s)
    {c : Concurrent.Label T Unit E} (he : Enabled H s (.concurrent c)) :
    Accounted (next H s (.concurrent c)) := by
  rcases call_cases hs he rfl with ⟨arg, contexts, i, rfl, hr, hx⟩ | hm
  · refine h.keep rfl rfl rfl hx.length (fun j hj => ?_) fun e => ?_
    · rw [hx.control]
      by_cases hji : j = i
      · subst hji
        rw [if_pos rfl, holds_idle (fun c hc => .inr (hx.finished c hc)) hj]
        simp [Holds]
      · rwa [if_neg hji]
    · rw [hx.ingress, hr]
      simp [arg?, next]
  · by_cases hl : ∃ eventual j, c = .startFiber eventual j
    · obtain ⟨arg, i, rfl⟩ := hl
      exact accounted_startFiber h hs he hm
    · have hn : ∀ eventual j, c ≠ .startFiber eventual j := by
        intro eventual j hx
        exact hl ⟨eventual, j, hx⟩
      obtain ⟨⟨-, hr⟩, hu⟩ := he
      have hjobs : s.gives c = s.jobs := by
        cases c <;> first | rfl | exact absurd rfl (hn _ _)
      refine h.keep hjobs rfl rfl hm.length.ge (fun j hj => ?_) fun e => ?_
      · rw [hm.control]
        cases hc : c.moves with
        | none => exact hj
        | some p =>
          obtain ⟨i, control⟩ := p
          by_cases hji : j = i
          · subst hji
            simpa using holds_moves hu hr hn hc hj
          · simpa [hji] using hj
      · have hg : arg? (c.ingress s.concurrent.ingress) = arg? s.concurrent.ingress := by
          cases c <;> simp_all [Concurrent.Label.ingress, Concurrent.Ready, arg?, isUninterrupted,
            Concurrent.Label.internal]
        rw [hm.ingress, hg]
        rfl

/-- The reader takes the value that the pipe records as returned. -/
theorem accounted_pipe (h : Accounted s) (hr : Reading s)
    {l : Monitor.Label (Option W) (Pipe.Control T)} : Accounted (next H s (.pipe l)) := by
  refine h.keep rfl rfl rfl (Nat.le_refl _) (fun _ hi => hi) fun e => ?_
  cases l with
  | arrive w c => cases w <;> rfl
  | resume w => cases w <;> rfl
  | run w =>
    obtain ⟨hd, -, -⟩ := pipe_run H s w
    rw [hd]
    by_cases hc : s.pipe.pc w = .takeValue
    · cases w with
      | some w => exact absurd hc (hr.users w).2
      | none =>
        have ht := hr.fresh (.inr hc)
        have ht' : (next H s (.pipe (.run none))).taken = some s.pipe.data.values.head? := by
          simp [next, State.takes, hc]
        rw [ht', ht, hc]
        cases hv : s.pipe.data.values with
        | nil => simp [Pipe.code, hv, Monitor.Instr.store, next]
        | cons v values =>
          simp only [Pipe.code, hv, Monitor.Instr.store, Pipe.Data.log,
            Pipe.returnedValues_append]
          simp [next, Pipe.returnedValues]
          omega
    · have ht : (next H s (.pipe (.run w))).taken = s.taken := by
        cases w <;> simp only [next, State.takes]
      rw [Pipe.store_returned hc, ht]
      rfl

theorem accounted_next (h : Accounted s) (hr : Reading s) (hs : (machine W T H).Reachable s)
    (he : Enabled H s l) : Accounted (next H s l) := by
  cases l with
  | pipe l => exact accounted_pipe h hr
  | read => exact accounted_read h hr hs he
  | concurrent c => exact accounted_concurrent h hs he
  | start i => exact accounted_start h he
  | finish i result => exact accounted_finish h he
  | reschedule i => exact accounted_reschedule h hs he
  | ended i => exact accounted_ended h hs he
  | loop l => exact ⟨h.started, h.completed, h.jobs⟩

theorem accounted_reachable (h : (machine W T H).Reachable s) : Accounted s := by
  induction h with
  | initial h0 =>
    obtain rfl := h0
    refine ⟨fun e => ?_, fun e => ?_, fun i => ?_⟩
    · rfl
    · rfl
    · simp [State.init, Holds, Concurrent.State.init, Concurrent.State.control]
  | @step s t l h hst ih =>
    obtain ⟨he, rfl⟩ := hst
    exact accounted_next ih (reading_reachable h) h he

end Accounts

section Ends

theorem terminals_of_begun (h : (machine W T H).Reachable s)
    (hb : ControlLoop.Begun none s.loop) : s.concurrent.terminals ≠ [] := by
  induction h with
  | initial h0 =>
    obtain rfl := h0
    rcases hb with hf | hp
    · simp [State.init, ConditionVariable.initial] at hf
    · exact absurd rfl hp
  | @step s t l h hst ih =>
    obtain ⟨he, rfl⟩ := hst
    have stays : s.concurrent.terminals ≠ [] → (next H s l).concurrent.terminals ≠ [] := by
      intro ht hn
      rw [next_concurrent] at hn
      cases hc : s.calls l with
      | none => exact ht (by simpa [hc] using hn)
      | some c =>
        obtain ⟨rest, hrest⟩ := Concurrent.terminals_next (s := s.concurrent) (l := c)
        rw [hc, Option.elim_some, ← hrest] at hn
        exact ht (List.append_eq_nil_iff.mp hn).1
    by_cases hl : ∃ l', l = .loop l'
    · obtain ⟨l, rfl⟩ := hl
      rcases ControlLoop.begun_next (loop_reachable h) he.1 (task_of_finishes he.2) hb with
        hb | rfl
      · exact stays (ih hb)
      · exact he.2.2
    · have hloop : (next H s l).loop = s.loop := next_loop fun l' hx => hl ⟨l', hx⟩
      have hb' : ControlLoop.Begun none (next H s l).loop := hb
      rw [hloop] at hb'
      exact stays (ih hb')

/-- No value is in hand once upstream has ended. -/
theorem nothing_in_hand (h : (machine W T H).Reachable s)
    (ho : (∃ o, s.concurrent.ingress = .epilogue o) ∨ s.concurrent.ingress = .finished) :
    arg? s.concurrent.ingress = none ∧ s.taken = none ∧ s.pipe.data.isClosed = true ∧
      s.pipe.data.values = [] := by
  have hr := reading_reachable h
  refine ⟨?_, ?_, hr.drained (.inr ho)⟩
  · rcases ho with ⟨o, ho⟩ | ho <;> rw [ho] <;> rfl
  · by_contra ht
    have hg := hr.asked (.inr ht)
    rcases ho with ⟨o, ho⟩ | ho <;> simp [ho] at hg

omit [DecidableEq W] [DecidableEq E] in
/-- Nothing is listed of jobs that hold nothing. -/
theorem jobsOf_nil {get : Job T E → Option T}
    (hg : ∀ i, i < s.concurrent.fibers.length → get (s.jobs i) = none) :
    jobsOf s.jobs s.concurrent.fibers.length get = [] := by
  apply List.filterMap_eq_nil_iff.mpr
  intro i hi
  exact hg i (List.mem_range.mp hi)

theorem finished_correct (h : (machine W T H).Reachable s) (hf : s.loop.data.finished = true) :
    Pipe.Closed s.pipe.data.history ∧ (s.completed.map Prod.fst).Perm s.submitted := by
  classical
  have hreach := concurrent_reachable h
  have hi := Concurrent.inv_reachable hreach.of_restrict
  have hh := Concurrent.history_reachable hreach.of_restrict
  have hcalm := Concurrent.calm_reachable hreach
  have hacc := accounted_reachable h
  obtain ⟨q, -, hpipe⟩ := Pipe.pipe_correct (pipe_reachable h)
  obtain ⟨hterm, -⟩ := hh.terminals_eq (terminals_of_begun h (.inl hf))
  obtain ⟨hover, hall⟩ := hh.afterAll hterm
  have ho := (hh.upstreamOver.mp hover).resolve_left hcalm.bypassed
  obtain ⟨harg, htaken, hclosed, hvalues⟩ := nothing_in_hand h ho
  have idle : ∀ i, s.jobs i = .idle := by
    intro i
    refine holds_idle (fun c hc => .inr ?_) (hacc.jobs i)
    obtain ⟨f, hfi, rfl⟩ := Concurrent.control_eq_some.mp hc
    have hm := List.mem_of_getElem? hfi
    exact (hi.done_iff f hm).mp (Concurrent.fibersDone_iff.mp hall f hm)
  refine ⟨hpipe.closed.mp hclosed, List.perm_iff_count.mpr fun e => ?_⟩
  have hw : Pipe.returnedValues s.pipe.data.history = s.submitted := by
    have hv := hpipe.values
    change _ ++ s.pipe.data.values = _ at hv
    rw [hvalues, List.append_nil] at hv
    exact hv
  have hs := hacc.started e
  have hc := hacc.completed e
  rw [State.given, jobsOf_nil fun i _ => by rw [idle i]; rfl, harg, htaken, hw] at hs
  rw [State.running, jobsOf_nil fun i _ => by rw [idle i]; rfl] at hc
  simp at hs hc
  omega

end Ends

section Quiet

theorem quiet_pipe (h : (machine W T H).Reachable s) (hq : Quiescent H s) :
    s.pipe.queue = [] := by
  obtain ⟨q, hi⟩ := ConditionVariable.inv_reachable (pipe_reachable h)
  exact hi.wf.queue_nil (P := Pipe.program T)
    (fun w he => hq (.pipe (.resume w)) rfl ⟨he, trivial⟩)
    fun w he => hq (.pipe (.run w)) rfl ⟨he, trivial⟩

theorem quiet_loop (h : (machine W T H).Reachable s) (hq : Quiescent H s) :
    s.loop.queue = [] := by
  obtain ⟨q, hi, -⟩ := ControlLoop.finishing_reachable (loop_reachable h)
  exact hi.wf.queue_nil (P := ControlLoop.program)
    (fun w he => hq (.loop (.resume w)) rfl ⟨he, trivial⟩)
    fun w he => hq (.loop (.run w)) rfl ⟨he, trivial⟩

theorem quiet_concurrent (h : (machine W T H).Reachable s) (hq : Quiescent H s) :
    Concurrent.Stuck s.concurrent := by
  have hreach := concurrent_reachable h
  refine Concurrent.stuck_of_quiescent (Concurrent.inv_reachable hreach.of_restrict)
    (concurrent_unfailed h) ?_
  intro l hl he
  refine hq (.concurrent l) rfl ⟨he, ?_⟩
  cases l <;> first | exact hl | rfl

/-- The ingress waits for the reader, or has ended. -/
theorem quiet_ingress (h : (machine W T H).Reachable s) (hq : Quiescent H s) :
    s.concurrent.ingress = .awaitingNext ∨ s.concurrent.ingress = .finished := by
  have hreach := concurrent_reachable h
  have hi := Concurrent.inv_reachable hreach.of_restrict
  have hh := Concurrent.history_reachable hreach.of_restrict
  have hcalm := Concurrent.calm_reachable hreach
  have hf := concurrent_unfailed h
  have hstuck := quiet_concurrent h hq
  have hbegin : s.concurrent.egress ≠ .notBegun :=
    fun he => hq (.concurrent .begin) rfl ⟨⟨hf, he⟩, rfl⟩
  have hidle : s.concurrent.egress ≠ .idle := fun he => hq (.concurrent .next) rfl ⟨⟨hf, he⟩, rfl⟩
  rcases hstuck.ingress with ⟨hg, hsaved⟩ | hg | hg
  · cases he : s.concurrent.egress with
    | notBegun => exact absurd he hbegin
    | idle => exact absurd he hidle
    | acquiring => exact absurd he hstuck.egress
    | waiting =>
      have hs := hi.saved (.inr he)
      simp [hsaved] at hs
    | awaitingEnded =>
      have hup := (hh.natural hcalm.doneCalled (hi.awaiting he)).2.2.1
      simp [hi.upstreamDone_iff.mp hup] at hg
    | terminated =>
      have hover := hh.upstreamOver.mp (hh.afterAll he).1
      rcases hover with hb | ⟨o, ho⟩ | ho
      · exact absurd hb hcalm.bypassed
      · simp [ho] at hg
      · simp [ho] at hg
  · exact .inl (hg.resolve_right hcalm.taken)
  · exact .inr hg

/-- A fiber that is not done runs an eventual that has not ended. -/
theorem quiet_jobs (h : (machine W T H).Reachable s) (hq : Quiescent H s) (i : ℕ) :
    s.jobs i = .idle ∨ ∃ eventual, s.jobs i = .running eventual := by
  have hf := concurrent_unfailed h
  have hstuck := quiet_concurrent h hq
  classical
  have hold := (accounted_reachable h).jobs i
  have hrunning : ∀ {c}, c ≠ .finished →
      s.concurrent.control i = some c ∨ s.concurrent.control i = some .running →
        s.concurrent.control i = some .running := by
    intro c hn hc
    rcases hc with hc | hc
    · rw [hc, (hstuck.control i c hc).resolve_right hn]
    · exact hc
  cases hj : s.jobs i with
  | idle => exact .inl rfl
  | running eventual => exact .inr ⟨eventual, rfl⟩
  | given eventual =>
    rw [hj] at hold
    have hc := hrunning (by simp) hold
    have he : Enabled H s (.start i) := by
      simp only [Enabled, hj, State.Starts]
      exact hc
    exact absurd he (hq (.start i) rfl)
  | rescheduling result =>
    rw [hj] at hold
    have he : Enabled H s (.reschedule i) := by
      simp only [Enabled, hj, State.Reschedules, caught_eq]
      exact ⟨hf, hold⟩
    exact absurd he (hq (.reschedule i) rfl)
  | mapped =>
    rw [hj] at hold
    have hc := hrunning (by simp) hold
    have he : Enabled H s (.ended i) := by
      simp only [Enabled, hj, State.Ends]
      exact ⟨hf, hc⟩
    exact absurd he (hq (.ended i) rfl)

/-- The reader has nothing in hand, and the pipe is empty. -/
theorem quiet_reader (h : (machine W T H).Reachable s) (hq : Quiescent H s) :
    s.taken = none ∧ s.pipe.data.values = [] ∧
      (s.concurrent.ingress = .awaitingNext → s.pipe.data.isClosed = false) := by
  have hr := reading_reachable h
  have hf := concurrent_unfailed h
  rcases quiet_ingress h hq with hg | hg
  · have hqueue := quiet_pipe h hq
    obtain ⟨q, hi⟩ := ConditionVariable.inv_reachable (pipe_reachable h)
    cases hs : s.pipe.stage none with
    | outside =>
      have hidle := Pipe.outside_idle (pipe_reachable h) hs
      cases ht : s.taken with
      | none =>
        have he : Enabled H s (.pipe (.arrive none .read)) := by
          refine ⟨⟨hs, ?_⟩, rfl, hg, ht⟩
          rw [hidle]
          rfl
        exact absurd he (hq (.pipe (.arrive none .read)) rfl)
      | some r =>
        have he : Enabled H s .read := by
          simp only [Enabled, ht, State.Reads]
          refine ⟨hs, hf, ?_⟩
          cases r with
          | none => exact .inr (.inl hg)
          | some eventual => exact hg
        exact absurd he (hq .read rfl)
    | waiting k =>
      have hk : k = .hasValuesOrClosed ∧ s.pipe.pc none = .read := by
        rcases Pipe.waiting_pc (pipe_reachable h) hs with hk | ⟨-, hp⟩
        · exact hk
        · have hreads := hr.reader
          simp [hp, isReading] at hreads
      obtain ⟨rfl, hp⟩ := hk
      obtain ⟨ho, hv⟩ := Pipe.open_of_waiting (pipe_reachable h) hqueue hs
      exact ⟨hr.fresh (.inl hp), hv, fun _ => ho⟩
    | arriving | woken k | running =>
      have hm := (hi.wf.queue none).mpr (by
        change (s.pipe.stage none).queued = true
        rw [hs]
        rfl)
      change none ∈ s.pipe.queue at hm
      simp [hqueue] at hm
  · obtain ⟨-, ht, -, hv⟩ := nothing_in_hand h (.inr hg)
    exact ⟨ht, hv, fun hn => by simp [hg] at hn⟩

/-- Everything that was submitted has been started. -/
theorem quiet_started (h : (machine W T H).Reachable s) (hq : Quiescent H s) :
    s.started.Perm s.submitted := by
  classical
  obtain ⟨q, -, hpipe⟩ := Pipe.pipe_correct (pipe_reachable h)
  obtain ⟨htaken, hvalues, -⟩ := quiet_reader h hq
  have harg : arg? s.concurrent.ingress = none := by
    rcases quiet_ingress h hq with hg | hg <;> rw [hg] <;> rfl
  have hgiven : s.given = [] := jobsOf_nil fun i _ => by
    rcases quiet_jobs h hq i with hj | ⟨eventual, hj⟩ <;> rw [hj] <;> rfl
  have hw : Pipe.returnedValues s.pipe.data.history = s.submitted := by
    have hv := hpipe.values
    change _ ++ s.pipe.data.values = _ at hv
    rw [hvalues, List.append_nil] at hv
    exact hv
  refine List.perm_iff_count.mpr fun e => ?_
  have hs := (accounted_reachable h).started e
  rw [hgiven, harg, htaken, hw] at hs
  simpa using hs

/-- Once the pipe is closed, the reader has told the stream that it is over. -/
theorem quiet_finished (h : (machine W T H).Reachable s) (hq : Quiescent H s)
    (hclosed : Pipe.Closed s.pipe.data.history) : s.concurrent.ingress = .finished := by
  obtain ⟨q, -, hpipe⟩ := Pipe.pipe_correct (pipe_reachable h)
  rcases quiet_ingress h hq with hg | hg
  · have ho : s.pipe.data.isClosed = true := hpipe.closed.mpr hclosed
    simp [(quiet_reader h hq).2.2 hg] at ho
  · exact hg

/-- With nothing left to run, no fiber runs. -/
theorem quiet_fibers (h : (machine W T H).Reachable s) (hq : Quiescent H s)
    (hrunning : s.running = []) (i : ℕ) : s.concurrent.control i ≠ some .running := by
  classical
  intro hc
  rcases quiet_jobs h hq i with hj | ⟨eventual, hj⟩
  · have hold := (accounted_reachable h).jobs i
    rw [hj] at hold
    exact hold.2.1 hc
  · have hm : eventual ∈ s.running := by
      refine List.mem_filterMap.mpr ⟨i, List.mem_range.mpr (lt_of_control hc), ?_⟩
      rw [hj]
      rfl
    simp [hrunning] at hm

theorem quiet_terminated (h : (machine W T H).Reachable s) (hq : Quiescent H s)
    (hclosed : Pipe.Closed s.pipe.data.history) (hrunning : s.running = []) :
    s.concurrent.egress = .terminated := by
  have hi := Concurrent.inv_reachable (concurrent_reachable h).of_restrict
  have hstuck := quiet_concurrent h hq
  have hg := quiet_finished h hq hclosed
  have hup := hi.upstreamDone_iff.mpr hg
  have hdone := hi.cached hup (hstuck.allDone hi (quiet_fibers h hq hrunning))
  cases he : s.concurrent.egress with
  | notBegun => exact absurd (hi.begun he) (hi.waitForDone_of_ingress (by simp [hg]))
  | idle => exact absurd ⟨⟨concurrent_unfailed h, he⟩, rfl⟩ (hq (.concurrent .next) rfl)
  | acquiring => exact absurd he hstuck.egress
  | waiting => exact absurd ⟨hup, hdone⟩ (hi.egress_waiting he).2
  | awaitingEnded => exact absurd (hstuck.terminated hi (hi.awaiting he) hup hdone) (by simp [he])
  | terminated => rfl

/-- With nothing left to run, the stream has ended and the loop has been finished. -/
theorem quiet_ended (h : (machine W T H).Reachable s) (hq : Quiescent H s)
    (hclosed : Pipe.Closed s.pipe.data.history) (hrunning : s.running = []) :
    s.loop.data.finished = true := by
  have hh := Concurrent.history_reachable (concurrent_reachable h).of_restrict
  have hterminals : s.concurrent.terminals ≠ [] := by
    simp [hh.terminated (quiet_terminated h hq hclosed hrunning)]
  obtain ⟨q', hil, hfin⟩ := ControlLoop.finishing_reachable (loop_reachable h)
  cases hp : s.loop.pc none with
  | idle =>
    have he : Enabled H s (.loop (.arrive none .finish)) := by
      refine ⟨⟨hfin.outside hp, ?_⟩, rfl, hterminals⟩
      rw [hp]
      rfl
    exact absurd he (hq (.loop (.arrive none .finish)) rfl)
  | finish =>
    have hm := (hil.wf.queue none).mpr (hfin.queued hp)
    change none ∈ s.loop.queue at hm
    simp [quiet_loop h hq] at hm
  | wait => exact absurd hp hfin.never.1
  | waited => exact absurd hp hfin.never.2.1
  | finishNotify => exact hfin.finished (.inl hp)
  | finished => exact hfin.finished (.inr (.inl hp))
  | ended => exact hfin.finished (.inr (.inr hp))

end Quiet

/-- Every eventual whose submission precedes the shutdown runs once, and only then is the loop
finished. -/
theorem executor_correct (h : (machine W T H).Reachable s) : Correct H s := by
  classical
  have hreach := concurrent_reachable h
  have hh := Concurrent.history_reachable hreach.of_restrict
  have hi := Concurrent.inv_reachable hreach.of_restrict
  have hcalm := Concurrent.calm_reachable hreach
  have hacc := accounted_reachable h
  have hu := hreach.mono fun _ _ => Concurrent.Undisturbed.uninterrupted
  obtain ⟨q, -, hpipe⟩ := Pipe.pipe_correct (pipe_reachable h)
  refine ⟨?_, ?_, ⟨?_, ?_, Concurrent.untouched_reachable hreach⟩,
    ⟨hpipe.checks, concurrent_unfailed h⟩, finished_correct h, quiet_started h,
    quiet_ended h⟩
  · refine List.perm_iff_count.mpr fun e => ?_
    have hs := hacc.started e
    have hv : Pipe.returnedValues s.pipe.data.history ++ s.pipe.data.values = s.submitted :=
      hpipe.values
    rw [State.given] at hs
    simp only [← hv, State.pending, List.count_append]
    omega
  · refine List.perm_iff_count.mpr fun e => ?_
    rw [List.count_append]
    exact hacc.completed e
  · rw [hh.recorded hcalm.bypassed, hcalm.recorded]
    rfl
  · rw [← Bool.not_eq_true]
    intro hx
    have hr := hi.interrupted_iff.mp hx
    exact Concurrent.not_triggered hu (hi.triggered (by simp [hr])).1

/-- Two eventuals run side by side, the first raises an error, and the second succeeds after it. -/
def firstRaises : List (Label ℕ ℕ Errors.Class) :=
  let read : List (Label ℕ ℕ Errors.Class) :=
    [.pipe (.run none), .pipe (.run none), .pipe (.run none), .read]
  let take (e i : ℕ) : List (Label ℕ ℕ Errors.Class) := [.concurrent (.createOrReuseFiber e Concurrent.free),
    .concurrent (.startFiber e i), .concurrent (.fiberStart i), .start i]
  let leave (i : ℕ) : List (Label ℕ ℕ Errors.Class) := [.reschedule i, .concurrent (.push i ()), .ended i,
    .concurrent (.fiberEpilogue i none), .concurrent .egress, .concurrent .next,
    .concurrent .egress]
  .flatten [
    [.concurrent .begin, .concurrent .next, .concurrent .egress, .concurrent .ingressBegin,
      .pipe (.arrive none .read), .pipe (.arrive (some 1) (.write 7)),
      .pipe (.arrive (some 2) (.write 8)), .pipe (.resume none)],
    [.pipe (.run none), .pipe (.resume (some 1))], .replicate 3 (.pipe (.run (some 1))),
    [.pipe (.resume (some 2))], .replicate 3 (.pipe (.run (some 2))),
    [.pipe (.resume none)], read, take 7 0,
    [.pipe (.arrive none .read), .pipe (.resume none)], read, take 8 1,
    [.finish 0 (.raised .myError)], leave 0, [.finish 1 .succeeded], leave 1,
    [.pipe (.arrive (some 1) .close), .pipe (.resume (some 1))],
    .replicate 7 (.pipe (.run (some 1))),
    [.pipe (.arrive none .read), .pipe (.resume none)], read,
    [.concurrent (.ingressEpilogue none), .concurrent .egress, .concurrent .done,
      .concurrent .waitForDone, .concurrent .ended, .loop (.arrive none .finish),
      .loop (.resume none), .loop (.run none)]]

theorem firstRaises_correct : ∃ s : State ℕ ℕ Errors.Class,
    s.completed = [(7, .raised .myError), (8, .succeeded)] ∧ s.loop.data.finished = true ∧
      Correct Errors.classes s := by
  obtain ⟨s, hs, hp⟩ := Machine.exists_reachable_of_exec
    (M := machine ℕ ℕ Errors.classes) firstRaises
    (fun s => decide (s.completed = [(7, .raised .myError), (8, .succeeded)] ∧
      s.loop.data.finished = true)) rfl (by decide)
  obtain ⟨hc, hf⟩ := of_decide_eq_true hp
  exact ⟨s, hc, hf, executor_correct hs⟩

end Eventuals.Executor
