import Eventuals.Library.MonitorView
import Eventuals.ConditionVariable

/-! `Pipe`: writers, readers and waiters under one lock (`pipe.h`). Acquiring the lock and releasing
it are single steps here; `LockMonitor` has the same code at the steps of the lock itself. -/
namespace Eventuals.Pipe

open Function (update)
open Monitor (Instr Program View)
open Transition (Machine)

/-- The condition variables `has_values_or_closed_` and `closed_and_empty_`. -/
inductive Variable
  | hasValuesOrClosed
  | closedAndEmpty
  deriving DecidableEq

/-- The sections and where a thread stands in them. -/
inductive Control (T : Type*)
  | idle
  | write (value : T)
  | writeNotify
  | read
  | takeValue
  | ended
  | close
  | closeNotify
  | closeTest
  | notifyDrained
  | size
  | isClosed
  | waitForClosedAndEmpty
  | drained
  | done
  deriving DecidableEq

/-- What a section did or returned. -/
inductive Event (T : Type*)
  | wrote (value : T)
  | returned (value : T)
  | closed
  | sized (n : ℕ)
  | answered (closed : Bool)
  deriving DecidableEq

structure Data (T : Type*) where
  values : List T
  isClosed : Bool
  failed : Bool
  /-- Events in the order of the lock. -/
  history : List (Event T)

variable {T W : Type*}

def Data.empty : Data T where
  values := []
  isClosed := false
  failed := false
  history := []

def Data.log (d : Data T) (e : Event T) : Data T :=
  { d with history := d.history ++ [e] }

def code (c : Control T) (d : Data T) : Instr Variable (Control T) (Data T) :=
  match c with
  | .idle | .done | .ended | .drained => .release .idle
  -- `Write`
  | .write v =>
    if d.isClosed then .assign (d.log (.wrote v)) .done
    else .assign { d.log (.wrote v) with values := d.values ++ [v] } .writeNotify
  | .writeNotify => .notify .hasValuesOrClosed .done
  -- `Read`
  | .read => .wait .hasValuesOrClosed (some (d.values.isEmpty && !d.isClosed)) .takeValue
  | .takeValue =>
    match d.values with
    | v :: values =>
      .assign { d.log (.returned v) with values := values }
        (if d.isClosed && values.isEmpty then .notifyDrained else .done)
    | [] => .assign { d with failed := d.failed || !d.isClosed } .ended
  -- `Close`
  | .close => .assign { d.log .closed with isClosed := true } .closeNotify
  | .closeNotify => .notifyAll .hasValuesOrClosed .closeTest
  | .closeTest => .assign d (if d.values.isEmpty then .notifyDrained else .done)
  | .notifyDrained => .notifyAll .closedAndEmpty .done
  | .size => .assign (d.log (.sized d.values.length)) .done
  | .isClosed => .assign (d.log (.answered d.isClosed)) .done
  -- `WaitForClosedAndEmpty`
  | .waitForClosedAndEmpty =>
    .wait .closedAndEmpty (some (!d.values.isEmpty || !d.isClosed)) .drained

/-- The first step of each section. -/
def Control.isEntry : Control T → Bool
  | .write _ | .read | .close | .size | .isClosed | .waitForClosedAndEmpty => true
  | _ => false

/-- Any thread that is not inside the pipe may start any section. -/
def program (T : Type*) : Program Variable (Control T) (Data T) where
  code := code
  entry
    | .idle, c => c.isEntry
    | _, _ => false

abbrev PipeView (T : Type*) := View Variable (Control T) (Data T)

def returnedValues (history : List (Event T)) : List T :=
  history.filterMap fun
    | .returned v => some v
    | _ => none

/-- Values of the `Write` sections before the first `Close` section. -/
def writtenBeforeClose : List (Event T) → List T
  | [] => []
  | .closed :: _ => []
  | .wrote v :: history => v :: writtenBeforeClose history
  | _ :: history => writtenBeforeClose history

def Closed (history : List (Event T)) : Prop :=
  Event.closed ∈ history

/-- The running thread has stored a value and not yet notified a reader, or is a reader that has
yet to look for a value. -/
def Control.owed : Control T → ℕ
  | .writeNotify | .read | .takeValue => 1
  | _ => 0

/-- The running thread is on its way to notify those who wait for a closed and empty pipe. -/
def Control.draining : Control T → Bool
  | .closeNotify | .closeTest | .notifyDrained => true
  | _ => false

/-- What the users of a pipe rely on, between its sections and inside them. -/
structure Correct (s : Monitor.State W Variable (Control T) (Data T)) : Prop where
  values : returnedValues s.data.history ++ s.data.values = writtenBeforeClose s.data.history
  closed : s.data.isClosed = true ↔ Closed s.data.history
  ended : ∀ w, s.stage w = .running → s.pc w = .ended →
    s.data.isClosed = true ∧ s.data.values = []
  readers : ∀ w, s.stage w = .waiting .hasValuesOrClosed → s.data.isClosed = false →
    s.active = none → s.data.values.length ≤ (s.woken .hasValuesOrClosed).length
  readersInside : ∀ w, s.stage w = .waiting .hasValuesOrClosed → s.data.isClosed = false →
    s.data.values.length ≤
      (s.woken .hasValuesOrClosed).length + s.active.elim 0 Control.owed
  drained : ∀ w, s.stage w = .running → s.pc w = .drained →
    s.data.isClosed = true ∧ s.data.values = []
  waiters : ∀ w, s.stage w = .waiting .closedAndEmpty → s.data.isClosed = true →
    s.data.values = [] → s.active.any Control.draining = true
  checks : s.data.failed = false

/-- The fields agree with the history and with who waits. -/
structure Inv (v : PipeView T) : Prop where
  values : returnedValues v.data.history ++ v.data.values = writtenBeforeClose v.data.history
  closed : v.data.isClosed = true ↔ Closed v.data.history
  readers : v.data.isClosed = false → v.waiters .hasValuesOrClosed ≠ [] →
    v.data.values.length ≤
      (v.woken .hasValuesOrClosed).length + v.active.elim 0 Control.owed
  waiters : v.data.isClosed = true → v.data.values = [] →
    v.waiters .closedAndEmpty = [] ∨ v.active.any Control.draining = true
  found : v.active = some .takeValue → v.data.values = [] → v.data.isClosed = true
  finished : v.active = some .ended ∨ v.active = some .drained →
    v.data.isClosed = true ∧ v.data.values = []
  failed : v.data.failed = false

theorem returnedValues_append (h : List (Event T)) (e : Event T) :
    returnedValues (h ++ [e]) = returnedValues h ++ returnedValues [e] :=
  List.filterMap_append ..

theorem closed_append {h : List (Event T)} {e : Event T} :
    Closed (h ++ [e]) ↔ Closed h ∨ e = .closed := by
  simp [Closed, eq_comm]

/-- After the first `Close`, and for events that write nothing, the written values stay. -/
theorem written_append {h : List (Event T)} {e : Event T}
    (he : Closed h ∨ ∀ v, e ≠ .wrote v) :
    writtenBeforeClose (h ++ [e]) = writtenBeforeClose h := by
  induction h with
  | nil =>
    rcases he with he | he
    · simp [Closed] at he
    · cases e with
      | wrote v => exact (he v rfl).elim
      | returned v | closed | sized n | answered b => rfl
  | cons a h ih =>
    cases a with
    | closed => rfl
    | wrote v =>
      have ih := ih (he.imp_left fun hc => by simpa [Closed] using hc)
      simp [writtenBeforeClose, ih]
    | returned v | sized n | answered b =>
      have ih := ih (he.imp_left fun hc => by simpa [Closed] using hc)
      simp [writtenBeforeClose, ih]

theorem written_append_wrote {h : List (Event T)} {v : T} (hc : ¬ Closed h) :
    writtenBeforeClose (h ++ [.wrote v]) = writtenBeforeClose h ++ [v] := by
  induction h with
  | nil => rfl
  | cons a h ih =>
    have ih := ih (fun hh => hc (List.mem_cons_of_mem _ hh))
    cases a with
    | closed => exact (hc (by simp [Closed])).elim
    | wrote v => simp [writtenBeforeClose, ih]
    | returned v | sized n | answered b => simp [writtenBeforeClose, ih]

variable {v v' : PipeView T} {c : Control T}

theorem waits_values {d : Data T} {b : Option Bool} {c' : Control T}
    (h : code c d = .wait .hasValuesOrClosed b c') : c = .read := by
  cases c <;> simp only [code] at h
  case read => rfl
  all_goals repeat' split at h
  all_goals simp at h

theorem waits_closed {d : Data T} {b : Option Bool} {c' : Control T}
    (h : code c d = .wait .closedAndEmpty b c') : c = .waitForClosedAndEmpty := by
  cases c <;> simp only [code] at h
  case waitForClosedAndEmpty => rfl
  all_goals repeat' split at h
  all_goals simp at h

theorem inv_initial : Inv (⟨none, fun _ => [], fun _ => [], Data.empty⟩ : PipeView T) := by
  constructor <;> simp [Data.empty, Closed, returnedValues, writtenBeforeClose]

theorem inv_enter (h : Inv v) (ha : v.active = none) (hc : c.isEntry = true) :
    Inv { v with active := some c } := by
  refine ⟨h.values, h.closed, ?_, ?_, ?_, ?_, h.failed⟩
  · intro ho hw
    have := h.readers ho hw
    simp only [ha, Option.elim] at this
    exact Nat.le_add_right_of_le this
  · intro ho hw
    refine Or.inl ?_
    simpa [ha] using h.waiters ho hw
  · intro ht
    simp only [Option.some.injEq] at ht
    simp [ht, Control.isEntry] at hc
  · intro ht
    simp only [Option.some.injEq] at ht
    rcases ht with ht | ht <;> simp [ht, Control.isEntry] at hc

theorem inv_resume (h : Inv v) (ha : v.active = none) {k : Variable} {l : List (Control T)}
    (hk : v.woken k = c :: l) (hw : v.Waits (program T)) :
    Inv { v with active := some c, woken := update v.woken k l } := by
  obtain ⟨d, b, c', hc⟩ := hw k c (Or.inl (by simp [hk]))
  have hwaiters : v.data.isClosed = true → v.data.values = [] → v.waiters .closedAndEmpty = [] := by
    intro ho hv
    simpa [ha] using h.waiters ho hv
  cases k with
  | hasValuesOrClosed =>
    obtain rfl := waits_values hc
    refine ⟨h.values, h.closed, ?_, fun ho hv => Or.inl (hwaiters ho hv), by simp, by simp,
      h.failed⟩
    intro ho hw
    have := h.readers ho hw
    simpa [ha, hk, Control.owed] using this
  | closedAndEmpty =>
    obtain rfl := waits_closed hc
    refine ⟨h.values, h.closed, ?_, fun ho hv => Or.inl (hwaiters ho hv), by simp, by simp,
      h.failed⟩
    intro ho hw
    have := h.readers ho hw
    simpa [ha, Control.owed] using this

/-- A step of the running thread that leaves the fields and the readers alone. -/
theorem Inv.keep (h : Inv v) (hd : v'.data = v.data)
    (hreaders : v'.waiters .hasValuesOrClosed = v.waiters .hasValuesOrClosed ∧
      v'.woken .hasValuesOrClosed = v.woken .hasValuesOrClosed)
    (howed : v.active.elim 0 Control.owed ≤ v'.active.elim 0 Control.owed)
    (hwaiters : v.data.isClosed = true → v.data.values = [] →
      v'.waiters .closedAndEmpty = [] ∨ v'.active.any Control.draining = true)
    (hfound : v'.active = some .takeValue → v.data.values = [] → v.data.isClosed = true)
    (hfinished : v'.active = some .ended ∨ v'.active = some .drained →
      v.data.isClosed = true ∧ v.data.values = []) : Inv v' := by
  refine ⟨?_, ?_, ?_, ?_, ?_, ?_, ?_⟩
  · rw [hd]
    exact h.values
  · rw [hd]
    exact h.closed
  · rw [hd, hreaders.1, hreaders.2]
    intro ho hw
    have := h.readers ho hw
    omega
  · rw [hd]
    exact hwaiters
  · rw [hd]
    exact hfound
  · rw [hd]
    exact hfinished
  · rw [hd]
    exact h.failed

/-- A section that only adds an event that neither writes, returns nor closes. -/
theorem Inv.log (h : Inv v) {e : Event T} (hw : ∀ x, e ≠ .wrote x) (hr : ∀ x, e ≠ .returned x)
    (hc : e ≠ .closed) : Inv { v with data := v.data.log e } := by
  have hre : returnedValues [e] = [] := by
    cases e <;> simp_all [returnedValues]
  refine ⟨?_, ?_, h.readers, h.waiters, h.found, h.finished, h.failed⟩
  · simp only [Data.log, returnedValues_append, hre, List.append_nil,
      written_append (Or.inr hw)]
    exact h.values
  · simp only [Data.log, closed_append, hc, or_false]
    exact h.closed

/-- The value goes to the end and a reader is still to be notified. -/
theorem inv_write (h : Inv v) {x : T} (ha : v.active = some (.write x))
    (ho : v.data.isClosed = false) :
    Inv { v with
      active := some .writeNotify,
      data := { v.data.log (.wrote x) with values := v.data.values ++ [x] } } := by
  have hn : ¬ Closed v.data.history := by
    rw [← h.closed, ho]
    simp
  refine ⟨?_, ?_, ?_, ?_, by simp, by simp, h.failed⟩
  · simp only [Data.log, returnedValues_append, written_append_wrote hn, ← h.values]
    simp [returnedValues]
  · simpa [Data.log, closed_append] using h.closed
  · intro _ hw
    have := h.readers ho hw
    simp only [ha, Control.owed, Option.elim, Nat.add_zero] at this
    simpa [Data.log, Control.owed] using this
  · intro hc
    simp [Data.log, ho] at hc

theorem inv_write_closed (h : Inv v) {x : T} (ha : v.active = some (.write x))
    (ho : v.data.isClosed = true) :
    Inv { v with active := some .done, data := v.data.log (.wrote x) } := by
  refine ⟨?_, ?_, ?_, ?_, by simp, by simp, h.failed⟩
  · simp only [Data.log, returnedValues_append, written_append (Or.inl (h.closed.mp ho))]
    simpa [returnedValues] using h.values
  · simpa [Data.log, closed_append] using h.closed
  · intro hc
    simp [Data.log, ho] at hc
  · intro _ hv
    exact Or.inl (by simpa [ha, Control.draining] using h.waiters ho hv)

theorem inv_writeNotify (h : Inv v) (ha : v.active = some .writeNotify) :
    Inv { v.wake .hasValuesOrClosed with active := some .done } := by
  have hwaiters : v.data.isClosed = true → v.data.values = [] →
      v.waiters .closedAndEmpty = [] := by
    intro ho hv
    simpa [ha, Control.draining] using h.waiters ho hv
  unfold View.wake
  cases hk : v.waiters .hasValuesOrClosed with
  | nil =>
    refine ⟨h.values, h.closed, ?_, fun ho hv => Or.inl (hwaiters ho hv), by simp, by simp,
      h.failed⟩
    exact fun _ hw => (hw hk).elim
  | cons c l =>
    refine ⟨h.values, h.closed, ?_, fun ho hv => Or.inl (by simpa using hwaiters ho hv), by simp,
      by simp, h.failed⟩
    intro ho _
    have := h.readers ho (by simp [hk])
    simpa [ha, Control.owed] using this

/-- The reader takes the oldest value; the last value of a closed pipe starts a notification. -/
theorem inv_takeValue (h : Inv v) (ha : v.active = some .takeValue) {x : T} {values : List T}
    (hv : v.data.values = x :: values) :
    Inv { v with
      active := some (if v.data.isClosed && values.isEmpty then .notifyDrained else .done),
      data := { v.data.log (.returned x) with values := values } } := by
  refine ⟨?_, ?_, ?_, ?_, ?_, ?_, h.failed⟩
  · have hvalues := h.values
    rw [hv] at hvalues
    have hw : ∀ y, Event.returned x ≠ .wrote y := by simp
    simp only [Data.log, returnedValues_append, written_append (Or.inr hw), ← hvalues]
    simp [returnedValues]
  · simpa [Data.log, closed_append] using h.closed
  · intro ho hw
    have := h.readers ho hw
    simp only [ha, hv, Control.owed, Option.elim, List.length_cons] at this
    change values.length ≤ (v.woken .hasValuesOrClosed).length + Option.elim (some _) 0 _
    omega
  · intro ho hnil
    simp only [Data.log] at ho hnil
    exact Or.inr (by simp [ho, hnil, Control.draining])
  · intro ht
    split at ht <;> simp at ht
  · intro ht
    split at ht <;> simp at ht

theorem inv_ended (h : Inv v) (ha : v.active = some .takeValue) (hv : v.data.values = []) :
    Inv { v with
      active := some .ended,
      data := { v.data with failed := v.data.failed || !v.data.isClosed } } := by
  have ho := h.found ha hv
  refine ⟨h.values, h.closed, ?_, ?_, by simp, fun _ => ⟨ho, hv⟩, by simp [h.failed, ho]⟩
  · intro hc
    simp [ho] at hc
  · intro _ _
    exact Or.inl (by simpa [ha, Control.draining] using h.waiters ho hv)

theorem inv_close (h : Inv v) :
    Inv { v with
      active := some .closeNotify, data := { v.data.log .closed with isClosed := true } } := by
  refine ⟨?_, ?_, ?_, fun _ _ => Or.inr rfl, by simp, by simp, h.failed⟩
  · have hw : ∀ y : T, Event.closed ≠ .wrote y := by simp
    simp only [Data.log, returnedValues_append, written_append (Or.inr hw)]
    simpa [returnedValues] using h.values
  · simp [Data.log, closed_append]
  · intro hc
    simp at hc

/-- One turn of a loop that notifies the readers of a pipe that is being closed. -/
theorem inv_closeNotify (h : Inv v) (ha : v.active = some .closeNotify) {b : Bool} :
    Inv (v.run .closeNotify b (.notifyAll .hasValuesOrClosed .closeTest)) := by
  simp only [View.run]
  cases hk : v.waiters .hasValuesOrClosed with
  | nil =>
    refine ⟨h.values, h.closed, ?_, fun _ _ => Or.inr rfl, by simp, by simp, h.failed⟩
    exact fun _ hw => (hw hk).elim
  | cons c l =>
    simp only [View.wake, hk]
    refine ⟨h.values, h.closed, ?_, fun _ _ => Or.inr (by simp [ha, Control.draining]),
      h.found, h.finished, h.failed⟩
    intro ho _
    have := h.readers ho (by simp [hk])
    simp only [Function.update_self, List.length_append, List.length_singleton]
    omega

theorem inv_notifyDrained (h : Inv v) (ha : v.active = some .notifyDrained) {b : Bool} :
    Inv (v.run .notifyDrained b (.notifyAll .closedAndEmpty .done)) := by
  have hreaders := h.readers
  simp only [ha, Control.owed, Option.elim] at hreaders
  simp only [View.run]
  cases hk : v.waiters .closedAndEmpty with
  | nil =>
    exact ⟨h.values, h.closed, hreaders, fun _ _ => Or.inl hk, by simp, by simp, h.failed⟩
  | cons c l =>
    simp only [View.wake, hk]
    refine ⟨h.values, h.closed, ?_, fun _ _ => Or.inr (by simp [ha, Control.draining]),
      h.found, h.finished, h.failed⟩
    simpa [ha, Control.owed] using hreaders

/-- Every step of the running thread. -/
theorem inv_run (h : Inv v) (ha : v.active = some c) {b : Bool} :
    Inv (v.run c b (code c v.data)) := by
  have idle : ∀ {x : PipeView T}, c.draining = false → c.owed = 0 → x.data = v.data →
      x.waiters = v.waiters → x.woken = v.woken →
      x.active = none ∨ x.active = some .done → Inv x := by
    intro x hc ho hd hw hk hx
    refine h.keep hd (by rw [hw, hk]; exact ⟨rfl, rfl⟩) (by simp [ha, ho]) ?_ ?_ ?_
    · intro hclosed hv
      rw [hw]
      exact Or.inl (by simpa [ha, hc] using h.waiters hclosed hv)
    · rcases hx with hx | hx <;> simp [hx]
    · rcases hx with hx | hx <;> simp [hx]
  cases c with
  | idle | ended | drained | done => exact idle rfl rfl rfl rfl rfl (Or.inl rfl)
  | write x =>
    by_cases ho : v.data.isClosed = true
    · simpa [View.run, code, ho] using inv_write_closed h ha ho
    · simp only [Bool.not_eq_true] at ho
      simpa [View.run, code, ho] using inv_write h ha ho
  | writeNotify => exact inv_writeNotify h ha
  | read =>
    simp only [View.run, code, Option.getD_some]
    split
    · next hb =>
      simp only [Bool.and_eq_true, List.isEmpty_iff, Bool.not_eq_true'] at hb
      refine ⟨h.values, h.closed, ?_, ?_, by simp, by simp, h.failed⟩
      · intro _ _
        simp [hb.1]
      · intro ho
        simp [hb.2] at ho
    · next hb =>
      refine h.keep rfl ⟨rfl, rfl⟩ (by simp [ha, Control.owed]) ?_ ?_ (by simp)
      · intro ho hv
        exact Or.inl (by simpa [ha, Control.draining] using h.waiters ho hv)
      · intro _ hv
        simpa [hv] using hb
  | takeValue =>
    cases hv : v.data.values with
    | nil => simpa [View.run, code, hv] using inv_ended h ha hv
    | cons x values => simpa [View.run, code, hv] using inv_takeValue h ha hv
  | close => exact inv_close h
  | closeNotify => exact inv_closeNotify h ha
  | closeTest =>
    simp only [View.run, code]
    refine h.keep rfl ⟨rfl, rfl⟩ (by simp [ha, Control.owed]) ?_ ?_ ?_
    · intro _ hv
      exact Or.inr (by simp [hv, Control.draining])
    · split <;> simp
    · split <;> simp
  | notifyDrained => exact inv_notifyDrained h ha
  | size =>
    refine (idle (x := { v with active := some .done }) rfl rfl rfl rfl rfl (Or.inr rfl)).log
      ?_ ?_ ?_ <;> simp
  | isClosed =>
    refine (idle (x := { v with active := some .done }) rfl rfl rfl rfl rfl (Or.inr rfl)).log
      ?_ ?_ ?_ <;> simp
  | waitForClosedAndEmpty =>
    simp only [View.run, code, Option.getD_some]
    split
    · next hb =>
      refine ⟨h.values, h.closed, ?_, ?_, by simp, by simp, h.failed⟩
      · intro ho hw
        have := h.readers ho (by simpa using hw)
        simpa [ha, Control.owed] using this
      · intro ho hv
        simp only at ho hv
        simp [ho, hv] at hb
    · next hb =>
      simp only [Bool.or_eq_true, Bool.not_eq_true', List.isEmpty_eq_false_iff, not_or, not_not,
        ne_eq, Bool.not_eq_false] at hb
      refine h.keep rfl ⟨rfl, rfl⟩ (by simp [ha, Control.owed]) ?_ (by simp) ?_
      · intro ho hv
        exact Or.inl (by simpa [ha, Control.draining] using h.waiters ho hv)
      · exact fun _ => ⟨hb.2, hb.1⟩

theorem inv_reachable {guard : PipeView T → Prop}
    (h : (View.machine (program T) guard .empty).Reachable v) : Inv v := by
  induction h with
  | initial h0 =>
    rw [h0]
    exact inv_initial
  | @step v v' l hr hst ih =>
    obtain ⟨he, rfl⟩ := hst
    have hw := View.waits_reachable hr
    cases l with
    | enter c =>
      obtain ⟨ha, c₀, hc⟩ := he
      refine inv_enter ih ha ?_
      cases c₀ <;> first | exact hc | simp [program] at hc
    | resume k =>
      obtain ⟨ha, hne⟩ := he
      cases hk : v.woken k with
      | nil => exact (hne hk).elim
      | cons c l =>
        simp only [View.machine, hk]
        exact inv_resume ih ha hk hw
    | run b =>
      cases ha : v.active with
      | none => exact (he.1 ha).elim
      | some c =>
        simp only [View.machine, ha]
        exact inv_run ih ha

/-- Once the pipe is closed no reader waits, except until `Close` has notified them. -/
def Released (v : PipeView T) : Prop :=
  v.data.isClosed = true → v.waiters .hasValuesOrClosed = [] ∨ v.active = some .closeNotify

theorem waiters_wake (h : v.waiters .hasValuesOrClosed = []) (k : Variable) :
    (v.wake k).waiters .hasValuesOrClosed = [] := by
  unfold View.wake
  cases hk : v.waiters k with
  | nil => exact h
  | cons c l =>
    by_cases hj : k = .hasValuesOrClosed
    · subst hj
      simp [h] at hk
    · simpa [Ne.symm hj] using h

/-- Where nobody waits, only a reader of an open pipe starts to wait. -/
theorem released_run_nil (ho : v.data.isClosed = true) (h : v.waiters .hasValuesOrClosed = [])
    (b : Bool) : (v.run c b (code c v.data)).waiters .hasValuesOrClosed = [] := by
  cases c with
  | idle | done | ended | drained | size | isClosed | closeTest | close => exact h
  | write x =>
    simp only [code, ho, if_true]
    exact h
  | read => simpa [View.run, code, ho] using h
  | takeValue => cases hv : v.data.values <;> simpa [View.run, code, hv] using h
  | writeNotify => exact waiters_wake h _
  | closeNotify =>
    simp only [code, View.run, h]
  | notifyDrained =>
    simp only [code, View.run]
    split
    · exact h
    · exact waiters_wake h _
  | waitForClosedAndEmpty =>
    simp only [code, View.run]
    split
    · simpa using h
    · exact h

/-- Only `Close` closes the pipe. -/
theorem store_isClosed (hc : c ≠ .close) : ((code c d).store d).isClosed = d.isClosed := by
  cases c <;> simp only [code]
  case close => exact absurd rfl hc
  all_goals repeat' split
  all_goals rfl

/-- Nothing is added to a closed pipe. -/
theorem store_drained (ho : d.isClosed = true) (hv : d.values = []) :
    ((code c d).store d).isClosed = true ∧ ((code c d).store d).values = [] := by
  cases c <;> simp only [code, ho, hv]
  all_goals first | exact ⟨ho, hv⟩ | exact ⟨rfl, hv⟩ | exact ⟨rfl, rfl⟩

/-- Only a reader takes values. -/
theorem store_returned (hc : c ≠ .takeValue) :
    returnedValues ((code c d).store d).history = returnedValues d.history := by
  have hlog : ∀ e : Event T, (∀ x, e ≠ .returned x) →
      returnedValues (d.history ++ [e]) = returnedValues d.history := by
    intro e he
    have hnil : returnedValues [e] = [] := by
      cases e <;> simp_all [returnedValues]
    rw [returnedValues_append, hnil, List.append_nil]
  cases c <;> simp only [code]
  case takeValue => exact absurd rfl hc
  case write x => split <;> exact hlog _ (by simp)
  case close => exact hlog _ (by simp)
  case size => exact hlog _ (by simp)
  case isClosed => exact hlog _ (by simp)
  all_goals rfl

theorem released_run (h : Released v) (ha : v.active = some c) (b : Bool) :
    Released (v.run c b (code c v.data)) := by
  intro ho
  by_cases hc : c = .close
  · subst hc
    exact Or.inr rfl
  by_cases hn : c = .closeNotify
  · subst hn
    simp only [code, View.run] at ho ⊢
    split
    · next hk => exact Or.inl hk
    · exact Or.inr ((View.wake_fields v _).2.trans ha)
  · have ho' : v.data.isClosed = true := by
      rw [View.run_data, store_isClosed hc] at ho
      exact ho
    exact Or.inl (released_run_nil ho' ((h ho').resolve_right (by simp [ha, hn])) b)

theorem released_reachable {guard : PipeView T → Prop}
    (h : (View.machine (program T) guard .empty).Reachable v) : Released v := by
  refine h.invariant (P := Released) ?_ ?_
  · rintro v rfl hc
    exact Or.inl rfl
  · intro v l hv he
    cases l with
    | enter c =>
      intro hc
      exact Or.inl ((hv hc).resolve_right (by simp [he.1]))
    | resume k =>
      have hnone : v.active = none := he.1
      intro hc
      simp only [View.machine] at hc ⊢
      cases hk : v.woken k with
      | nil => exact hv (by simpa [hk] using hc)
      | cons c l => exact Or.inl ((hv (by simpa [hk] using hc)).resolve_right (by simp [hnone]))
    | run b =>
      cases ha : v.active with
      | none => exact (he.1 ha).elim
      | some c =>
        simp only [View.machine, ha]
        exact released_run hv ha b

variable [DecidableEq W]

omit [DecidableEq W] in
theorem correct_of_inv {s : Monitor.State W Variable (Control T) (Data T)}
    (hwf : Monitor.WellFormed s) (h : Inv s.view) : Correct s := by
  have active : ∀ w, s.stage w = .running → s.view.active = some (s.pc w) :=
    fun w hw => Monitor.active_eq_some hwf hw
  have waiting : ∀ w k, s.stage w = .waiting k → s.view.waiters k ≠ [] := by
    intro w k hw hnil
    have hm := (hwf.waiters k w).mpr hw
    simp only [Monitor.State.view, List.map_eq_nil_iff] at hnil
    simp [hnil] at hm
  have hlen : (s.view.woken .hasValuesOrClosed).length =
      (s.woken .hasValuesOrClosed).length := by
    simp [Monitor.State.view]
  constructor
  · exact h.values
  · exact h.closed
  · intro w hw hp
    exact h.finished (Or.inl (by rw [active w hw, hp]))
  · intro w hw ho ha
    have := h.readers ho (waiting w _ hw)
    rw [hlen, show s.view.active = none from ha] at this
    exact this
  · intro w hw ho
    have := h.readers ho (waiting w _ hw)
    rwa [hlen] at this
  · intro w hw hp
    exact h.finished (Or.inr (by rw [active w hw, hp]))
  · intro w hw ho hv
    rcases h.waiters ho hv with hnil | hd
    · exact (waiting w _ hw hnil).elim
    · exact hd
  · exact h.failed

/-- The pipe over the intrusive lists of its two condition variables. -/
theorem pipe_correct
    {s : ConditionVariable.State W Variable (Control T) (Data T)}
    (h : (ConditionVariable.machine (program T) .idle .empty).Reachable s) :
    ∃ q, (∀ k, s.Waiters k (q k)) ∧ Correct (s.abstract q) := by
  obtain ⟨t, ht, q, hq, rfl⟩ := ConditionVariable.refines_monitor.reachable h
  obtain ⟨hwf, hv⟩ := Monitor.view_reachable_of_reachable ht
  exact ⟨q, hq.chain, correct_of_inv hwf (inv_reachable hv)⟩

theorem outside_idle {s : ConditionVariable.State W Variable (Control T) (Data T)}
    (h : (ConditionVariable.machine (program T) .idle .empty).Reachable s) {w : W}
    (hw : s.stage w = .outside) : s.pc w = .idle := by
  refine ConditionVariable.outside_home ?_ h hw
  intro c d c' hc
  cases c <;> simp only [program, code] at hc
  all_goals repeat' split at hc
  all_goals simp_all

theorem waiting_pc {s : ConditionVariable.State W Variable (Control T) (Data T)}
    (h : (ConditionVariable.machine (program T) .idle .empty).Reachable s) {w : W} {k : Variable}
    (hw : s.stage w = .waiting k) :
    k = .hasValuesOrClosed ∧ s.pc w = .read ∨
      k = .closedAndEmpty ∧ s.pc w = .waitForClosedAndEmpty := by
  obtain ⟨t, ht, q, hi, rfl⟩ := ConditionVariable.refines_monitor.reachable h
  have hwaits := View.waits_reachable (Monitor.view_reachable_of_reachable ht).2
  have hm : s.pc w ∈ (s.abstract q).view.waiters k := List.mem_map_of_mem (hi.mem_iff.mpr hw)
  obtain ⟨d, b, c, hc⟩ := hwaits k _ (Or.inr hm)
  cases k with
  | hasValuesOrClosed => exact Or.inl ⟨rfl, waits_values hc⟩
  | closedAndEmpty => exact Or.inr ⟨rfl, waits_closed hc⟩

/-- A reader that waits while nobody is on the way to the lock waits for an open and empty pipe. -/
theorem open_of_waiting {s : ConditionVariable.State W Variable (Control T) (Data T)}
    (h : (ConditionVariable.machine (program T) .idle .empty).Reachable s) (hq : s.queue = [])
    {w : W} (hw : s.stage w = .waiting .hasValuesOrClosed) :
    s.data.isClosed = false ∧ s.data.values = [] := by
  obtain ⟨t, ht, q, hi, rfl⟩ := ConditionVariable.refines_monitor.reachable h
  obtain ⟨hwf, hv⟩ := Monitor.view_reachable_of_reachable ht
  have hnone : (s.abstract q).active = none := by
    simp [Monitor.State.active, ConditionVariable.State.abstract, hq]
  have ho : s.data.isClosed = false := by
    rw [← Bool.not_eq_true]
    intro hc
    rcases released_reachable hv hc with hnil | ha
    · have hm : w ∈ q .hasValuesOrClosed := hi.mem_iff.mpr hw
      have hnil' : (q .hasValuesOrClosed).map s.pc = [] := hnil
      simp [List.map_eq_nil_iff.mp hnil'] at hm
    · have hactive : (s.abstract q).active = some .closeNotify := ha
      simp [hnone] at hactive
  refine ⟨ho, ?_⟩
  have hlen := (correct_of_inv hwf (inv_reachable hv)).readers w hw ho hnone
  simpa [Monitor.State.woken, ConditionVariable.State.abstract, hq] using hlen

/-- A reader waits, is notified of a value, and finds the pipe closed after that. -/
def readToTheEnd : List (Monitor.Label ℕ (Control ℕ)) :=
  .flatten [
    [.arrive 0 .read, .resume 0, .run 0, .arrive 1 (.write 7), .resume 1],
    .replicate 3 (.run 1), [.resume 0, .arrive 1 .close], .replicate 3 (.run 0), [.resume 1],
    .replicate 7 (.run 1), [.arrive 0 .read, .resume 0], .replicate 2 (.run 0)]

theorem readToTheEnd_correct : ∃ s : ConditionVariable.State ℕ Variable (Control ℕ) (Data ℕ),
    s.data.history = [.wrote 7, .returned 7, .closed] ∧ s.pc 0 = .ended ∧
      ∃ q, (∀ k, s.Waiters k (q k)) ∧ Correct (s.abstract q) := by
  obtain ⟨s, hs, hp⟩ := Machine.exists_reachable_of_exec
    (M := ConditionVariable.machine (program ℕ) .idle .empty) readToTheEnd
    (fun s => decide (s.data.history = [.wrote 7, .returned 7, .closed] ∧ s.pc 0 = .ended)) rfl
    (by decide)
  obtain ⟨hh, hc⟩ := of_decide_eq_true hp
  exact ⟨s, hh, hc, pipe_correct hs⟩

end Eventuals.Pipe
