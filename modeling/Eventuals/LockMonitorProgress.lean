import Eventuals.LockMonitorRefinement
import Eventuals.Pipe

/-! Sections on the lock itself do not get stuck: where only a thread from outside could go on,
everyone else waits to be notified. -/
namespace Eventuals.LockMonitor

open Function (update)
open Monitor (Program Stage)
open Transition (Machine)

variable {W K C D X : Type*} [DecidableEq W] [DecidableEq K] [DecidableEq X] {P : Program K C D}
  {context : W → X} {s t : State W K C D X} {q : List (Waiter W)}
  {a : ConditionVariable.State W K C D} {u : Waiter W} {w : W}

def Label.isArrive : Label W C → Prop
  | .arrive .. => True
  | .lock .. | .clear _ | .run _ | .call | .returned => False

def comes : Monitor.Label W C → Prop
  | .arrive .. => True
  | .resume _ | .run _ => False

/-- Only a thread that comes to the lock could take a step. -/
def Resting (P : Program K C D) (s : State W K C D X) : Prop :=
  ∀ l, Enabled P s l → l.isArrive

section Resting

omit [DecidableEq K] [DecidableEq X]

omit [DecidableEq W]

theorem Resting.not_enabled (hrest : Resting P s) {l : Label W C} (hl : ¬ l.isArrive) :
    ¬ Enabled P s l :=
  fun he => hl (hrest l he)

variable (h : Inv P context s q) (hrest : Resting P s)
include h hrest

/-- A notification that is under way can always go on. -/
theorem Inv.notifying_none : s.notifying = .none := by
  cases hn : s.notifying with
  | none => rfl
  | calling x k =>
    refine absurd ?_ (hrest.not_enabled (l := .call) id)
    exact ⟨h.failed, h.lock.failed, by simp [hn, Notifying.isCalling]⟩
  | acquiring x k =>
    rcases (h.acquiring x k hn).2 with ⟨-, he⟩ | ⟨-, hq⟩
    · have hcoming := Lock.coming_of_enqueuing he
      refine absurd ?_ (hrest.not_enabled (l := .lock (.wait x) false) id)
      refine ⟨h.failed, h.lock.failed, ?_, ?_, ?_, ?_⟩
      · rintro hi
        simp [hi, Lock.PC.place] at hcoming
      · rintro hi
        simp [hi, Lock.PC.place] at hcoming
      · rintro hi
        simp [hi, Lock.PC.place] at hcoming
      · rintro ⟨-, hi⟩
        simp [hi, Lock.PC.place] at hcoming
    · refine absurd ?_ (hrest.not_enabled (l := .returned) id)
      refine ⟨h.failed, h.lock.failed, ?_⟩
      rw [hn]
      exact .inl hq

theorem Inv.not_runs : ¬ s.Runs w := by
  intro hw
  exact hrest.not_enabled (l := .run w) id
    ⟨h.failed, h.lock.failed, h.notifying_none hrest, hw⟩

/-- Code of the lock that is not waiting for anybody can always go on. -/
theorem Inv.idle_or_queued (u : Waiter W) : s.lock.pc u = .idle ∨ s.lock.pc u = .queued := by
  by_contra hu
  rw [not_or] at hu
  refine hrest.not_enabled (l := .lock u false) id
    ⟨h.failed, h.lock.failed, hu.1, hu.2, ?_, ?_⟩
  · intro hc
    exact h.not_runs hrest (runs_of_critical hc)
  · rw [h.notifying_none hrest]
    exact And.left

/-- A waiter that stands in the list behind `head_` has somebody before it who goes on. -/
theorem Inv.queue_nil : q = [] := by
  cases hq : q with
  | nil => rfl
  | cons v l =>
    subst hq
    have hpc := h.idle_or_queued hrest
    have hv : s.lock.pc v = .queued := by
      rcases h.lock.member v (by simp) with hh | hh
      · rcases hpc v with hi | hi <;> simp [hi, Lock.PC.holder] at hh
      · exact hh
    obtain ⟨z, hz⟩ := h.lock.front v rfl hv
    rcases hpc z with hi | hi <;> simp [hi, Lock.PC.handing] at hz

theorem Inv.idle (u : Waiter W) : s.lock.Free u := by
  constructor
  · rcases h.idle_or_queued hrest u with hi | hq
    · exact hi
    · have hm := h.lock.queued u hq
      rw [h.queue_nil hrest] at hm
      cases hm
  · by_contra hc
    exact hrest.not_enabled (l := .clear u) id
      ⟨h.failed, h.lock.failed, by simpa using hc⟩

theorem Inv.head_eq_none : s.lock.head = none := by
  have hchain := h.lock.chain
  rw [h.queue_nil hrest] at hchain
  simpa using hchain

/-- Who has come and has not left waits to be notified. -/
theorem Inv.outside_or_waiting (w : W) :
    s.lists.stage w = .outside ∨ ∃ k, s.lists.stage w = .waiting k := by
  have hstands := h.stands w
  have hidle := fun u => (h.idle hrest u).1
  unfold Stands at hstands
  cases hs : s.lists.stage w with
  | outside => exact .inl rfl
  | waiting k => exact .inr ⟨k, rfl⟩
  | arriving => simp [hs, hidle, Lock.PC.place] at hstands
  | woken k => simp [hs, hidle, Lock.PC.place] at hstands
  | running => simp [hs, hidle] at hstands

end Resting

omit [DecidableEq W] [DecidableEq K] [DecidableEq X] in
theorem enabled_resting {m : Monitor.State W K C D}
    (hm : ∀ w, m.stage w = .outside ∨ ∃ k, m.stage w = .waiting k) {l : Monitor.Label W C}
    (he : Monitor.Enabled P m l) : comes l := by
  cases l with
  | arrive w c => trivial
  | resume w =>
    obtain ⟨-, hr⟩ := he
    rcases hm w with hs | ⟨k, hs⟩ <;> simp [hs, Stage.resumable] at hr
  | run w =>
    have hr : m.stage w = .running := he
    rcases hm w with hs | ⟨k, hs⟩ <;> simp [hs] at hr

/-- What a settled run leads to. -/
theorem related_run {c : C} {d : D} {xs : List (State W K C D X × Label W C)}
    (h : (machine P context c d).Initial s) (hr : (machine P context c d).Run s xs t)
    (hs : ∀ p ∈ xs, Settled p.1 p.2) :
    ∃ a, (ConditionVariable.machine P c d).Reachable a ∧ (∃ q, Inv P context t q) ∧
      (∃ r, ConditionVariable.Inv P a r) ∧ Matches P t a :=
  refines_lists.reachable (Machine.Reachable.run (.initial h) (hr.restrict hs))

theorem agrees_run {c : C} {d : D} {xs : List (State W K C D X × Label W C)}
    (h : (machine P context c d).Initial s) (hr : (machine P context c d).Run s xs t)
    (hs : ∀ p ∈ xs, Settled p.1 p.2) : Correct P c d t := by
  obtain ⟨a, hreach, ⟨q, hi⟩, ⟨r, ha⟩, hm⟩ := related_run h hr hs
  exact hm.correct hi ha hreach

/-- Where all has come to rest nobody is about to notify, and nobody stands in line. -/
theorem lists_of_rest {c : C} {d : D} {xs : List (State W K C D X × Label W C)}
    (h : (machine P context c d).Initial s) (hr : (machine P context c d).Run s xs t)
    (hs : ∀ p ∈ xs, Settled p.1 p.2) (hrest : Resting P t) :
    (ConditionVariable.machine P c d).Reachable t.lists ∧ t.lists.queue = [] ∧
      ∀ w, t.lists.stage w = .outside ∨ ∃ k, t.lists.stage w = .waiting k := by
  obtain ⟨a, hreach, ⟨q, hi⟩, -, hm⟩ := related_run h hr hs
  have hlists : t.lists = a := hm.eq_of_none (hi.notifying_none hrest)
  subst hlists
  refine ⟨hreach, ?_, hi.outside_or_waiting hrest⟩
  rw [hi.queue, hi.queue_nil hrest]
  rfl

/-- The sections of every program on the lock itself end or wait to be notified: where a settled run
has come to rest, the lock is available, every waiter can be handed to it again, and a monitor in
the same state is at rest too. -/
theorem comes_to_rest {c : C} {d : D} {xs : List (State W K C D X × Label W C)}
    (h : (machine P context c d).Initial s) (hr : (machine P context c d).Run s xs t)
    (hs : ∀ p ∈ xs, Settled p.1 p.2) (hrest : Resting P t) :
    t.lock.head = none ∧ (∀ u, t.lock.Free u) ∧
    ∃ m, (Monitor.machine P c d).Reachable m ∧ Agrees t m ∧ m.stage = t.lists.stage ∧
      (∀ w, m.stage w = .outside ∨ ∃ k, m.stage w = .waiting k) ∧
      ∀ l, Monitor.Enabled P m l → comes l := by
  obtain ⟨-, -, ⟨q, hi⟩, -, -⟩ := related_run h hr hs
  obtain ⟨hreach, -, hstage⟩ := lists_of_rest h hr hs hrest
  obtain ⟨m, hmreach, r, hr, rfl⟩ := ConditionVariable.refines_monitor.reachable hreach
  refine ⟨hi.head_eq_none hrest, fun u => hi.idle hrest u, _, hmreach, ?_, rfl, hstage,
    fun l he => enabled_resting hstage he⟩
  exact ⟨rfl, rfl, rfl, hr.chain, fun w => hi.runs_iff_running⟩

end Eventuals.LockMonitor

namespace Eventuals.Pipe

open LockMonitor (Settled Resting)
open Transition (Machine)

variable {W X T : Type*} [DecidableEq W] [DecidableEq X] {context : W → X}
  {s t : LockMonitor.State W Variable (Control T) (Data T) X}

omit [DecidableEq X] in
/-- Nobody waits for the end while nobody is on the way to the lock, once it has come. -/
theorem not_ended_of_waiting {s : ConditionVariable.State W Variable (Control T) (Data T)}
    (h : (ConditionVariable.machine (program T) .idle .empty).Reachable s) (hq : s.queue = [])
    {w : W} (hw : s.stage w = .waiting .closedAndEmpty) :
    ¬ (s.data.isClosed = true ∧ s.data.values = []) := by
  obtain ⟨t, ht, q, hi, rfl⟩ := ConditionVariable.refines_monitor.reachable h
  obtain ⟨hwf, hv⟩ := Monitor.view_reachable_of_reachable ht
  rintro ⟨hc, hvalues⟩
  have hactive := (correct_of_inv hwf (inv_reachable hv)).waiters w hw hc hvalues
  simp [Monitor.State.active, ConditionVariable.State.abstract, hq] at hactive

/-- The pipe on the lock itself, while no waiter is handed to the lock before its own `Release` has
cleared it: readers get the values in the order in which they were written before the pipe was
closed, what waits for the end goes on only at the end, and where all has come to rest whoever
still waits does so for a reason. -/
theorem delivers_on_lock
    {xs : List (LockMonitor.State W Variable (Control T) (Data T) X ×
      LockMonitor.Label W (Control T))}
    (h : (LockMonitor.machine (program T) context .idle .empty).Initial s)
    (hr : (LockMonitor.machine (program T) context .idle .empty).Run s xs t)
    (hs : ∀ p ∈ xs, Settled p.1 p.2) :
    t.failed = none ∧ t.lock.failed = none ∧ t.lists.data.failed = false ∧
    returnedValues t.lists.data.history ++ t.lists.data.values =
      writtenBeforeClose t.lists.data.history ∧
    (∀ w, t.Runs w → t.lists.pc w = .ended ∨ t.lists.pc w = .drained →
      t.lists.data.isClosed = true ∧ t.lists.data.values = []) ∧
    (Resting (program T) t → ∀ w, t.lists.stage w = .outside ∨
      t.lists.stage w = .waiting .hasValuesOrClosed ∧ t.lists.data.isClosed = false ∧
        t.lists.data.values = [] ∨
      t.lists.stage w = .waiting .closedAndEmpty ∧
        ¬ (t.lists.data.isClosed = true ∧ t.lists.data.values = [])) := by
  have hcorrect := LockMonitor.agrees_run h hr hs
  obtain ⟨m, hm, hagrees⟩ := hcorrect.monitor
  obtain ⟨hwf, hv⟩ := Monitor.view_reachable_of_reachable hm
  have hpipe := correct_of_inv hwf (inv_reachable hv)
  rw [hagrees.data]
  refine ⟨hcorrect.failed, hcorrect.lock, hpipe.checks, hpipe.values, ?_, ?_⟩
  · intro w hw hc
    rw [hagrees.running] at hw
    rw [hagrees.pc] at hc
    rcases hc with hc | hc
    · exact hpipe.ended w hw hc
    · exact hpipe.drained w hw hc
  · intro hrest w
    obtain ⟨hreach, hqueue, hstage⟩ := LockMonitor.lists_of_rest h hr hs hrest
    rw [← hagrees.data]
    rcases hstage w with hw | ⟨k, hw⟩
    · exact .inl hw
    · cases k with
      | hasValuesOrClosed => exact .inr (.inl ⟨hw, open_of_waiting hreach hqueue hw⟩)
      | closedAndEmpty => exact .inr (.inr ⟨hw, not_ended_of_waiting hreach hqueue hw⟩)

/-- A reader waits until it is notified of a value, is handed the lock and takes the value; then it
comes for the next value, for which it waits. -/
def readTwice : List (LockMonitor.Label (Fin 2) (Control ℕ)) :=
  .flatten [
    [.arrive 0 .read], .replicate 5 (.lock (.acquire 0) false), [.run 0],
    .replicate 4 (.lock (.acquire 0) false), [.arrive 1 (.write 7)],
    .replicate 5 (.lock (.acquire 1) false), [.run 1, .run 1, .call],
    .replicate 2 (.lock (.wait 0) false), [.returned, .run 1],
    .replicate 9 (.lock (.acquire 1) false),
    [.lock (.wait 0) false, .run 0, .run 0, .run 0],
    .replicate 5 (.lock (.wait 0) false),
    [.clear (.wait 0), .clear (.acquire 0), .arrive 0 .read],
    .replicate 5 (.lock (.acquire 0) false), [.run 0],
    .replicate 4 (.lock (.acquire 0) false), [.clear (.acquire 0)]]

def waiters : List (LockMonitor.Waiter (Fin 2)) :=
  (List.finRange 2).flatMap fun w => [.acquire w, .wait w]

/-- All that two threads could do but come to the lock. -/
def others : List (LockMonitor.Label (Fin 2) (Control ℕ)) :=
  .flatten [
    waiters.flatMap fun u => [.lock u false, .lock u true, .clear u],
    (List.finRange 2).map .run, [.call, .returned]]

theorem mem_waiters (u : LockMonitor.Waiter (Fin 2)) : u ∈ waiters := by
  rcases u with w | w <;> simp [waiters]

theorem mem_others {l : LockMonitor.Label (Fin 2) (Control ℕ)} (hl : ¬ l.isArrive) :
    l ∈ others := by
  cases l with
  | arrive w c => exact absurd trivial hl
  | lock u b => cases b <;> simp [others, mem_waiters u]
  | clear u => simp [others, mem_waiters u]
  | run w => simp [others]
  | call => simp [others]
  | returned => simp [others]

/-- The run is settled, and it ends where the reader waits and nobody else is on the way. -/
theorem readTwice_run : ∃ xs t, (LockMonitor.machine (program ℕ) id .idle .empty).Run
      (LockMonitor.initial LockMonitor.Waiter.thread .idle .empty) xs t ∧
    xs.map Prod.snd = readTwice ∧ (∀ p ∈ xs, Settled p.1 p.2) ∧ Resting (program ℕ) t ∧
    t.lists.data.history = [.wrote 7, .returned 7] ∧
    t.lists.stage 0 = .waiting .hasValuesOrClosed := by
  have hexec : (((LockMonitor.machine (program ℕ) id .idle .empty).restrict Settled).exec
      (LockMonitor.initial LockMonitor.Waiter.thread .idle .empty) readTwice).any (fun t =>
        decide ((t.lists.data.history = [.wrote 7, .returned 7] ∧
          t.lists.stage 0 = .waiting .hasValuesOrClosed) ∧
          ∀ l ∈ others, ¬ LockMonitor.Enabled (program ℕ) t l)) = true := by decide
  obtain ⟨t, ht, hp⟩ := (Option.any_eq_true _ _).mp hexec
  obtain ⟨⟨hhistory, hstage⟩, hothers⟩ := of_decide_eq_true hp
  obtain ⟨xs, hr, hx⟩ := Machine.exec_run ht
  obtain ⟨hr, hs⟩ := hr.of_restrict
  refine ⟨xs, t, hr, hx, hs, ?_, hhistory, hstage⟩
  intro l he
  by_contra hl
  exact hothers l (mem_others hl) he

theorem readTwice_delivers :
    ∃ t : LockMonitor.State (Fin 2) Variable (Control ℕ) (Data ℕ) (Fin 2),
      t.lists.data.history = [.wrote 7, .returned 7] ∧ t.failed = none ∧
      returnedValues t.lists.data.history ++ t.lists.data.values =
        writtenBeforeClose t.lists.data.history ∧
      t.lists.stage 0 = .waiting .hasValuesOrClosed ∧ t.lists.data.values = [] := by
  obtain ⟨xs, t, hr, -, hs, hrest, hhistory, hstage⟩ := readTwice_run
  obtain ⟨hfailed, -, -, hvalues, -, hwaits⟩ := delivers_on_lock ⟨_, rfl⟩ hr hs
  have hempty : t.lists.data.values = [] := by
    rcases hwaits hrest 0 with hw | ⟨-, -, hw⟩ | ⟨hw, -⟩
    · rw [hstage] at hw
      cases hw
    · exact hw
    · rw [hstage] at hw
      cases hw
  exact ⟨t, hhistory, hfailed, hvalues, hstage, hempty⟩

end Eventuals.Pipe

namespace Eventuals.LockMonitor

theorem readTwice_rests :
    ∃ t : State (Fin 2) Pipe.Variable (Pipe.Control ℕ) (Pipe.Data ℕ) (Fin 2),
      t.lists.data.history = [.wrote 7, .returned 7] ∧
      t.lists.stage 0 = .waiting .hasValuesOrClosed ∧ t.lock.head = none ∧
      (∀ u, t.lock.Free u) ∧ ∃ m, Agrees t m ∧
        ∀ l, Monitor.Enabled (Pipe.program ℕ) m l → comes l := by
  obtain ⟨xs, t, hr, -, hs, hrest, hhistory, hstage⟩ := Pipe.readTwice_run
  obtain ⟨hhead, hfree, m, -, hagrees, -, -, hcomes⟩ := comes_to_rest ⟨_, rfl⟩ hr hs hrest
  exact ⟨t, hhistory, hstage, hhead, hfree, m, hagrees, hcomes⟩

end Eventuals.LockMonitor
