import Eventuals.Library.MonitorView
import Eventuals.ConditionVariable

/-! `ControlLoop`: those who wait for the loop to finish, and the end of the loop, under one lock
(`control-loop.h`). `Executor::Wait` is the `Wait` of its control loop (`executor.h`). -/
namespace Eventuals.ControlLoop

open Function (update)
open Monitor (Instr Program View Guarded Stage)
open Transition (Machine)

/-- The sections and where a thread stands in them. -/
inductive Control
  | idle
  | wait
  | waited
  /-- The callback of `Finally`. -/
  | finish
  | finishNotify
  | finished
  | ended
  deriving DecidableEq

structure Data where
  finished : Bool
  deriving DecidableEq

/-- `()` stands for `wait_until_finished_`. -/
def code (c : Control) (d : Data) : Instr Unit Control Data :=
  match c with
  | .idle | .waited => .release .idle
  | .wait => .wait () (some (!d.finished)) .waited
  | .finish => .assign { d with finished := true } .finishNotify
  | .finishNotify => .notify () .finished
  | .finished | .ended => .release .ended

def program : Program Unit Control Data where
  code := code
  entry
    | .idle, .wait | .idle, .finish => true
    | _, _ => false

variable {W : Type*} [DecidableEq W]

abbrev State (W : Type*) := ConditionVariable.State W Unit Control Data

abbrev Label (W : Type*) := Monitor.Label W Control

def machine (W : Type*) [DecidableEq W] : Machine (State W) (Label W) :=
  ConditionVariable.machine program .idle ⟨false⟩

instance (s : State W) (l : Label W) : Decidable ((machine W).Enabled s l) :=
  inferInstanceAs (Decidable (ConditionVariable.Enabled program s l))

/-- The thread `task` runs the loop, and it is the only one to finish it. -/
def Task (task : W) (_ : State W) (l : Label W) : Prop :=
  ∀ w c, l = .arrive w c → (c = .finish ↔ w = task)

instance (task : W) (s : State W) : ∀ l, Decidable (Task task s l)
  | .arrive w c =>
    decidable_of_iff (c = .finish ↔ w = task)
      ⟨fun h v d hl => by cases hl; exact h, fun h => h w c rfl⟩
  | .resume _ | .run _ => .isTrue fun _ _ h => nomatch h

/-- The loop finishes while at most one thread waits for it. -/
def AtMostOne (s : State W) (l : Label W) : Prop :=
  ∀ w, l = .run w → s.pc w = .finishNotify → ∀ q, s.Waiters () q → q.length ≤ 1

/-- Nothing happens any more unless another thread comes. -/
def Quiescent (s : State W) : Prop :=
  ∀ l, (∀ w c, l ≠ .arrive w c) → ¬ (machine W).Enabled s l

abbrev Lists (W : Type*) := Monitor.State W Unit Control Data

variable {t : Lists W} {s : State W} {l : Label W} {task v w : W} {q : Unit → List W}

/-- Once the loop has finished, nobody waits, except until its notification. -/
def Served (t : Lists W) : Prop :=
  t.data.finished = true → t.waiters () = [] ∨ ∃ w, t.stage w = .running ∧ t.pc w = .finishNotify

/-- Only the thread of the loop goes through its end, and notifies after it has finished. -/
structure Ends (task : W) (t : Lists W) : Prop where
  only : ∀ w, t.pc w = .finish ∨ t.pc w = .finishNotify ∨ t.pc w = .finished ∨ t.pc w = .ended →
    w = task
  finished : t.pc task = .finishNotify → t.data.finished = true

/-- Somebody waits and nobody will notify. -/
structure Stuck (task : W) (t : Lists W) : Prop where
  finished : t.data.finished = true
  waiting : t.waiters () ≠ []
  notified : t.pc task = .finished ∨ t.pc task = .ended
  ends : Ends task t

theorem served_run (hwf : Monitor.WellFormed t) (hw : t.stage w = .running)
    (hg : t.pc w = .finishNotify → (t.waiters ()).length ≤ 1) (h : Served t) :
    Served (t.run w (code (t.pc w) t.data)) := by
  have hothers : ∀ v, t.stage v = .running → v = w := fun v hv => hwf.running_unique hv hw
  have hquiet : t.pc w ≠ .finishNotify → t.data.finished = true → t.waiters () = [] := by
    intro hne hf
    rcases h hf with h | ⟨v, hv, hc⟩
    · exact h
    · exact absurd (hothers v hv ▸ hc) hne
  cases hc : t.pc w with
  | idle | waited | finished | ended =>
    intro hf
    exact .inl (hquiet (by simp [hc]) hf)
  | wait =>
    simp only [code, Monitor.State.run, Option.getD_some]
    cases hf : t.data.finished with
    | true =>
      intro _
      exact .inl (hquiet (by simp [hc]) hf)
    | false =>
      intro hf'
      simp [Monitor.State.block, hf] at hf'
  | finish =>
    intro _
    exact .inr ⟨w, hw, by simp [code, Monitor.State.run, Monitor.State.goto]⟩
  | finishNotify =>
    intro _
    left
    have hlen := hg hc
    simp only [code, Monitor.State.run, Monitor.State.notify]
    cases hk : t.waiters () with
    | nil => exact hk
    | cons v rest =>
      cases rest with
      | nil => simp [Monitor.State.wake, Monitor.State.goto]
      | cons u rest => simp [hk] at hlen

theorem served_next (hwf : Monitor.WellFormed t) (he : Monitor.Enabled program t l)
    (hg : ∀ w, l = .run w → t.pc w = .finishNotify → (t.waiters ()).length ≤ 1)
    (h : Served t) : Served (Monitor.next program t l) := by
  cases l with
  | run w => exact served_run hwf he (hg w rfl) h
  | arrive w c =>
    intro hf
    rcases h hf with h | ⟨v, hv, hc⟩
    · exact .inl h
    · have hne : v ≠ w := by
        rintro rfl
        rw [he.1] at hv
        cases hv
      exact .inr ⟨v, by simpa [Monitor.next, Monitor.State.arrive, hne] using hv,
        by simpa [Monitor.next, Monitor.State.arrive, hne] using hc⟩
  | resume w =>
    intro hf
    rcases h hf with h | ⟨v, hv, hc⟩
    · exact .inl h
    · have hvw : v = w := by
        have hq := hwf.running v hv
        rw [he.1] at hq
        exact (Option.some.inj hq).symm
      have hr := he.2
      rw [← hvw, hv] at hr
      cases hr

/-- Where the control of a thread goes when it runs. -/
theorem run_pc (t : Lists W) (w v : W) :
    (Monitor.next program t (.run w)).pc v =
      if v = w then
        match t.pc w with
        | .idle | .waited => .idle
        | .wait => if t.data.finished then .waited else .wait
        | .finish => .finishNotify
        | .finishNotify => .finished
        | .finished | .ended => .ended
      else t.pc v := by
  cases hc : t.pc w with
  | wait =>
    cases hf : t.data.finished <;> by_cases hv : v = w <;>
      simp [Monitor.next, program, code, Monitor.State.run, Monitor.State.block,
        Monitor.State.goto, hf, hv, hc]
  | finishNotify =>
    simp only [Monitor.next, program, code, hc, Monitor.State.run, Monitor.State.notify]
    cases t.waiters () <;> by_cases hv : v = w <;>
      simp [Monitor.State.wake, Monitor.State.goto, hv]
  | idle | waited | finish | finished | ended =>
    by_cases hv : v = w <;>
      simp [Monitor.next, program, code, Monitor.State.run, Monitor.State.leave,
        Monitor.State.goto, hc, hv]

theorem run_data (t : Lists W) (w : W) :
    (Monitor.next program t (.run w)).data.finished =
      (t.data.finished || t.pc w = .finish) := by
  cases hc : t.pc w with
  | wait =>
    cases hf : t.data.finished <;>
      simp [Monitor.next, program, code, Monitor.State.run, Monitor.State.block,
        Monitor.State.goto, hc, hf]
  | finishNotify =>
    simp only [Monitor.next, program, code, hc, Monitor.State.run, Monitor.State.notify]
    cases t.waiters () <;> simp [Monitor.State.wake, Monitor.State.goto]
  | idle | waited | finish | finished | ended =>
    simp [Monitor.next, program, code, Monitor.State.run, Monitor.State.leave,
      Monitor.State.goto, hc]

theorem ends_next (he : Monitor.Enabled program t l)
    (hg : ∀ w c, l = .arrive w c → (c = .finish ↔ w = task)) (h : Ends task t) :
    Ends task (Monitor.next program t l) := by
  cases l with
  | resume w => exact ⟨h.only, h.finished⟩
  | arrive w c =>
    have hentry : c = .wait ∨ c = .finish := by
      have hp := he.2
      revert hp
      cases t.pc w <;> cases c <;> simp [program]
    have hpc : ∀ v, (Monitor.next program t (.arrive w c)).pc v = if v = w then c else t.pc v := by
      intro v
      by_cases hv : v = w <;> simp [Monitor.next, Monitor.State.arrive, hv]
    refine ⟨fun v hv => ?_, fun hn => ?_⟩
    · rw [hpc] at hv
      by_cases hvw : v = w
      · subst hvw
        rcases hentry with rfl | rfl
        · simp at hv
        · exact (hg v .finish rfl).mp rfl
      · exact h.only v (by simpa [hvw] using hv)
    · rw [hpc] at hn
      by_cases hvw : task = w
      · rcases hentry with rfl | rfl <;> simp [hvw] at hn
      · exact h.finished (by simpa [hvw] using hn)
  | run w =>
    have hpc := run_pc t w
    refine ⟨fun v hv => ?_, fun hn => ?_⟩
    · rw [hpc] at hv
      apply h.only v
      by_cases hvw : v = w
      · subst hvw
        cases hc : t.pc v <;> simp [hc] at hv ⊢
        cases hf : t.data.finished <;> simp [hf] at hv
      · simpa [hvw] using hv
    · rw [run_data]
      rw [hpc] at hn
      by_cases hvw : task = w
      · subst hvw
        cases hc : t.pc task <;> simp_all
        cases hf : t.data.finished <;> simp_all
      · rw [if_neg hvw] at hn
        simp [h.finished hn]

theorem run_waiters (t : Lists W) (w : W) (hf : t.data.finished = true)
    (hn : t.pc w ≠ .finishNotify) :
    (Monitor.next program t (.run w)).waiters = t.waiters := by
  cases hc : t.pc w with
  | finishNotify => exact absurd hc hn
  | wait =>
    simp [Monitor.next, program, code, Monitor.State.run, Monitor.State.goto, hc, hf]
  | idle | waited | finish | finished | ended =>
    simp [Monitor.next, program, code, Monitor.State.run, Monitor.State.leave,
      Monitor.State.goto, hc]

theorem stuck_next (he : Monitor.Enabled program t l)
    (hg : ∀ w c, l = .arrive w c → (c = .finish ↔ w = task)) (h : Stuck task t) :
    Stuck task (Monitor.next program t l) := by
  have hends := ends_next he hg h.ends
  cases l with
  | resume w => exact ⟨h.finished, h.waiting, h.notified, hends⟩
  | arrive w c =>
    refine ⟨h.finished, h.waiting, ?_, hends⟩
    have hne : task ≠ w := by
      rintro rfl
      have hp := he.2
      rcases h.notified with hc | hc <;> simp [hc, program] at hp
    simpa [Monitor.next, Monitor.State.arrive, hne] using h.notified
  | run w =>
    have hn : t.pc w ≠ .finishNotify := by
      intro hc
      have hw := h.ends.only w (.inr (.inl hc))
      rcases h.notified with hd | hd <;> simp [← hw, hc] at hd
    refine ⟨?_, ?_, ?_, hends⟩
    · rw [run_data, h.finished]
      rfl
    · rw [run_waiters t w h.finished hn]
      exact h.waiting
    · rw [run_pc]
      by_cases hw : task = w
      · subst hw
        right
        rcases h.notified with hd | hd <;> simp [hd]
      · rw [if_neg hw]
        exact h.notified

/-- The thread of the loop is outside until it finishes the loop, and does not wait for it. -/
structure Finishing (task : W) (t : Lists W) : Prop where
  outside : t.pc task = .idle → t.stage task = .outside
  queued : t.pc task = .finish → (t.stage task).queued = true
  never : t.pc task ≠ .wait ∧ t.pc task ≠ .waited ∧ t.stage task ≠ .waiting ()
  finished : t.pc task = .finishNotify ∨ t.pc task = .finished ∨ t.pc task = .ended →
    t.data.finished = true

theorem run_stage (hwf : Monitor.WellFormed t) (hv : t.stage v ≠ .waiting ()) (hvw : v ≠ w) :
    (Monitor.next program t (.run w)).stage v = t.stage v := by
  have wake : ∀ x rest, t.waiters () = x :: rest → v ≠ x := by
    rintro x rest hk rfl
    exact hv ((hwf.waiters () v).mp (by simp [hk]))
  cases hc : t.pc w with
  | wait =>
    cases hf : t.data.finished <;>
      simp [Monitor.next, program, code, Monitor.State.run, Monitor.State.block,
        Monitor.State.goto, hf, hvw, hc]
  | finishNotify =>
    simp only [Monitor.next, program, code, hc, Monitor.State.run, Monitor.State.notify]
    cases hk : t.waiters () with
    | nil => rfl
    | cons x rest => simp [Monitor.State.wake, Monitor.State.goto, wake x rest hk]
  | idle | waited | finish | finished | ended =>
    simp [Monitor.next, program, code, Monitor.State.run, Monitor.State.leave,
      Monitor.State.goto, hc, hvw]

/-- Where the thread of the loop stands after it has run. -/
theorem finishing_run (hwf : Monitor.WellFormed t) (hr : t.stage task = .running)
    (h : Finishing task t) : Finishing task (Monitor.next program t (.run task)) := by
  obtain ⟨hw, hwd, -⟩ := h.never
  have hpc := run_pc t task task
  have hd := run_data t task
  rw [if_pos rfl] at hpc
  have stay : (Monitor.next program t (.run task)).stage task = t.stage task ∨
      (Monitor.next program t (.run task)).stage task = .outside := by
    have wake : ∀ x rest, t.waiters () = x :: rest → task ≠ x := by
      rintro x rest hk rfl
      have hx := (hwf.waiters () task).mp (by simp [hk])
      rw [hr] at hx
      cases hx
    cases hc : t.pc task with
    | wait => exact absurd hc hw
    | waited => exact absurd hc hwd
    | finish => exact Or.inl (by simp [Monitor.next, program, code, hc, Monitor.State.run,
        Monitor.State.goto])
    | finishNotify =>
      left
      simp only [Monitor.next, program, code, hc, Monitor.State.run, Monitor.State.notify]
      cases hk : t.waiters () with
      | nil => rfl
      | cons x rest => simp [Monitor.State.wake, Monitor.State.goto, wake x rest hk]
    | idle | finished | ended =>
      exact Or.inr (by simp [Monitor.next, program, code, hc, Monitor.State.run,
        Monitor.State.leave])
  have hnw : (Monitor.next program t (.run task)).stage task ≠ .waiting () := by
    rcases stay with hs | hs <;> simp [hs, hr]
  cases hc : t.pc task with
  | idle =>
    have ho := h.outside hc
    rw [hr] at ho
    cases ho
  | wait => exact absurd hc hw
  | waited => exact absurd hc hwd
  | finish =>
    exact ⟨by simp [hpc, hc], by simp [hpc, hc], ⟨by simp [hpc, hc], by simp [hpc, hc], hnw⟩,
      fun _ => by simp [hd, hc]⟩
  | finishNotify | finished | ended =>
    have hf := h.finished (by simp [hc])
    exact ⟨by simp [hpc, hc], by simp [hpc, hc], ⟨by simp [hpc, hc], by simp [hpc, hc], hnw⟩,
      fun _ => by simp [hd, hf]⟩

omit [DecidableEq W] in
/-- Other threads leave the thread of the loop where it is. -/
theorem Finishing.frame {t' : Lists W} (h : Finishing task t) (hp : t'.pc task = t.pc task)
    (hs : t'.stage task = t.stage task)
    (hd : t.data.finished = true → t'.data.finished = true) : Finishing task t' := by
  constructor
  · rw [hp, hs]
    exact h.outside
  · rw [hp, hs]
    exact h.queued
  · rw [hp, hs]
    exact h.never
  · rw [hp]
    intro hf
    exact hd (h.finished hf)

theorem finishing_next (hwf : Monitor.WellFormed t) (he : Monitor.Enabled program t l)
    (hg : ∀ w c, l = .arrive w c → (c = .finish ↔ w = task)) (h : Finishing task t) :
    Finishing task (Monitor.next program t l) := by
  cases l with
  | resume w =>
    by_cases hw : task = w
    · subst hw
      have hs : (Monitor.next program t (.resume task)).stage task = .running := by
        simp [Monitor.next, Monitor.State.resume]
      refine ⟨fun hi => ?_, fun _ => by simp [hs, Stage.queued],
        ⟨h.never.1, h.never.2.1, by simp [hs]⟩, h.finished⟩
      have hr := he.2
      simp [h.outside hi, Stage.resumable] at hr
    · have hs : (Monitor.next program t (.resume w)).stage task = t.stage task := by
        simp [Monitor.next, Monitor.State.resume, hw]
      exact h.frame rfl hs id
  | arrive w c =>
    by_cases hw : task = w
    · subst hw
      obtain rfl := (hg task c rfl).mpr rfl
      constructor <;> simp [Monitor.next, Monitor.State.arrive, Stage.queued]
    · have hs : (Monitor.next program t (.arrive w c)).stage task = t.stage task := by
        simp [Monitor.next, Monitor.State.arrive, hw]
      have hp : (Monitor.next program t (.arrive w c)).pc task = t.pc task := by
        simp [Monitor.next, Monitor.State.arrive, hw]
      exact h.frame hp hs id
  | run w =>
    by_cases hw : task = w
    · subst hw
      exact finishing_run hwf he h
    · have hs := run_stage hwf h.never.2.2 hw
      have hp : (Monitor.next program t (.run w)).pc task = t.pc task := by
        rw [run_pc, if_neg hw]
      apply h.frame hp hs
      intro hf
      rw [run_data]
      simp [hf]

section Lists

open ConditionVariable (Inv Matches)

/-- A step of the lists is a step of the queues under the same label, or none at all. -/
theorem lists_next {P : Lists W → Prop} (hi : Inv program s q) (he : (machine W).Enabled s l)
    (hp : P (s.abstract q))
    (hs : Monitor.Enabled program (s.abstract q) l → P (Monitor.next program (s.abstract q) l)) :
    ∃ q', Inv program ((machine W).next s l) q' ∧ P (((machine W).next s l).abstract q') := by
  obtain ⟨q', hi', hq | hq⟩ := ConditionVariable.inv_next hi he
  · exact ⟨q', hi', hq ▸ hp⟩
  · refine ⟨q', hi', hq ▸ hs ?_⟩
    cases l <;> exact he

theorem served_reachable
    (h : ((machine W).restrict fun s l => Task task s l ∧ AtMostOne s l).Reachable s) :
    ∃ q, Inv program s q ∧ Served (s.abstract q) := by
  apply h.invariant (P := fun s => ∃ q, Inv program s q ∧ Served (s.abstract q))
  · rintro s rfl
    refine ⟨_, ConditionVariable.inv_initial _ _, fun hf => ?_⟩
    simp [ConditionVariable.State.abstract, ConditionVariable.initial] at hf
  · rintro s l ⟨q, hi, hs⟩ ⟨he, -, hone⟩
    refine lists_next hi he hs fun he' => served_next hi.wf he' ?_ hs
    intro w hl hc
    exact hone w hl hc (q ()) (hi.chain ())

theorem ends_reachable (h : ((machine W).restrict (Task task)).Reachable s) :
    ∃ q, Inv program s q ∧ Ends task (s.abstract q) := by
  apply h.invariant (P := fun s => ∃ q, Inv program s q ∧ Ends task (s.abstract q))
  · rintro s rfl
    refine ⟨_, ConditionVariable.inv_initial _ _, ?_, ?_⟩ <;>
      simp [ConditionVariable.State.abstract, ConditionVariable.initial]
  · rintro s l ⟨q, hi, hs⟩ ⟨he, ht⟩
    exact lists_next hi he hs fun he' => ends_next he' ht hs

theorem finishing_reachable (h : ((machine W).restrict (Task task)).Reachable s) :
    ∃ q, Inv program s q ∧ Finishing task (s.abstract q) := by
  apply h.invariant (P := fun s => ∃ q, Inv program s q ∧ Finishing task (s.abstract q))
  · rintro s rfl
    refine ⟨_, ConditionVariable.inv_initial _ _, ?_⟩
    constructor <;> simp [ConditionVariable.State.abstract, ConditionVariable.initial]
  · rintro s l ⟨q, hi, hs⟩ ⟨he, ht⟩
    exact lists_next hi he hs fun he' => finishing_next hi.wf he' ht hs

/-- The thread of the loop has come to finish it. -/
def Begun (task : W) (s : State W) : Prop :=
  s.data.finished = true ∨ s.pc task ≠ .idle

theorem begun_next (h : ((machine W).restrict (Task task)).Reachable s)
    (he : (machine W).Enabled s l) (ht : Task task s l)
    (hb : Begun task ((machine W).next s l)) : Begun task s ∨ l = .arrive task .finish := by
  obtain ⟨q, hi, hends⟩ := ends_reachable h
  have hlists : ∀ t : Lists W, t = s.abstract q ∨ t = Monitor.next program (s.abstract q) l →
      t.data.finished = true ∨ t.pc task ≠ .idle → Begun task s ∨ l = .arrive task .finish := by
    rintro t (rfl | rfl) hb
    · exact .inl hb
    · cases l with
      | resume w => exact .inl hb
      | arrive w c =>
        by_cases hw : task = w
        · subst hw
          obtain rfl := (ht task c rfl).mpr rfl
          exact .inr rfl
        · have hpc : (Monitor.next program (s.abstract q) (.arrive w c)).pc task = s.pc task := by
            simp [Monitor.next, Monitor.State.arrive, hw, ConditionVariable.State.abstract]
          rw [hpc] at hb
          exact .inl hb
      | run w =>
        left
        rw [run_data, run_pc] at hb
        by_cases hc : s.pc w = .finish
        · have hw : w = task := hends.only w (.inl hc)
          exact .inr (by simp [← hw, hc])
        · have hc' : (s.abstract q).pc w ≠ .finish := hc
          rcases hb with hf | hp
          · rw [decide_eq_false hc', Bool.or_false] at hf
            exact .inl hf
          · right
            intro hs
            have hs' : (s.abstract q).pc task = .idle := hs
            apply hp
            split
            · next hw => simp [← hw, hs']
            · exact hs'
  obtain ⟨q', -, hq⟩ := ConditionVariable.inv_next hi he
  exact hlists _ hq hb

theorem stuck_run {xs : List (State W × Label W)} {u : State W} (hi : Inv program s q)
    (hst : Stuck task (s.abstract q)) (hr : ((machine W).restrict (Task task)).Run s xs u) :
    ∃ v, u.stage v = .waiting () := by
  induction hr generalizing q with
  | refl =>
    obtain ⟨v, hv⟩ := List.exists_mem_of_ne_nil _ hst.waiting
    exact ⟨v, hi.mem_iff.mp hv⟩
  | stepL hstep _ ih =>
    obtain ⟨⟨he, ht⟩, rfl⟩ := hstep
    obtain ⟨q', hi', hs'⟩ := lists_next hi he hst fun he' => stuck_next he' ht hst
    exact ih hi' hs'

/-- The loop notifies one of several waiters. -/
theorem stuck_of_notify (hi : Inv program s q) (hends : Ends task (s.abstract q))
    (he : (machine W).Enabled s (.run w)) (hn : ¬ AtMostOne s (.run w)) :
    ∃ q', Inv program ((machine W).next s (.run w)) q' ∧
      Stuck task (((machine W).next s (.run w)).abstract q') := by
  have hc : s.pc w = .finishNotify ∧ 1 < (q ()).length := by
    simp only [AtMostOne, Monitor.Label.run.injEq, not_forall] at hn
    obtain ⟨w', rfl, hc, q₀, hq₀, hlen⟩ := hn
    exact ⟨hc, (hi.chain ()).unique hq₀ ▸ Nat.lt_of_not_le hlen⟩
  obtain ⟨hc, hlen⟩ := hc
  have hw : w = task := hends.only w (.inr (.inl hc))
  subst hw
  have hends' := ends_next (l := .run w) (t := s.abstract q) he (by simp) hends
  have hpc := run_pc (s.abstract q) w w
  have hpc' : (s.abstract q).pc w = .finishNotify := hc
  rw [if_pos rfl, hpc'] at hpc
  have hwaiters : (Monitor.next program (s.abstract q) (.run w)).waiters () ≠ [] := by
    simp only [Monitor.next, program, code, hpc', Monitor.State.run, Monitor.State.notify]
    cases hk : (s.abstract q).waiters () with
    | nil =>
      have hnil : q () = [] := hk
      simp [hnil] at hlen
    | cons v rest =>
      have hcons : q () = v :: rest := hk
      intro hnil
      have hrest : rest = [] := by
        simpa [Monitor.State.wake, Monitor.State.goto] using hnil
      simp [hcons, hrest] at hlen
  obtain ⟨q', hi', hq | hq⟩ := ConditionVariable.inv_next (l := .run w) hi he
  · have hnext : (ConditionVariable.next program s (.run w)).pc w = .finished := by
      simp [ConditionVariable.next, program, code, hc, ConditionVariable.State.run,
        ConditionVariable.State.goto]
    have hsame : (ConditionVariable.next program s (.run w)).pc w = s.pc w :=
      congrFun (congrArg Monitor.State.pc hq) w
    rw [hsame, hc] at hnext
    cases hnext
  · refine ⟨q', hi', ?_⟩
    change Stuck w ((ConditionVariable.next program s (.run w)).abstract q')
    rw [hq]
    refine ⟨?_, hwaiters, .inl hpc, hends'⟩
    rw [run_data, hends.finished hpc']
    rfl

/-- In a state where nothing happens any more nobody is on the way to the lock. -/
theorem queue_of_quiescent (hi : Inv program s q) (hq : Quiescent s) : s.queue = [] :=
  hi.wf.queue_nil (P := program) (fun w => hq (.resume w) (by simp))
    fun w => hq (.run w) (by simp)

theorem quiescent_of_queue (hi : Inv program s q) (hq : s.queue = []) : Quiescent s := by
  intro l hl he
  cases l with
  | arrive w c => exact hl w c rfl
  | resume w =>
    have hh := he.1
    rw [hq] at hh
    cases hh
  | run w =>
    have hm := hi.wf.running w he
    change s.queue.head? = some w at hm
    rw [hq] at hm
    cases hm

theorem outside_of_quiescent (hi : Inv program s q) (hs : Served (s.abstract q))
    (hf : s.data.finished = true) (hq : Quiescent s) :
    s.Waiters () [] ∧ ∀ w, s.stage w = .outside := by
  have hqueue := queue_of_quiescent hi hq
  have hnil : q () = [] := by
    rcases hs hf with hnil | ⟨w, hw, -⟩
    · exact hnil
    · exact absurd hw (hq (.run w) (by simp))
  refine ⟨hi.waiters_iff.mpr hnil, fun w => ?_⟩
  have hnq : (s.stage w).queued = false := by
    have hm : w ∉ (s.abstract q).queue := by
      change w ∉ s.queue
      simp [hqueue]
    rw [← Bool.not_eq_true]
    exact fun h => hm ((hi.wf.queue w).mpr h)
  cases hw : s.stage w with
  | outside => rfl
  | waiting k =>
    have hm : w ∈ q k := hi.mem_iff.mpr hw
    cases k
    simp [hnil] at hm
  | arriving | running | woken k => simp [hw, Stage.queued] at hnq

/-- Every `Wait` returns if at most one thread waits when the loop finishes; otherwise some thread
waits in every state from then on. -/
theorem waits_complete_iff_at_most_one (task : W) :
    (∀ s, ((machine W).restrict fun s l => Task task s l ∧ AtMostOne s l).Reachable s →
      s.data.finished = true → Quiescent s →
        s.Waiters () [] ∧ ∀ w, s.stage w = .outside) ∧
    ∀ s w, ((machine W).restrict (Task task)).Reachable s → (machine W).Enabled s (.run w) →
      ¬ AtMostOne s (.run w) → ∀ xs u,
        ((machine W).restrict (Task task)).Run ((machine W).next s (.run w)) xs u →
          ∃ v, u.stage v = .waiting () := by
  refine ⟨?_, ?_⟩
  · intro s h hf hq
    obtain ⟨q, hi, hs⟩ := served_reachable h
    exact outside_of_quiescent hi hs hf hq
  · intro s w h he hn xs u hr
    obtain ⟨q, hi, hends⟩ := ends_reachable h
    obtain ⟨q', hi', hst⟩ := stuck_of_notify hi hends he hn
    exact stuck_run hi' hst hr

/-- Two threads wait, and the end of the loop wakes the first. -/
def twoWaiters : List (Label ℕ) :=
  [.arrive 1 .wait, .resume 1, .run 1, .arrive 2 .wait, .resume 2, .run 2,
    .arrive 0 .finish, .resume 0, .run 0, .run 0, .run 0, .resume 1, .run 1, .run 1]

theorem twoWaiters_left : ∃ s, ((machine ℕ).restrict (Task 0)).Reachable s ∧
    s.data.finished = true ∧ Quiescent s ∧ s.stage 2 = .waiting () ∧ s.head () = some 2 := by
  obtain ⟨s, hs, hp⟩ := Machine.exists_reachable_of_exec
    (M := (machine ℕ).restrict (Task 0)) twoWaiters
    (fun s => decide (s.data.finished = true ∧ s.queue = [] ∧ s.stage 2 = .waiting () ∧
      s.head () = some 2)) rfl (by decide)
  obtain ⟨hf, hq, hw, hh⟩ := of_decide_eq_true hp
  obtain ⟨q, hi, -⟩ := ends_reachable hs
  exact ⟨s, hs, hf, quiescent_of_queue hi hq, hw, hh⟩

end Lists

end Eventuals.ControlLoop
