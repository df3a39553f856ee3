import Eventuals.Library.MonitorView
import Eventuals.ConditionVariable

/-! `Notification`: those who wait for it and those who notify it, under one lock, which is acquired
and released in single steps (`notification.h`). -/
namespace Eventuals.Notification

open Function (update)
open Monitor (Instr Program Stage)
open Transition (Machine)

/-- The sections and where a thread stands in them. -/
inductive Control
  | idle
  /-- `WaitForNotification` -/
  | wait
  | waited
  /-- `Notify` -/
  | notify
  | notifyAll
  | notified
  /-- The `CHECK` of `Notify` has failed. -/
  | aborted
  deriving DecidableEq

structure Data where
  notified : Bool
  aborted : Bool
  deriving DecidableEq

/-- `()` stands for `notification_`. -/
def code (c : Control) (d : Data) : Instr Unit Control Data :=
  match c with
  | .idle | .waited | .notified => .release .idle
  | .wait => .wait () (some (!d.notified)) .waited
  | .notify =>
    if d.notified then .assign { d with aborted := true } .aborted
    else .assign { d with notified := true } .notifyAll
  | .notifyAll => .notifyAll () .notified
  | .aborted => .assign d .aborted

def program : Program Unit Control Data where
  code := code
  entry
    | .idle, .wait | .idle, .notify => true
    | _, _ => false

variable {W : Type*} [DecidableEq W]

abbrev State (W : Type*) := ConditionVariable.State W Unit Control Data

abbrev Label (W : Type*) := Monitor.Label W Control

def initial : State W := ConditionVariable.initial .idle ⟨false, false⟩

/-- An abort ends the process with all of its threads. -/
def machine (W : Type*) [DecidableEq W] : Machine (State W) (Label W) :=
  (ConditionVariable.machine program .idle ⟨false, false⟩).restrict fun s _ =>
    s.data.aborted = false

instance (s : State W) (l : Label W) : Decidable ((machine W).Enabled s l) :=
  inferInstanceAs (Decidable (ConditionVariable.Enabled program s l ∧ s.data.aborted = false))

/-- The thread executes the `CHECK` of `Notify`. -/
def Notifies (s : State W) : Label W → Bool
  | .run w => s.pc w = .notify
  | _ => false

/-- How many times `Notify` has got the lock. -/
def notifies (xs : List (State W × Label W)) : ℕ :=
  xs.countP fun x => Notifies x.1 x.2

/-- Nothing happens any more unless another thread comes. -/
def Quiescent (s : State W) : Prop :=
  ∀ l, (∀ w c, l ≠ .arrive w c) → ¬ (machine W).Enabled s l

abbrev Lists (W : Type*) := Monitor.State W Unit Control Data

variable {t : Lists W} {s u : State W} {l : Label W} {v w : W} {q : Unit → List W}
  {xs : List (State W × Label W)}

/-- Once it is notified nobody waits, except while the waiters are notified one after the other,
and nobody gets past the wait before. -/
structure Served (t : Lists W) : Prop where
  served : t.data.notified = true →
    t.waiters () = [] ∨ ∃ w, t.stage w = .running ∧ t.pc w = .notifyAll
  waited : ∀ w, t.pc w = .waited → t.data.notified = true
  aborted : t.data.aborted = true → t.data.notified = true

theorem served_arrive {c : Control} (he : Monitor.Enabled program t (.arrive w c))
    (h : Served t) : Served (Monitor.next program t (.arrive w c)) where
  served := by
    intro hn
    rcases h.served hn with hnil | ⟨v, hv, hc⟩
    · exact .inl hnil
    · have hne : v ≠ w := by
        rintro rfl
        rw [he.1] at hv
        cases hv
      exact .inr ⟨v, by simpa [Monitor.next, Monitor.State.arrive, hne] using hv,
        by simpa [Monitor.next, Monitor.State.arrive, hne] using hc⟩
  waited := by
    intro v hv
    by_cases hvw : v = w
    · subst hvw
      have hc : c = .waited := by simpa [Monitor.next, Monitor.State.arrive] using hv
      subst hc
      have hentry := he.2
      cases hp : t.pc v <;> simp [hp, program] at hentry
    · exact h.waited v (by simpa [Monitor.next, Monitor.State.arrive, hvw] using hv)
  aborted := h.aborted

theorem served_resume (hwf : Monitor.WellFormed t) (he : Monitor.Enabled program t (.resume w))
    (h : Served t) : Served (Monitor.next program t (.resume w)) where
  served := by
    intro hn
    rcases h.served hn with hnil | ⟨v, hv, -⟩
    · exact .inl hnil
    · have hq := hwf.running v hv
      obtain rfl : w = v := Option.some.inj (he.1.symm.trans hq)
      have hr := he.2
      rw [hv] at hr
      cases hr
  waited := h.waited
  aborted := h.aborted

omit [DecidableEq W] in
/-- A thread that does not notify leaves the waiters where they are once it is notified. -/
theorem Served.run_of_ne (hwf : Monitor.WellFormed t) (hw : t.stage w = .running) (h : Served t)
    (hc : t.pc w ≠ .notifyAll) {t' : Lists W} (hdata : t'.data = t.data)
    (hwaiters : t.data.notified = true → t'.waiters () = t.waiters ())
    (hwaited : ∀ v, t'.pc v = .waited → t.pc v = .waited ∨ t.data.notified = true) :
    Served t' where
  served := by
    intro hn
    rw [hdata] at hn
    left
    rw [hwaiters hn]
    rcases h.served hn with hnil | ⟨v, hv, hpc⟩
    · exact hnil
    · exact absurd (hwf.running_unique hv hw ▸ hpc) hc
  waited := by
    intro v hv
    rw [hdata]
    rcases hwaited v hv with hv | hn
    · exact h.waited v hv
    · exact hn
  aborted := by
    rw [hdata]
    exact h.aborted

theorem waited_goto {c : Control} (hc : c ≠ .waited) (hv : (t.goto w c).pc v = .waited) :
    t.pc v = .waited := by
  by_cases hvw : v = w
  · simp [Monitor.State.goto, hvw, hc] at hv
  · simpa [Monitor.State.goto, hvw] using hv

theorem served_run (hwf : Monitor.WellFormed t) (hw : t.stage w = .running) (h : Served t) :
    Served (Monitor.next program t (.run w)) := by
  simp only [Monitor.next]
  have hleave : ∀ v, (t.leave w .idle).pc v = .waited →
      t.pc v = .waited ∨ t.data.notified = true := by
    intro v hv
    by_cases hvw : v = w
    · simp [Monitor.State.leave, hvw] at hv
    · exact .inl (by simpa [Monitor.State.leave, hvw] using hv)
  cases hc : t.pc w with
  | idle | waited | notified =>
    exact h.run_of_ne hwf hw (by simp [hc]) rfl (fun _ => rfl) hleave
  | wait =>
    simp only [program, code, Monitor.State.run, Option.getD_some]
    cases hn : t.data.notified with
    | true =>
      exact h.run_of_ne hwf hw (by simp [hc]) rfl (fun _ => rfl) fun v _ => .inr hn
    | false =>
      simp only [Bool.not_false, if_true]
      refine h.run_of_ne hwf hw (by simp [hc]) rfl (fun h => ?_) fun v hv => .inl hv
      rw [hn] at h
      cases h
  | notify =>
    cases hn : t.data.notified with
    | true =>
      simp only [program, code, hn, if_true, Monitor.State.run]
      have haborted : Served (t.goto w .aborted) := by
        refine h.run_of_ne hwf hw (by simp [hc]) ?_ ?_ ?_
        · rfl
        · intro _
          rfl
        · intro v hv
          exact .inl (waited_goto (by simp) hv)
      exact ⟨fun _ => haborted.served hn, fun v hv => rfl, fun _ => rfl⟩
    | false =>
      simp only [program, code, hn, Bool.false_eq_true, if_false, Monitor.State.run]
      exact ⟨fun _ => .inr ⟨w, hw, by simp [Monitor.State.goto]⟩, fun v hv => rfl, fun _ => rfl⟩
  | notifyAll =>
    simp only [program, code, Monitor.State.run]
    cases hk : t.waiters () with
    | nil =>
      exact ⟨fun _ => .inl hk, fun v hv => h.waited v (waited_goto (by simp) hv), h.aborted⟩
    | cons x rest =>
      have hx : w ≠ x := by
        rintro rfl
        have hx := (hwf.waiters () w).mp (by simp [hk])
        rw [hw] at hx
        cases hx
      exact ⟨fun _ => .inr ⟨w, by simpa [Monitor.State.wake, hx] using hw, hc⟩, h.waited,
        h.aborted⟩
  | aborted =>
    exact h.run_of_ne hwf hw (by simp [hc]) rfl (fun _ => rfl)
      fun v hv => .inl (waited_goto (by simp) hv)

theorem served_next (hwf : Monitor.WellFormed t) (he : Monitor.Enabled program t l)
    (h : Served t) : Served (Monitor.next program t l) := by
  cases l with
  | arrive w c => exact served_arrive he h
  | resume w => exact served_resume hwf he h
  | run w => exact served_run hwf he h

section Lists

open ConditionVariable (Inv)

theorem served_reachable (h : (machine W).Reachable s) :
    ∃ q, Inv program s q ∧ Served (s.abstract q) := by
  apply h.invariant (P := fun s => ∃ q, Inv program s q ∧ Served (s.abstract q))
  · rintro s rfl
    refine ⟨_, ConditionVariable.inv_initial _ _, ?_⟩
    constructor <;> simp [ConditionVariable.State.abstract, ConditionVariable.initial]
  · rintro s l ⟨q, hi, hs⟩ ⟨he, -⟩
    obtain ⟨q', hi', hq | hq⟩ := ConditionVariable.inv_next hi he
    · exact ⟨q', hi', hq ▸ hs⟩
    · refine ⟨q', hi', hq ▸ served_next hi.wf ?_ hs⟩
      cases l <;> exact he

/-- What a step does to the flags -/
theorem next_data (s : State W) (l : Label W) :
    (ConditionVariable.next program s l).data =
      if Notifies s l then
        if s.data.notified then { s.data with aborted := true }
        else { s.data with notified := true }
      else s.data := by
  cases l with
  | arrive w c => rfl
  | resume w => rfl
  | run w =>
    have hrun := (ConditionVariable.run_fields s w (program.code (s.pc w) s.data)).1
    simp only [ConditionVariable.next, hrun, Notifies]
    cases hc : s.pc w with
    | notify => cases hn : s.data.notified <;> simp [program, code, hn, Instr.store]
    | _ => simp [program, code, Instr.store]

def Data.count (d : Data) : ℕ := d.notified.toNat + d.aborted.toNat

theorem count_run (hr : (machine W).Run s xs u) : u.data.count = s.data.count + notifies xs := by
  induction hr with
  | refl => rfl
  | @stepL s t u l xs hs hr ih =>
    obtain ⟨⟨-, ha⟩, rfl⟩ := hs
    have hnext : ((machine W).next s l).data.count = s.data.count + (Notifies s l).toNat := by
      have hdata : ((machine W).next s l).data = _ := next_data s l
      rw [hdata]
      cases hl : Notifies s l with
      | false => rfl
      | true => cases hn : s.data.notified <;> simp [Data.count, hn, ha]
    have hcount : notifies ((s, l) :: xs) = (Notifies s l).toNat + notifies xs := by
      cases hn : Notifies s l <;> simp [notifies, hn, Nat.add_comm]
    rw [ih, hnext, hcount, Nat.add_assoc]

/-- Where nothing happens any more nobody is on the way to the lock. -/
theorem stage_of_quiescent (hi : Inv program s q) (ha : s.data.aborted = false)
    (hq : Quiescent s) (w : W) : s.stage w = .outside ∨ s.stage w = .waiting () := by
  have hqueue : s.queue = [] :=
    hi.wf.queue_nil (P := program) (fun w he => hq (.resume w) (by simp) ⟨he, ha⟩)
      fun w he => hq (.run w) (by simp) ⟨he, ha⟩
  have hnq : (s.stage w).queued = false := by
    rw [← Bool.not_eq_true]
    intro hw
    have hm : w ∈ s.queue := (hi.wf.queue w).mpr hw
    rw [hqueue] at hm
    cases hm
  cases hw : s.stage w with
  | outside => exact .inl rfl
  | waiting k => exact .inr rfl
  | arriving | running | woken k => simp [hw, Stage.queued] at hnq

/-- Whoever waits stands at the wait, and whoever is outside where it has started. -/
theorem pc_of_stage (h : (machine W).Reachable s) :
    (s.stage w = .waiting () → s.pc w = .wait) ∧ (s.stage w = .outside → s.pc w = .idle) := by
  have hcv := h.of_restrict
  constructor
  · intro hw
    obtain ⟨t, ht, q, hi, rfl⟩ := ConditionVariable.refines_monitor.reachable hcv
    obtain ⟨-, hview⟩ := Monitor.view_reachable_of_reachable ht
    have hm : w ∈ q () := hi.mem_iff.mpr hw
    obtain ⟨d, condition, c, hc⟩ := Monitor.View.waits_reachable hview () (s.pc w)
      (.inr (List.mem_map_of_mem hm))
    revert hc
    cases s.pc w with
    | notify => cases hn : d.notified <;> simp [program, code, hn]
    | _ => simp [program, code]
  · intro hw
    refine ConditionVariable.outside_home ?_ hcv hw
    intro x d c hc
    cases x with
    | notify => cases hn : d.notified <;> simp [program, code, hn] at hc
    | idle | waited | notified => simpa [program, code] using hc.symm
    | wait | notifyAll | aborted => simp [program, code] at hc

end Lists

/-- Nobody gets past the wait while nobody has been notified. -/
theorem pc_next (h : (machine W).Reachable s) (he : (machine W).Enabled s l)
    (hn : ((machine W).next s l).data.notified = false) (hw : s.pc w = .wait) :
    ((machine W).next s l).pc w = .wait := by
  cases l with
  | arrive v c =>
    have hne : w ≠ v := by
      rintro rfl
      have hentry : program.entry (s.pc w) c = true := he.1.2
      rw [hw] at hentry
      cases hentry
    have hpc : ((machine W).next s (.arrive v c)).pc w = s.pc w := Function.update_of_ne hne _ _
    rw [hpc, hw]
  | resume v => exact hw
  | run v =>
    have hpc : ((machine W).next s (.run v)).pc = s.pc ∨
        ((machine W).next s (.run v)).pc =
          update s.pc v (program.code (s.pc v) s.data).target :=
      (ConditionVariable.run_fields s v (program.code (s.pc v) s.data)).2.imp_left And.left
    rcases hpc with hpc | hpc
    · rw [hpc, hw]
    · by_cases hvw : w = v
      · subst hvw
        have hwaited : ((machine W).next s (.run w)).pc w = .waited := by
          simp [hpc, hw, program, code, Instr.target]
        obtain ⟨q, -, hserved⟩ := served_reachable (h.next he)
        have hnotified : ((machine W).next s (.run w)).data.notified = true :=
          hserved.waited w hwaited
        rw [hn] at hnotified
        cases hnotified
      · rw [hpc, Function.update_of_ne hvw, hw]

/-- Whoever has come to wait stands at the wait as long as nobody notifies. -/
theorem pc_run (h : (machine W).Reachable s) (hr : (machine W).Run s xs u)
    (hn : u.data.count = 0)
    (hw : s.pc w = .wait ∨ ∃ s', (s', .arrive w .wait) ∈ xs) : u.pc w = .wait := by
  induction hr with
  | refl =>
    rcases hw with hw | ⟨s', hmem⟩
    · exact hw
    · cases hmem
  | @stepL s t u l xs hs hr ih =>
    obtain ⟨he, rfl⟩ := hs
    have hcount : ((machine W).next s l).data.notified = false := by
      have hrest := count_run hr
      rw [hn] at hrest
      cases hnotified : ((machine W).next s l).data.notified with
      | false => rfl
      | true =>
        simp only [Data.count, hnotified, Bool.toNat_true] at hrest
        omega
    refine ih (h.next he) hn ?_
    rcases hw with hw | ⟨s', hmem⟩
    · exact .inl (pc_next h he hcount hw)
    · rcases List.mem_cons.mp hmem with heq | hmem
      · cases heq
        left
        exact Function.update_self _ _ _
      · exact .inr ⟨s', hmem⟩

section Counted

variable {u : State W}

/-- The state counts the notifications of a run. -/
theorem count_eq (hr : (machine W).Run initial xs u) :
    u.data.notified.toNat + u.data.aborted.toNat = notifies xs ∧
      (u.data.aborted = true → u.data.notified = true) := by
  obtain ⟨q, -, hs⟩ := served_reachable (Machine.Reachable.run (.initial rfl) hr)
  have hcount : u.data.count = 0 + notifies xs := count_run hr
  rw [Nat.zero_add] at hcount
  exact ⟨hcount, hs.aborted⟩

theorem notified_iff (hr : (machine W).Run initial xs u) :
    u.data.notified = true ↔ 1 ≤ notifies xs := by
  obtain ⟨hcount, ha⟩ := count_eq hr
  cases hn : u.data.notified with
  | true =>
    rw [hn, Bool.toNat_true] at hcount
    constructor
    · intro _
      omega
    · intro _
      rfl
  | false =>
    have hab : u.data.aborted = false := by
      by_contra h
      rw [ha (Bool.of_not_eq_false h)] at hn
      cases hn
    rw [hn, hab, Bool.toNat_false] at hcount
    constructor
    · intro h
      cases h
    · intro h
      omega

theorem aborted_iff (hr : (machine W).Run initial xs u) :
    u.data.aborted = true ↔ notifies xs = 2 := by
  obtain ⟨hcount, ha⟩ := count_eq hr
  cases hab : u.data.aborted with
  | true =>
    rw [hab, ha hab, Bool.toNat_true] at hcount
    constructor
    · intro _
      omega
    · intro _
      rfl
  | false =>
    have hle := Bool.toNat_le u.data.notified
    rw [hab, Bool.toNat_false] at hcount
    constructor
    · intro h
      cases h
    · intro h
      omega

/-- Everybody has returned where nothing happens after a notification. -/
theorem outside_of_notified (h : (machine W).Reachable u) (ha : u.data.aborted = false)
    (hq : Quiescent u) (hn : u.data.notified = true) :
    u.Waiters () [] ∧ ∀ w, u.stage w = .outside := by
  obtain ⟨q, hi, hs⟩ := served_reachable h
  have hnil : q () = [] := by
    rcases hs.served hn with hnil | ⟨w, hw, -⟩
    · exact hnil
    · rcases stage_of_quiescent hi ha hq w with ho | ho
      · exact absurd (hw.symm.trans ho) (by simp)
      · exact absurd (hw.symm.trans ho) (by simp)
  constructor
  · exact hi.waiters_iff.mpr hnil
  · intro w
    rcases stage_of_quiescent hi ha hq w with ho | hw
    · exact ho
    · have hm : w ∈ q () := hi.mem_iff.mpr hw
      rw [hnil] at hm
      cases hm

/-- Everybody who came to wait waits where nothing happens and nobody has notified. -/
theorem waits_of_unnotified (hr : (machine W).Run initial xs u) (ha : u.data.aborted = false)
    (hq : Quiescent u) (hzero : notifies xs = 0) (w : W) :
    (u.stage w = .outside ∧ u.pc w = .idle ∨ u.stage w = .waiting () ∧ u.pc w = .wait) ∧
      ((∃ s, (s, .arrive w .wait) ∈ xs) → u.stage w = .waiting ()) := by
  have hreach : (machine W).Reachable u := Machine.Reachable.run (.initial rfl) hr
  obtain ⟨q, hi, -⟩ := served_reachable hreach
  obtain ⟨hwaiting, houtside⟩ := pc_of_stage (w := w) hreach
  have hstay : (∃ s, (s, .arrive w .wait) ∈ xs) → u.pc w = .wait := by
    intro hcame
    have hcount := (count_eq hr).1
    rw [hzero] at hcount
    exact pc_run (.initial rfl) hr hcount (.inr hcame)
  rcases stage_of_quiescent hi ha hq w with ho | hw
  · refine ⟨.inl ⟨ho, houtside ho⟩, fun hcame => ?_⟩
    rw [houtside ho] at hstay
    cases hstay hcame
  · exact ⟨.inr ⟨hw, hwaiting hw⟩, fun _ => hw⟩

end Counted

/-- The first `Notify` to get the lock notifies, and the second one aborts. Nobody returns from a
wait before, and when nothing happens any more without an abort everybody has returned if it is
notified, and else everybody who came to wait still waits. -/
theorem notified_once {u : State W} (hr : (machine W).Run initial xs u) :
    (u.data.notified = true ↔ 1 ≤ notifies xs) ∧ (u.data.aborted = true ↔ notifies xs = 2) ∧
    (∀ w, u.pc w = .waited → 1 ≤ notifies xs) ∧
    (u.data.aborted = false → Quiescent u →
      (1 ≤ notifies xs → u.Waiters () [] ∧ ∀ w, u.stage w = .outside) ∧
      (notifies xs = 0 → ∀ w, (u.stage w = .outside ∧ u.pc w = .idle ∨
        u.stage w = .waiting () ∧ u.pc w = .wait) ∧
        ((∃ s, (s, .arrive w .wait) ∈ xs) → u.stage w = .waiting ()))) := by
  have hreach : (machine W).Reachable u := Machine.Reachable.run (.initial rfl) hr
  obtain ⟨q, -, hs⟩ := served_reachable hreach
  refine ⟨notified_iff hr, aborted_iff hr, ?_, ?_⟩
  · intro w hw
    exact (notified_iff hr).mp (hs.waited w hw)
  · intro ha hq
    constructor
    · intro hn
      exact outside_of_notified hreach ha hq ((notified_iff hr).mpr hn)
    · exact waits_of_unnotified hr ha hq

/-- Thread 1 waits, thread 0 notifies it, and thread 2 is too late to notify it again. -/
def notifyTwice : List (Label ℕ) :=
  [.arrive 1 .wait, .resume 1, .run 1, .arrive 0 .notify, .arrive 2 .notify, .resume 0, .run 0,
    .run 0, .run 0, .run 0, .run 0, .resume 2, .run 2]

theorem notifyTwice_aborts : ∃ xs u, (machine ℕ).Run initial xs u ∧ xs.map Prod.snd = notifyTwice ∧
    u.queue = [2, 1] ∧ u.data.aborted = true ∧ notifies xs = 2 := by
  have he : ((machine ℕ).exec initial notifyTwice).any
      (fun u => decide (u.queue = [2, 1] ∧ u.data.aborted = true)) = true := by decide
  cases hs : (machine ℕ).exec initial notifyTwice with
  | none => simp [hs] at he
  | some u =>
    obtain ⟨xs, hr, hx⟩ := Machine.exec_run hs
    obtain ⟨hq, ha⟩ : u.queue = [2, 1] ∧ u.data.aborted = true := by simpa [hs] using he
    exact ⟨xs, u, hr, hx, hq, ha, (notified_once hr).2.1.mp ha⟩

end Eventuals.Notification
