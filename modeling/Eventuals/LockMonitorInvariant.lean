import Eventuals.LockMonitor
import Eventuals.LockLine

/-! What an instruction of the lock does to the threads that run, wait or come to it. -/
namespace Eventuals.LockMonitor

open Function (update)
open Monitor (Instr Program Stage)
open Transition (Machine)
open Lock (Place)

variable {W K C D X : Type*}

/-- The thread is notified, and its waiter has not joined the queue of the lock. -/
def State.delivering [DecidableEq W] (s : State W K C D X) : Option (W × K) :=
  match s.notifying with
  | .none => none
  | .calling x k => some (x, k)
  | .acquiring x k => if s.lock.pc (.wait x) = .queued then none else some (x, k)

/-- Where the waiters of a thread stand, by where the thread stands. -/
def Stands (P : Program K C D) (context : W → X) (s : State W K C D X) (w : W) : Prop :=
  match s.lists.stage w with
  | .outside => (s.lock.pc (.wait w)).place = .away ∧
      ((s.lock.pc (.acquire w)).place = .away ∨ (s.lock.pc (.acquire w)).place = .coming ∧
        s.lock.pc (.wait w) = .idle ∧ P.entry (s.lists.pc w) (s.section_ w) = true)
  | .arriving => (s.lock.pc (.acquire w)).place = .queued ∧ s.lock.pc (.wait w) = .idle
  | .woken _ => s.lock.pc (.acquire w) = .idle ∧ (s.lock.pc (.wait w)).place = .queued
  | .running => s.lock.pc (.acquire w) = .critical ∧ s.lock.pc (.wait w) = .idle ∨
      s.lock.pc (.acquire w) = .idle ∧ s.lock.pc (.wait w) = .critical
  | .waiting k => (s.lock.pc (.acquire w)).place = .away ∧
      (s.lock.pc (.acquire w) = .idle ∨ s.lock.pc (.wait w) = .idle) ∧
      s.lock.Ready (.wait w) .slow ∧ s.lock.self (.wait w) = context w ∧ s.Parked w ∧
      ((s.lock.pc (.wait w)).place = .away ∨
        s.notifying = .acquiring w k ∧ (s.lock.pc (.wait w)).enqueuing = true)

/-- How the waiters of the lock follow the threads. -/
structure Inv (P : Program K C D) (context : W → X) (s : State W K C D X)
    (q : List (Waiter W)) : Prop where
  lock : Lock.Inv s.lock q
  failed : s.failed = none
  queue : s.lists.queue = (s.lock.line q).map Waiter.thread
  stands : ∀ w, Stands P context s w
  self : ∀ u, s.lock.pc u ≠ .idle → s.lock.self u = context u.thread
  calling : ∀ x k, s.notifying = .calling x k → s.lists.stage x = .waiting k ∧
    (s.lock.pc (.wait x)).place = .away ∧ ∃ w, s.Runs w
  acquiring : ∀ x k, s.notifying = .acquiring x k → (∃ w, s.Runs w) ∧
    (s.lists.stage x = .waiting k ∧ (s.lock.pc (.wait x)).enqueuing = true ∨
      s.lists.stage x = .woken k ∧ s.lock.pc (.wait x) = .queued)

/-- The thread `w` is about to notify `x`, and then to go on with `c` or with its loop. -/
structure Notifies (P : Program K C D) (a : ConditionVariable.State W K C D) (w : W) (k : K)
    (x : W) (c : Option C) : Prop where
  running : a.stage w = .running
  head : a.head k = some x
  notifiable : a.notifiable x = true
  code : match c with
    | some c => P.code (a.pc w) a.data = .notify k c
    | none => a.position w = .loop ∧ ∃ c, P.code (a.pc w) a.data = .notifyAll k c

variable {P : Program K C D} {context : W → X} {s t : State W K C D X} {q q' : List (Waiter W)}
  {a v : ConditionVariable.State W K C D} {u : Waiter W} {w x y : W} {k : K} {c : Option C}

/-- A thread stands where it stood, and so do its waiters. -/
theorem Stands.of_place (h : Stands P context s w) (hstage : t.lists.stage w = s.lists.stage w)
    (hpc : t.lists.pc w = s.lists.pc w) (hsection : t.section_ w = s.section_ w)
    (hplace : ∀ u : Waiter W, u.thread = w → (t.lock.pc u).place = (s.lock.pc u).place)
    (hidle : ∀ u : Waiter W, u.thread = w → s.lock.pc u = .idle → t.lock.pc u = .idle)
    (hwait : ∀ k, s.lists.stage w = .waiting k → t.lock.Ready (.wait w) .slow ∧
      t.lock.self (.wait w) = context w ∧ t.Parked w ∧ ((t.lock.pc (.wait w)).place = .away ∨
        t.notifying = .acquiring w k ∧ (t.lock.pc (.wait w)).enqueuing = true)) :
    Stands P context t w := by
  have hcritical : ∀ u : Waiter W, u.thread = w → s.lock.pc u = .critical →
      t.lock.pc u = .critical := by
    intro u hu hc
    rw [← Lock.place_eq_critical, hplace u hu, Lock.place_eq_critical, hc]
  unfold Stands at h ⊢
  rw [hstage]
  cases hs : s.lists.stage w with
  | outside =>
    simp only [hs] at h ⊢
    obtain ⟨hw, ha⟩ := h
    rw [hplace _ rfl, hplace _ rfl, hpc, hsection]
    refine ⟨hw, ?_⟩
    rcases ha with ha | ⟨hc, hi, he⟩
    · exact .inl ha
    · exact .inr ⟨hc, hidle _ rfl hi, he⟩
  | arriving =>
    simp only [hs] at h ⊢
    rw [hplace _ rfl]
    exact ⟨h.1, hidle _ rfl h.2⟩
  | woken k =>
    simp only [hs] at h ⊢
    rw [hplace _ rfl]
    exact ⟨hidle _ rfl h.1, h.2⟩
  | running =>
    simp only [hs] at h ⊢
    rcases h with ⟨hc, hi⟩ | ⟨hi, hc⟩
    · exact .inl ⟨hcritical _ rfl hc, hidle _ rfl hi⟩
    · exact .inr ⟨hidle _ rfl hi, hcritical _ rfl hc⟩
  | waiting k =>
    simp only [hs] at h ⊢
    obtain ⟨ha, hi, -⟩ := h
    obtain ⟨hready, hself, hparked, hp⟩ := hwait k hs
    rw [hplace _ rfl]
    exact ⟨ha, hi.imp (hidle _ rfl) (hidle _ rfl), hready, hself, hparked, hp⟩

theorem State.Runs.holder (h : s.Runs w) : ∃ u, u.thread = w ∧ s.lock.pc u = .critical := by
  rcases h with h | h
  · exact ⟨_, rfl, h⟩
  · exact ⟨_, rfl, h⟩

/-- The thread of a waiter in its critical section runs its section. -/
theorem runs_of_critical (h : s.lock.pc u = .critical) : s.Runs u.thread := by
  cases u with
  | acquire w => exact .inl h
  | wait w => exact .inr h

/-- A thread that runs its section holds the lock through one of its waiters. -/
theorem Inv.stage_of_runs (h : Inv P context s q) (hw : s.Runs w) :
    s.lists.stage w = .running := by
  have hstands := h.stands w
  unfold Stands at hstands
  cases hs : s.lists.stage w <;> rcases hw with hw | hw <;>
    simp_all [Lock.PC.place, Lock.PC.enqueuing]

/-- The checks that a section makes hold. -/
theorem Inv.owned (h : Inv P context s q) (hw : s.Runs w) :
    s.Owned context w ∧ s.lock.head ≠ none := by
  obtain ⟨u, rfl, hu⟩ := hw.holder
  have howner := h.lock.owner u (by simp [hu, Lock.PC.owns])
  have hself := h.self u (by simp [hu])
  refine ⟨?_, h.lock.head_ne_none (w := u) (by simp [hu, Lock.PC.holder])⟩
  unfold State.Owned
  rw [howner, hself]

variable [DecidableEq W] [DecidableEq K]

/-- The lists are those of `a`, or `a` is about to notify. -/
def Matches (P : Program K C D) (s : State W K C D X) (a : ConditionVariable.State W K C D) :
    Prop :=
  match s.delivering with
  | none => s.lists = a
  | some (x, k) => ∃ w c, Notifies P a w k x c ∧ s.lists = delivered a w k x c

@[simp] theorem delivered_stage : (delivered v w k x c).stage = v.stage := by
  cases c <;> rfl

@[simp] theorem delivered_queue : (delivered v w k x c).queue = v.queue := by
  cases c <;> rfl

/-- What remains of a notification once the waiter has joined the queue of the lock. -/
theorem Notifies.next_eq (h : Notifies P a w k x c) :
    ConditionVariable.next P a (.run w) = woken (delivered a w k x c) k x := by
  obtain ⟨-, hhead, hnotifiable, hcode⟩ := h
  cases c with
  | some c =>
    simp only [ConditionVariable.next, ConditionVariable.State.run, hcode,
      ConditionVariable.State.notify, hhead, ConditionVariable.State.callback, hnotifiable,
      if_true]
    rfl
  | none =>
    obtain ⟨hloop, c, hcode⟩ := hcode
    simp only [ConditionVariable.next, ConditionVariable.State.run, hcode,
      ConditionVariable.State.notifyAll, hloop, ConditionVariable.State.notify, hhead,
      ConditionVariable.State.callback, hnotifiable, if_true]
    rfl

/-- A thread that comes to the lock meanwhile does not disturb a notification. -/
theorem Notifies.arrive (h : Notifies P a w k x c) (hy : y ≠ w) (d : C) :
    Notifies P (ConditionVariable.next P a (.arrive y d)) w k x c ∧
      ConditionVariable.next P (delivered a w k x c) (.arrive y d) =
        delivered (ConditionVariable.next P a (.arrive y d)) w k x c := by
  have hpc : (ConditionVariable.next P a (.arrive y d)).pc w = a.pc w := by
    simp [ConditionVariable.next, ConditionVariable.State.goto, hy.symm]
  have hstage : (ConditionVariable.next P a (.arrive y d)).stage w = a.stage w := by
    simp [ConditionVariable.next, hy.symm]
  have hposition : (ConditionVariable.next P a (.arrive y d)).position w = a.position w := by
    simp [ConditionVariable.next, ConditionVariable.State.goto, hy.symm]
  constructor
  · refine ⟨hstage.trans h.running, h.head, h.notifiable, ?_⟩
    have hcode := h.code
    cases c with
    | some c =>
      simp only [hpc]
      exact hcode
    | none =>
      simp only [hpc, hposition]
      exact hcode
  · cases c with
    | some c =>
      simp only [ConditionVariable.next, delivered, pop, ConditionVariable.State.goto]
      rw [Function.update_comm hy, Function.update_comm hy]
    | none => rfl

theorem Matches.stage (h : Matches P s a) : s.lists.stage = a.stage := by
  unfold Matches at h
  cases hd : s.delivering with
  | none => rw [hd] at h; rw [h]
  | some n =>
    rw [hd] at h
    obtain ⟨w, c, -, h⟩ := h
    rw [h, delivered_stage]

theorem Matches.queue (h : Matches P s a) : s.lists.queue = a.queue := by
  unfold Matches at h
  cases hd : s.delivering with
  | none => rw [hd] at h; rw [h]
  | some n =>
    rw [hd] at h
    obtain ⟨w, c, -, h⟩ := h
    rw [h, delivered_queue]

/-- Only the thread that notifies has gone on. -/
theorem Matches.pc (h : Matches P s a) (hw : s.lists.stage w ≠ .running) :
    s.lists.pc w = a.pc w := by
  have hstage := h.stage
  unfold Matches at h
  cases hd : s.delivering with
  | none => rw [hd] at h; rw [h]
  | some n =>
    rw [hd] at h
    obtain ⟨v, c, hv, h⟩ := h
    have hwv : w ≠ v := by
      rintro rfl
      exact hw (hstage ▸ hv.running)
    rw [h]
    cases c with
    | some c => simp [delivered, pop, ConditionVariable.State.goto, hwv]
    | none => rfl

/-- A thread that comes to the lock may do so before a notification that is under way. -/
theorem Matches.arrive (h : Matches P s a) (hd : t.delivering = s.delivering) {d : C}
    (ht : t.lists = ConditionVariable.next P s.lists (.arrive w d))
    (hw : s.lists.stage w ≠ .running) :
    Matches P t (ConditionVariable.next P a (.arrive w d)) := by
  have hstage := h.stage
  unfold Matches at h ⊢
  rw [hd]
  cases hn : s.delivering with
  | none =>
    simp only [hn] at h ⊢
    rw [ht, h]
  | some n =>
    simp only [hn] at h ⊢
    obtain ⟨v, c, hv, h⟩ := h
    have hwv : w ≠ v := by
      rintro rfl
      exact hw (hstage ▸ hv.running)
    obtain ⟨hv', he⟩ := hv.arrive hwv d
    exact ⟨v, c, hv', by rw [ht, h, he]⟩

/-- Where nobody is about to be notified, the lists are those of `a`. -/
theorem Matches.eq_of_none (h : Matches P s a) (hn : s.notifying = .none) : s.lists = a := by
  simpa [Matches, State.delivering, hn] using h

section Lock

variable {p : Lock.PC (Waiter W)} {b : Bool}

/-- An instruction that neither joins the line nor starts a section records nothing. -/
theorem recorded_stays (hr : s.lock.pc u ≠ .relinquish) (hj : ¬ Lock.Joins (s.lock.pc u) p) :
    s.recorded P u p = s.lists := by
  unfold State.recorded
  split
  · next c c' hu => exact absurd (.inl ⟨c, c', hu, rfl⟩) hj
  · next hu => exact absurd (.inr ⟨hu, rfl⟩) hj
  · next hu => exact absurd hu hr
  · rfl

theorem recorded_joins (hj : Lock.Joins (s.lock.pc u) p) : s.recorded P u p = s.joined P u := by
  rcases hj with ⟨c, c', hu, rfl⟩ | ⟨hu, rfl⟩ <;> simp [State.recorded, hu]

theorem recorded_starts (hr : s.lock.pc u = .relinquish) :
    s.recorded P u p = ConditionVariable.next P s.lists (.resume u.thread) := by
  simp [State.recorded, hr]

variable [DecidableEq X]

/-- The instruction may be run. -/
def Runnable (s : State W K C D X) (u : Waiter W) : Prop :=
  s.lock.pc u ≠ .idle ∧ s.lock.pc u ≠ .queued ∧ s.lock.pc u ≠ .critical

theorem Inv.runs_lock (h : Inv P context s q) (hu : Runnable s u) (hw : s.Runs w) :
    (next P context s (.lock u b)).Runs w :=
  hw.imp (Lock.run_critical h.lock b hu.2.2) (Lock.run_critical h.lock b hu.2.2)

theorem Inv.self_lock (h : Inv P context s q) (hu : Runnable s u) (z : Waiter W)
    (hz : (next P context s (.lock u b)).lock.pc z ≠ .idle) :
    (next P context s (.lock u b)).lock.self z = context z.thread := by
  have hself : (next P context s (.lock u b)).lock.self z = s.lock.self z := by
    change (Lock.run s.lock u b).self z = _
    rw [Lock.run_self]
  rw [hself]
  exact h.self z fun hi => hz (Lock.run_idle h.lock b hu.1 hi)

/-- A thread that waits goes on to wait until its waiter has joined. -/
theorem Inv.wait_lock (h : Inv P context s q) (hu : Runnable s u)
    (hstage : s.lists.stage w = .waiting k)
    (hlists : (next P context s (.lock u b)).lists.notifiable w = s.lists.notifiable w)
    (hplace : ((next P context s (.lock u b)).lock.pc (.wait w)).place =
      (s.lock.pc (.wait w)).place) :
    let t := next P context s (.lock u b)
    t.lock.Ready (.wait w) .slow ∧ t.lock.self (.wait w) = context w ∧ t.Parked w ∧
      ((t.lock.pc (.wait w)).place = .away ∨
        t.notifying = .acquiring w k ∧ (t.lock.pc (.wait w)).enqueuing = true) := by
  have hs := h.stands w
  simp only [Stands, hstage] at hs
  obtain ⟨-, -, hready, hself, hparked, hp⟩ := hs
  refine ⟨?_, ?_, ?_, ?_⟩
  · exact Lock.run_ready h.lock b hu.1 hready (hp.imp id And.right)
  · change (Lock.run s.lock u b).self _ = _
    rw [Lock.run_self, hself]
  · exact hparked.imp (fun hn => hlists.trans hn) id
  · rcases hp with hp | ⟨hn, he⟩
    · exact .inl (hplace.trans hp)
    · exact .inr ⟨hn, Lock.run_enqueuing_stays h.lock b he hplace⟩

/-- A notification that is under way is still under way, unless its waiter joins. -/
theorem Inv.acquiring_lock (h : Inv P context s q) (hu : Runnable s u)
    (hstage : (next P context s (.lock u b)).lists.stage x = s.lists.stage x)
    (hplace : ((next P context s (.lock u b)).lock.pc (.wait x)).place =
      (s.lock.pc (.wait x)).place) (hn : s.notifying = .acquiring x k) :
    let t := next P context s (.lock u b)
    (∃ w, t.Runs w) ∧ (t.lists.stage x = .waiting k ∧ (t.lock.pc (.wait x)).enqueuing = true ∨
      t.lists.stage x = .woken k ∧ t.lock.pc (.wait x) = .queued) := by
  obtain ⟨⟨w, hw⟩, hx⟩ := h.acquiring x k hn
  refine ⟨⟨w, h.runs_lock hu hw⟩, ?_⟩
  rw [hstage]
  rcases hx with ⟨hs, he⟩ | ⟨hs, hq⟩
  · exact .inl ⟨hs, Lock.run_enqueuing_stays h.lock b he hplace⟩
  · obtain ⟨z, -, hz⟩ := hw.holder
    exact .inr ⟨hs, Lock.run_queued_held h.lock b hz hu.2.1 hq⟩

/-- What is about to be notified is what was, unless its waiter joins. -/
theorem Inv.delivering_lock (h : Inv P context s q) (hu : Runnable s u)
    (hplace : ∀ z : Waiter W, s.notifying.acquires z →
      ((next P context s (.lock u b)).lock.pc z).place = (s.lock.pc z).place) :
    (next P context s (.lock u b)).delivering = s.delivering := by
  unfold State.delivering
  cases hn : s.notifying with
  | none => simp [next, hn]
  | calling x k => simp [next, hn]
  | acquiring x k =>
    have hp := hplace (.wait x) (by simp [hn, Notifying.acquires])
    have hq : (Lock.run s.lock u b).pc (.wait x) = .queued ↔ s.lock.pc (.wait x) = .queued := by
      obtain ⟨⟨w, hw⟩, hx⟩ := h.acquiring x k hn
      obtain ⟨z, -, hz⟩ := hw.holder
      constructor
      · intro ht
        rcases hx with ⟨-, he⟩ | ⟨-, hq⟩
        · have hp' : ((Lock.run s.lock u b).pc (.wait x)).place = (s.lock.pc (.wait x)).place := hp
          rw [ht, Lock.coming_of_enqueuing he] at hp'
          cases hp'
        · exact hq
      · exact Lock.run_queued_held h.lock b hz hu.2.1
    simp only [next, hn, hq]

/-- An instruction after which everybody stands where it stood. -/
theorem matches_stays (h : Inv P context s q) (hm : Matches P s a) (hu : Runnable s u)
    (hplace : ∀ z, ((Lock.run s.lock u b).pc z).place = (s.lock.pc z).place)
    (hlists : s.recorded P u ((Lock.run s.lock u b).pc u) = s.lists) :
    ∃ q', Inv P context (next P context s (.lock u b)) q' ∧
      Matches P (next P context s (.lock u b)) a := by
  obtain ⟨q', hq, hlock⟩ := Lock.inv_run h.lock b (w := u)
  have hkeep : (next P context s (.lock u b)).lists = s.lists := hlists
  refine ⟨q', ⟨hlock, h.failed, ?_, ?_, h.self_lock hu, ?_, ?_⟩, ?_⟩
  · rw [hkeep, h.queue]
    congr 1
    exact (h.lock.line_eq hlock hq fun z => by rw [hplace z]).symm
  · intro w
    refine (h.stands w).of_place (by rw [hkeep]) (by rw [hkeep]) rfl (fun z _ => hplace z) ?_ ?_
    · intro z _ hz
      exact Lock.run_idle h.lock b hu.1 hz
    · intro k hs
      exact h.wait_lock hu hs (by rw [hkeep]) (hplace _)
  · intro x k hn
    obtain ⟨hs, hp, w, hw⟩ := h.calling x k hn
    exact ⟨by rw [hkeep, hs], (hplace _).trans hp, w, h.runs_lock hu hw⟩
  · intro x k hn
    exact h.acquiring_lock hu (by rw [hkeep]) (hplace _) hn
  · unfold Matches
    rw [h.delivering_lock hu fun z _ => hplace z, hkeep]
    exact hm

/-- An instruction for one thread leaves another one where it stands. -/
theorem Inv.stands_lock (h : Inv P context s q) (hu : Runnable s u) (hw : w ≠ u.thread)
    (hother : ∀ z, z ≠ u → (Lock.run s.lock u b).pc z = s.lock.pc z)
    (hstage : (next P context s (.lock u b)).lists.stage w = s.lists.stage w)
    (hpc : (next P context s (.lock u b)).lists.pc w = s.lists.pc w)
    (hnotifiable : (next P context s (.lock u b)).lists.notifiable w = s.lists.notifiable w) :
    Stands P context (next P context s (.lock u b)) w := by
  have hsame : ∀ z : Waiter W, z.thread = w → (Lock.run s.lock u b).pc z = s.lock.pc z := by
    rintro z rfl
    apply hother
    rintro rfl
    exact hw rfl
  refine (h.stands w).of_place hstage hpc rfl ?_ ?_ ?_
  · intro z hz
    exact congrArg Lock.PC.place (hsame z hz)
  · intro z hz hi
    exact (hsame z hz).trans hi
  · intro k hs
    exact h.wait_lock hu hs hnotifiable (congrArg Lock.PC.place (hsame _ rfl))

/-- The waiter of a thread that has come to the lock joins its queue. -/
theorem matches_arrive (h : Inv P context s q) (hm : Matches P s a)
    (hu : Runnable s (.acquire w))
    (hj : Lock.Joins (s.lock.pc (.acquire w)) ((Lock.run s.lock (.acquire w) b).pc (.acquire w)))
    (hother : ∀ z, z ≠ .acquire w → (Lock.run s.lock (.acquire w) b).pc z = s.lock.pc z) :
    ∃ q', Inv P context (next P context s (.lock (.acquire w) b)) q' ∧
      ConditionVariable.Enabled P a (.arrive w (s.section_ w)) ∧
      Matches P (next P context s (.lock (.acquire w) b))
        (ConditionVariable.next P a (.arrive w (s.section_ w))) := by
  obtain ⟨q', hq, hlock⟩ := Lock.inv_run h.lock b (w := Waiter.acquire w)
  obtain ⟨hcoming, hqueued⟩ := hj.place
  have hlists : (next P context s (.lock (.acquire w) b)).lists =
      ConditionVariable.next P s.lists (.arrive w (s.section_ w)) := recorded_joins hj
  have hstands := h.stands w
  unfold Stands at hstands
  cases hs : s.lists.stage w with
  | arriving => simp [hs, hcoming] at hstands
  | woken k => simp only [hs] at hstands; simp [hstands.1, Lock.PC.place] at hcoming
  | running =>
    simp only [hs] at hstands
    rcases hstands with ⟨hp, -⟩ | ⟨hp, -⟩ <;> simp [hp, Lock.PC.place] at hcoming
  | waiting k => simp [hs, hcoming] at hstands
  | outside =>
    simp only [hs, hcoming, reduceCtorEq, false_or, true_and] at hstands
    obtain ⟨haway, hidle, hentry⟩ := hstands
    have hstage : ∀ z, z ≠ w → (next P context s (.lock (.acquire w) b)).lists.stage z =
        s.lists.stage z := by
      intro z hz
      rw [hlists]
      simp [ConditionVariable.next, hz]
    have hne : ∀ z k, s.lists.stage z = .waiting k ∨ s.lists.stage z = .woken k → z ≠ w := by
      rintro z k hz rfl
      simp [hs] at hz
    have hwait : ∀ z, (Lock.run s.lock (.acquire w) b).pc (.wait z) = s.lock.pc (.wait z) :=
      fun z => hother _ (by simp)
    refine ⟨q', ⟨hlock, h.failed, ?_, ?_, h.self_lock hu, ?_, ?_⟩, ?_, ?_⟩
    · have hline := h.lock.line_join hlock hq hcoming hqueued fun z hz => by rw [hother z hz]
      rw [hlists]
      change s.lists.queue ++ [w] = _
      rw [h.queue, show (next P context s (.lock (.acquire w) b)).lock.line q' = _ from hline,
        List.map_append]
      rfl
    · intro z
      by_cases hz : z = w
      · subst hz
        unfold Stands
        rw [hlists]
        simp only [ConditionVariable.next, Function.update_self]
        exact ⟨hqueued, (hwait z).trans hidle⟩
      · refine h.stands_lock hu hz hother (hstage z hz) ?_ ?_
        · rw [hlists]
          simp [ConditionVariable.next, ConditionVariable.State.goto, hz]
        · rw [hlists]
          rfl
    · intro x k hn
      obtain ⟨hx, hp, v, hv⟩ := h.calling x k hn
      refine ⟨(hstage x (hne x k (.inl hx))).trans hx, ?_, v, h.runs_lock hu hv⟩
      exact (congrArg Lock.PC.place (hwait x)).trans hp
    · intro x k hn
      refine h.acquiring_lock hu (hstage x ?_) (congrArg Lock.PC.place (hwait x)) hn
      rcases (h.acquiring x k hn).2 with hx | hx
      · exact hne x k (.inl hx.1)
      · exact hne x k (.inr hx.1)
    · have hw : s.lists.stage w ≠ .running := by simp [hs]
      exact ⟨hm.stage ▸ hs, hm.pc hw ▸ hentry⟩
    · refine hm.arrive (h.delivering_lock hu fun z hz => ?_) hlists (by simp [hs])
      apply congrArg Lock.PC.place
      apply hother
      rintro rfl
      cases hn : s.notifying <;> simp [hn, Notifying.acquires] at hz

/-- The waiter of a thread that is being notified joins the queue of the lock. -/
theorem matches_woken (h : Inv P context s q) (hm : Matches P s a) (hu : Runnable s (.wait x))
    (hj : Lock.Joins (s.lock.pc (.wait x)) ((Lock.run s.lock (.wait x) b).pc (.wait x)))
    (hother : ∀ z, z ≠ .wait x → (Lock.run s.lock (.wait x) b).pc z = s.lock.pc z) :
    ∃ q', Inv P context (next P context s (.lock (.wait x) b)) q' ∧
      ∃ w, ConditionVariable.Enabled P a (.run w) ∧
        Matches P (next P context s (.lock (.wait x) b)) (ConditionVariable.next P a (.run w)) := by
  obtain ⟨q', hq, hlock⟩ := Lock.inv_run h.lock b (w := Waiter.wait x)
  obtain ⟨hcoming, hqueued⟩ := hj.place
  have hstands := h.stands x
  unfold Stands at hstands
  cases hs : s.lists.stage x with
  | outside => simp [hs, hcoming] at hstands
  | arriving => simp only [hs] at hstands; simp [hstands.2, Lock.PC.place] at hcoming
  | woken k => simp [hs, hcoming] at hstands
  | running =>
    simp only [hs] at hstands
    rcases hstands with ⟨-, hp⟩ | ⟨-, hp⟩ <;> simp [hp, Lock.PC.place] at hcoming
  | waiting k =>
    simp only [hs, hcoming, reduceCtorEq, false_or] at hstands
    obtain ⟨-, hidle, -, -, -, hn, he⟩ := hstands
    have hacquire : s.lock.pc (.acquire x) = .idle := by
      rcases hidle with hi | hi
      · exact hi
      · simp [hi, Lock.PC.place] at hcoming
    obtain ⟨⟨v, hv⟩, -⟩ := h.acquiring x k hn
    obtain ⟨z, -, hz⟩ := hv.holder
    have hhead : s.lock.head ≠ none := h.lock.head_ne_none (w := z) (by simp [hz, Lock.PC.holder])
    obtain ⟨hswap, hp⟩ := Lock.run_joins_held b hhead hj
    have hlists : (next P context s (.lock (.wait x) b)).lists = woken s.lists k x := by
      change s.recorded P _ _ = _
      rw [recorded_joins hj]
      simp [State.joined, hn]
    have hnotifying : (next P context s (.lock (.wait x) b)).notifying = .acquiring x k := hn
    have hdelivering : s.delivering = some (x, k) := by
      simp [State.delivering, hn, hswap]
    have hdone : (next P context s (.lock (.wait x) b)).delivering = none := by
      simp [State.delivering, next, hn, hp]
    have hstage : ∀ z, z ≠ x → (next P context s (.lock (.wait x) b)).lists.stage z =
        s.lists.stage z := by
      intro z hz
      rw [hlists]
      simp [woken, hz]
    refine ⟨q', ⟨hlock, h.failed, ?_, ?_, h.self_lock hu, ?_, ?_⟩, ?_⟩
    · have hline := h.lock.line_join hlock hq hcoming hqueued fun z hz => by rw [hother z hz]
      rw [hlists]
      change s.lists.queue ++ [x] = _
      rw [h.queue, show (next P context s (.lock (.wait x) b)).lock.line q' = _ from hline,
        List.map_append]
      rfl
    · intro z
      by_cases hz : z = x
      · subst hz
        unfold Stands
        rw [hlists]
        simp only [woken, Function.update_self]
        exact ⟨(hother _ (by simp)).trans hacquire, hqueued⟩
      · refine h.stands_lock hu hz hother (hstage z hz) ?_ ?_ <;>
          rw [hlists] <;> rfl
    · intro y j hy
      rw [hnotifying] at hy
      cases hy
    · intro y j hy
      rw [hnotifying] at hy
      cases hy
      refine ⟨⟨v, h.runs_lock hu hv⟩, .inr ⟨?_, hp⟩⟩
      rw [hlists]
      simp [woken]
    · unfold Matches at hm
      simp only [hdelivering] at hm
      obtain ⟨w, c, hw, hm⟩ := hm
      refine ⟨w, hw.running, ?_⟩
      unfold Matches
      simp only [hdone]
      rw [hlists, hm, hw.next_eq]

/-- The thread whose waiter has got the lock starts its section, or goes on with it. -/
theorem matches_resume (h : Inv P context s q) (hm : Matches P s a)
    (hr : s.lock.pc u = .relinquish) (hc : (Lock.run s.lock u b).pc u = .critical)
    (hother : ∀ z, z ≠ u → (Lock.run s.lock u b).pc z = s.lock.pc z) :
    ∃ q', Inv P context (next P context s (.lock u b)) q' ∧
      ConditionVariable.Enabled P a (.resume u.thread) ∧
      Matches P (next P context s (.lock u b))
        (ConditionVariable.next P a (.resume u.thread)) := by
  have hu : Runnable s u := ⟨by simp [hr], by simp [hr], by simp [hr]⟩
  obtain ⟨q', hq, hlock⟩ := Lock.inv_run h.lock b (w := u)
  have hlists : (next P context s (.lock u b)).lists =
      ConditionVariable.next P s.lists (.resume u.thread) := recorded_starts hr
  have hnobody : ∀ w, ¬ s.Runs w := by
    intro w hw
    obtain ⟨z, -, hz⟩ := hw.holder
    have hzu : z = u := h.lock.holder_unique (by simp [hz, Lock.PC.holder])
      (by simp [hr, Lock.PC.holder])
    simp [hzu, hr] at hz
  have hn : s.notifying = .none := by
    cases hn : s.notifying with
    | none => rfl
    | calling x k =>
      obtain ⟨-, -, w, hw⟩ := h.calling x k hn
      exact absurd hw (hnobody w)
    | acquiring x k =>
      obtain ⟨⟨w, hw⟩, -⟩ := h.acquiring x k hn
      exact absurd hw (hnobody w)
  have hnotifying : (next P context s (.lock u b)).notifying = .none := hn
  have hplace : ∀ z, ((Lock.run s.lock u b).pc z).place.lined = (s.lock.pc z).place.lined := by
    intro z
    by_cases hz : z = u
    · simp [hz, hc, hr, Lock.PC.place]
    · rw [hother z hz]
  have hresumable : (s.lists.stage u.thread).resumable = true ∧
      ∀ z : Waiter W, z.thread = u.thread → z ≠ u → s.lock.pc z = .idle := by
    have hstands := h.stands u.thread
    unfold Stands at hstands
    cases u with
    | acquire w =>
      simp only [Waiter.thread] at hstands ⊢
      cases hs : s.lists.stage w <;>
        simp only [hs, hr, Lock.PC.place, reduceCtorEq, false_and, and_false, or_self, false_or,
          true_and] at hstands
      refine ⟨rfl, ?_⟩
      rintro (v | v) rfl hz
      · exact absurd rfl hz
      · exact hstands
    | wait w =>
      simp only [Waiter.thread] at hstands ⊢
      cases hs : s.lists.stage w <;>
        simp [hs, hr, Lock.PC.place, Lock.PC.enqueuing] at hstands
      refine ⟨rfl, ?_⟩
      rintro (v | v) rfl hz
      · exact hstands
      · exact absurd rfl hz
  refine ⟨q', ⟨hlock, h.failed, ?_, ?_, h.self_lock hu, ?_, ?_⟩, ?_, ?_⟩
  · rw [hlists]
    change s.lists.queue = _
    rw [h.queue]
    congr 1
    exact (h.lock.line_eq hlock hq hplace).symm
  · intro z
    by_cases hz : z = u.thread
    · subst hz
      unfold Stands
      rw [hlists]
      simp only [ConditionVariable.next, Function.update_self]
      have hidle : ∀ z : Waiter W, z.thread = u.thread → z ≠ u →
          (Lock.run s.lock u b).pc z = .idle :=
        fun z hz hne => (hother z hne).trans (hresumable.2 z hz hne)
      cases u with
      | acquire w => exact .inl ⟨hc, hidle (.wait w) rfl (by simp)⟩
      | wait w => exact .inr ⟨hidle (.acquire w) rfl (by simp), hc⟩
    · refine h.stands_lock hu hz hother ?_ ?_ ?_ <;> rw [hlists]
      · simp [ConditionVariable.next, hz]
      · rfl
      · rfl
  · intro x k hx
    rw [hnotifying] at hx
    cases hx
  · intro x k hx
    rw [hnotifying] at hx
    cases hx
  · obtain ⟨q₀, -, -, hline⟩ := h.lock.line_cons (u := u) (by simp [hr, Lock.PC.holder])
      (by simp [hr, Lock.PC.place])
    refine ⟨?_, hm.stage ▸ hresumable.1⟩
    rw [← hm.queue, h.queue, hline]
    rfl
  · unfold Matches
    rw [h.delivering_lock hu fun z hz => by simp [hn, Notifying.acquires] at hz]
    simp only [State.delivering, hn]
    rw [hlists, hm.eq_of_none hn]

end Lock

end Eventuals.LockMonitor
