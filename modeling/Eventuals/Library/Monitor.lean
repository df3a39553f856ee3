import Eventuals.Library.Fifo
import Mathlib.Logic.Function.Basic

/-! Programs that share data under a first-come first-served lock with condition variables. -/
namespace Monitor

open Function (update)
open Transition (Machine)

/-- What the thread that holds the lock does next: `wait` without a condition waits for a
notification of its own. -/
inductive Instr (K C D : Type*)
  | assign (d : D) (c : C)
  | make (c : C)
  | wait (k : K) (condition : Option Bool) (c : C)
  | notify (k : K) (c : C)
  | notifyAll (k : K) (c : C)
  | release (c : C)

/-- Where the thread goes once the instruction is over. -/
def Instr.target {K C D : Type*} : Instr K C D → C
  | .assign _ c | .make c | .wait _ _ c | .notify _ c | .notifyAll _ c | .release c => c

def Instr.store {K C D : Type*} : Instr K C D → D → D
  | .assign d _, _ => d
  | _, d => d

/-- `entry` says which sections a thread outside the lock may start. -/
structure Program (K C D : Type*) where
  code : C → D → Instr K C D
  entry : C → C → Bool

inductive Stage (K : Type*)
  | outside
  | arriving
  | woken (k : K)
  | running
  | waiting (k : K)
  deriving DecidableEq

/-- Threads that stand in the queue of the lock; the first of them holds it. -/
def Stage.queued {K : Type*} : Stage K → Bool
  | .arriving | .woken _ | .running => true
  | _ => false

/-- Threads at the front of the queue that have not started to run. -/
def Stage.resumable {K : Type*} : Stage K → Bool
  | .arriving | .woken _ => true
  | _ => false

structure State (W K C D : Type*) where
  queue : List W
  waiters : K → List W
  stage : W → Stage K
  pc : W → C
  notified : W → Bool
  data : D

inductive Label (W C : Type*)
  | arrive (w : W) (c : C)
  | resume (w : W)
  | run (w : W)

/-- A step of the given thread that holds the lock. -/
def Label.isRun {W C : Type*} [DecidableEq W] (l : Label W C) (w : W) : Bool :=
  match l with
  | .run v => decide (v = w)
  | _ => false

variable {W K C D : Type*} {P : Program K C D} {s : State W K C D} {v w : W} {k j : K}

def initial (c : C) (d : D) : State W K C D where
  queue := []
  waiters _ := []
  stage _ := .outside
  pc _ := c
  notified _ := false
  data := d

/-- The queue and the waiters agree with where each thread stands. -/
structure WellFormed (s : State W K C D) : Prop where
  nodup : s.queue.Nodup
  queue : ∀ w, w ∈ s.queue ↔ (s.stage w).queued = true
  running : ∀ w, s.stage w = .running → s.queue.head? = some w
  nodup_waiters : ∀ k, (s.waiters k).Nodup
  waiters : ∀ k w, w ∈ s.waiters k ↔ s.stage w = .waiting k

theorem wellFormed_initial (c : C) (d : D) : WellFormed (initial c d : State W K C D) := by
  constructor <;> simp [initial, Stage.queued]

theorem WellFormed.not_mem (h : WellFormed s) (hw : (s.stage w).queued = false) :
    w ∉ s.queue := by
  intro hm
  simp [(h.queue w).mp hm] at hw

/-- The running thread is the first of the queue. -/
theorem WellFormed.eq_cons (h : WellFormed s) (hw : s.stage w = .running) :
    ∃ q, s.queue = w :: q ∧ w ∉ q := by
  have hq := h.running w hw
  have hn := h.nodup
  cases hs : s.queue with
  | nil => simp [hs] at hq
  | cons v q =>
    simp only [hs, List.head?_cons, Option.some.injEq] at hq
    rw [hs] at hn
    exact ⟨q, by rw [hq], hq ▸ (List.nodup_cons.mp hn).1⟩

theorem WellFormed.running_unique (h : WellFormed s) (hv : s.stage v = .running)
    (hw : s.stage w = .running) : v = w :=
  Option.some.inj ((h.running v hv).symm.trans (h.running w hw))

theorem WellFormed.not_waiting (h : WellFormed s) (hw : (s.stage w).queued = true) :
    w ∉ s.waiters k := by
  intro hm
  simp [(h.waiters k w).mp hm, Stage.queued] at hw

section Steps

variable [DecidableEq W] [DecidableEq K]

def State.goto (s : State W K C D) (w : W) (c : C) : State W K C D :=
  { s with pc := update s.pc w c }

/-- The thread joins the queue of the lock. -/
def State.arrive (s : State W K C D) (w : W) (c : C) : State W K C D :=
  { s with
    queue := s.queue ++ [w], stage := update s.stage w .arriving, pc := update s.pc w c }

/-- The thread at the front of the queue starts to run. -/
def State.resume (s : State W K C D) (w : W) : State W K C D :=
  { s with stage := update s.stage w .running }

/-- The first of the waiters `w :: l` joins the queue of the lock. -/
def State.wake (s : State W K C D) (k : K) (w : W) (l : List W) : State W K C D :=
  { s with
    queue := s.queue ++ [w], waiters := update s.waiters k l,
    stage := update s.stage w (.woken k), notified := update s.notified w true }

/-- The holder joins the waiters and gives up the lock. -/
def State.block (s : State W K C D) (w : W) (k : K) : State W K C D :=
  { s with
    queue := s.queue.tail, waiters := update s.waiters k (s.waiters k ++ [w]),
    stage := update s.stage w (.waiting k) }

/-- The holder gives up the lock. -/
def State.leave (s : State W K C D) (w : W) (c : C) : State W K C D :=
  { s with
    queue := s.queue.tail, stage := update s.stage w .outside, pc := update s.pc w c }

def State.notify (s : State W K C D) (k : K) : State W K C D :=
  match s.waiters k with
  | [] => s
  | v :: l => s.wake k v l

def State.run (s : State W K C D) (w : W) : Instr K C D → State W K C D
  | .assign d c => { s.goto w c with data := d }
  | .make c => { s.goto w c with notified := update s.notified w false }
  | .wait k condition c =>
    if condition.getD (!s.notified w) then s.block w k else s.goto w c
  | .notify k c => (s.notify k).goto w c
  | .notifyAll k c =>
    match s.waiters k with
    | [] => s.goto w c
    | v :: l => s.wake k v l
  | .release c => s.leave w c

def Enabled (P : Program K C D) (s : State W K C D) : Label W C → Prop
  | .arrive w c => s.stage w = .outside ∧ P.entry (s.pc w) c = true
  | .resume w => s.queue.head? = some w ∧ (s.stage w).resumable = true
  | .run w => s.stage w = .running

instance : ∀ (s : State W K C D) (l : Label W C), Decidable (Enabled P s l)
  | s, .arrive w c =>
    inferInstanceAs (Decidable (s.stage w = .outside ∧ P.entry (s.pc w) c = true))
  | s, .resume w =>
    inferInstanceAs (Decidable (s.queue.head? = some w ∧ (s.stage w).resumable = true))
  | s, .run w => inferInstanceAs (Decidable (s.stage w = .running))

def next (P : Program K C D) (s : State W K C D) : Label W C → State W K C D
  | .arrive w c => s.arrive w c
  | .resume w => s.resume w
  | .run w => s.run w (P.code (s.pc w) s.data)

def machine (P : Program K C D) (c : C) (d : D) :
    Machine (State W K C D) (Label W C) where
  Initial s := s = initial c d
  Enabled := Enabled P
  next := next P

instance (c : C) (d : D) (s : State W K C D) (l : Label W C) :
    Decidable ((machine P c d).Enabled s l) :=
  inferInstanceAs (Decidable (Enabled P s l))

/-- Threads notified through `k` that are still queued for the lock, oldest first. -/
def State.woken (s : State W K C D) (k : K) : List W :=
  s.queue.filter fun w => decide (s.stage w = .woken k)

omit [DecidableEq K] in
theorem wellFormed_goto (h : WellFormed s) (c : C) : WellFormed (s.goto w c) :=
  ⟨h.nodup, h.queue, h.running, h.nodup_waiters, h.waiters⟩

omit [DecidableEq K] in
theorem wellFormed_arrive (h : WellFormed s) (hw : s.stage w = .outside) (c : C) :
    WellFormed (s.arrive w c) := by
  have hn : w ∉ s.queue := h.not_mem (by simp [hw, Stage.queued])
  constructor
  · refine List.nodup_append.mpr ⟨h.nodup, by simp, ?_⟩
    rintro v hv u hu rfl
    exact hn (List.mem_singleton.mp hu ▸ hv)
  · intro z
    by_cases hz : z = w
    · simp [State.arrive, hz, Stage.queued]
    · simp [State.arrive, hz, h.queue z]
  · intro z hz
    by_cases hzw : z = w
    · simp [State.arrive, hzw] at hz
    · simp only [State.arrive, List.head?_append]
      rw [h.running z (by simpa [State.arrive, hzw] using hz)]
      rfl
  · exact h.nodup_waiters
  · intro k z
    by_cases hz : z = w
    · simp [State.arrive, hz, h.waiters, hw]
    · simp [State.arrive, hz, h.waiters]

omit [DecidableEq K] in
theorem wellFormed_resume (h : WellFormed s) (hq : s.queue.head? = some w) :
    WellFormed (s.resume w) := by
  have hw := (h.queue w).mp (List.mem_of_head? hq)
  constructor
  · exact h.nodup
  · intro z
    by_cases hz : z = w
    · simp [State.resume, hz, Stage.queued, List.mem_of_head? hq]
    · simp [State.resume, hz, h.queue z]
  · intro z hz
    by_cases hzw : z = w
    · exact hzw ▸ hq
    · exact h.running z (by simpa [State.resume, hzw] using hz)
  · exact h.nodup_waiters
  · intro k z
    by_cases hz : z = w
    · simpa [State.resume, hz] using h.not_waiting hw
    · simp [State.resume, hz, h.waiters]

theorem wellFormed_wake (h : WellFormed s) {l : List W} (hk : s.waiters k = v :: l) :
    WellFormed (s.wake k v l) := by
  have hv : s.stage v = .waiting k := (h.waiters k v).mp (by simp [hk])
  have hn : v ∉ s.queue := h.not_mem (by simp [hv, Stage.queued])
  have hl := h.nodup_waiters k
  rw [hk, List.nodup_cons] at hl
  constructor
  · refine List.nodup_append.mpr ⟨h.nodup, by simp, ?_⟩
    rintro u hu z hz rfl
    exact hn (List.mem_singleton.mp hz ▸ hu)
  · intro z
    by_cases hz : z = v
    · simp [State.wake, hz, Stage.queued]
    · simp [State.wake, hz, h.queue z]
  · intro z hz
    by_cases hzv : z = v
    · simp [State.wake, hzv] at hz
    · simp only [State.wake, List.head?_append]
      rw [h.running z (by simpa [State.wake, hzv] using hz)]
      rfl
  · intro i
    by_cases hi : i = k
    · simpa [State.wake, hi] using hl.2
    · simpa [State.wake, hi] using h.nodup_waiters i
  · intro i z
    have hmem := h.waiters i z
    by_cases hz : z = v
    · by_cases hi : i = k
      · simp [State.wake, hz, hi, hl.1]
      · have : Stage.waiting k ≠ Stage.waiting i := by simpa using Ne.symm hi
        simpa [State.wake, hz, hi, hv, this] using hmem
    · by_cases hi : i = k
      · subst hi
        simpa [State.wake, hz, hk] using hmem
      · simpa [State.wake, hz, hi] using hmem

theorem wellFormed_block (h : WellFormed s) (hw : s.stage w = .running) :
    WellFormed (s.block w k) := by
  obtain ⟨q, hq, hwq⟩ := h.eq_cons hw
  have hn : ∀ i, w ∉ s.waiters i := fun i => h.not_waiting (by simp [hw, Stage.queued])
  have hnd := h.nodup
  rw [hq, List.nodup_cons] at hnd
  constructor
  · simpa [State.block, hq] using hnd.2
  · intro z
    by_cases hz : z = w
    · simp [State.block, hz, hq, hwq, Stage.queued]
    · simpa [State.block, hz, hq] using h.queue z
  · intro z hz
    by_cases hzw : z = w
    · simp [State.block, hzw] at hz
    · exact (hzw (h.running_unique (by simpa [State.block, hzw] using hz) hw)).elim
  · intro i
    by_cases hi : i = k
    · subst hi
      simp only [State.block, Function.update_self]
      refine List.nodup_append.mpr ⟨h.nodup_waiters i, by simp, ?_⟩
      rintro u hu z hz rfl
      exact hn i (List.mem_singleton.mp hz ▸ hu)
    · simpa [State.block, hi] using h.nodup_waiters i
  · intro i z
    by_cases hz : z = w
    · by_cases hi : i = k
      · simp [State.block, hz, hi]
      · have : Stage.waiting k ≠ Stage.waiting i := by simpa using Ne.symm hi
        simp [State.block, hz, hi, hn i, this]
    · by_cases hi : i = k
      · simp [State.block, hz, hi, h.waiters]
      · simp [State.block, hz, hi, h.waiters]

omit [DecidableEq K] in
theorem wellFormed_leave (h : WellFormed s) (hw : s.stage w = .running) (c : C) :
    WellFormed (s.leave w c) := by
  obtain ⟨q, hq, hwq⟩ := h.eq_cons hw
  have hnd := h.nodup
  rw [hq, List.nodup_cons] at hnd
  constructor
  · simpa [State.leave, hq] using hnd.2
  · intro z
    by_cases hz : z = w
    · simp [State.leave, hz, hq, hwq, Stage.queued]
    · simpa [State.leave, hz, hq] using h.queue z
  · intro z hz
    by_cases hzw : z = w
    · simp [State.leave, hzw] at hz
    · exact (hzw (h.running_unique (by simpa [State.leave, hzw] using hz) hw)).elim
  · exact h.nodup_waiters
  · intro i z
    by_cases hz : z = w
    · simpa [State.leave, hz] using h.not_waiting (k := i) (by simp [hw, Stage.queued])
    · simp [State.leave, hz, h.waiters]

theorem wellFormed_notify (h : WellFormed s) (k : K) : WellFormed (s.notify k) := by
  unfold State.notify
  cases hk : s.waiters k with
  | nil => exact h
  | cons v l => exact wellFormed_wake h hk

theorem wellFormed_run (h : WellFormed s) (hw : s.stage w = .running) (i : Instr K C D) :
    WellFormed (s.run w i) := by
  cases i with
  | assign d c => exact ⟨h.nodup, h.queue, h.running, h.nodup_waiters, h.waiters⟩
  | make c => exact ⟨h.nodup, h.queue, h.running, h.nodup_waiters, h.waiters⟩
  | wait k condition c =>
    simp only [State.run]
    split
    · exact wellFormed_block h hw
    · exact wellFormed_goto h c
  | notify k c => exact wellFormed_goto (wellFormed_notify h k) c
  | notifyAll k c =>
    simp only [State.run]
    cases hk : s.waiters k with
    | nil => exact wellFormed_goto h c
    | cons v l => exact wellFormed_wake h hk
  | release c => exact wellFormed_leave h hw c

theorem wellFormed_next {l : Label W C} (h : WellFormed s) (he : Enabled P s l) :
    WellFormed (next P s l) := by
  cases l with
  | arrive w c => exact wellFormed_arrive h he.1 c
  | resume w => exact wellFormed_resume h he.1
  | run w => exact wellFormed_run h he _

omit [DecidableEq W] [DecidableEq K] in
/-- Where no thread can go on, nobody is on the way to the lock. -/
theorem WellFormed.queue_nil (h : WellFormed s) (hresume : ∀ w, ¬ Enabled P s (.resume w))
    (hrun : ∀ w, ¬ Enabled P s (.run w)) : s.queue = [] := by
  cases hq : s.queue with
  | nil => rfl
  | cons w rest =>
    have hw : (s.stage w).queued = true := (h.queue w).mp (by simp [hq])
    have hhead : s.queue.head? = some w := by simp [hq]
    cases hs : s.stage w with
    | running => exact absurd hs (hrun w)
    | arriving => exact absurd ⟨hhead, by rw [hs]; rfl⟩ (hresume w)
    | woken k => exact absurd ⟨hhead, by rw [hs]; rfl⟩ (hresume w)
    | outside => simp [hs, Stage.queued] at hw
    | waiting k => simp [hs, Stage.queued] at hw

/-- A thread that arrives has not been notified. -/
theorem woken_arrive (h : WellFormed s) (hw : s.stage w = .outside) (c : C) :
    (s.arrive w c).woken k = s.woken k := by
  have hn : w ∉ s.queue := h.not_mem (by simp [hw, Stage.queued])
  simp only [State.woken, State.arrive, List.filter_append]
  rw [List.filter_cons_of_neg (by simp), List.filter_nil, List.append_nil]
  apply List.filter_congr
  intro z hz
  have hzw : z ≠ w := by
    rintro rfl
    exact hn hz
  simp [hzw]

theorem woken_resume (h : WellFormed s) (hq : s.queue.head? = some w)
    (hw : (s.stage w).resumable = true) :
    s.woken k = if s.stage w = .woken k then w :: (s.resume w).woken k
      else (s.resume w).woken k := by
  have hn := h.nodup
  cases hs : s.queue with
  | nil => simp [hs] at hq
  | cons z q =>
    simp only [hs, List.head?_cons, Option.some.injEq] at hq
    subst hq
    rw [hs, List.nodup_cons] at hn
    have htail : (q.filter fun u => decide (update s.stage z Stage.running u = .woken k)) =
        q.filter fun u => decide (s.stage u = .woken k) := by
      apply List.filter_congr
      intro u hu
      have huz : u ≠ z := by
        rintro rfl
        exact hn.1 hu
      simp [huz]
    simp only [State.woken, State.resume, hs]
    rw [List.filter_cons_of_neg (p := fun u => decide (update s.stage z Stage.running u = _))
      (by simp), htail]
    by_cases hz : s.stage z = .woken k
    · simp [hz]
    · simp [hz]

theorem woken_wake (h : WellFormed s) {l : List W} (hk : s.waiters k = v :: l) :
    (s.wake k v l).woken j = if j = k then s.woken k ++ [v] else s.woken j := by
  have hv : s.stage v = .waiting k := (h.waiters k v).mp (by simp [hk])
  have hn : v ∉ s.queue := h.not_mem (by simp [hv, Stage.queued])
  have hold : (s.queue.filter fun u => decide (update s.stage v (Stage.woken k) u = .woken j)) =
      s.woken j := by
    apply List.filter_congr
    intro u hu
    have huv : u ≠ v := by
      rintro rfl
      exact hn hu
    simp [huv]
  have hsplit : (s.wake k v l).woken j = s.woken j ++
      [v].filter fun u => decide (update s.stage v (Stage.woken k) u = .woken j) := by
    rw [← hold]
    exact List.filter_append ..
  rw [hsplit]
  by_cases hj : j = k
  · simp [hj]
  · simp [hj, Ne.symm hj]

/-- The holder that stops running is not among the notified threads. -/
theorem woken_tail {t : State W K C D} {x : Stage K} (h : WellFormed s)
    (hw : s.stage w = .running) (hq : t.queue = s.queue.tail)
    (hs : t.stage = update s.stage w x) : t.woken k = s.woken k := by
  obtain ⟨q, hc, hn⟩ := h.eq_cons hw
  simp only [State.woken, hq, hs, hc, List.tail_cons]
  rw [List.filter_cons_of_neg (by simp [hw])]
  apply List.filter_congr
  intro u hu
  have huw : u ≠ w := by
    rintro rfl
    exact hn hu
  simp [huw]

theorem woken_block (h : WellFormed s) (hw : s.stage w = .running) :
    (s.block w k).woken j = s.woken j :=
  woken_tail h hw rfl rfl

theorem woken_leave (h : WellFormed s) (hw : s.stage w = .running) (c : C) :
    (s.leave w c).woken k = s.woken k :=
  woken_tail h hw rfl rfl

omit [DecidableEq W] in
theorem mem_woken (h : WellFormed s) : w ∈ s.woken k ↔ s.stage w = .woken k := by
  simp only [State.woken, List.mem_filter, h.queue, decide_eq_true_eq]
  constructor
  · exact fun hw => hw.2
  · intro hw
    exact ⟨by simp [hw, Stage.queued], hw⟩

omit [DecidableEq K] in
theorem goto_home {home : C} (hw : s.stage w ≠ .outside)
    (h : ∀ v, s.stage v = .outside → s.pc v = home) (c : C) :
    ∀ v, (s.goto w c).stage v = .outside → (s.goto w c).pc v = home := by
  intro v hv
  have hvw : v ≠ w := by
    rintro rfl
    exact hw hv
  simpa [State.goto, hvw] using h v hv

theorem wake_home {home : C} (h : ∀ v, s.stage v = .outside → s.pc v = home) (k : K) (x : W)
    (l : List W) : ∀ v, (s.wake k x l).stage v = .outside → (s.wake k x l).pc v = home := by
  intro v hv
  by_cases hvx : v = x
  · simp [State.wake, hvx] at hv
  · exact h v (by simpa [State.wake, hvx] using hv)

/-- A thread that is outside stands where `release` leaves it. -/
theorem home_next {home : C} {l : Label W C} (hP : ∀ c d c', P.code c d = .release c' → c' = home)
    (he : Enabled P s l) (h : ∀ w, s.stage w = .outside → s.pc w = home) :
    ∀ w, (next P s l).stage w = .outside → (next P s l).pc w = home := by
  intro v hv
  cases l with
  | arrive w c =>
    by_cases hvw : v = w
    · simp [next, State.arrive, hvw] at hv
    · simpa [next, State.arrive, hvw] using h v (by simpa [next, State.arrive, hvw] using hv)
  | resume w =>
    by_cases hvw : v = w
    · simp [next, State.resume, hvw] at hv
    · exact h v (by simpa [next, State.resume, hvw] using hv)
  | run w =>
    have hw : s.stage w ≠ .outside := by simp [show s.stage w = .running from he]
    have hgoto := goto_home hw h
    simp only [next] at hv ⊢
    cases hc : P.code (s.pc w) s.data with
    | assign d c => exact hgoto c v (by simpa [hc, State.run] using hv)
    | make c => exact hgoto c v (by simpa [hc, State.run] using hv)
    | wait k condition c =>
      simp only [hc, State.run] at hv ⊢
      split at hv
      · next hb =>
        rw [if_pos hb]
        by_cases hvw : v = w
        · simp [State.block, hvw] at hv
        · exact h v (by simpa [State.block, hvw] using hv)
      · next hb =>
        rw [if_neg hb]
        exact hgoto c v hv
    | notify k c =>
      simp only [hc, State.run, State.notify] at hv ⊢
      cases hk : s.waiters k with
      | nil =>
        simp only [hk] at hv ⊢
        exact hgoto c v hv
      | cons x l =>
        have hx : (s.wake k x l).stage w ≠ .outside := by
          by_cases hwx : w = x
          · simp [State.wake, hwx]
          · simpa [State.wake, hwx] using hw
        simp only [hk] at hv ⊢
        exact goto_home hx (wake_home h k x l) c v hv
    | notifyAll k c =>
      simp only [hc, State.run] at hv ⊢
      cases hk : s.waiters k with
      | nil =>
        simp only [hk] at hv ⊢
        exact hgoto c v hv
      | cons x l =>
        simp only [hk] at hv ⊢
        exact wake_home h k x l v hv
    | release c =>
      rw [hc] at hv
      by_cases hvw : v = w
      · simpa [State.run, State.leave, hvw] using hP _ _ _ hc
      · simpa [State.run, State.leave, hvw] using
          h v (by simpa [State.run, State.leave, hvw] using hv)

variable {c : C} {d : D}

/-- The lock of a monitor is a first-come first-served queue. -/
theorem refines_fifo :
    Transition.Simulation (machine P c d) (Fifo.machine W)
      fun s q => WellFormed s ∧ q = s.queue := by
  apply Fifo.simulation
  · rintro s rfl
    exact ⟨wellFormed_initial c d, rfl⟩
  · rintro s q l ⟨h, rfl⟩ he
    have ht := wellFormed_next h he
    have enqueue : ∀ v, v ∉ s.queue → (next P s l).queue = s.queue ++ [v] →
        ∃ v, v ∉ s.queue ∧ WellFormed (next P s l) ∧ s.queue ++ [v] = (next P s l).queue :=
      fun v hv hq => ⟨v, hv, ht, hq.symm⟩
    have wake : ∀ k v l', s.waiters k = v :: l' → v ∉ s.queue := by
      intro k v l' hk
      apply h.not_mem
      rw [(h.waiters k v).mp (by simp [hk])]
      rfl
    cases l with
    | arrive w c =>
      refine Or.inr (Or.inl (enqueue w (h.not_mem ?_) rfl))
      rw [he.1]
      rfl
    | resume w => exact Or.inl ⟨ht, rfl⟩
    | run w =>
      have hne : s.queue ≠ [] := by
        obtain ⟨q, hq, -⟩ := h.eq_cons he
        simp [hq]
      cases hc : P.code (s.pc w) s.data with
      | assign d c => exact Or.inl ⟨ht, by simp [machine, next, State.run, State.goto, hc]⟩
      | make c => exact Or.inl ⟨ht, by simp [machine, next, State.run, State.goto, hc]⟩
      | wait k condition c =>
        by_cases hb : condition.getD (!s.notified w) = true
        · exact Or.inr (Or.inr ⟨hne, ht, by simp [machine, next, State.run, State.block, hc, hb]⟩)
        · exact Or.inl ⟨ht, by simp [machine, next, State.run, State.goto, hc, hb]⟩
      | notify k c =>
        cases hk : s.waiters k with
        | nil =>
          exact Or.inl ⟨ht, by simp [machine, next, State.run, State.notify, State.goto, hc, hk]⟩
        | cons v l' =>
          refine Or.inr (Or.inl (enqueue v (wake k v l' hk) ?_))
          simp [next, State.run, State.notify, State.goto, State.wake, hc, hk]
      | notifyAll k c =>
        cases hk : s.waiters k with
        | nil => exact Or.inl ⟨ht, by simp [machine, next, State.run, State.goto, hc, hk]⟩
        | cons v l' =>
          refine Or.inr (Or.inl (enqueue v (wake k v l' hk) ?_))
          simp [next, State.run, State.wake, hc, hk]
      | release c =>
        exact Or.inr (Or.inr ⟨hne, ht, by simp [machine, next, State.run, State.leave, hc]⟩)

end Steps

end Monitor
