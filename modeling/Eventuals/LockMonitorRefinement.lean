import Eventuals.LockMonitorInvariant
import Eventuals.Notification

/-! Condition variables on the lock itself are a monitor: whatever the interleaving of the
instructions of the lock, the sections are run one after the other in the order in which their
threads have joined its queue. -/
namespace Eventuals.LockMonitor

open Function (update)
open Monitor (Instr Program Stage)
open Transition (Machine)

variable {W K C D X : Type*} [DecidableEq W] [DecidableEq K] {P : Program K C D}
  {context : W → X} {s t : State W K C D X} {q : List (Waiter W)}
  {a v : ConditionVariable.State W K C D} {u : Waiter W} {w x : W} {k : K} {c : Option C}

section Sections

variable [DecidableEq X]

omit [DecidableEq K] [DecidableEq X] in
theorem Inv.through_spec (h : Inv P context s q) (hw : s.Runs w) :
    s.lock.pc (s.through w) = .critical ∧ (s.through w).thread = w ∧
      ∀ u : Waiter W, u.thread = w → u ≠ s.through w → s.lock.pc u = .idle := by
  have hstands := h.stands w
  unfold Stands at hstands
  simp only [h.stage_of_runs hw] at hstands
  rcases hstands with ⟨hc, hi⟩ | ⟨hi, hc⟩
  · have ht : s.through w = .acquire w := by simp [State.through, hc]
    rw [ht]
    refine ⟨hc, rfl, ?_⟩
    rintro (v | v) rfl hu
    · exact absurd rfl hu
    · exact hi
  · have ht : s.through w = .wait w := by simp [State.through, hi]
    rw [ht]
    refine ⟨hc, rfl, ?_⟩
    rintro (v | v) rfl hu
    · exact hi
    · exact absurd rfl hu

omit [DecidableEq K] [DecidableEq X] in
/-- A step inside a section that keeps the lock. -/
theorem Inv.inside (h : Inv P context s q) (hn : s.notifying = .none) (hw : s.Runs w)
    (hlock : t.lock = s.lock) (hsection : t.section_ = s.section_) (hfailed : t.failed = none)
    (hqueue : t.lists.queue = s.lists.queue) (hstage : t.lists.stage = s.lists.stage)
    (hpc : ∀ z, z ≠ w → t.lists.pc z = s.lists.pc z)
    (hparked : ∀ z k, s.lists.stage z = .waiting k → t.Parked z)
    (hnot : t.notifying = .none ∨
      ∃ x k, t.notifying = .calling x k ∧ s.lists.stage x = .waiting k) : Inv P context t q := by
  have haway : ∀ z k, s.lists.stage z = .waiting k → (s.lock.pc (.wait z)).place = .away := by
    intro z k hz
    have hstands := h.stands z
    simp only [Stands, hz] at hstands
    rcases hstands.2.2.2.2.2 with hp | ⟨hz, -⟩
    · exact hp
    · rw [hn] at hz
      cases hz
  refine ⟨hlock ▸ h.lock, hfailed, ?_, ?_, ?_, ?_, ?_⟩
  · rw [hqueue, hlock, h.queue]
  · intro z
    by_cases hz : z = w
    · subst hz
      have hstands := h.stands z
      unfold Stands at hstands ⊢
      rw [hstage, hlock]
      simpa only [h.stage_of_runs hw] using hstands
    · refine (h.stands z).of_place (by rw [hstage]) (hpc z hz) (by rw [hsection]) ?_ ?_ ?_
      · intro u _
        rw [hlock]
      · intro u _ hi
        rw [hlock, hi]
      · intro k hs
        have hstands := h.stands z
        simp only [Stands, hs] at hstands
        rw [hlock]
        exact ⟨hstands.2.2.1, hstands.2.2.2.1, hparked z k hs, .inl (haway z k hs)⟩
  · rw [hlock]
    exact h.self
  · intro x k hx
    rcases hnot with hnot | ⟨y, j, hnot, hy⟩
    · rw [hnot] at hx
      cases hx
    · rw [hnot] at hx
      cases hx
      rw [hstage, hlock]
      refine ⟨hy, haway _ _ hy, w, ?_⟩
      unfold State.Runs
      rwa [hlock]
  · intro x k hx
    rcases hnot with hnot | ⟨y, j, hnot, hy⟩ <;>
      rw [hnot] at hx <;> cases hx

omit [DecidableEq K] [DecidableEq X] in
/-- The thread gives up the lock: it leaves its section, or it waits. -/
theorem Inv.leave (h : Inv P context s q) (hn : s.notifying = .none) (hw : s.Runs w)
    (hlock : Lock.Inv t.lock q) (hpc : (t.lock.pc (s.through w)).place = .away)
    (hother : ∀ u, u ≠ s.through w → t.lock.pc u = s.lock.pc u)
    (hframe : ∀ u : Waiter W, u.thread ≠ w → t.lock.context u = s.lock.context u ∧
      t.lock.f u = s.lock.f u ∧ t.lock.self u = s.lock.self u)
    (hself : ∀ u : Waiter W, t.lock.pc u ≠ .idle → t.lock.self u = context u.thread)
    (hsection : t.section_ = s.section_) (hfailed : t.failed = none) (hnot : t.notifying = .none)
    (hqueue : t.lists.queue = s.lists.queue.tail)
    (hlists : ∀ z, z ≠ w → t.lists.stage z = s.lists.stage z ∧ t.lists.pc z = s.lists.pc z ∧
      t.lists.notifiable z = s.lists.notifiable z)
    (hstands : Stands P context t w) : Inv P context t q := by
  obtain ⟨hcritical, hthread, -⟩ := h.through_spec hw
  refine ⟨hlock, hfailed, ?_, ?_, hself, ?_, ?_⟩
  · have hline := h.lock.line_leave hcritical hpc hother
    rw [hqueue, h.queue, hline]
    rfl
  · intro z
    by_cases hz : z = w
    · exact hz ▸ hstands
    · obtain ⟨hstage, hp, hnotifiable⟩ := hlists z hz
      have hsame : ∀ u : Waiter W, u.thread = z → t.lock.pc u = s.lock.pc u := by
        rintro u rfl
        apply hother
        rintro rfl
        exact hz hthread
      refine (h.stands z).of_place hstage hp (by rw [hsection]) ?_ ?_ ?_
      · intro u hu
        rw [hsame u hu]
      · intro u hu hi
        rw [hsame u hu, hi]
      · intro k hs
        have hstands := h.stands z
        simp only [Stands, hs] at hstands
        obtain ⟨-, -, hready, hzself, hparked, hp⟩ := hstands
        obtain ⟨hcontext, hf, hs'⟩ := hframe (.wait z) hz
        refine ⟨?_, hs'.trans hzself, ?_, ?_⟩
        · simpa only [Lock.State.Ready, hcontext, hf, hs'] using hready
        · rcases hparked with hp | hp
          · exact .inl (hnotifiable.trans hp)
          · rw [hn] at hp
            exact hp.elim
        · left
          rw [hsame _ rfl]
          rcases hp with hp | ⟨hp, -⟩
          · exact hp
          · rw [hn] at hp
            cases hp
  · intro x k hx
    rw [hnot] at hx
    cases hx
  · intro x k hx
    rw [hnot] at hx
    cases hx

/-- What `Wait` may do to the lists: its waiter is linked at once or in the end. -/
theorem wait_cases (condition : Option Bool) (d : C) (hv : v.notifiable w = false) :
    let v' := v.wait w k condition d
    (∀ z, z ≠ w → v'.pc z = v.pc z ∧ v'.notifiable z = v.notifiable z) ∧
      (v'.notifiable w = false ∧ v'.queue = v.queue ∧ v'.stage = v.stage ∨
        v'.notifiable w = true ∧ v'.queue = v.queue.tail ∧
          v'.stage = update v.stage w (.waiting k)) := by
  unfold ConditionVariable.State.wait ConditionVariable.State.walk ConditionVariable.State.append
  repeat' split
  all_goals
    simp +contextual [ConditionVariable.State.park, ConditionVariable.State.goto, hv]

omit [DecidableEq W] [DecidableEq K] [DecidableEq X] in
theorem Inv.notifiable_of_waiting (h : Inv P context s q) (hn : s.notifying = .none)
    (hw : s.lists.stage w = .waiting k) : s.lists.notifiable w = true := by
  have hstands := h.stands w
  simp only [Stands, hw] at hstands
  rcases hstands.2.2.2.2.1 with hp | hp
  · exact hp
  · rw [hn] at hp
    exact hp.elim

/-- `Wait` is one step of the condition variables. -/
theorem matches_wait (h : Inv P context s q) (hn : s.notifying = .none) (hw : s.Runs w)
    (hnotifiable : s.lists.notifiable w = false) (condition : Option Bool) (d : C) :
    Inv P context (s.wait context w (.wait k condition d)) q ∧
      (s.wait context w (.wait k condition d)).lists = s.lists.wait w k condition d ∧
      (s.wait context w (.wait k condition d)).notifying = .none := by
  obtain ⟨howned, hhead⟩ := h.owned hw
  obtain ⟨hcritical, hthread, hidle⟩ := h.through_spec hw
  obtain ⟨hkeep, hcases⟩ := wait_cases (k := k) condition d hnotifiable
  have hne : ∀ z k, s.lists.stage z = .waiting k → z ≠ w := by
    rintro z k hz rfl
    rw [h.stage_of_runs hw] at hz
    cases hz
  unfold State.wait
  simp only [hhead, howned, and_false, if_false, not_true, ConditionVariable.State.run]
  rcases hcases with ⟨hnot, hqueue, hstage⟩ | ⟨hnot, hqueue, hstage⟩
  · simp only [hnot, Bool.false_eq_true, if_false]
    refine ⟨h.inside hn hw rfl rfl h.failed hqueue hstage (fun z hz => (hkeep z hz).1) ?_
      (.inl hn), trivial, hn⟩
    intro z k hz
    exact .inl ((hkeep z (hne z k hz)).2.trans (h.notifiable_of_waiting hn hz))
  · simp only [hnot, if_true]
    have hwait : Waiter.wait w = s.through w ∨ s.lock.pc (.wait w) = .idle := by
      by_cases hu : Waiter.wait w = s.through w
      · exact .inl hu
      · exact .inr (hidle _ rfl hu)
    have hself : s.lock.self (s.through w) = context w := by
      rw [h.self _ (by simp [hcritical]), hthread]
    refine ⟨h.leave hn hw (Lock.inv_wait h.lock hcritical hwait) ?_ ?_ ?_ ?_ rfl h.failed hn
      hqueue ?_ ?_, trivial, hn⟩
    · simp [Lock.next, Lock.State.goto, Lock.PC.place]
    · intro u hu
      simp [Lock.next, Lock.State.goto, hu]
    · intro u hu
      have huw : u ≠ .wait w := by
        rintro rfl
        exact hu rfl
      simp [Lock.next, Lock.State.goto, huw]
    · intro u hu
      by_cases huw : u = .wait w
      · subst huw
        simp [Lock.next, hself, Waiter.thread]
      · have hp : s.lock.pc u ≠ .idle := by
          by_cases hut : u = s.through w
          · simp [hut, hcritical]
          · simpa [Lock.next, Lock.State.goto, hut] using hu
        simpa [Lock.next, huw] using h.self u hp
    · intro z hz
      rw [hstage]
      exact ⟨by simp [hz], hkeep z hz⟩
    · unfold Stands
      rw [hstage]
      simp only [Function.update_self]
      have haway : ∀ u : Waiter W, u.thread = w →
          ((Lock.next s.lock (.wait (s.through w) (.wait w))).pc u).place = .away := by
        intro u hu
        by_cases hut : u = s.through w
        · simp [Lock.next, Lock.State.goto, hut, Lock.PC.place]
        · simp [Lock.next, Lock.State.goto, hut, hidle u hu hut, Lock.PC.place]
      refine ⟨haway _ rfl, ?_, ?_, ?_, .inl hnot, .inl (haway _ rfl)⟩
      · by_cases hut : Waiter.acquire w = s.through w
        · right
          have hne' : Waiter.wait w ≠ s.through w := by
            rw [← hut]
            simp
          simp [Lock.next, Lock.State.goto, hne', hidle _ rfl hne']
        · left
          simp [Lock.next, Lock.State.goto, hut, hidle _ rfl hut]
      · simp [Lock.next, Lock.State.Ready]
      · simp [Lock.next, hself]

theorem inv_release (h : Inv P context s q) (hn : s.notifying = .none) (hw : s.Runs w) {d : C} :
    Inv P context (s.run context w (.release d)) q := by
  obtain ⟨hcritical, hthread, hidle⟩ := h.through_spec hw
  refine h.leave hn hw (Lock.inv_critical h.lock hcritical) ?_ ?_ ?_ ?_ rfl h.failed hn rfl ?_ ?_
  · simp [State.run, Lock.next, Lock.State.goto, Lock.PC.place]
  · intro u hu
    simp [State.run, Lock.next, Lock.State.goto, hu]
  · intro u _
    exact ⟨rfl, rfl, rfl⟩
  · intro u hu
    refine h.self u ?_
    by_cases hut : u = s.through w
    · simp [hut, hcritical]
    · simpa [State.run, Lock.next, Lock.State.goto, hut] using hu
  · intro z hz
    simp [State.run, ConditionVariable.State.run, ConditionVariable.State.goto, hz]
  · have haway : ∀ u : Waiter W, u.thread = w →
        ((Lock.next s.lock (.release (s.through w))).pc u).place = .away := by
      intro u hu
      by_cases hut : u = s.through w
      · simp [Lock.next, Lock.State.goto, hut, Lock.PC.place]
      · simp [Lock.next, Lock.State.goto, hut, hidle u hu hut, Lock.PC.place]
    unfold Stands
    simp only [State.run, ConditionVariable.State.run, Function.update_self]
    exact ⟨haway _ rfl, .inl (haway _ rfl)⟩

omit [DecidableEq X] in
/-- A thread is taken out of its list, and then its callback is called. -/
theorem inv_notify (h : Inv P context s q) (hn : s.notifying = .none) (hw : s.Runs w)
    (hx : s.lists.stage x = .waiting k) :
    Inv P context (s.notify w k x c) q ∧ (s.notify w k x c).notifying = .calling x k ∧
      (s.notify w k x c).lists = delivered s.lists w k x c := by
  have hnotifiable := h.notifiable_of_waiting hn hx
  have hstands := h.stands x
  simp only [Stands, hx] at hstands
  have hcontext : s.lock.context (.wait x) ≠ none := by
    rw [hstands.2.2.1.1]
    simp
  unfold State.notify
  simp only [hnotifiable, if_true, hcontext, if_false, and_true]
  refine h.inside hn hw rfl rfl h.failed delivered_queue delivered_stage ?_ ?_
    (.inr ⟨x, k, rfl, hx⟩)
  · intro z hz
    cases c with
    | some c => simp [delivered, pop, ConditionVariable.State.goto, hz]
    | none => rfl
  · intro z j hz
    by_cases hzx : z = x
    · exact .inr hzx.symm
    · left
      have := h.notifiable_of_waiting hn hz
      cases c <;> simpa [delivered, pop, ConditionVariable.State.goto, hzx] using this

/-- The code of a section is one step of the condition variables, or the first part of one. -/
theorem matches_run {l : K → List W} (h : Inv P context s q) (hm : Matches P s a)
    (ha : ConditionVariable.Inv P a l) (hn : s.notifying = .none) (hw : s.Runs w) :
    Inv P context (next P context s (.run w)) q ∧
      (Matches P (next P context s (.run w)) a ∨ ConditionVariable.Enabled P a (.run w) ∧
        Matches P (next P context s (.run w)) (ConditionVariable.next P a (.run w))) := by
  obtain rfl := hm.eq_of_none hn
  obtain ⟨howned, -⟩ := h.owned hw
  have hrunning := h.stage_of_runs hw
  have hnow : ∀ {t : State W K C D X}, t.notifying = .none → ∀ {v}, t.lists = v →
      Matches P t v := by
    intro t ht v hv
    simpa [Matches, State.delivering, ht] using hv
  have hset : ∀ {v v'}, v = v' → Matches P { s with lists := v } v' := by
    intro v v' hv
    exact hnow (t := { s with lists := v }) hn hv
  have hwaiting : ∀ {j y}, s.lists.head j = some y → s.lists.stage y = .waiting j := by
    intro j y hy
    exact ha.mem_iff.mp (List.mem_of_head? ((ha.chain j).head_eq.symm.trans hy))
  have hgoto : ∀ {v : ConditionVariable.State W K C D} {d : C},
      v.queue = s.lists.queue → v.stage = s.lists.stage → v.pc = s.lists.pc →
      (∀ z, z ≠ w → v.notifiable z = s.lists.notifiable z) →
      Inv P context { s with lists := v.goto w d } q := by
    intro v d hqueue hstage hpc hnotifiable
    refine h.inside hn hw rfl rfl h.failed hqueue hstage ?_ ?_ (.inl hn)
    · intro z hz
      simp [ConditionVariable.State.goto, hz, hpc]
    · intro z j hz
      have hzw : z ≠ w := by
        rintro rfl
        rw [hrunning] at hz
        cases hz
      exact .inl ((hnotifiable z hzw).trans (h.notifiable_of_waiting hn hz))
  have hnotify : ∀ {j y}, s.lists.head j = some y → ∀ {d : Option C},
      Notifies P s.lists w j y d → Inv P context (s.notify w j y d) q ∧
        Matches P (s.notify w j y d) s.lists := by
    intro j y hy d hd
    obtain ⟨hinv, hcalling, hlists⟩ := inv_notify (c := d) h hn hw (hwaiting hy)
    refine ⟨hinv, ?_⟩
    simp only [Matches, State.delivering, hcalling]
    exact ⟨w, d, hd, hlists⟩
  cases hi : P.code (s.lists.pc w) s.lists.data with
  | assign d c =>
    have hnext : next P context s (.run w) =
        { s with lists := { s.lists.goto w c with data := d } } := by
      simp [next, State.run, hi, ConditionVariable.State.run]
    rw [hnext]
    refine ⟨hgoto (v := { s.lists with data := d }) rfl rfl rfl fun _ _ => rfl,
      .inr ⟨hrunning, hset ?_⟩⟩
    simp [ConditionVariable.next, hi, ConditionVariable.State.run]
  | make c =>
    have hnext : next P context s (.run w) =
        { s with lists := s.lists.run w (.make c) } := by
      simp [next, State.run, hi]
    rw [hnext]
    refine ⟨hgoto (v := { s.lists with
        next := update s.lists.next w none, notified := update s.lists.notified w false,
        notifiable := update s.lists.notifiable w false,
        notifications := update s.lists.notifications w 0 }) rfl rfl rfl ?_,
      .inr ⟨hrunning, hset ?_⟩⟩
    · intro z hz
      simp [hz]
    · simp [ConditionVariable.next, hi]
  | wait k condition c =>
    have hnotifiable : s.lists.notifiable w = false := by
      by_contra hf
      obtain ⟨j, hj⟩ := (ha.notifiable w).mp (by simpa using hf)
      rw [hrunning] at hj
      cases hj
    obtain ⟨hinv, hlists, hnone⟩ := matches_wait (k := k) h hn hw
      hnotifiable condition c
    have hnext : next P context s (.run w) = s.wait context w (.wait k condition c) := by
      simp [next, State.run, hi]
    rw [hnext]
    refine ⟨hinv, .inr ⟨hrunning, hnow hnone ?_⟩⟩
    rw [hlists]
    simp [ConditionVariable.next, hi, ConditionVariable.State.run]
  | notify k c =>
    cases hhead : s.lists.head k with
    | none =>
      have hnext : next P context s (.run w) = { s with lists := s.lists.goto w c } := by
        simp [next, State.run, hi, howned, hhead]
      rw [hnext]
      refine ⟨hgoto rfl rfl rfl fun _ _ => rfl, .inr ⟨hrunning, hset ?_⟩⟩
      simp [ConditionVariable.next, hi, ConditionVariable.State.run,
        ConditionVariable.State.notify, hhead]
    | some x =>
      have hnext : next P context s (.run w) = s.notify w k x (some c) := by
        simp [next, State.run, hi, howned, hhead]
      rw [hnext]
      obtain ⟨hinv, hmatches⟩ := hnotify hhead (d := some c)
        ⟨hrunning, hhead, h.notifiable_of_waiting hn (hwaiting hhead), hi⟩
      exact ⟨hinv, .inl hmatches⟩
  | notifyAll k c =>
    cases hp : s.lists.position w with
    | loop =>
      cases hhead : s.lists.head k with
      | none =>
        have hnext : next P context s (.run w) = { s with lists := s.lists.goto w c } := by
          simp [next, State.run, hi, hp, hhead]
        rw [hnext]
        refine ⟨hgoto rfl rfl rfl fun _ _ => rfl, .inr ⟨hrunning, hset ?_⟩⟩
        simp [ConditionVariable.next, hi, ConditionVariable.State.run,
          ConditionVariable.State.notifyAll, hp, hhead]
      | some x =>
        have hnext : next P context s (.run w) = s.notify w k x none := by
          simp [next, State.run, hi, hp, howned, hhead]
        rw [hnext]
        obtain ⟨hinv, hmatches⟩ := hnotify hhead (d := none)
          ⟨hrunning, hhead, h.notifiable_of_waiting hn (hwaiting hhead), hp, c, hi⟩
        exact ⟨hinv, .inl hmatches⟩
    | entry | append n =>
      have hnext : next P context s (.run w) =
          { s with lists := { s.lists with position := update s.lists.position w .loop } } := by
        simp [next, State.run, hi, hp, howned]
      rw [hnext]
      refine ⟨h.inside hn hw rfl rfl h.failed rfl rfl (fun _ _ => rfl) ?_ (.inl hn),
        .inr ⟨hrunning, hset ?_⟩⟩
      · intro z j hz
        exact .inl (h.notifiable_of_waiting hn hz)
      · simp [ConditionVariable.next, hi, ConditionVariable.State.run,
          ConditionVariable.State.notifyAll, hp]
  | release c =>
    have hnext : next P context s (.run w) = s.run context w (.release c) := by
      simp [next, hi]
    rw [hnext]
    have hlists : (s.run context w (.release c)).lists =
        ConditionVariable.next P s.lists (.run w) := by
      simp [State.run, ConditionVariable.next, hi]
    exact ⟨inv_release h hn hw, .inr ⟨hrunning,
      hnow (t := s.run context w (.release c)) hn hlists⟩⟩

end Sections

section Callbacks

variable [DecidableEq X]

omit [DecidableEq X] in
theorem Matches.of_eq (h : Matches P s a) (hl : t.lists = s.lists)
    (hd : t.delivering = s.delivering) : Matches P t a := by
  unfold Matches at h ⊢
  rw [hd, hl]
  exact h

omit [DecidableEq K] [DecidableEq X] in
/-- `AcquireFast` gets past its checks on a waiter whose flag has been cleared. -/
theorem Inv.arrive_lock (h : Inv P context s q) (hi : s.lock.pc (.acquire w) = .idle)
    (hs : s.lock.clearing (.acquire w) = false) (d : C) :
    (s.arrive context w d).lock =
      (Lock.next s.lock (.start (.acquire w) (context w))).goto (.acquire w)
        (.fastLoad .acquire) := by
  have hfacts := h.lock.facts (.acquire w)
  simp only [Lock.Facts, hi, hs] at hfacts
  simp [State.arrive, Lock.next, Lock.run, Lock.State.goto, hfacts]

/-- A thread that comes to the lock is not in line yet. -/
theorem matches_start (h : Inv P context s q) (hm : Matches P s a) {d : C}
    (he : Enabled P s (.arrive w d)) (hs : Settled s (.arrive w d)) :
    Inv P context (next P context s (.arrive w d)) q ∧
      Matches P (next P context s (.arrive w d)) a := by
  obtain ⟨-, -, hacquire, hwait, hparked, hentry⟩ := he
  have hstart := h.arrive_lock hacquire hs d
  have hlock : Lock.Inv (s.arrive context w d).lock q :=
    Lock.inv_fast (c := .acquire) (Lock.inv_start h.lock ⟨hacquire, hs⟩)
      (.inl (by simp [Lock.next, Lock.State.goto]))
  have hpc : ∀ u, u ≠ .acquire w → (s.arrive context w d).lock.pc u = s.lock.pc u := by
    intro u hu
    simp [hstart, Lock.next, Lock.State.goto, hu]
  have hplace : ∀ u : Waiter W, u.thread ≠ w →
      (s.arrive context w d).lock.pc u = s.lock.pc u := by
    intro u hu
    apply hpc
    rintro rfl
    exact hu rfl
  have hlined : ∀ u, ((s.arrive context w d).lock.pc u).place.lined =
      (s.lock.pc u).place.lined := by
    intro u
    by_cases hu : u = .acquire w
    · subst hu
      rw [hacquire]
      simp [hstart, Lock.State.goto, Lock.PC.place]
    · rw [hpc u hu]
  have hruns : ∀ z, s.Runs z → (next P context s (.arrive w d)).Runs z := by
    intro z hz
    rcases hz with hz | hz
    · by_cases he : Waiter.acquire z = .acquire w
      · rw [he, hacquire] at hz
        cases hz
      · exact .inl ((hpc _ he).trans hz)
    · exact .inr ((hpc _ (by simp)).trans hz)
  refine ⟨⟨hlock, h.failed, ?_, ?_, ?_, ?_, ?_⟩, hm.of_eq rfl ?_⟩
  · change s.lists.queue = _
    rw [h.queue]
    congr 1
    exact (h.lock.line_eq hlock .stay hlined).symm
  · intro z
    by_cases hz : z = w
    · subst hz
      have hstands := h.stands z
      have hstage : (s.arrive context z d).lists.stage z = .outside := by
        unfold Stands at hstands
        change s.lists.stage z = .outside
        cases hz : s.lists.stage z <;> simp_all [Lock.PC.place]
      unfold Stands
      simp only [next, hstage]
      refine ⟨?_, .inr ⟨?_, ?_, ?_⟩⟩
      · rw [hpc _ (by simp), hwait]
        rfl
      · simp [hstart, Lock.State.goto, Lock.PC.place]
      · rw [hpc _ (by simp), hwait]
      · simpa [State.arrive] using hentry
    · refine (h.stands z).of_place rfl rfl (by simp [next, State.arrive, hz]) ?_ ?_ ?_
      · rintro u rfl
        exact congrArg Lock.PC.place (hplace u hz)
      · rintro u rfl hi
        exact (hplace u hz).trans hi
      · intro k hs
        have hstands := h.stands z
        simp only [Stands, hs] at hstands
        obtain ⟨-, -, hready, hself, hp, hrest⟩ := hstands
        refine ⟨?_, ?_, hp, ?_⟩
        · simpa [next, hstart, Lock.next, Lock.State.Ready, Lock.State.goto] using hready
        · simpa [next, hstart, Lock.next, Lock.State.goto] using hself
        · rw [show (next P context s (.arrive w d)).lock.pc (.wait z) = s.lock.pc (.wait z) from
            hplace (.wait z) hz]
          exact hrest
  · intro u hu
    by_cases hua : u = .acquire w
    · subst hua
      simp [next, hstart, Lock.next, Lock.State.goto, Waiter.thread]
    · have hself := h.self u (by rwa [← hpc u hua])
      simpa [next, hstart, Lock.next, Lock.State.goto, hua] using hself
  · intro x k hn
    obtain ⟨hs, hp, z, hz⟩ := h.calling x k hn
    exact ⟨hs, (congrArg Lock.PC.place (hpc (.wait x) (by simp))).trans hp, z, hruns z hz⟩
  · intro x k hn
    obtain ⟨⟨z, hz⟩, hx⟩ := h.acquiring x k hn
    refine ⟨⟨z, hruns z hz⟩, ?_⟩
    rw [show (next P context s (.arrive w d)).lock.pc (.wait x) = s.lock.pc (.wait x) from
      hpc (.wait x) (by simp)]
    exact hx
  · unfold State.delivering
    cases hn : s.notifying with
    | none | calling x k => simp [next, State.arrive, hn]
    | acquiring x k =>
      have hx := hpc (.wait x) (by simp)
      simp only [next, State.arrive, hn] at hx ⊢
      simp only [hx]

/-- The flag of a waiter is cleared after its `Release` has freed the lock. -/
theorem matches_clear (h : Inv P context s q) (hm : Matches P s a)
    (he : Enabled P s (.clear u)) :
    Inv P context (next P context s (.clear u)) q ∧
      Matches P (next P context s (.clear u)) a :=
  ⟨⟨Lock.inv_clear h.lock he.2.2, h.failed, h.queue, h.stands, h.self, h.calling, h.acquiring⟩,
    hm.of_eq rfl rfl⟩

omit [DecidableEq K] [DecidableEq X] in
/-- The waiters of a thread that is notified are idle, as its `Release` has given up the lock. -/
theorem Inv.idle_of_calling (h : Inv P context s q) (hn : s.notifying = .calling x k)
    (hu : u.thread = x) : s.lock.pc u = .idle := by
  obtain ⟨hs, hp, w, hw⟩ := h.calling x k hn
  obtain ⟨z, -, hc⟩ := hw.holder
  have haway : (s.lock.pc u).place = .away := by
    have hstands := h.stands x
    simp only [Stands, hs] at hstands
    cases u with
    | acquire y =>
      obtain rfl : y = x := hu
      exact hstands.1
    | wait y =>
      obtain rfl : y = x := hu
      exact hp
  by_contra hi
  have huz : u ≠ z := by
    rintro rfl
    rw [hc] at haway
    cases haway
  have hreleasing := Lock.releasing_of_away haway hi
  rw [h.lock.not_releasing (w := z) (by simp [hc, Lock.PC.holder]) huz] at hreleasing
  cases hreleasing

/-- `AcquireSlow` gets past its checks on a waiter whose flag has been cleared. -/
theorem matches_call (h : Inv P context s q) (hm : Matches P s a)
    (hn : s.notifying = .calling x k) (hs : s.lock.clearing (.wait x) = false) :
    Inv P context (next P context s .call) q ∧ Matches P (next P context s .call) a := by
  have hidle := h.idle_of_calling hn (u := .wait x) rfl
  obtain ⟨hstage, -, w, hw⟩ := h.calling x k hn
  have hstands := h.stands x
  simp only [Stands, hstage] at hstands
  obtain ⟨haway, -, hready, hself, -, -⟩ := hstands
  have hfacts := h.lock.facts (.wait x)
  simp only [Lock.Facts, hidle, hs] at hfacts
  have hlock : Lock.run (Lock.next s.lock (.enqueue (.wait x))) (.wait x) false =
      s.lock.goto (.wait x) .slowLoad := by
    simp [Lock.next, Lock.run, Lock.State.goto, hfacts]
  have hnext : next P context s .call =
      { s with lock := s.lock.goto (.wait x) .slowLoad, notifying := .acquiring x k } := by
    simp [next, hn, State.call, hlock]
  have hslow : Lock.Inv (s.lock.goto (.wait x) .slowLoad) q := by
    have henq := Lock.inv_enqueue h.lock ⟨hidle, hs⟩ (hready.2 rfl) hready.1
    have hrun := Lock.inv_slow henq (w := .wait x) (b := false)
      (.inr (.inl (by simp [Lock.next, Lock.State.goto])))
    rwa [hlock] at hrun
  have hpc : ∀ u, u ≠ .wait x → (s.lock.goto (.wait x) .slowLoad).pc u = s.lock.pc u := by
    intro u hu
    simp [Lock.State.goto, hu]
  have hx : (s.lock.goto (.wait x) .slowLoad).pc (.wait x) = .slowLoad := by
    simp [Lock.State.goto]
  have hruns : ∀ z, s.Runs z → State.Runs { s with
      lock := s.lock.goto (.wait x) .slowLoad, notifying := Notifying.acquiring x k } z := by
    intro z hz
    refine hz.imp (fun hz => (hpc _ (by simp)).trans hz) fun hz => ?_
    refine (hpc _ ?_).trans hz
    rintro he
    rw [he, hidle] at hz
    cases hz
  rw [hnext]
  refine ⟨⟨hslow, h.failed, ?_, ?_, ?_, ?_, ?_⟩, hm.of_eq rfl ?_⟩
  · rw [h.queue]
    congr 1
    refine (h.lock.line_eq hslow .stay fun z => ?_).symm
    by_cases hz : z = .wait x
    · simp [hz, hx, hidle, Lock.PC.place]
    · rw [hpc z hz]
  · intro z
    by_cases hz : z = x
    · subst hz
      unfold Stands
      simp only [hstage, hx]
      refine ⟨?_, .inl ?_, hready, hself, .inr rfl, .inr ⟨trivial, rfl⟩⟩
      · rw [hpc _ (by simp), haway]
      · rw [hpc _ (by simp), h.idle_of_calling hn rfl]
    · have hsame : ∀ u : Waiter W, u.thread = z →
          (s.lock.goto (.wait x) .slowLoad).pc u = s.lock.pc u := by
        rintro u rfl
        apply hpc
        rintro rfl
        exact hz rfl
      refine (h.stands z).of_place rfl rfl rfl ?_ ?_ ?_
      · intro u hu
        exact congrArg Lock.PC.place (hsame u hu)
      · intro u hu hi
        exact (hsame u hu).trans hi
      · intro j hz'
        have hstands := h.stands z
        simp only [Stands, hz'] at hstands
        obtain ⟨-, -, hr, hself, hp, hrest⟩ := hstands
        refine ⟨hr, hself, .inl ?_, .inl ?_⟩
        · rcases hp with hp | hp
          · exact hp
          · rw [hn] at hp
            exact absurd hp.symm hz
        · rw [show (s.lock.goto (.wait x) .slowLoad).pc (.wait z) = _ from hsame _ rfl]
          rcases hrest with hp | ⟨hp, -⟩
          · exact hp
          · rw [hn] at hp
            cases hp
  · intro u hu
    by_cases hux : u = .wait x
    · rw [hux]
      exact hself
    · exact h.self u (by rwa [← hpc u hux])
  · intro y j hy
    cases hy
  · intro y j hy
    cases hy
    exact ⟨⟨w, hruns w hw⟩, .inl ⟨hstage, by rw [hx]; rfl⟩⟩
  · simp [State.delivering, hn, hx]

/-- `AcquireSlow` returns to the callback that it has enqueued the waiter. -/
theorem matches_returned (h : Inv P context s q) (hm : Matches P s a)
    (he : Enabled P s .returned) :
    Inv P context (next P context s .returned) q ∧
      Matches P (next P context s .returned) a := by
  obtain ⟨-, -, he⟩ := he
  cases hn : s.notifying with
  | none => simp [hn, Notifying.Returns] at he
  | calling x k => simp [hn, Notifying.Returns] at he
  | acquiring x k =>
    simp only [hn, Notifying.Returns] at he
    obtain ⟨-, hx⟩ := h.acquiring x k hn
    have hqueued : s.lock.pc (.wait x) = .queued ∧ s.lists.stage x = .woken k := by
      rcases hx with ⟨-, hx⟩ | ⟨hs, hq⟩
      · rcases he with he | he <;> simp [he, Lock.PC.enqueuing] at hx
      · exact ⟨hq, hs⟩
    have hnext : next P context s .returned = { s with notifying := .none } := by
      simp [next, hn, State.returned, hqueued.1]
    rw [hnext]
    refine ⟨⟨h.lock, h.failed, h.queue, ?_, h.self, ?_, ?_⟩, hm.of_eq rfl ?_⟩
    rotate_left
    · intro y j hy
      cases hy
    · intro y j hy
      cases hy
    · simp [State.delivering, hn, hqueued.1]
    · intro z
      refine (h.stands z).of_place rfl rfl rfl (fun _ _ => rfl) (fun _ _ hi => hi) ?_
      intro j hs
      have hzx : x ≠ z := by
        rintro rfl
        rw [hqueued.2] at hs
        cases hs
      have hstands := h.stands z
      simp only [Stands, hs] at hstands
      obtain ⟨-, -, hr, hself, hp, hrest⟩ := hstands
      refine ⟨hr, hself, .inl ?_, .inl ?_⟩
      · rcases hp with hp | hp
        · exact hp
        · rw [hn] at hp
          exact absurd hp hzx
      · rcases hrest with hp | ⟨hp, -⟩
        · exact hp
        · rw [hn] at hp
          cases hp
          exact absurd rfl hzx

/-- Every step is one of the condition variables, or none of them notices it. -/
theorem matches_next {l : Label W C} {r : K → List W} (h : Inv P context s q)
    (hm : Matches P s a) (ha : ConditionVariable.Inv P a r) (he : Enabled P s l)
    (hs : Settled s l) :
    ∃ q', Inv P context (next P context s l) q' ∧ (Matches P (next P context s l) a ∨
      ∃ m, ConditionVariable.Enabled P a m ∧
        Matches P (next P context s l) (ConditionVariable.next P a m)) := by
  cases l with
  | arrive w c =>
    obtain ⟨hi, hm'⟩ := matches_start h hm he hs
    exact ⟨q, hi, .inl hm'⟩
  | clear u =>
    obtain ⟨hi, hm'⟩ := matches_clear h hm he
    exact ⟨q, hi, .inl hm'⟩
  | run w =>
    obtain ⟨hi, hm'⟩ := matches_run h hm ha he.2.2.1 he.2.2.2
    exact ⟨q, hi, hm'.imp id fun hm' => ⟨_, hm'⟩⟩
  | call =>
    cases hn : s.notifying with
    | none => simp [Enabled, hn, Notifying.isCalling] at he
    | acquiring x k => simp [Enabled, hn, Notifying.isCalling] at he
    | calling x k =>
      simp only [Settled, hn, Notifying.Cleared] at hs
      obtain ⟨hi, hm'⟩ := matches_call h hm hn hs
      exact ⟨q, hi, .inl hm'⟩
  | returned =>
    obtain ⟨hi, hm'⟩ := matches_returned h hm he
    exact ⟨q, hi, .inl hm'⟩
  | lock u b =>
    have hu : Runnable s u := ⟨he.2.2.1, he.2.2.2.1, he.2.2.2.2.1⟩
    cases Lock.run_turn h.lock b (u := u) with
    | stays hplace hr hj =>
      obtain ⟨q', hi, hm'⟩ := matches_stays h hm hu hplace (recorded_stays hr hj)
      exact ⟨q', hi, .inl hm'⟩
    | joins hj hother =>
      cases u with
      | acquire w =>
        obtain ⟨q', hi, hm'⟩ := matches_arrive h hm hu hj hother
        exact ⟨q', hi, .inr ⟨_, hm'⟩⟩
      | wait x =>
        obtain ⟨q', hi, w, hm'⟩ := matches_woken h hm hu hj hother
        exact ⟨q', hi, .inr ⟨_, hm'⟩⟩
    | starts hr hc hother =>
      obtain ⟨q', hi, hm'⟩ := matches_resume h hm hr hc hother
      exact ⟨q', hi, .inr ⟨_, hm'⟩⟩

/-- Condition variables on the lock itself refine condition variables under a first-come
first-served lock. -/
theorem refines_lists {c : C} {d : D} : Transition.Simulation
    ((machine P context c d).restrict Settled) (ConditionVariable.machine P c d) fun s a =>
      (∃ q, Inv P context s q) ∧ (∃ r, ConditionVariable.Inv P a r) ∧ Matches P s a where
  initial := by
    rintro s ⟨self, rfl⟩
    refine ⟨_, rfl, ⟨[], ?_⟩, ⟨_, ConditionVariable.inv_initial c d⟩, rfl⟩
    refine ⟨Lock.inv_initial self, rfl, rfl, ?_, ?_, ?_, ?_⟩
    · intro w
      exact ⟨rfl, .inl rfl⟩
    · intro u hu
      exact absurd rfl hu
    · intro x k hx
      cases hx
    · intro x k hx
      cases hx
  step := by
    rintro s a l ⟨⟨q, h⟩, ⟨r, ha⟩, hm⟩ ⟨he, hs⟩
    obtain ⟨q', hi, hm' | ⟨m, hen, hm'⟩⟩ := matches_next h hm ha he hs
    · exact .inl ⟨⟨q', hi⟩, ⟨r, ha⟩, hm'⟩
    · obtain ⟨r', hr, -⟩ := ConditionVariable.inv_next ha hen
      exact .inr ⟨m, hen, ⟨q', hi⟩, ⟨r', hr⟩, hm'⟩

/-- A notification that meets the flag before it is cleared trips the check of `AcquireSlow`. -/
theorem call_fails (h : Inv P context s q) (hn : s.notifying = .calling x k)
    (hs : s.lock.clearing (.wait x) = true) :
    (next P context s .call).lock.failed = some .recursiveAcquire := by
  have hidle := h.idle_of_calling hn (u := .wait x) rfl
  have hfacts := h.lock.facts (.wait x)
  simp only [Lock.Facts, hidle, hs] at hfacts
  simp [next, hn, State.call, Lock.next, Lock.run, Lock.State.goto, Lock.State.fail, hfacts]

omit [DecidableEq K] [DecidableEq X] in
/-- So does a thread that comes again before its last `Release` has cleared the flag. -/
theorem arrive_fails (h : Inv P context s q) (hi : s.lock.pc (.acquire w) = .idle)
    (hs : s.lock.clearing (.acquire w) = true) {d : C} :
    (s.arrive context w d).lock.failed = some .recursiveAcquire := by
  have hfacts := h.lock.facts (.acquire w)
  simp only [Lock.Facts, hi, hs] at hfacts
  simp [State.arrive, Lock.next, Lock.run, Lock.State.goto, Lock.State.fail, hfacts]

/-- The lists, the data and the threads are those of a monitor. -/
structure Agrees (s : State W K C D X) (m : Monitor.State W K C D) : Prop where
  data : s.lists.data = m.data
  pc : s.lists.pc = m.pc
  notified : s.lists.notified = m.notified
  waiters : ∀ k, Intrusive.Chain s.lists.next (s.lists.head k) (m.waiters k)
  running : ∀ w, s.Runs w ↔ m.stage w = .running

/-- No check has failed, and everything is as in a monitor. -/
structure Correct (P : Program K C D) (c : C) (d : D) (s : State W K C D X) : Prop where
  failed : s.failed = none
  lock : s.lock.failed = none
  monitor : ∃ m, (Monitor.machine P c d).Reachable m ∧ Agrees s m

omit [DecidableEq W] [DecidableEq K] [DecidableEq X] in
theorem Inv.runs_iff_running (h : Inv P context s q) : s.Runs w ↔ s.lists.stage w = .running := by
  constructor
  · exact h.stage_of_runs
  · intro hs
    have hstands := h.stands w
    simp only [Stands, hs] at hstands
    exact hstands.imp And.left And.right

omit [DecidableEq X] in
/-- What is left of a notification does not show. -/
theorem agrees_of_matches {r : K → List W} (h : Inv P context s q) (hm : Matches P s a)
    (ha : ConditionVariable.Inv P a r) :
    ∃ b, (b = a ∨ ∃ w, ConditionVariable.Enabled P a (.run w) ∧
        b = ConditionVariable.next P a (.run w)) ∧
      ∀ r, ConditionVariable.Inv P b r → Agrees s (b.abstract r) := by
  unfold Matches at hm
  cases hd : s.delivering with
  | none =>
    simp only [hd] at hm
    subst hm
    refine ⟨_, .inl rfl, fun r hr => ⟨rfl, rfl, rfl, hr.chain, fun w => h.runs_iff_running⟩⟩
  | some n =>
    obtain ⟨x, k⟩ := n
    simp only [hd] at hm
    obtain ⟨w, c, hn, hm⟩ := hm
    have hnext := hn.next_eq
    rw [← hm] at hnext
    refine ⟨_, .inr ⟨w, hn.running, rfl⟩, fun r hr => ?_⟩
    rw [hnext] at hr ⊢
    refine ⟨rfl, rfl, rfl, hr.chain, fun v => ?_⟩
    have hx : a.stage x = .waiting k :=
      ha.mem_iff.mp (List.mem_of_head? ((ha.chain k).head_eq.symm.trans hn.head))
    have hstage : s.lists.stage x = .waiting k := by rw [hm, delivered_stage, hx]
    rw [h.runs_iff_running]
    by_cases hv : v = x
    · subst hv
      simp [ConditionVariable.State.abstract, woken, hstage]
    · simp [ConditionVariable.State.abstract, woken, hv]

omit [DecidableEq X] in
theorem Matches.correct {c : C} {d : D} {r : K → List W} (hm : Matches P s a)
    (hi : Inv P context s q) (ha : ConditionVariable.Inv P a r)
    (hreach : (ConditionVariable.machine P c d).Reachable a) : Correct P c d s := by
  refine ⟨hi.failed, hi.lock.failed, ?_⟩
  obtain ⟨b, hb, hagrees⟩ := agrees_of_matches hi hm ha
  have hbreach : (ConditionVariable.machine P c d).Reachable b := by
    rcases hb with rfl | ⟨w, he, rfl⟩
    · exact hreach
    · exact hreach.next (l := Monitor.Label.run w) he
  obtain ⟨m, hmreach, r, hr, rfl⟩ := ConditionVariable.refines_monitor.reachable hbreach
  exact ⟨_, hmreach, hagrees r hr⟩

/-- A step that is not settled trips the check of a recursive acquire. -/
theorem unsettled_fails (h : Inv P context s q) {l : Label W C} (he : Enabled P s l)
    (hs : ¬ Settled s l) : (next P context s l).lock.failed = some .recursiveAcquire := by
  cases l with
  | arrive w c => exact arrive_fails h he.2.2.1 (by simpa [Settled] using hs)
  | call =>
    cases hn : s.notifying with
    | none | acquiring x k => simp [Settled, hn, Notifying.Cleared] at hs
    | calling x k => exact call_fails h hn (by simpa [Settled, hn, Notifying.Cleared] using hs)
  | lock u b | clear u | run w | returned => exact absurd trivial hs

/-- A run on the lock itself ends as a run of the monitor, with no check that has failed, exactly
if no waiter in it has been handed to the lock, by a notification or by its thread, while its own
`Release` was still to clear its flag. -/
theorem monitor_correct_iff {c : C} {d : D} {xs : List (State W K C D X × Label W C)}
    (h : (machine P context c d).Initial s) (hr : (machine P context c d).Run s xs t) :
    Correct P c d t ↔ ∀ p ∈ xs, Settled p.1 p.2 := by
  refine hr.last_iff (I := fun s => ∃ a, (ConditionVariable.machine P c d).Reachable a ∧
    (∃ q, Inv P context s q) ∧ (∃ r, ConditionVariable.Inv P a r) ∧ Matches P s a) ?_ ?_ ?_ ?_
  · rintro s ⟨a, hreach, ⟨q, hi⟩, ⟨r, ha⟩, hm⟩
    exact hm.correct hi ha hreach
  · rintro s l ⟨a, hreach, hrel⟩ he hs
    rcases refines_lists.step s a l hrel ⟨he, hs⟩ with hrel | ⟨m, hen, hrel⟩
    · exact ⟨a, hreach, hrel⟩
    · exact ⟨_, hreach.next hen, hrel⟩
  · rintro s l ⟨a, -, ⟨q, hi⟩, -⟩ he hs
    have hfails := unsettled_fails hi he hs
    refine ⟨fun hcorrect => ?_, fun m hm => ?_⟩
    · have hl := hcorrect.lock
      simp only [machine, hfails] at hl
      cases hl
    · have hl := hm.2.1
      simp only [machine, hfails] at hl
      cases hl
  · obtain ⟨a, ha, hrel⟩ := refines_lists.initial s h
    exact ⟨a, .initial ha, hrel⟩

end Callbacks

/-- Thread 0 waits for a notification, thread 1 notifies it, both leave, and thread 0 comes again
to a notification that it finds given. -/
def waitNotify : List (Label ℕ Notification.Control) :=
  .flatten [
    [.arrive 0 .wait], .replicate 5 (.lock (.acquire 0) false), [.run 0],
    .replicate 4 (.lock (.acquire 0) false), [.arrive 1 .notify],
    .replicate 5 (.lock (.acquire 1) false), [.run 1, .run 1, .run 1, .call],
    .replicate 2 (.lock (.wait 0) false), [.returned, .run 1, .run 1],
    .replicate 9 (.lock (.acquire 1) false), [.lock (.wait 0) false, .run 0, .run 0],
    .replicate 5 (.lock (.wait 0) false),
    [.clear (.wait 0), .clear (.acquire 0), .arrive 0 .wait],
    .replicate 5 (.lock (.acquire 0) false), [.run 0, .run 0]]

theorem waitNotify_correct : ∃ xs t,
    (machine Notification.program id .idle ⟨false, false⟩).Run
      (initial Waiter.thread .idle ⟨false, false⟩) xs t ∧ xs.map Prod.snd = waitNotify ∧
    Correct Notification.program .idle ⟨false, false⟩ t := by
  have hexec : (((machine Notification.program id .idle ⟨false, false⟩).restrict Settled).exec
      (initial Waiter.thread .idle ⟨false, false⟩) waitNotify).isSome = true := by decide
  obtain ⟨t, ht⟩ := Option.isSome_iff_exists.mp hexec
  obtain ⟨xs, hr, hx⟩ := Machine.exec_run ht
  obtain ⟨hr, hs⟩ := hr.of_restrict
  exact ⟨xs, t, hr, hx, (monitor_correct_iff ⟨_, rfl⟩ hr).mpr hs⟩

end Eventuals.LockMonitor
