import Eventuals.Library.Monitor

/-! A monitor seen through where its threads stand: which thread stands there does not matter. -/
namespace Monitor

open Function (update)
open Transition (Machine)

/-- The control of the running thread, of the notified threads and of the waiting threads. -/
structure View (K C D : Type*) where
  active : Option C
  woken : K → List C
  waiters : K → List C
  data : D

variable {W K C D : Type*} {P : Program K C D} {s : State W K C D} {w : W} {k : K} {c : C} {d : D}

/-- A thread that came for the lock starts a section, a notified one goes on, or the running one
takes a step; `notified` is only read by a `wait` without a condition. -/
inductive View.Label (K C : Type*)
  | enter (c : C)
  | resume (k : K)
  | run (notified : Bool)

section Steps

variable [DecidableEq K]

def View.wake (v : View K C D) (k : K) : View K C D :=
  match v.waiters k with
  | [] => v
  | c :: l =>
    { v with waiters := update v.waiters k l, woken := update v.woken k (v.woken k ++ [c]) }

def View.run (v : View K C D) (c : C) (notified : Bool) : Instr K C D → View K C D
  | .assign d c' => { v with active := some c', data := d }
  | .make c' => { v with active := some c' }
  | .wait k condition c' =>
    if condition.getD (!notified) then
      { v with active := none, waiters := update v.waiters k (v.waiters k ++ [c]) }
    else { v with active := some c' }
  | .notify k c' => { v.wake k with active := some c' }
  | .notifyAll k c' =>
    match v.waiters k with
    | [] => { v with active := some c' }
    | _ :: _ => v.wake k
  | .release _ => { v with active := none }

theorem View.wake_fields (v : View K C D) (k : K) :
    (v.wake k).data = v.data ∧ (v.wake k).active = v.active := by
  unfold View.wake
  split <;> exact ⟨rfl, rfl⟩

theorem View.run_data (v : View K C D) (c : C) (b : Bool) (i : Instr K C D) :
    (v.run c b i).data = i.store v.data := by
  cases i with
  | assign d c' | make c' | release c' => rfl
  | wait k condition c' =>
    simp only [View.run]
    split <;> rfl
  | notify k c' => exact (v.wake_fields k).1
  | notifyAll k c' =>
    simp only [View.run]
    split
    · rfl
    · exact (v.wake_fields k).1

/-- Steps of the running thread are taken in states that meet `guard` only. -/
def View.machine (P : Program K C D) (guard : View K C D → Prop) (d : D) :
    Machine (View K C D) (View.Label K C) where
  Initial v := v = ⟨none, fun _ => [], fun _ => [], d⟩
  Enabled v
    | .enter c => v.active = none ∧ ∃ c₀, P.entry c₀ c = true
    | .resume k => v.active = none ∧ v.woken k ≠ []
    | .run _ => v.active ≠ none ∧ guard v
  next v
    | .enter c => { v with active := some c }
    | .resume k =>
      match v.woken k with
      | [] => v
      | c :: l => { v with active := some c, woken := update v.woken k l }
    | .run notified =>
      match v.active with
      | none => v
      | some c => v.run c notified (P.code c v.data)

end Steps

variable [DecidableEq W] [DecidableEq K]

/-- The control of the thread that runs. -/
def State.active (s : State W K C D) : Option C :=
  match s.queue with
  | [] => none
  | w :: _ => if s.stage w = .running then some (s.pc w) else none

def State.view (s : State W K C D) : View K C D where
  active := s.active
  woken k := (s.woken k).map s.pc
  waiters k := (s.waiters k).map s.pc
  data := s.data

/-- Every thread on its way to the lock is about to start a section. -/
def State.Entering (P : Program K C D) (s : State W K C D) : Prop :=
  ∀ w, s.stage w = .arriving → ∃ c, P.entry c (s.pc w) = true

omit [DecidableEq W] in
theorem active_eq_some (h : WellFormed s) (hw : s.stage w = .running) :
    s.active = some (s.pc w) := by
  obtain ⟨q, hq, -⟩ := h.eq_cons hw
  simp [State.active, hq, hw]

omit [DecidableEq W] in
theorem active_eq_none (h : ∀ w, s.stage w ≠ .running) : s.active = none := by
  unfold State.active
  cases s.queue with
  | nil => rfl
  | cons w q => simp [h w]

omit [DecidableEq K] in
theorem map_pc_update (l : List W) (hw : w ∉ l) : l.map (update s.pc w c) = l.map s.pc := by
  apply List.map_congr_left
  intro z hz
  have hzw : z ≠ w := by
    rintro rfl
    exact hw hz
  simp [hzw]

omit [DecidableEq W] in
theorem not_mem_woken (h : WellFormed s) (hw : ∀ k, s.stage w ≠ .woken k) : w ∉ s.woken k :=
  fun hm => hw k ((mem_woken h).mp hm)

omit [DecidableEq W] [DecidableEq K] in
theorem not_mem_waiters (h : WellFormed s) (hw : ∀ k, s.stage w ≠ .waiting k) :
    w ∉ s.waiters k :=
  fun hm => hw k ((h.waiters k w).mp hm)

theorem view_goto (h : WellFormed s) (hw : s.stage w = .running) :
    (s.goto w c).view = { s.view with active := some c } := by
  have ht : WellFormed (s.goto w c) := wellFormed_goto h c
  have ha : (s.goto w c).active = some c := by
    rw [active_eq_some ht hw]
    simp [State.goto]
  have hwoken : ∀ k, ((s.goto w c).woken k).map (s.goto w c).pc = (s.woken k).map s.pc :=
    fun k => map_pc_update _ (not_mem_woken (s := s) h (by simp [hw]))
  have hwaiters : ∀ k, ((s.goto w c).waiters k).map (s.goto w c).pc = (s.waiters k).map s.pc :=
    fun k => map_pc_update _ (not_mem_waiters (s := s) h (by simp [hw]))
  simp only [State.view, ha, hwoken, hwaiters]
  rfl

theorem view_arrive (h : WellFormed s) (hw : s.stage w = .outside) :
    (s.arrive w c).view = s.view := by
  have ha : (s.arrive w c).active = s.active := by
    have hn : w ∉ s.queue := h.not_mem (by simp [hw, Stage.queued])
    unfold State.active State.arrive
    cases hq : s.queue with
    | nil => simp
    | cons z q =>
      have hz : z ≠ w := by
        rintro rfl
        exact hn (by simp [hq])
      simp [hz]
  have hwoken : ∀ k, ((s.arrive w c).woken k).map (s.arrive w c).pc = (s.woken k).map s.pc := by
    intro k
    rw [woken_arrive h hw]
    exact map_pc_update _ (not_mem_woken h (by simp [hw]))
  have hwaiters : ∀ k, (s.waiters k).map (s.arrive w c).pc = (s.waiters k).map s.pc :=
    fun k => map_pc_update _ (not_mem_waiters h (by simp [hw]))
  simp only [State.view, ha, hwoken]
  simp only [State.arrive] at hwaiters ⊢
  simp only [hwaiters]

theorem view_wake (h : WellFormed s) (hw : s.stage w = .running) {l : List W} {v : W}
    (hk : s.waiters k = v :: l) : (s.wake k v l).view = s.view.wake k := by
  have hv : s.stage v = .waiting k := (h.waiters k v).mp (by simp [hk])
  have hwv : w ≠ v := by
    rintro rfl
    simp [hw] at hv
  have hrun : (s.wake k v l).stage w = .running := by simpa [State.wake, hwv] using hw
  have ha : (s.wake k v l).active = s.active := by
    rw [active_eq_some (wellFormed_wake h hk) hrun, active_eq_some h hw]
    rfl
  have hvw : s.view.waiters k = s.pc v :: l.map s.pc := by simp [State.view, hk]
  have hwoken : (fun j => ((s.wake k v l).woken j).map s.pc) =
      update s.view.woken k (s.view.woken k ++ [s.pc v]) := by
    funext j
    rw [woken_wake h hk]
    by_cases hj : j = k
    · subst hj
      simp [State.view]
    · simp [State.view, hj]
  have hwaiters : (fun j => ((s.wake k v l).waiters j).map s.pc) =
      update s.view.waiters k (l.map s.pc) := by
    funext j
    by_cases hj : j = k
    · subst hj
      simp [State.wake]
    · simp [State.wake, State.view, hj]
  simp only [View.wake, hvw]
  simp only [← hwoken, ← hwaiters]
  simp only [State.view, ha]
  rfl

theorem view_block (h : WellFormed s) (hw : s.stage w = .running) :
    (s.block w k).view = { s.view with
      active := none, waiters := update s.view.waiters k (s.view.waiters k ++ [s.pc w]) } := by
  have ha : (s.block w k).active = none := by
    apply active_eq_none
    intro z hz
    by_cases hzw : z = w
    · simp [State.block, hzw] at hz
    · exact hzw (h.running_unique (by simpa [State.block, hzw] using hz) hw)
  have hwaiters : (fun j => ((s.block w k).waiters j).map s.pc) =
      update s.view.waiters k (s.view.waiters k ++ [s.pc w]) := by
    funext j
    by_cases hj : j = k
    · subst hj
      simp [State.block, State.view]
    · simp [State.block, State.view, hj]
  simp only [← hwaiters]
  simp only [State.view, ha, woken_block h hw]
  rfl

theorem view_leave (h : WellFormed s) (hw : s.stage w = .running) :
    (s.leave w c).view = { s.view with active := none } := by
  have ha : (s.leave w c).active = none := by
    apply active_eq_none
    intro z hz
    by_cases hzw : z = w
    · simp [State.leave, hzw] at hz
    · exact hzw (h.running_unique (by simpa [State.leave, hzw] using hz) hw)
  have hwoken : ∀ k, ((s.leave w c).woken k).map (s.leave w c).pc = (s.woken k).map s.pc := by
    intro k
    rw [woken_leave h hw]
    exact map_pc_update _ (not_mem_woken h (by simp [hw]))
  have hwaiters : ∀ k, (s.waiters k).map (s.leave w c).pc = (s.waiters k).map s.pc :=
    fun k => map_pc_update _ (not_mem_waiters h (by simp [hw]))
  simp only [State.view, ha, hwoken]
  simp only [State.leave] at hwaiters ⊢
  simp only [hwaiters]

theorem view_resume (h : WellFormed s) (hq : s.queue.head? = some w) :
    (s.resume w).view = { s.view with
      active := some (s.pc w)
      woken := fun k => ((s.resume w).woken k).map s.pc } := by
  have ha : (s.resume w).active = some (s.pc w) :=
    active_eq_some (wellFormed_resume h hq) (by simp [State.resume])
  simp only [State.view, ha]
  rfl

omit [DecidableEq W] in
theorem no_running (h : WellFormed s) (hq : s.queue.head? = some w)
    (hw : (s.stage w).resumable = true) : s.active = none := by
  apply active_eq_none
  intro z hz
  have he := Option.some.inj ((h.running z hz).symm.trans hq)
  rw [he] at hz
  simp [hz, Stage.resumable] at hw

theorem view_notify (h : WellFormed s) (hw : s.stage w = .running) :
    (s.notify k).view = s.view.wake k := by
  unfold State.notify
  cases hk : s.waiters k with
  | nil =>
    have hv : s.view.waiters k = [] := by simp [State.view, hk]
    simp [View.wake, hv]
  | cons v l => exact view_wake h hw hk

theorem running_notify (h : WellFormed s) (hw : s.stage w = .running) :
    (s.notify k).stage w = .running := by
  unfold State.notify
  cases hk : s.waiters k with
  | nil => exact hw
  | cons v l =>
    have hwv : w ≠ v := by
      rintro rfl
      simp [(h.waiters k w).mp (by simp [hk])] at hw
    simpa [State.wake, hwv] using hw

/-- What the running thread does shows in the view. -/
theorem view_run (h : WellFormed s) (hw : s.stage w = .running) (i : Instr K C D) :
    (s.run w i).view = s.view.run (s.pc w) (s.notified w) i := by
  cases i with
  | assign d c =>
    have hg := view_goto (c := c) h hw
    simp only [View.run, State.run]
    rw [← show ({ (s.goto w c).view with data := d } : View K C D) =
      { s.view with active := some c, data := d } by rw [hg]]
    rfl
  | make c =>
    simp only [View.run, State.run]
    rw [← view_goto h hw]
    rfl
  | wait k condition c =>
    simp only [View.run, State.run]
    split
    · exact view_block h hw
    · exact view_goto h hw
  | notify k c =>
    simp only [View.run, State.run]
    rw [view_goto (wellFormed_notify h k) (running_notify h hw), view_notify h hw]
  | notifyAll k c =>
    simp only [View.run, State.run]
    cases hk : s.waiters k with
    | nil =>
      have hv : s.view.waiters k = [] := by simp [State.view, hk]
      simp only [hv]
      exact view_goto h hw
    | cons v l =>
      have hv : s.view.waiters k = s.pc v :: l.map s.pc := by simp [State.view, hk]
      simp only [hv]
      exact view_wake h hw hk
  | release c => exact view_leave h hw

/-- The running thread takes its steps in states that meet `guard` only. -/
def Guarded (guard : View K C D → Prop) (s : State W K C D) (l : Label W C) : Prop :=
  ∀ w, l = .run w → guard s.view

instance (guard : View K C D → Prop) [DecidablePred guard] :
    ∀ (s : State W K C D) (l : Label W C), Decidable (Guarded guard s l)
  | s, .run w => decidable_of_iff (guard s.view) ⟨fun h _ _ => h, fun h => h w rfl⟩
  | _, .arrive _ _ | _, .resume _ => .isTrue (fun _ h => nomatch h)

theorem entering_next {l : Label W C} (h : s.Entering P) (he : Enabled P s l) :
    (next P s l).Entering P := by
  have keep : ∀ t : State W K C D, (∀ z, t.stage z = .arriving → s.stage z = .arriving ∧
      t.pc z = s.pc z) → t.Entering P := by
    intro t ht z hz
    obtain ⟨hs, hp⟩ := ht z hz
    rw [hp]
    exact h z hs
  have running : ∀ (w : W) (t : State W K C D), s.stage w = .running →
      (∀ z, z ≠ w → t.stage z = .arriving → s.stage z = .arriving ∧ t.pc z = s.pc z) →
      t.stage w ≠ .arriving → t.Entering P := by
    intro w t hw ht hn
    apply keep
    intro z hz
    by_cases hzw : z = w
    · exact (hn (hzw ▸ hz)).elim
    · exact ht z hzw hz
  have wake : ∀ (k : K) (v : W) (l : List W) (z : W), (s.wake k v l).stage z = .arriving →
      s.stage z = .arriving := by
    intro k v l z hz
    by_cases hzv : z = v
    · simp [State.wake, hzv] at hz
    · simpa [State.wake, hzv] using hz
  cases l with
  | arrive w c =>
    intro z hz
    by_cases hzw : z = w
    · exact ⟨s.pc w, by simpa [next, State.arrive, hzw] using he.2⟩
    · simpa [next, State.arrive, hzw] using h z (by simpa [next, State.arrive, hzw] using hz)
  | resume w =>
    apply keep
    intro z hz
    by_cases hzw : z = w
    · simp [next, State.resume, hzw] at hz
    · exact ⟨by simpa [next, State.resume, hzw] using hz, rfl⟩
  | run w =>
    have hw : s.stage w = .running := he
    have goto : ∀ t : State W K C D, t.stage = s.stage → (∀ z, z ≠ w → t.pc z = s.pc z) →
        t.Entering P := by
      intro t hs hp
      exact running w t hw (fun z hz ha => ⟨hs ▸ ha, hp z hz⟩) (by simp [hs, hw])
    simp only [next]
    cases P.code (s.pc w) s.data with
    | assign d c | make c => exact goto _ rfl fun z hz => by simp [State.run, State.goto, hz]
    | release c =>
      refine running w _ hw (fun z hz hs => ?_) (by simp [State.run, State.leave])
      simpa [State.run, State.leave, hz] using hs
    | wait k condition c =>
      simp only [State.run]
      split
      · refine running w _ hw (fun z hz hs => ?_) (by simp [State.block])
        simpa [State.block, hz] using hs
      · exact goto _ rfl fun z hz => by simp [State.goto, hz]
    | notify k c =>
      simp only [State.run, State.notify]
      cases hk : s.waiters k with
      | nil => exact goto _ rfl fun z hz => by simp [State.goto, hz]
      | cons v l =>
        refine running w _ hw (fun z hz hs => ⟨wake k v l z hs, ?_⟩) fun hs => ?_
        · simp [State.goto, State.wake, hz]
        · simpa [hw] using wake k v l w hs
    | notifyAll k c =>
      simp only [State.run]
      cases hk : s.waiters k with
      | nil => exact goto _ rfl fun z hz => by simp [State.goto, hz]
      | cons v l => exact keep _ fun z hz => ⟨wake k v l z hz, rfl⟩

/-- The view of a monitor moves like the machine of views. -/
theorem refines_view (guard : View K C D → Prop) :
    Transition.Simulation ((machine (W := W) P c d).restrict (Guarded guard))
      (View.machine P guard d) fun s v => WellFormed s ∧ s.Entering P ∧ v = s.view where
  initial := by
    rintro s rfl
    refine ⟨_, rfl, wellFormed_initial c d, ?_, ?_⟩
    · intro z hz
      simp [initial] at hz
    · simp [State.view, State.active, State.woken, initial]
  step := by
    rintro s v l ⟨hwf, hent, rfl⟩ ⟨he, hg⟩
    have he' : Enabled P s l := he
    have hwf' := wellFormed_next hwf he'
    have hent' := entering_next hent he'
    cases l with
    | arrive w c' => exact Or.inl ⟨hwf', hent', (view_arrive hwf he'.1).symm⟩
    | resume w =>
      right
      have hv := view_resume hwf he'.1
      have hnone := no_running hwf he'.1 he'.2
      cases hs : s.stage w with
      | outside | running | waiting k => exact absurd he'.2 (by simp [hs, Stage.resumable])
      | arriving =>
        refine ⟨.enter (s.pc w), ⟨hnone, hent w hs⟩, hwf', hent', ?_⟩
        have hwoken : ∀ k, (s.resume w).woken k = s.woken k := by
          intro k
          rw [woken_resume (k := k) hwf he'.1 he'.2]
          simp [hs]
        change _ = (s.resume w).view
        rw [hv]
        simp only [hwoken]
        rfl
      | woken k =>
        have hk : s.view.woken k = s.pc w :: ((s.resume w).woken k).map s.pc := by
          have := woken_resume (k := k) hwf he'.1 he'.2
          simp only [hs, if_true] at this
          simp [State.view, this]
        refine ⟨.resume k, ⟨hnone, by simp [hk]⟩, hwf', hent', ?_⟩
        have hother : (fun j => ((s.resume w).woken j).map s.pc) =
            update s.view.woken k (((s.resume w).woken k).map s.pc) := by
          funext j
          by_cases hj : j = k
          · subst hj
            simp
          · have := woken_resume (k := j) hwf he'.1 he'.2
            have hne : Stage.woken k ≠ Stage.woken j := by simpa using Ne.symm hj
            simp only [hs, hne, if_false] at this
            simp [State.view, hj, this]
        change _ = (s.resume w).view
        rw [hv, hother]
        simp only [View.machine, hk]
    | run w =>
      right
      have ha := active_eq_some hwf he'
      have hsome : s.view.active = some (s.pc w) := ha
      refine ⟨.run (s.notified w), ⟨by simp [hsome], hg w rfl⟩, hwf', hent', ?_⟩
      change _ = (s.run w (P.code (s.pc w) s.data)).view
      rw [view_run hwf he']
      simp only [View.machine, hsome]
      rfl

theorem view_reachable {guard : View K C D → Prop}
    (h : ((machine P c d).restrict (Guarded guard)).Reachable s) :
    WellFormed s ∧ (View.machine P guard d).Reachable s.view := by
  obtain ⟨v, hv, hwf, -, rfl⟩ := (refines_view guard).reachable h
  exact ⟨hwf, hv⟩

theorem view_reachable_of_reachable (h : (machine P c d).Reachable s) :
    WellFormed s ∧ (View.machine P (fun _ => True) d).Reachable s.view :=
  view_reachable (h.restrict fun _ _ _ _ => trivial)

/-- Waiting and notified threads stand at the `wait` that parked them. -/
def View.Waits (P : Program K C D) (v : View K C D) : Prop :=
  ∀ k c, c ∈ v.woken k ∨ c ∈ v.waiters k → ∃ d condition c', P.code c d = .wait k condition c'

omit [DecidableEq W] in
theorem View.mem_wake {v : View K C D} {j : K} {x : C}
    (h : x ∈ (v.wake k).woken j ∨ x ∈ (v.wake k).waiters j) :
    x ∈ v.woken j ∨ x ∈ v.waiters j := by
  unfold View.wake at h
  cases hk : v.waiters k with
  | nil => simpa [hk] using h
  | cons y l =>
    by_cases hj : j = k
    · subst hj
      simp only [hk, Function.update_self, List.mem_append, List.mem_singleton] at h
      simp only [hk, List.mem_cons]
      rcases h with (h | h) | h
      · exact Or.inl h
      · exact Or.inr (Or.inl h)
      · exact Or.inr (Or.inr h)
    · simpa [hk, hj] using h

omit [DecidableEq W] in
theorem View.waits_reachable {guard : View K C D → Prop} {v : View K C D}
    (h : (View.machine P guard d).Reachable v) : v.Waits P := by
  refine h.invariant (P := View.Waits P) ?_ ?_
  · rintro v rfl k c hc
    simp at hc
  · intro v l hv he
    cases l with
    | enter c => exact hv
    | resume k =>
      intro j x hx
      cases hk : v.woken k with
      | nil => exact (he.2 hk).elim
      | cons c l =>
        simp only [View.machine, hk] at hx
        apply hv
        by_cases hj : j = k
        · subst hj
          simp only [Function.update_self] at hx
          rcases hx with hx | hx
          · exact Or.inl (by simp [hk, hx])
          · exact Or.inr hx
        · simpa [hj] using hx
    | run notified =>
      cases ha : v.active with
      | none => exact (he.1 ha).elim
      | some c =>
        intro j x hx
        simp only [View.machine, ha] at hx
        cases hc : P.code c v.data with
        | assign d' c' | make c' | release c' => exact hv j x (by simpa [View.run, hc] using hx)
        | wait k condition c' =>
          simp only [hc, View.run] at hx
          split at hx
          · by_cases hj : j = k
            · subst hj
              simp only [Function.update_self, List.mem_append, List.mem_singleton] at hx
              rcases hx with hx | hx | rfl
              · exact hv j x (Or.inl hx)
              · exact hv j x (Or.inr hx)
              · exact ⟨v.data, condition, c', hc⟩
            · exact hv j x (by simpa [hj] using hx)
          · exact hv j x hx
        | notify k c' =>
          simp only [hc, View.run] at hx
          exact hv j x (View.mem_wake hx)
        | notifyAll k c' =>
          simp only [hc, View.run] at hx
          split at hx
          · exact hv j x hx
          · exact hv j x (View.mem_wake hx)

end Monitor
