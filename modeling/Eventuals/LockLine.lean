import Eventuals.LockInvariant

/-! Who stands in line for the lock, apart from a holder that is giving it up. -/
namespace Eventuals.Lock

open Function (update)

/-- Where a waiter stands with the lock. -/
inductive Place
  | away
  | coming
  | queued
  | critical
  deriving DecidableEq

/-- The code that releases the lock is away already. -/
def PC.place {W : Type*} : PC W → Place
  | .idle | .releaseAvailable | .releaseLoad | .releaseTest _ | .releaseOwner _ | .releaseSwap _
  | .releaseWalk _ | .releaseAcquired _ | .releaseUnlink _ | .handOwner _ | .handAcquired _
  | .handCallback _ => .away
  | .fastChecks _ | .fastLoad _ | .fastSwap _ | .fastReset _ | .storeCallback | .slowChecks
  | .slowLoad | .slowSwap => .coming
  | .fastOwner _ | .fastAcquired _ | .queued | .ownCallback | .relinquish => .queued
  | .critical => .critical

def Place.lined : Place → Bool
  | .queued | .critical => true
  | .away | .coming => false

@[simp] theorem lined_queued : Place.queued.lined = true := rfl
@[simp] theorem lined_critical : Place.critical.lined = true := rfl
@[simp] theorem lined_away : Place.away.lined = false := rfl
@[simp] theorem lined_coming : Place.coming.lined = false := rfl

variable {W C : Type*} {s t : State W C} {q q' : List W} {u w z : W}

/-- The waiters that have or will get the lock, oldest first. -/
def State.line (s : State W C) (q : List W) : List W :=
  q.filter fun w => (s.pc w).place.lined

/-- The waiter has swapped itself into the list. -/
def Joins (p p' : PC W) : Prop :=
  (∃ c c', p = .fastSwap c ∧ p' = .fastOwner c') ∨ p = .slowSwap ∧ p' = .queued

theorem Joins.place {p p' : PC W} (h : Joins p p') : p.place = .coming ∧ p'.place = .queued := by
  rcases h with ⟨c, c', rfl, rfl⟩ | ⟨rfl, rfl⟩ <;> exact ⟨rfl, rfl⟩

theorem place_eq_critical {p : PC W} : p.place = .critical ↔ p = .critical := by
  cases p <;> simp [PC.place]

theorem releasing_of_away {p : PC W} (hp : p.place = .away) (hi : p ≠ .idle) :
    p.releasing = true := by
  cases p <;> simp_all [PC.place, PC.releasing]

theorem coming_of_enqueuing {p : PC W} (hp : p.enqueuing = true) : p.place = .coming := by
  cases p <;> simp_all [PC.place, PC.enqueuing]

theorem lined_cases {p : PC W} (hp : p.place.lined = true) : p.holder = true ∨ p = .queued := by
  cases p <;> simp_all [PC.place, PC.holder]

theorem Inv.mem_of_lined (h : Inv s q) (hw : (s.pc w).place.lined = true) : w ∈ q := by
  rcases lined_cases hw with hh | hq
  · exact List.mem_of_head? (h.holder w hh)
  · exact h.queued w hq

/-- Where nobody takes or leaves a place in line, the line stays as it is. -/
theorem Inv.line_eq (h : Inv s q) (h' : Inv t q') (hq : QueueStep q q')
    (hsame : ∀ z, (t.pc z).place.lined = (s.pc z).place.lined) : t.line q' = s.line q := by
  have hline : t.line q' = s.line q' := List.filter_congr fun z _ => hsame z
  rw [hline]
  cases hq with
  | stay => rfl
  | @enqueue x hx =>
    have hout : (s.pc x).place.lined = false := by
      by_contra hin
      exact hx (h.mem_of_lined (by simpa using hin))
    simp [State.line, hout]
  | @dequeue x q' he =>
    subst he
    have hout : (t.pc x).place.lined = false := by
      by_contra hin
      exact (List.nodup_cons.mp h.nodup).1 (h'.mem_of_lined (by simpa using hin))
    rw [hsame x] at hout
    simp [State.line, hout]

/-- A waiter joins at the end of the line. -/
theorem Inv.line_join (h : Inv s q) (h' : Inv t q') (hq : QueueStep q q')
    (hu : (s.pc u).place = .coming) (hu' : (t.pc u).place = .queued)
    (hother : ∀ z, z ≠ u → (t.pc z).place = (s.pc z).place) : t.line q' = s.line q ++ [u] := by
  have hnot : u ∉ q := by
    intro hm
    rcases h.member u hm with hh | hh <;> cases hp : s.pc u <;> simp_all [PC.place, PC.holder]
  have hin : u ∈ q' := h'.mem_of_lined (by simp [hu'])
  cases hq with
  | stay => exact absurd hin hnot
  | @dequeue x q' he =>
    subst he
    exact absurd (List.mem_cons_of_mem _ hin) hnot
  | @enqueue x hx =>
    have hux : x = u := by
      rcases List.mem_append.mp hin with hm | hm
      · exact absurd hm hnot
      · exact (List.mem_singleton.mp hm).symm
    subst hux
    have hold : q.filter (fun w => (t.pc w).place.lined) = s.line q := by
      apply List.filter_congr
      intro z hz
      have hzu : z ≠ x := by
        rintro rfl
        exact hnot hz
      rw [hother z hzu]
    calc t.line (q ++ [x]) = q.filter (fun w => (t.pc w).place.lined) ++ [x] := by
          simp [State.line, List.filter_append, hu']
      _ = s.line q ++ [x] := by rw [hold]

/-- The holder is the first in line until it gives up the lock. -/
theorem Inv.line_cons (h : Inv s q) (hh : (s.pc u).holder = true)
    (hu : (s.pc u).place.lined = true) : ∃ q', q = u :: q' ∧ u ∉ q' ∧
      s.line q = u :: q'.filter fun w => (s.pc w).place.lined := by
  obtain ⟨q', rfl⟩ := h.eq_cons hh
  exact ⟨q', rfl, (List.nodup_cons.mp h.nodup).1, by simp [State.line, hu]⟩

/-- The holder leaves the line. -/
theorem Inv.line_leave (h : Inv s q) (hu : s.pc u = .critical) (hu' : (t.pc u).place = .away)
    (hother : ∀ z, z ≠ u → t.pc z = s.pc z) : s.line q = u :: t.line q := by
  have hh : (s.pc u).holder = true := by simp [hu, PC.holder]
  obtain ⟨q', rfl, hnot, hline⟩ := h.line_cons hh (by simp [hu, PC.place])
  have htail : q'.filter (fun w => (s.pc w).place.lined) =
      q'.filter fun w => (t.pc w).place.lined := by
    apply List.filter_congr
    intro z hz
    have hzu : z ≠ u := by
      rintro rfl
      exact hnot hz
    rw [hother z hzu]
  rw [hline, htail]
  simp [State.line, hu']

variable [DecidableEq W]

/-- What an instruction run for `u` means for who stands where. -/
inductive Turn (s t : State W C) (u : W) : Prop
  | stays (hplace : ∀ z, (t.pc z).place = (s.pc z).place) (hr : s.pc u ≠ .relinquish)
      (hj : ¬ Joins (s.pc u) (t.pc u))
  | joins (hj : Joins (s.pc u) (t.pc u)) (hother : ∀ z, z ≠ u → t.pc z = s.pc z)
  | starts (hr : s.pc u = .relinquish) (hc : t.pc u = .critical)
      (hother : ∀ z, z ≠ u → t.pc z = s.pc z)

/-- The code for `u` that neither hands the lock over nor swaps nor has just got the lock. -/
theorem run_place (b : Bool) (hr : s.pc u ≠ .relinquish)
    (hh : ∀ v, s.pc u ≠ .handCallback v) :
    ((run s u b).pc u).place = (s.pc u).place ∨ Joins (s.pc u) ((run s u b).pc u) := by
  unfold run
  cases hu : s.pc u <;> simp only [] <;> repeat' split
  all_goals simp_all [State.goto, State.fail, PC.place, Joins]

theorem run_turn (h : Inv s q) (b : Bool) : Turn s (run s u b) u := by
  by_cases hr : s.pc u = .relinquish
  · refine .starts hr ?_ ?_
    · simp [run, hr, State.goto]
    · intro z hz
      simp [run, hr, State.goto, hz]
  by_cases hh : ∃ v, s.pc u = .handCallback v
  · obtain ⟨v, hv⟩ := hh
    obtain ⟨-, hq⟩ := h.handing u v (by simp [hv, PC.handing])
    have hf := h.facts v
    simp only [Facts, hq, State.Ready] at hf
    have hrun : (run s u b).pc = update (update s.pc u .idle) v .relinquish := by
      simp [run, hv, hf.2.2.2, State.goto]
    have hvu : u ≠ v := by
      rintro rfl
      simp [hv] at hq
    refine .stays (fun z => ?_) hr ?_
    · rw [hrun]
      by_cases hzv : z = v
      · simp [hzv, hq, PC.place]
      · by_cases hzu : z = u
        · simp [hzu, hvu, hv, PC.place]
        · simp [hzv, hzu]
    · simp [Joins, hv]
  · have hne : ∀ v, s.pc u ≠ .handCallback v := fun v hv => hh ⟨v, hv⟩
    have hother : ∀ z, z ≠ u → (run s u b).pc z = s.pc z := fun z hz => (run_frame b hz (hne z)).1
    rcases run_place b hr hne with hp | hj
    · by_cases hj : Joins (s.pc u) ((run s u b).pc u)
      · exact .joins hj hother
      · refine .stays (fun z => ?_) hr hj
        by_cases hz : z = u
        · rw [hz, hp]
        · rw [hother z hz]
    · exact .joins hj hother

/-- The context of a waiter is set where it is started or made ready, and nowhere else. -/
theorem run_self (b : Bool) : (run s u b).self = s.self := by
  unfold run
  cases hu : s.pc u <;> simp only [] <;> repeat' split
  all_goals rfl

/-- Only code that runs for a waiter, or hands it the lock, moves it. -/
theorem run_idle (h : Inv s q) (b : Bool) (hu : s.pc u ≠ .idle) (hz : s.pc z = .idle) :
    (run s u b).pc z = .idle := by
  have hzu : z ≠ u := by
    rintro rfl
    exact hu hz
  have hne : s.pc u ≠ .handCallback z := by
    intro hv
    obtain ⟨-, hq⟩ := h.handing u z (by simp [hv, PC.handing])
    simp [hz] at hq
  rw [(run_frame b hzu hne).1, hz]

/-- A waiter that is ready to be enqueued stays so until it has joined. -/
theorem run_ready (h : Inv s q) (b : Bool) (hu : s.pc u ≠ .idle) {c : Caller} (hr : s.Ready z c)
    (hz : (s.pc z).place = .away ∨ (s.pc z).enqueuing = true) : (run s u b).Ready z c := by
  have hne : s.pc u ≠ .handCallback z := by
    intro hv
    obtain ⟨-, hq⟩ := h.handing u z (by simp [hv, PC.handing])
    simp [hq, PC.place, PC.enqueuing] at hz
  have hkeep : (run s u b).context z = s.context z ∧ (run s u b).f z = s.f z := by
    by_cases hzu : z = u
    · subst hzu
      rcases hz with hz | hz
      · exact ⟨(run_releasing b (releasing_of_away hz hu) hne).2.1,
          (run_releasing b (releasing_of_away hz hu) hne).2.2.1⟩
      · exact ⟨(run_enqueuing b hz).2.1, (run_enqueuing b hz).2.2.1⟩
    · exact ⟨(run_frame b hzu hne).2.1, (run_frame b hzu hne).2.2.1⟩
  simpa only [State.Ready, hkeep.1, hkeep.2, run_self] using hr

/-- While somebody has the lock, a waiter that joins does not win it. -/
theorem run_joins_held (b : Bool) (hhead : s.head ≠ none)
    (hj : Joins (s.pc u) ((run s u b).pc u)) :
    s.pc u = .slowSwap ∧ (run s u b).pc u = .queued := by
  rcases hj with ⟨c, c', hc, hw⟩ | hj
  · exfalso
    unfold run at hw
    simp only [hc] at hw
    cases hn : s.next u with
    | some v => simp [hn, State.goto] at hw
    | none =>
      have hs : s.swaps? none b = false := by simp [State.swaps?, hhead]
      simp [hn, hs, hc] at hw
  · exact hj

/-- Whoever runs a section does so until it gives up the lock. -/
theorem run_critical (h : Inv s q) (b : Bool) (hu : s.pc u ≠ .critical) (hz : s.pc z = .critical) :
    (run s u b).pc z = .critical := by
  have hzu : z ≠ u := by
    rintro rfl
    exact hu hz
  have hne : s.pc u ≠ .handCallback z := by
    intro hv
    obtain ⟨-, hq⟩ := h.handing u z (by simp [hv, PC.handing])
    simp [hz] at hq
  rw [(run_frame b hzu hne).1, hz]

/-- While somebody runs a section, nobody who is queued gets the lock. -/
theorem run_queued_held (h : Inv s q) (b : Bool) (hw : s.pc w = .critical) (hu : s.pc u ≠ .queued)
    (hz : s.pc z = .queued) : (run s u b).pc z = .queued := by
  have hzu : z ≠ u := by
    rintro rfl
    exact hu hz
  have hne : s.pc u ≠ .handCallback z := by
    intro hv
    have hnone := h.no_handing (w := w) (u := u) (by simp [hw, PC.holder])
    simp [hv, PC.handing] at hnone
  rw [(run_frame b hzu hne).1, hz]

/-- A waiter that is enqueued goes on until it joins. -/
theorem run_enqueuing_stays (h : Inv s q) (b : Bool) (hz : (s.pc z).enqueuing = true)
    (hplace : ((run s u b).pc z).place = (s.pc z).place) :
    ((run s u b).pc z).enqueuing = true := by
  by_cases hzu : z = u
  · subst hzu
    rw [coming_of_enqueuing hz] at hplace
    rcases (run_enqueuing b hz).1 with he | he | he
    · exact he
    · simp [he, PC.place] at hplace
    · simp [he, PC.place] at hplace
  · have hne : s.pc u ≠ .handCallback z := by
      intro hv
      obtain ⟨-, hq⟩ := h.handing u z (by simp [hv, PC.handing])
      simp [hq, PC.enqueuing] at hz
    rw [(run_frame b hzu hne).1, hz]

end Eventuals.Lock
