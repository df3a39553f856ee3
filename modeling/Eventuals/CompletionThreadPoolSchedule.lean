import Mathlib.Data.List.Perm.Subperm
import Mathlib.Tactic.Push
import Eventuals.CompletionThreadPool

/-! Whom `Schedule()` gives which queue, while others borrow and release what they have got. -/
namespace Eventuals.CompletionThreadPool

open Transition (Machine)

/-- The queues that the calls of `Schedule()` in a run have returned. -/
def scheduled (xs : List (State × Label)) : List ℕ :=
  xs.filterMap fun p => if p.2 = .schedule then p.1.schedule else none

/-- `Schedule()` returns a queue with the smallest number of borrows, so that those who only
schedule are spread evenly, and `n` of them get a queue each. -/
structure Balances (n t : ℕ) : Prop where
  minimal : ∀ s, (machine n t).Reachable s → s.waiter = .running → ∀ q, s.schedule = some q →
    q < n ∧ ∀ p < n, (s.queue q).borrows ≤ (s.queue p).borrows
  returns : ∀ s, (machine n t).Reachable s → s.waiter = .running →
    ∀ p < n, (s.queue p).borrows < sizeMax → s.schedule ≠ none
  even : ∀ s xs u, (machine n t).Reachable s → (∀ q < n, (s.queue q).borrows = 0) →
    (machine n t).Run s xs u → (∀ p ∈ xs, p.2.isBorrow = false) →
      ∀ p < n, ∀ q < n, (u.queue p).borrows ≤ (u.queue q).borrows + 1
  covers : ∀ s xs u, (machine n t).Reachable s → (∀ q < n, (s.queue q).borrows = 0) →
    (machine n t).Run s xs u →
    (∀ ys p zs, xs = ys ++ p :: zs → ∀ q ∈ scheduled ys, 0 < (p.1.queue q).borrows) →
      (scheduled xs).length = n → (scheduled xs).Perm (List.range n)

section Scheduling

variable {n t : ℕ} {s u : State} {l : Label} {p q : ℕ}

/-- The scan ends with the first element that has the smallest number of borrows, unless none has
fewer than it began with. -/
theorem foldl_scan (borrows : ℕ → ℕ) (l : List ℕ) (p : Option ℕ × ℕ) :
    (l.foldl (fun p q => if borrows q < p.2 then (some q, borrows q) else p) p = p ∧
        ∀ q ∈ l, p.2 ≤ borrows q) ∨
      ∃ q ∈ l, l.foldl (fun p q => if borrows q < p.2 then (some q, borrows q) else p) p =
        (some q, borrows q) ∧ borrows q < p.2 ∧ ∀ q' ∈ l, borrows q ≤ borrows q' := by
  induction l generalizing p with
  | nil => exact .inl ⟨rfl, fun _ h => nomatch h⟩
  | cons a l ih =>
    rw [List.foldl_cons]
    by_cases ha : borrows a < p.2
    · rw [if_pos ha]
      right
      rcases ih (some a, borrows a) with ⟨heq, hle⟩ | ⟨q, hq, heq, hlt, hle⟩
      · refine ⟨a, List.mem_cons_self, heq, ha, ?_⟩
        rintro q' (_ | ⟨_, hq'⟩)
        · exact Nat.le_refl _
        · exact hle q' hq'
      · refine ⟨q, List.mem_cons_of_mem _ hq, heq, Nat.lt_trans hlt ha, ?_⟩
        rintro q' (_ | ⟨_, hq'⟩)
        · exact Nat.le_of_lt hlt
        · exact hle q' hq'
    · rw [if_neg ha]
      rcases ih p with ⟨heq, hle⟩ | ⟨q, hq, heq, hlt, hle⟩
      · left
        refine ⟨heq, ?_⟩
        rintro q' (_ | ⟨_, hq'⟩)
        · exact Nat.le_of_not_lt ha
        · exact hle q' hq'
      · right
        refine ⟨q, List.mem_cons_of_mem _ hq, heq, hlt, ?_⟩
        rintro q' (_ | ⟨_, hq'⟩)
        · exact Nat.le_trans (Nat.le_of_lt hlt) (Nat.le_of_not_lt ha)
        · exact hle q' hq'

theorem schedule_eq_some (h : s.schedule = some q) :
    q ∈ s.cqs ∧ ∀ p ∈ s.cqs, (s.queue q).borrows ≤ (s.queue p).borrows := by
  unfold State.schedule at h
  rcases foldl_scan (fun q => (s.queue q).borrows) s.cqs (none, sizeMax) with
    ⟨heq, -⟩ | ⟨p, hp, heq, -, hle⟩
  · rw [heq] at h
    cases h
  · rw [heq] at h
    cases h
    exact ⟨hp, hle⟩

theorem schedule_eq_none (h : s.schedule = none) : ∀ p ∈ s.cqs, sizeMax ≤ (s.queue p).borrows := by
  unfold State.schedule at h
  rcases foldl_scan (fun q => (s.queue q).borrows) s.cqs (none, sizeMax) with
    ⟨-, hle⟩ | ⟨p, -, heq, -, -⟩
  · exact hle
  · rw [heq] at h
    cases h

theorem borrows_modify (f : Queue → Queue) :
    ((s.modify q f).queue p).borrows =
      if p = q then (f (s.queue q)).borrows else (s.queue p).borrows := by
  by_cases h : p = q
  · subst h
    rw [modify_self, if_pos rfl]
  · rw [modify_of_ne h, if_neg h]

theorem mem_cqs (h : (machine n t).Reachable s) (hw : s.waiter = .running) : q ∈ s.cqs ↔ q < n := by
  rw [(inv_reachable h).cqs_eq (by rw [hw]; rfl), List.mem_range]

theorem minimal_schedule (h : (machine n t).Reachable s) (hw : s.waiter = .running)
    (hs : s.schedule = some q) :
    q < n ∧ ∀ p < n, (s.queue q).borrows ≤ (s.queue p).borrows := by
  obtain ⟨hq, hle⟩ := schedule_eq_some hs
  exact ⟨(mem_cqs h hw).mp hq, fun p hp => hle p ((mem_cqs h hw).mpr hp)⟩

theorem borrows_modify_of_eq (p q : ℕ) {f : Queue → Queue} (hf : ∀ x, (f x).borrows = x.borrows) :
    ((s.modify p f).queue q).borrows = (s.queue q).borrows := by
  rw [borrows_modify, hf]
  split
  · rename_i h
    rw [h]
  · rfl

theorem borrows_waiterNext (q : ℕ) :
    (s.waiterNext.queue q).borrows = (s.queue q).borrows := by
  unfold State.waiterNext
  cases s.waiter with
  | running | pop | done | failed => rfl
  | shutdown i =>
    dsimp only
    split
    · dsimp only
      exact borrows_modify_of_eq _ q fun _ => rfl
    · rfl
  | wait =>
    dsimp only
    split <;> rfl
  | drain =>
    dsimp only
    split
    · split
      · rfl
      · exact borrows_modify_of_eq _ q fun _ => rfl
    · rfl

/-- Only borrowers change how often a queue is borrowed. -/
theorem borrows_next (hb : l.isBorrow = false) (hl : l ≠ .schedule) (q : ℕ) :
    ((next s l).queue q).borrows = (s.queue q).borrows := by
  cases l with
  | start p | complete p =>
    simp only [next]
    exact borrows_modify_of_eq p q fun _ => rfl
  | poll w =>
    simp only [next]
    split
    · rfl
    · exact borrows_modify_of_eq w.1 q fun _ => rfl
  | schedule => exact absurd rfl hl
  | reborrow | release => cases hb
  | waiter => exact borrows_waiterNext q

theorem borrows_schedule (hs : s.schedule = some p) (q : ℕ) :
    ((next s .schedule).queue q).borrows =
      if q = p then (s.queue q).borrows + 1 else (s.queue q).borrows := by
  simp only [next, hs]
  rw [borrows_modify]
  split
  · rename_i h
    rw [h]
  · rfl

def Even (n : ℕ) (s : State) : Prop :=
  ∀ p < n, ∀ q < n, (s.queue p).borrows ≤ (s.queue q).borrows + 1

theorem even_next (hs : (machine n t).Reachable s) (he : Enabled n t s l) (hb : l.isBorrow = false)
    (h : Even n s) : Even n (next s l) := by
  intro p hp q hq
  by_cases hl : l = .schedule
  · subst hl
    obtain ⟨hw, hsome⟩ := he
    obtain ⟨r, hr⟩ := Option.ne_none_iff_exists'.mp hsome
    have hle := (minimal_schedule hs hw hr).2 q hq
    have hpq := h p hp q hq
    rw [borrows_schedule hr, borrows_schedule hr]
    by_cases hpr : p = r
    · subst hpr
      rw [if_pos rfl]
      split <;> omega
    · rw [if_neg hpr]
      split <;> omega
  · rw [borrows_next hb hl, borrows_next hb hl]
    exact h p hp q hq

theorem even_run {xs : List (State × Label)} (hr : (machine n t).Run s xs u)
    (hs : (machine n t).Reachable s) (hb : ∀ p ∈ xs, p.2.isBorrow = false) (h : Even n s) :
    Even n u := by
  induction hr with
  | refl => exact h
  | stepL hstep _ ih =>
    have hl := hb _ List.mem_cons_self
    have hrest := fun p hp => hb p (List.mem_cons_of_mem _ hp)
    have hnext := even_next hs hstep.1 hl h
    exact ih (.step hs hstep) hrest (hstep.2 ▸ hnext)

/-- Of the queues, those that have been scheduled are the ones that have been borrowed. -/
structure Covered (n : ℕ) (qs : List ℕ) (s : State) : Prop where
  nodup : qs.Nodup
  lt : ∀ q ∈ qs, q < n
  rest : ∀ q < n, q ∉ qs → (s.queue q).borrows = 0

/-- As long as there are fewer than there are queues, one has not been scheduled. -/
theorem Covered.exists_rest {qs : List ℕ} (h : Covered n qs s) (hlt : qs.length < n) :
    ∃ q < n, (s.queue q).borrows = 0 := by
  by_contra hnone
  push Not at hnone
  have hsub : List.range n ⊆ qs := by
    intro q hq
    by_contra hqs
    exact hnone q (List.mem_range.mp hq) (h.rest q (List.mem_range.mp hq) hqs)
  have hle := (List.nodup_range.subperm hsub).length_le
  rw [List.length_range] at hle
  omega

theorem Covered.schedule {qs : List ℕ} (h : Covered n qs s) (hlt : qs.length < n)
    (hs : (machine n t).Reachable s) (hw : s.waiter = .running) (hq : s.schedule = some q)
    (hkept : ∀ p ∈ qs, 0 < (s.queue p).borrows) : Covered n (qs ++ [q]) (next s .schedule) := by
  obtain ⟨hqn, hle⟩ := minimal_schedule hs hw hq
  have hnot : q ∉ qs := by
    intro hmem
    obtain ⟨p, hp, hzero⟩ := h.exists_rest hlt
    have hpos := hkept q hmem
    have hqp := hle p hp
    omega
  refine ⟨List.nodup_append.mpr ⟨h.nodup, List.nodup_singleton q, ?_⟩, ?_, ?_⟩
  · intro a ha b hb hab
    rw [List.mem_singleton] at hb
    exact hnot (hb ▸ hab ▸ ha)
  · intro p hp
    rcases List.mem_append.mp hp with hp | hp
    · exact h.lt p hp
    · exact List.mem_singleton.mp hp ▸ hqn
  · intro p hp hpqs
    rw [List.mem_append, List.mem_singleton, not_or] at hpqs
    rw [borrows_schedule hq, if_neg hpqs.2]
    exact h.rest p hp hpqs.1

/-- A queue that nobody has scheduled is borrowed by nobody, so nobody can borrow it again. -/
theorem Covered.next_of_ne {qs : List ℕ} (h : Covered n qs s) (he : Enabled n t s l)
    (hl : l ≠ .schedule) : Covered n qs (next s l) := by
  refine ⟨h.nodup, h.lt, fun p hp hpqs => ?_⟩
  have hzero := h.rest p hp hpqs
  by_cases hb : l.isBorrow = false
  · rw [borrows_next hb hl, hzero]
  · cases l with
    | reborrow q | release q =>
      have hne : p ≠ q := by
        rintro rfl
        exact absurd hzero (Nat.pos_iff_ne_zero.mp he.2)
      simp only [next]
      rw [borrows_modify, if_neg hne, hzero]
    | start | complete | poll | schedule | waiter => exact absurd rfl hb

theorem scheduled_append (xs ys : List (State × Label)) :
    scheduled (xs ++ ys) = scheduled xs ++ scheduled ys :=
  List.filterMap_append

theorem covered_run {xs : List (State × Label)} (ws : List (State × Label))
    (hr : (machine n t).Run s xs u) (hs : (machine n t).Reachable s)
    (hkept : ∀ ys p zs, ws ++ xs = ys ++ p :: zs → ∀ q ∈ scheduled ys, 0 < (p.1.queue q).borrows)
    (hle : (scheduled (ws ++ xs)).length ≤ n) (h : Covered n (scheduled ws) s) :
    Covered n (scheduled (ws ++ xs)) u := by
  induction hr generalizing ws with
  | refl =>
    rw [List.append_nil]
    exact h
  | @stepL s v u l xs hstep _ ih =>
    obtain ⟨he, rfl⟩ := hstep
    have happend : ws ++ (s, l) :: xs = (ws ++ [(s, l)]) ++ xs := by
      rw [List.append_assoc, List.singleton_append]
    have hnow := hkept ws (s, l) xs rfl
    rw [happend] at hkept hle ⊢
    refine ih _ (hs.next he) hkept hle ?_
    by_cases hl : l = .schedule
    · subst hl
      obtain ⟨hw, hsome⟩ := he
      obtain ⟨q, hq⟩ := Option.ne_none_iff_exists'.mp hsome
      have hone : scheduled [(s, .schedule)] = [q] := by
        simp [scheduled, hq]
      rw [scheduled_append, scheduled_append, hone, List.length_append, List.length_append,
        List.length_singleton] at hle
      rw [scheduled_append, hone]
      exact h.schedule (by omega) hs hw hq hnow
    · have hnil : scheduled [(s, l)] = [] := by
        simp [scheduled, hl]
      rw [scheduled_append, hnil, List.append_nil]
      exact h.next_of_ne he hl

/-- Whoever schedules gets a queue that is borrowed least. -/
theorem balances (n t : ℕ) : Balances n t where
  minimal s hs hw q hq := minimal_schedule hs hw hq
  returns s hs hw p hp hlt hnone :=
    absurd (schedule_eq_none hnone p ((mem_cqs hs hw).mpr hp)) (Nat.not_le_of_lt hlt)
  even s xs u hs hzero hr hb p hp q hq := by
    have hstart : Even n s := by
      intro p hp q hq
      rw [hzero p hp, hzero q hq]
      exact Nat.zero_le _
    exact even_run hr hs hb hstart p hp q hq
  covers s xs u hs hzero hr hkept hlength := by
    have hstart : Covered n (scheduled []) s :=
      ⟨List.nodup_nil, (fun _ h => nomatch h), fun q hq _ => hzero q hq⟩
    have hcovered := covered_run [] hr hs hkept (Nat.le_of_eq hlength) hstart
    rw [List.nil_append] at hcovered
    have hsub : scheduled xs ⊆ List.range n := fun q hq => List.mem_range.mpr (hcovered.lt q hq)
    exact (hcovered.nodup.subperm hsub).perm_of_length_le
      (Nat.le_of_eq (List.length_range.trans hlength.symm))

end Scheduling

end Eventuals.CompletionThreadPool
