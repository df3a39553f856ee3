import Mathlib.Data.List.Basic
import Mathlib.Order.Basic

/-! Machines that take labelled steps: their runs, invariants, simulations and termination. -/
namespace Transition

/-- A machine moves from `s` under a label that is enabled there to `next s l`. -/
structure Machine (S L : Type*) where
  Initial : S → Prop
  Enabled : S → L → Prop
  next : S → L → S

variable {S T L K : Type*} {M : Machine S L} {N : Machine T K} {s t u : S} {l : L}

namespace Machine

def Step (M : Machine S L) (s : S) (l : L) (t : S) : Prop :=
  M.Enabled s l ∧ t = M.next s l

inductive Reachable (M : Machine S L) : S → Prop
  | initial {s : S} : M.Initial s → M.Reachable s
  | step {s t : S} {l : L} : M.Reachable s → M.Step s l t → M.Reachable t

/-- A finite run lists every label with the state it was taken in. -/
inductive Run (M : Machine S L) : S → List (S × L) → S → Prop
  | refl {s : S} : M.Run s [] s
  | stepL {s t u : S} {l : L} {xs : List (S × L)} :
      M.Step s l t → M.Run t xs u → M.Run s ((s, l) :: xs) u

/-- The machine whose steps meet `C` in the state they are taken in. -/
def restrict (M : Machine S L) (C : S → L → Prop) : Machine S L where
  Initial := M.Initial
  Enabled s l := M.Enabled s l ∧ C s l
  next := M.next

/-- No step of the given kind is enabled. -/
def Quiet (M : Machine S L) (kind : L → Prop) (s : S) : Prop :=
  ∀ l, kind l → ¬ M.Enabled s l

theorem Reachable.next (h : M.Reachable s) (he : M.Enabled s l) : M.Reachable (M.next s l) :=
  .step h ⟨he, rfl⟩

theorem Reachable.invariant {P : S → Prop} (hi : ∀ s, M.Initial s → P s)
    (hs : ∀ s l, P s → M.Enabled s l → P (M.next s l)) (h : M.Reachable s) : P s := by
  induction h with
  | initial h0 => exact hi _ h0
  | step _ hst ih => exact hst.2 ▸ hs _ _ ih hst.1

theorem Reachable.run {xs : List (S × L)} (h : M.Reachable s) (hr : M.Run s xs t) :
    M.Reachable t := by
  induction hr with
  | refl => exact h
  | stepL hs _ ih => exact ih (.step h hs)

theorem Run.append {xs ys : List (S × L)} (h : M.Run s xs t) (h' : M.Run t ys u) :
    M.Run s (xs ++ ys) u := by
  induction h with
  | refl => exact h'
  | stepL hs _ ih => exact .stepL hs (ih h')

theorem Run.restrict {C : S → L → Prop} {xs : List (S × L)} (hr : M.Run s xs t)
    (hc : ∀ p ∈ xs, C p.1 p.2) : (M.restrict C).Run s xs t := by
  induction hr with
  | refl => exact .refl
  | stepL hs _ ih =>
    have hl := hc _ List.mem_cons_self
    exact .stepL ⟨⟨hs.1, hl⟩, hs.2⟩ (ih fun p hp => hc p (List.mem_cons_of_mem _ hp))

theorem Run.of_restrict {C : S → L → Prop} {xs : List (S × L)} (hr : (M.restrict C).Run s xs t) :
    M.Run s xs t ∧ ∀ p ∈ xs, C p.1 p.2 := by
  induction hr with
  | refl => exact ⟨.refl, by simp⟩
  | stepL hs _ ih =>
    obtain ⟨⟨he, hc⟩, hn⟩ := hs
    exact ⟨.stepL ⟨he, hn⟩ ih.1, by simpa using ⟨hc, fun a b hab => ih.2 (a, b) hab⟩⟩

/-- Where steps under a condition keep what implies `P`, and after every other one `P` is lost and
nothing happens any more, a run ends with `P` exactly if all of its steps meet the condition. -/
theorem Run.last_iff {I P : S → Prop} {C : S → L → Prop} {xs : List (S × L)}
    (hP : ∀ s, I s → P s)
    (hkeep : ∀ s l, I s → M.Enabled s l → C s l → I (M.next s l))
    (hbreak : ∀ s l, I s → M.Enabled s l → ¬ C s l →
      ¬ P (M.next s l) ∧ ∀ k, ¬ M.Enabled (M.next s l) k)
    (h : I s) (hr : M.Run s xs u) : P u ↔ ∀ p ∈ xs, C p.1 p.2 := by
  induction hr with
  | refl => exact ⟨fun _ p hp => (List.not_mem_nil hp).elim, fun _ => hP _ h⟩
  | @stepL s t u l xs hs hr ih =>
    obtain ⟨he, rfl⟩ := hs
    by_cases hc : C s l
    · rw [ih (hkeep s l h he hc)]
      simp [hc]
    · obtain ⟨hnot, hstuck⟩ := hbreak s l h he hc
      constructor
      · intro hp
        cases hr with
        | refl => exact absurd hp hnot
        | stepL hs _ => exact absurd hs.1 (hstuck _)
      · intro hall
        exact absurd (hall _ List.mem_cons_self) hc

theorem Reachable.restrict {C : S → L → Prop} (h : M.Reachable s) (hc : ∀ s l, C s l) :
    (M.restrict C).Reachable s := by
  induction h with
  | initial h0 => exact .initial h0
  | step _ hst ih => exact .step ih ⟨⟨hst.1, hc _ _⟩, hst.2⟩

theorem Reachable.mono {C D : S → L → Prop} (h : (M.restrict C).Reachable s)
    (hc : ∀ s l, C s l → D s l) : (M.restrict D).Reachable s := by
  induction h with
  | initial h0 => exact .initial h0
  | step _ hst ih => exact .step ih ⟨⟨hst.1.1, hc _ _ hst.1.2⟩, hst.2⟩

theorem Reachable.restrict_restrict {C D : S → L → Prop}
    (h : ((M.restrict C).restrict D).Reachable s) :
    (M.restrict fun s l => C s l ∧ D s l).Reachable s := by
  induction h with
  | initial h0 => exact .initial h0
  | step _ hst ih => exact .step ih ⟨⟨hst.1.1.1, hst.1.1.2, hst.1.2⟩, hst.2⟩

theorem Reachable.of_restrict {C : S → L → Prop} (h : (M.restrict C).Reachable s) :
    M.Reachable s := by
  induction h with
  | initial h0 => exact .initial h0
  | step _ hst ih => exact .step ih ⟨hst.1.1, hst.2⟩

section Positions

/-- The state before the step at position `j`, and the last state after all steps. -/
def stateAt (u : S) (xs : List (S × L)) (j : ℕ) : S := ((xs[j]?).map Prod.fst).getD u

theorem stateAt_of_getElem {xs : List (S × L)} {j : ℕ} (h : xs[j]? = some (t, l)) :
    stateAt u xs j = t := by
  simp [stateAt, h]

theorem stateAt_of_le {xs : List (S × L)} {j : ℕ} (h : xs.length ≤ j) : stateAt u xs j = u := by
  simp [stateAt, List.getElem?_eq_none h]

theorem Run.stateAt_zero {xs : List (S × L)} (h : M.Run s xs u) : stateAt u xs 0 = s := by
  cases h with
  | refl => rfl
  | stepL => rfl

theorem Run.step_at {xs : List (S × L)} {j : ℕ} (h : M.Run s xs u) (hj : xs[j]? = some (t, l)) :
    M.Step t l (stateAt u xs (j + 1)) := by
  induction h generalizing j with
  | refl => simp at hj
  | @stepL s' t' u' l' xs' hs hr ih =>
    cases j with
    | zero =>
      simp only [List.getElem?_cons_zero, Option.some.injEq, Prod.mk.injEq] at hj
      obtain ⟨rfl, rfl⟩ := hj
      have hz : stateAt u' ((s', l') :: xs') (0 + 1) = t' := hr.stateAt_zero
      rwa [hz]
    | succ j => simpa [stateAt] using ih (by simpa using hj)

/-- What a step preserves at its position holds at every later position of the run. -/
theorem Run.induction_at {P : ℕ → S → Prop} {xs : List (S × L)} {i : ℕ} (h : M.Run s xs u)
    (h0 : P i (stateAt u xs i))
    (hs : ∀ j t l, i ≤ j → xs[j]? = some (t, l) → P j t → M.Enabled t l → P (j + 1) (M.next t l))
    {j : ℕ} (hij : i ≤ j) (hj : j ≤ xs.length) : P j (stateAt u xs j) := by
  induction hij with
  | refl => exact h0
  | @step j hij ih =>
    have hlt : j < xs.length := hj
    have hp := ih (Nat.le_of_lt hlt)
    have hx : xs[j]? = some (xs[j].1, xs[j].2) := List.getElem?_eq_getElem hlt
    obtain ⟨he, hn⟩ := h.step_at hx
    rw [stateAt_of_getElem hx] at hp
    rw [hn]
    exact hs j _ _ hij hx hp he

/-- Where steps under a condition keep what implies `P`, and every other one breaks `P`, a run has
`P` at all its positions exactly if all of its steps meet the condition. -/
theorem Run.forall_stateAt_iff {I P : S → Prop} {C : S → L → Prop} {xs : List (S × L)}
    (hP : ∀ s, I s → P s)
    (hkeep : ∀ s l, I s → M.Enabled s l → C s l → I (M.next s l))
    (hbreak : ∀ s l, I s → M.Enabled s l → ¬ C s l → ¬ P (M.next s l))
    (h : I s) (hr : M.Run s xs u) :
    (∀ j ≤ xs.length, P (stateAt u xs j)) ↔ ∀ p ∈ xs, C p.1 p.2 := by
  constructor
  · intro hall
    induction hr with
    | refl => exact fun p hp => (List.not_mem_nil hp).elim
    | @stepL s t u l xs hs hr ih =>
      obtain ⟨he, rfl⟩ := hs
      have hlater : ∀ j ≤ xs.length, P (stateAt u xs j) := fun j hj =>
        hall (j + 1) (Nat.succ_le_succ hj)
      have hnext : P (M.next s l) := by
        have hzero := hlater 0 (Nat.zero_le _)
        rwa [hr.stateAt_zero] at hzero
      have hc : C s l := by
        by_cases hc : C s l
        · exact hc
        · exact absurd hnext (hbreak s l h he hc)
      exact List.forall_mem_cons.mpr ⟨hc, ih (hkeep s l h he hc) hlater⟩
  · intro hc j hj
    refine hP _ (hr.induction_at (P := fun _ t => I t) (i := 0) ?_ ?_ (Nat.zero_le j) hj)
    · rwa [hr.stateAt_zero]
    · intro k t l _ hx ht he
      exact hkeep t l ht he (hc (t, l) (List.mem_of_getElem? hx))

theorem Reachable.stateAt {xs : List (S × L)} (h : M.Reachable s) (hr : M.Run s xs u) {j : ℕ}
    (hj : j ≤ xs.length) : M.Reachable (stateAt u xs j) :=
  hr.induction_at (P := fun _ t => M.Reachable t) (i := 0) (by simpa [hr.stateAt_zero])
    (fun _ _ _ _ _ ht he => ht.next he) (Nat.zero_le j) hj

theorem Reachable.at {xs : List (S × L)} (h : M.Reachable s) (hr : M.Run s xs u) {j : ℕ}
    (hj : xs[j]? = some (t, l)) : M.Reachable t := by
  have hlt : j < xs.length := (List.getElem?_eq_some_iff.mp hj).1
  have hp := h.stateAt hr (Nat.le_of_lt hlt)
  rwa [stateAt_of_getElem hj] at hp

end Positions

section Executing

instance (C : S → L → Prop) [∀ s l, Decidable (M.Enabled s l)] [∀ s l, Decidable (C s l)] (s : S)
    (l : L) : Decidable ((M.restrict C).Enabled s l) :=
  inferInstanceAs (Decidable (M.Enabled s l ∧ C s l))

variable [∀ s l, Decidable (M.Enabled s l)]

/-- Runs the listed labels, as long as each is enabled. -/
def exec (M : Machine S L) [∀ s l, Decidable (M.Enabled s l)] (s : S) : List L → Option S
  | [] => some s
  | l :: ls => if M.Enabled s l then exec M (M.next s l) ls else none

theorem exec_cons {ls : List L} (h : M.Enabled s l) : M.exec s (l :: ls) = M.exec (M.next s l) ls :=
  if_pos h

theorem exec_run {ls : List L} (he : M.exec s ls = some t) :
    ∃ xs, M.Run s xs t ∧ xs.map Prod.snd = ls := by
  induction ls generalizing s with
  | nil =>
    simp only [exec, Option.some.injEq] at he
    exact ⟨[], he ▸ .refl, rfl⟩
  | cons l ls ih =>
    simp only [exec] at he
    split at he
    · next hl =>
      obtain ⟨xs, hr, hx⟩ := ih he
      exact ⟨(s, l) :: xs, .stepL ⟨hl, rfl⟩ hr, by simp [hx]⟩
    · simp at he

theorem exec_reachable {ls : List L} (h : M.Reachable s) (he : M.exec s ls = some t) :
    M.Reachable t := by
  obtain ⟨xs, hr, -⟩ := exec_run he
  exact h.run hr

/-- Machines that are enabled together, and keep in step, execute the same labels. -/
theorem exec_lockstep {P : Machine T L} [∀ s l, Decidable (P.Enabled s l)] {R Q : S → T → Prop}
    {C : L → Prop} (hR : ∀ s t l, R s t → C l → (M.Enabled s l ↔ P.Enabled t l) ∧
      (M.Enabled s l → R (M.next s l) (P.next t l)))
    (hQ : ∀ s t, R s t → Q s t) {s : S} {t : T} (h : R s t) {ls : List L} (hc : ∀ l ∈ ls, C l) :
    Option.Rel Q (M.exec s ls) (P.exec t ls) := by
  induction ls generalizing s t with
  | nil => exact .some (hQ s t h)
  | cons l ls ih =>
    obtain ⟨hen, hnext⟩ := hR s t l h (hc l List.mem_cons_self)
    have hrest : ∀ l ∈ ls, C l := fun k hk => hc k (List.mem_cons_of_mem _ hk)
    by_cases he : M.Enabled s l
    · simpa only [exec, if_pos he, if_pos (hen.mp he)] using ih (hnext he) hrest
    · have hf : ¬ P.Enabled t l := fun hp => he (hen.mpr hp)
      simpa only [exec, if_neg he, if_neg hf] using Option.Rel.none

/-- A test that holds at the end of an executed run holds of a reachable state. -/
theorem exists_reachable_of_exec (ls : List L) (p : S → Bool) (h : M.Initial s)
    (he : (M.exec s ls).any p = true) : ∃ t, M.Reachable t ∧ p t = true := by
  cases hs : M.exec s ls with
  | none => simp [hs] at he
  | some t => exact ⟨t, exec_reachable (.initial h) hs, by simpa [hs] using he⟩

end Executing

end Machine

/-- Every step of `M` is matched by a step of `N` or leaves the related state of `N` in place. -/
structure Simulation (M : Machine S L) (N : Machine T K) (R : S → T → Prop) : Prop where
  initial : ∀ s, M.Initial s → ∃ t, N.Initial t ∧ R s t
  step : ∀ s t l, R s t → M.Enabled s l →
    R (M.next s l) t ∨ ∃ k, N.Enabled t k ∧ R (M.next s l) (N.next t k)

theorem Simulation.reachable {R : S → T → Prop} (hsim : Simulation M N R)
    (h : M.Reachable s) : ∃ t, N.Reachable t ∧ R s t := by
  induction h with
  | initial h0 =>
    obtain ⟨t, ht, hr⟩ := hsim.initial _ h0
    exact ⟨t, .initial ht, hr⟩
  | step _ hst ih =>
    obtain ⟨t, ht, hr⟩ := ih
    obtain ⟨he, rfl⟩ := hst
    rcases hsim.step _ _ _ hr he with h | ⟨k, hk, h⟩
    · exact ⟨t, ht, h⟩
    · exact ⟨_, ht.next hk, h⟩

section Measure

variable {μ : S → ℕ}

/-- A measure that falls at every step bounds the length of every run. -/
theorem Machine.Run.length_le
    (hμ : ∀ s l, M.Reachable s → M.Enabled s l → μ (M.next s l) < μ s)
    {xs : List (S × L)} (h : M.Reachable s) (hr : M.Run s xs t) : xs.length ≤ μ s := by
  induction hr with
  | refl => simp
  | stepL hs _ ih =>
    have hlt := hμ _ _ h hs.1
    have hrest := ih (.step h hs)
    rw [← hs.2] at hlt
    simp only [List.length_cons]
    omega

/-- A measure that falls at the steps of a kind, and never rises, bounds how often they are
taken. -/
theorem Machine.Run.countP_le {P : S → Prop} (kind : L → Bool)
    (hP : ∀ s l, P s → M.Enabled s l → P (M.next s l))
    (hμ : ∀ s l, P s → M.Enabled s l → μ (M.next s l) + (if kind l then 1 else 0) ≤ μ s)
    {xs : List (S × L)} (h : P s) (hr : M.Run s xs t) : xs.countP (fun x => kind x.2) ≤ μ s := by
  induction hr with
  | refl => exact Nat.zero_le _
  | stepL hs _ ih =>
    obtain ⟨he, rfl⟩ := hs
    have hle := hμ _ _ h he
    have hrest := ih (hP _ _ h he)
    simp only [List.countP_cons]
    omega

/-- Where the measure falls at every step, some run ends in a state with no step. -/
theorem Machine.exists_final
    (hμ : ∀ s l, M.Reachable s → M.Enabled s l → μ (M.next s l) < μ s)
    (h : M.Reachable s) : ∃ t, M.Reachable t ∧ ∀ l, ¬ M.Enabled t l := by
  induction hn : μ s using Nat.strongRecOn generalizing s with
  | ind n ih =>
    by_cases hl : ∃ l, M.Enabled s l
    · obtain ⟨l, hl⟩ := hl
      exact ih _ (hn ▸ hμ s l h hl) (h.next hl) rfl
    · exact ⟨s, h, fun l he => hl ⟨l, he⟩⟩

end Measure

end Transition
