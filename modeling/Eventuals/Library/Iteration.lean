import Mathlib.Logic.Function.Iterate

/-! Systems that have one run: a function taken again and again. -/
namespace Iteration

variable {S : Type*} {f : S → S} {P : S → Prop} {s t u : S}

/-- The run from `s` passes through `t`. -/
def Leads (f : S → S) (s t : S) : Prop :=
  ∃ n, f^[n] s = t

theorem Leads.refl : Leads f s s := ⟨0, rfl⟩

theorem leads_step : Leads f s (f s) := ⟨1, rfl⟩

theorem Leads.trans (h : Leads f s t) (h' : Leads f t u) : Leads f s u := by
  obtain ⟨n, rfl⟩ := h
  obtain ⟨m, rfl⟩ := h'
  exact ⟨m + n, Function.iterate_add_apply f m n s⟩

/-- There is only one run, so what it passes through is passed in one order. -/
theorem Leads.total (h : Leads f s t) (h' : Leads f s u) : Leads f t u ∨ Leads f u t := by
  obtain ⟨n, rfl⟩ := h
  obtain ⟨m, rfl⟩ := h'
  rcases Nat.le_total n m with hnm | hnm
  · obtain ⟨j, rfl⟩ := Nat.exists_eq_add_of_le' hnm
    exact .inl ⟨j, (Function.iterate_add_apply f j n s).symm⟩
  · obtain ⟨j, rfl⟩ := Nat.exists_eq_add_of_le' hnm
    exact .inr ⟨j, (Function.iterate_add_apply f j m s).symm⟩

theorem Leads.fixed (h : Leads f s t) (hs : f s = s) : t = s := by
  obtain ⟨n, rfl⟩ := h
  exact Function.iterate_fixed hs n

theorem Leads.unique (h : Leads f s t) (h' : Leads f s u) (ht : f t = t) (hu : f u = u) :
    t = u := by
  rcases h.total h' with h | h
  · exact (h.fixed ht).symm
  · exact h.fixed hu

/-- A run that comes to rest stays there. -/
theorem Leads.settles (h : Leads f s t) (ht : f t = t) : ∃ n, ∀ m, n ≤ m → f^[m] s = t := by
  obtain ⟨n, rfl⟩ := h
  refine ⟨n, fun m hm => ?_⟩
  obtain ⟨j, rfl⟩ := Nat.exists_eq_add_of_le' hm
  rw [Function.iterate_add_apply]
  exact Function.iterate_fixed ht j

theorem invariant (h0 : P s) (hs : ∀ s, P s → P (f s)) (n : ℕ) : P (f^[n] s) := by
  induction n with
  | zero => exact h0
  | succ n ih =>
    rw [Function.iterate_succ_apply']
    exact hs _ ih

theorem Leads.invariant (h : Leads f s t) (h0 : P s) (hs : ∀ s, P s → P (f s)) : P t := by
  obtain ⟨n, rfl⟩ := h
  exact Iteration.invariant h0 hs n

end Iteration
