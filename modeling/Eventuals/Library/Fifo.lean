import Eventuals.Library.Transition

/-! A queue of clients that are served in the order they came. -/
namespace Fifo

variable {W : Type*}

inductive Label (W : Type*)
  | enqueue (w : W)
  | dequeue

/-- Clients join at the end, once at a time, and the oldest one leaves. -/
def machine (W : Type*) : Transition.Machine (List W) (Label W) where
  Initial q := q = []
  Enabled q
    | .enqueue w => w ∉ q
    | .dequeue => q ≠ []
  next q
    | .enqueue w => q ++ [w]
    | .dequeue => q.tail

/-- A machine whose steps leave a queue alone, add a new client or serve the oldest one. -/
theorem simulation {S L : Type*} {M : Transition.Machine S L} {R : S → List W → Prop}
    (hi : ∀ s, M.Initial s → R s [])
    (hs : ∀ s q l, R s q → M.Enabled s l → R (M.next s l) q ∨
      (∃ w, w ∉ q ∧ R (M.next s l) (q ++ [w])) ∨ (q ≠ [] ∧ R (M.next s l) q.tail)) :
    Transition.Simulation M (machine W) R where
  initial s h := ⟨[], rfl, hi s h⟩
  step s q l hr he := by
    rcases hs s q l hr he with h | ⟨w, hw, h⟩ | ⟨hq, h⟩
    · exact Or.inl h
    · exact Or.inr ⟨.enqueue w, hw, h⟩
    · exact Or.inr ⟨.dequeue, hq, h⟩

end Fifo
