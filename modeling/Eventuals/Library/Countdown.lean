import Mathlib.Algebra.Order.Group.Defs
import Mathlib.Algebra.Order.Sub.Basic
import Mathlib.Data.List.Basic
import Mathlib.Data.List.Perm.Basic

/-! Countdowns: named entries that each have some time left, and the time that passes for all. -/
namespace Countdown

variable {κ G : Type*} [AddCommGroup G] [LinearOrder G]

def after (a : G) (l : List (κ × G)) : List (κ × G) := l.map fun e => (e.1, e.2 - a)

/-- What is still counting down when `a` has passed. -/
def remaining (a : G) (l : List (κ × G)) : List (κ × G) :=
  (after a l).filter fun e => ¬ e.2 ≤ 0

/-- The names whose time is over when `a` has passed. -/
def expired (a : G) (l : List (κ × G)) : List κ :=
  ((after a l).filter fun e => e.2 ≤ 0).map Prod.fst

variable {a b : G} {l : List (κ × G)} {c : κ} {r : G}

@[simp] theorem remaining_nil : remaining a ([] : List (κ × G)) = [] := rfl

@[simp] theorem expired_nil : expired a ([] : List (κ × G)) = [] := rfl

section Ordered

variable [IsOrderedAddMonoid G]

theorem remaining_cons_of_le (h : r ≤ a) : remaining a ((c, r) :: l) = remaining a l := by
  simp [remaining, after, h]

theorem remaining_cons_of_lt (h : a < r) :
    remaining a ((c, r) :: l) = (c, r - a) :: remaining a l := by
  simp [remaining, after, h]

theorem expired_cons_of_le (h : r ≤ a) : expired a ((c, r) :: l) = c :: expired a l := by
  simp [expired, after, h]

theorem expired_cons_of_lt (h : a < r) : expired a ((c, r) :: l) = expired a l := by
  simp [expired, after, h]

/-- Time that passes in two parts leaves what it leaves when it passes at once. -/
theorem remaining_remaining (hb : 0 ≤ b) (l : List (κ × G)) :
    remaining b (remaining a l) = remaining (a + b) l := by
  induction l with
  | nil => rfl
  | cons e l ih =>
    obtain ⟨c, r⟩ := e
    rcases le_or_gt r a with hr | hr
    · have hab : r ≤ a + b := hr.trans (le_add_of_nonneg_right hb)
      rw [remaining_cons_of_le hr, remaining_cons_of_le hab, ih]
    · rw [remaining_cons_of_lt hr]
      rcases le_or_gt (r - a) b with hrb | hrb
      · have hab : r ≤ a + b := sub_le_iff_le_add'.mp hrb
        rw [remaining_cons_of_le hrb, remaining_cons_of_le hab, ih]
      · have hab : a + b < r := lt_sub_iff_add_lt'.mp hrb
        rw [remaining_cons_of_lt hrb, remaining_cons_of_lt hab, ih, sub_sub]

theorem expired_append_perm (hb : 0 ≤ b) (l : List (κ × G)) :
    (expired a l ++ expired b (remaining a l)).Perm (expired (a + b) l) := by
  induction l with
  | nil => exact .nil
  | cons e l ih =>
    obtain ⟨c, r⟩ := e
    rcases le_or_gt r a with hr | hr
    · have hab : r ≤ a + b := hr.trans (le_add_of_nonneg_right hb)
      rw [expired_cons_of_le hr, remaining_cons_of_le hr, expired_cons_of_le hab]
      exact ih.cons c
    · rw [expired_cons_of_lt hr, remaining_cons_of_lt hr]
      rcases le_or_gt (r - a) b with hrb | hrb
      · have hab : r ≤ a + b := sub_le_iff_le_add'.mp hrb
        rw [expired_cons_of_le hrb, expired_cons_of_le hab]
        exact List.perm_middle.trans (ih.cons c)
      · have hab : a + b < r := lt_sub_iff_add_lt'.mp hrb
        rw [expired_cons_of_lt hrb, expired_cons_of_lt hab]
        exact ih

end Ordered

theorem mem_remaining : (c, r) ∈ remaining a l ↔ ¬ r ≤ 0 ∧ (c, r + a) ∈ l := by
  simp only [remaining, after, List.mem_filter, List.mem_map, Prod.mk.injEq, Prod.exists,
    decide_eq_true_eq]
  constructor
  · rintro ⟨⟨c', r', hm, rfl, rfl⟩, hr⟩
    exact ⟨hr, by simpa using hm⟩
  · rintro ⟨hr, hm⟩
    exact ⟨⟨c, r + a, hm, rfl, by simp⟩, hr⟩

theorem mem_expired : c ∈ expired a l ↔ ∃ r, r - a ≤ 0 ∧ (c, r) ∈ l := by
  simp only [expired, after, List.mem_map, List.mem_filter, Prod.exists, decide_eq_true_eq]
  constructor
  · rintro ⟨c', _, ⟨⟨c'', r, hm, h⟩, hr⟩, rfl⟩
    cases h
    exact ⟨r, hr, hm⟩
  · rintro ⟨r, hr, hm⟩
    exact ⟨c, r - a, ⟨⟨c, r, hm, rfl⟩, hr⟩, rfl⟩

/-- The entries of some names count down as they do among all. -/
theorem remaining_filter (P : κ → Bool) :
    (remaining a l).filter (fun e => P e.1) = remaining a (l.filter fun e => P e.1) := by
  simp [remaining, after, List.filter_map, List.filter_filter, Function.comp_def, Bool.and_comm]

theorem expired_filter (P : κ → Bool) :
    (expired a l).filter P = expired a (l.filter fun e => P e.1) := by
  simp [expired, after, List.filter_map, List.filter_filter, Function.comp_def, Bool.and_comm]

theorem map_fst_remaining_sublist : ((remaining a l).map Prod.fst).Sublist (l.map Prod.fst) := by
  have hs : ((after a l).filter fun e => ¬ e.2 ≤ 0).Sublist (after a l) := List.filter_sublist
  simpa [remaining, after, Function.comp_def] using hs.map Prod.fst

theorem expired_sublist : (expired a l).Sublist (l.map Prod.fst) := by
  have hs : ((after a l).filter fun e => e.2 ≤ 0).Sublist (after a l) := List.filter_sublist
  simpa [expired, after, Function.comp_def] using hs.map Prod.fst

end Countdown
