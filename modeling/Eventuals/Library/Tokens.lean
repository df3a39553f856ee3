import Mathlib.Data.List.Basic
import Mathlib.Data.List.Range
import Mathlib.Logic.Function.Basic

/-! Tokens that are each kept in one place: who may act on a resource that several parties see, and
what a row of places holds. -/
namespace Tokens

variable {P K : Type*} {place : P → Option K} {live live' : K → Prop} {p q : P} {k : K}

/-- Every live token is in one place, and no other token is anywhere. -/
structure Kept (place : P → Option K) (live : K → Prop) : Prop where
  found : ∀ k, live k → ∃ p, place p = some k
  live : ∀ p k, place p = some k → live k
  unique : ∀ p q k, place p = some k → place q = some k → p = q

theorem kept_none (hl : ∀ k, ¬ live k) : Kept (fun _ : P => none) live :=
  ⟨fun k hk => absurd hk (hl k), nofun, nofun⟩

theorem Kept.congr (h : Kept place live) (hl : ∀ k, live' k ↔ live k) : Kept place live' :=
  ⟨fun k hk => h.found k ((hl k).mp hk), fun p k hp => (hl k).mpr (h.live p k hp), h.unique⟩

variable [DecidableEq P]

theorem Kept.move (h : Kept place live) (hpq : p ≠ q) (hp : place p = some k)
    (hq : place q = none) :
    Kept (Function.update (Function.update place p none) q (some k)) live := by
  have hplace : ∀ r j, Function.update (Function.update place p none) q (some k) r = some j →
      r = q ∧ j = k ∨ r ≠ q ∧ r ≠ p ∧ place r = some j := by
    intro r j hr
    by_cases hrq : r = q
    · subst hrq
      rw [Function.update_self, Option.some.injEq] at hr
      exact Or.inl ⟨rfl, hr.symm⟩
    · rw [Function.update_of_ne hrq] at hr
      by_cases hrp : r = p
      · subst hrp
        simp at hr
      · rw [Function.update_of_ne hrp] at hr
        exact Or.inr ⟨hrq, hrp, hr⟩
  refine ⟨fun j hj => ?_, fun r j hr => ?_, fun r r' j hr hr' => ?_⟩
  · obtain ⟨r, hr⟩ := h.found j hj
    by_cases hrp : r = p
    · subst hrp
      rw [hp, Option.some.injEq] at hr
      exact ⟨q, by rw [Function.update_self, hr]⟩
    · have hrq : r ≠ q := by
        rintro rfl
        simp [hq] at hr
      exact ⟨r, by rw [Function.update_of_ne hrq, Function.update_of_ne hrp, hr]⟩
  · rcases hplace r j hr with ⟨-, rfl⟩ | ⟨-, -, hr⟩
    · exact h.live p j hp
    · exact h.live r j hr
  · rcases hplace r j hr with ⟨rfl, rfl⟩ | ⟨-, hrp, hx⟩ <;>
      rcases hplace r' j hr' with ⟨rfl, hj⟩ | ⟨-, hrp', hx'⟩
    · rfl
    · exact absurd (h.unique r' p j hx' hp) hrp'
    · exact absurd (h.unique r p j hx (hj ▸ hp)) hrp
    · exact h.unique r r' j hx hx'

theorem Kept.drop (h : Kept place live) (hp : place p = some k) :
    Kept (Function.update place p none) fun j => live j ∧ j ≠ k := by
  have hplace : ∀ r j, Function.update place p none r = some j → r ≠ p ∧ place r = some j := by
    intro r j hr
    by_cases hrp : r = p
    · subst hrp
      simp at hr
    · rw [Function.update_of_ne hrp] at hr
      exact ⟨hrp, hr⟩
  refine ⟨fun j ⟨hj, hne⟩ => ?_, fun r j hr => ?_, fun r r' j hr hr' => ?_⟩
  · obtain ⟨r, hr⟩ := h.found j hj
    have hrp : r ≠ p := by
      rintro rfl
      rw [hp, Option.some.injEq] at hr
      exact hne hr.symm
    exact ⟨r, by rw [Function.update_of_ne hrp, hr]⟩
  · obtain ⟨hrp, hr⟩ := hplace r j hr
    refine ⟨h.live r j hr, ?_⟩
    rintro rfl
    exact hrp (h.unique r p j hr hp)
  · exact h.unique r r' j (hplace r j hr).2 (hplace r' j hr').2

theorem Kept.gain (h : Kept place live) (hp : place p = none) (hk : ¬ live k) :
    Kept (Function.update place p (some k)) fun j => live j ∨ j = k := by
  have hplace : ∀ r j, Function.update place p (some k) r = some j →
      r = p ∧ j = k ∨ r ≠ p ∧ place r = some j := by
    intro r j hr
    by_cases hrp : r = p
    · subst hrp
      rw [Function.update_self, Option.some.injEq] at hr
      exact Or.inl ⟨rfl, hr.symm⟩
    · rw [Function.update_of_ne hrp] at hr
      exact Or.inr ⟨hrp, hr⟩
  refine ⟨fun j hj => ?_, fun r j hr => ?_, fun r r' j hr hr' => ?_⟩
  · rcases hj with hj | rfl
    · obtain ⟨r, hr⟩ := h.found j hj
      have hrp : r ≠ p := by
        rintro rfl
        simp [hp] at hr
      exact ⟨r, by rw [Function.update_of_ne hrp, hr]⟩
    · exact ⟨p, Function.update_self ..⟩
  · rcases hplace r j hr with ⟨-, rfl⟩ | ⟨-, hr⟩
    · exact Or.inr rfl
    · exact Or.inl (h.live r j hr)
  · rcases hplace r j hr with ⟨rfl, rfl⟩ | ⟨-, hx⟩ <;>
      rcases hplace r' j hr' with ⟨rfl, hj⟩ | ⟨-, hx'⟩
    · rfl
    · exact absurd (h.live r' j hx') hk
    · exact absurd (h.live r j hx) (hj ▸ hk)
    · exact h.unique r r' j hx hx'

section Held

variable {ι β : Type*} {l : List ι} {place place' : ι → Option β} {i : ι}

/-- What the listed places hold. -/
def held (place : ι → Option β) (l : List ι) : List β :=
  l.filterMap place

theorem held_congr (h : ∀ j ∈ l, place' j = place j) : held place' l = held place l :=
  List.filterMap_congr h

variable [DecidableEq ι]

/-- What comes to a place and what leaves it make up the difference. -/
theorem held_update (place : ι → Option β) (hl : l.Nodup) (hi : i ∈ l) (x : Option β) :
    ((place i).toList ++ held (Function.update place i x) l).Perm (x.toList ++ held place l) := by
  induction l with
  | nil => cases hi
  | cons j l ih =>
    have cons : ∀ p : ι → Option β, held p (j :: l) = (p j).toList ++ held p l := by
      intro p
      cases hj : p j <;> simp [held, hj]
    rw [List.nodup_cons] at hl
    rw [cons, cons]
    by_cases hij : i = j
    · subst hij
      have hrest : held (Function.update place i x) l = held place l := by
        apply held_congr
        intro k hk
        have hki : k ≠ i := by
          rintro rfl
          exact hl.1 hk
        rw [Function.update_of_ne hki]
      rw [Function.update_self, hrest]
      exact (List.perm_append_comm_assoc ..)
    · have hm : i ∈ l := (List.mem_cons.mp hi).resolve_left hij
      have h := ih hl.2 hm
      rw [Function.update_of_ne (Ne.symm hij)]
      calc
        List.Perm ((place i).toList ++
            ((place j).toList ++ held (Function.update place i x) l))
          ((place j).toList ++
            ((place i).toList ++ held (Function.update place i x) l)) :=
          List.perm_append_comm_assoc ..
        List.Perm _ ((place j).toList ++ (x.toList ++ held place l)) := h.append_left _
        List.Perm _ (x.toList ++ ((place j).toList ++ held place l)) :=
          List.perm_append_comm_assoc ..

/-- Places that hold nothing may be listed. -/
theorem held_range {place : ℕ → Option β} {m n : ℕ} (hmn : m ≤ n)
    (h : ∀ j, m ≤ j → place j = none) : held place (List.range n) = held place (List.range m) := by
  induction n, hmn using Nat.le_induction with
  | base => rfl
  | succ n hmn ih =>
    simp [held, List.range_succ, h n hmn] at ih ⊢
    exact ih

end Held

end Tokens
