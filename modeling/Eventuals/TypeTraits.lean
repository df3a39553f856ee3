import Mathlib.Data.List.Basic

/-! Lists of types, as the `ErrorsFrom` of a pipeline computes with them (`type-traits.h`), and the
classes of errors. -/
namespace Eventuals.TypeTraits

variable {E : Type*} [DecidableEq E] {e : E} {l r : List E} {ts : List (List E)}

/-- `tuple_types_union`: the members only on the left, those only on the right and those of
both. -/
def union (l r : List E) : List E :=
  l.filter (fun e => e ∉ r) ++ r.filter (fun e => e ∉ l) ++ l.filter fun e => e ∈ r

/-- `tuple_types_union_all` -/
def unionAll : List (List E) → List E
  | [] => []
  | [t] => t
  | l :: r :: tail => union (union l r) (unionAll tail)

/-- `tuple_types_subtract` -/
def subtract (l r : List E) : List E :=
  l.filter fun e => e ∉ r

@[simp] theorem mem_union : e ∈ union l r ↔ e ∈ l ∨ e ∈ r := by
  simp only [union, List.mem_append, List.mem_filter, decide_eq_true_eq]
  by_cases hl : e ∈ l <;> by_cases hr : e ∈ r <;> simp [hl, hr]

@[simp] theorem mem_unionAll : e ∈ unionAll ts ↔ ∃ t ∈ ts, e ∈ t := by
  induction ts using unionAll.induct with
  | case1 => simp [unionAll]
  | case2 t => simp [unionAll]
  | case3 l r tail ih => simp [unionAll, ih, or_assoc]

@[simp] theorem mem_subtract : e ∈ subtract l r ↔ e ∈ l ∧ e ∉ r := by
  simp [subtract]

/-- The classes of errors and `std::is_base_of`. -/
structure Hierarchy (E : Type*) where
  isBaseOf : E → E → Prop
  decidable : DecidableRel isBaseOf
  refl : ∀ e, isBaseOf e e
  trans : ∀ a b c, isBaseOf a b → isBaseOf b c → isBaseOf a c
  runtimeError : E
  typeErasedError : E

instance (H : Hierarchy E) : DecidableRel H.isBaseOf := H.decidable

/-- `tuple_types_contains_subtype`: the error is a member or derives from one. -/
def Hierarchy.Contains (H : Hierarchy E) (errors : List E) (e : E) : Prop :=
  ∃ b ∈ errors, H.isBaseOf b e

end Eventuals.TypeTraits
