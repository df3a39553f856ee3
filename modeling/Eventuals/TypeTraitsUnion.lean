import Mathlib.Data.List.Nodup
import Mathlib.Data.List.Perm.Basic
import Mathlib.Data.Set.Lattice
import Eventuals.TypeTraits

/-! The templates of `type-traits.h` that combine lists of types, as they recur, and the laws that
make the errors of a pipeline a set. -/
namespace Eventuals.TypeTraits

variable {E : Type*}

section Sets

variable {a b l : List E} {s : Set E}

/-- A list of types that stands for a set. -/
structure Lists (l : List E) (s : Set E) : Prop where
  nodup : l.Nodup
  mem : ∀ e, e ∈ l ↔ e ∈ s

def members (l : List E) : Set E := {e | e ∈ l}

theorem lists_members (h : l.Nodup) : Lists l (members l) := ⟨h, fun _ => Iff.rfl⟩

/-- Lists for one set differ in order only. -/
theorem Lists.perm (ha : Lists a s) (hb : Lists b s) : a.Perm b :=
  (List.perm_ext_iff_of_nodup ha.nodup hb.nodup).mpr fun e => (ha.mem e).trans (hb.mem e).symm

end Sets

variable [DecidableEq E]

section Templates

/-- `types_contains` -/
def typesContains (t : E) : List E → Bool
  | [] => false
  | other :: ts => t = other || typesContains t ts

/-- `tuple_types_union::intersection` -/
def intersection : List E → List E → List E
  | left :: lefts, right :: rights =>
    (if typesContains left (right :: rights) then [left] else []) ++
      intersection lefts (right :: rights)
  | _, _ => []

/-- `tuple_types_union::unique_left` -/
def uniqueLeft : List E → List E → List E
  | left :: lefts, right :: rights =>
    (if typesContains left (right :: rights) then [] else [left]) ++
      uniqueLeft lefts (right :: rights)
  | lefts, [] => lefts
  | [], _ => []

/-- `tuple_types_union::unique_right` -/
def uniqueRight : List E → List E → List E
  | left :: lefts, right :: rights =>
    (if typesContains right (left :: lefts) then [] else [right]) ++
      uniqueRight (left :: lefts) rights
  | [], rights => rights
  | _, [] => []

/-- `tuple_types_union::type` -/
def tupleTypesUnion : List E → List E → List E
  | left :: lefts, right :: rights =>
    (uniqueLeft (left :: lefts) (right :: rights) ++
      uniqueRight (left :: lefts) (right :: rights)) ++
        intersection (left :: lefts) (right :: rights)
  | lefts, [] => lefts
  | [], rights => rights

/-- `tuple_types_union_all` -/
def tupleTypesUnionAll : List (List E) → List E
  | left :: right :: tail =>
    tupleTypesUnion (tupleTypesUnion left right) (tupleTypesUnionAll tail)
  | [tuple] => tuple
  | [] => []

/-- `tuple_types_subtract` -/
def tupleTypesSubtract : List E → List E → List E
  | left :: lefts, right =>
    (if typesContains left right then [] else [left]) ++ tupleTypesSubtract lefts right
  | [], _ => []

end Templates

section Recursions

variable {l r : List E} {e : E}

theorem typesContains_iff : typesContains e l = true ↔ e ∈ l := by
  induction l with
  | nil => simp [typesContains]
  | cons t l ih => rw [typesContains, Bool.or_eq_true, decide_eq_true_iff, ih, List.mem_cons]

theorem intersection_eq (l r : List E) : intersection l r = l.filter (· ∈ r) := by
  induction l with
  | nil => rfl
  | cons left l ih =>
    cases r with
    | nil => simp [intersection]
    | cons right r =>
      rw [intersection, ih, List.filter_cons]
      by_cases h : left ∈ right :: r
      · rw [if_pos (typesContains_iff.mpr h), if_pos (decide_eq_true h), List.singleton_append]
      · rw [if_neg (typesContains_iff.not.mpr h), if_neg (by simpa using h), List.nil_append]

theorem filter_not_cons (e : E) (l r : List E) :
    (if typesContains e r then [] else [e]) ++ l.filter (· ∉ r) = (e :: l).filter (· ∉ r) := by
  by_cases h : e ∈ r
  · rw [if_pos (typesContains_iff.mpr h), List.nil_append, List.filter_cons_of_neg]
    simpa using h
  · rw [if_neg (typesContains_iff.not.mpr h), List.singleton_append, List.filter_cons_of_pos]
    simpa using h

theorem uniqueLeft_eq (l r : List E) : uniqueLeft l r = l.filter (· ∉ r) := by
  induction l with
  | nil => cases r <;> rfl
  | cons left l ih =>
    cases r with
    | nil => simp [uniqueLeft]
    | cons right r => rw [uniqueLeft, ih, filter_not_cons]

theorem uniqueRight_eq (l r : List E) : uniqueRight l r = r.filter (· ∉ l) := by
  induction r with
  | nil => cases l <;> rfl
  | cons right r ih =>
    cases l with
    | nil => simp [uniqueRight]
    | cons left l => rw [uniqueRight, ih, filter_not_cons]

/-- The recursions of the three parts go over one list each, and look up the whole other one. -/
theorem tupleTypesUnion_eq (l r : List E) : tupleTypesUnion l r = union l r := by
  cases l with
  | nil => cases r <;> simp [tupleTypesUnion, union]
  | cons left l =>
    cases r with
    | nil => simp [tupleTypesUnion, union]
    | cons right r => rw [tupleTypesUnion, uniqueLeft_eq, uniqueRight_eq, intersection_eq, union]

theorem tupleTypesUnionAll_eq (ts : List (List E)) : tupleTypesUnionAll ts = unionAll ts := by
  induction ts using unionAll.induct with
  | case1 => rfl
  | case2 t => rfl
  | case3 l r tail ih =>
    rw [tupleTypesUnionAll, ih, tupleTypesUnion_eq, tupleTypesUnion_eq, unionAll]

theorem tupleTypesSubtract_eq (l r : List E) : tupleTypesSubtract l r = subtract l r := by
  induction l with
  | nil => rfl
  | cons left l ih =>
    rw [tupleTypesSubtract, ih]
    exact filter_not_cons left l r

end Recursions

section Laws

variable {a b c : List E} {ts : List (List E)} {s t : Set E}

theorem Lists.union (ha : Lists a s) (hb : Lists b t) : Lists (tupleTypesUnion a b) (s ∪ t) := by
  rw [tupleTypesUnion_eq]
  constructor
  · refine List.Nodup.append (List.Nodup.append (ha.nodup.filter _) (hb.nodup.filter _) ?_)
      (ha.nodup.filter _) ?_
    · intro e hl hr
      rw [List.mem_filter, decide_eq_true_iff] at hl hr
      exact hl.2 hr.1
    · intro e hl hr
      rw [List.mem_append, List.mem_filter, List.mem_filter, decide_eq_true_iff,
        decide_eq_true_iff] at hl
      rw [List.mem_filter, decide_eq_true_iff] at hr
      rcases hl with hl | hl
      · exact hl.2 hr.2
      · exact hl.2 hr.1
  · intro e
    rw [mem_union, ha.mem, hb.mem, Set.mem_union]

theorem Lists.subtract (ha : Lists a s) (hb : Lists b t) :
    Lists (tupleTypesSubtract a b) (s \ t) := by
  rw [tupleTypesSubtract_eq]
  refine ⟨ha.nodup.filter _, fun e => ?_⟩
  rw [mem_subtract, ha.mem, hb.mem, Set.mem_sdiff]

theorem lists_unionAll (h : ∀ t ∈ ts, t.Nodup) :
    Lists (tupleTypesUnionAll ts) {e | ∃ t ∈ ts, e ∈ t} := by
  refine ⟨?_, fun e => ?_⟩
  · induction ts using unionAll.induct with
    | case1 => exact List.nodup_nil
    | case2 t => exact h t List.mem_cons_self
    | case3 l r tail ih =>
      obtain ⟨hl, hr, htail⟩ := List.forall_mem_cons.mp h |>.imp_right List.forall_mem_cons.mp
      exact (((lists_members hl).union (lists_members hr)).union (lists_members (ih htail))).nodup
  · rw [tupleTypesUnionAll_eq]
    exact mem_unionAll

/-- A way to put unions together. -/
inductive Grouping (E : Type*)
  | tuple (types : List E)
  | union (left right : Grouping E)

def Grouping.type : Grouping E → List E
  | .tuple types => types
  | .union left right => tupleTypesUnion left.type right.type

def Grouping.tuples : Grouping E → List (List E)
  | .tuple types => [types]
  | .union left right => left.tuples ++ right.tuples

theorem Grouping.lists (g : Grouping E) (h : ∀ t ∈ g.tuples, t.Nodup) :
    Lists g.type {e | ∃ t ∈ g.tuples, e ∈ t} := by
  induction g with
  | tuple types =>
    refine ⟨h types List.mem_cons_self, fun e => ?_⟩
    simp [tuples, type]
  | union left right ihl ihr =>
    have hl := ihl fun t ht => h t (List.mem_append_left _ ht)
    have hr := ihr fun t ht => h t (List.mem_append_right _ ht)
    refine ⟨(hl.union hr).nodup, fun e => ((hl.union hr).mem e).trans ?_⟩
    simp only [tuples, List.mem_append, Set.mem_union, Set.mem_ofPred_eq]
    constructor
    · rintro (⟨t, ht, he⟩ | ⟨t, ht, he⟩)
      · exact ⟨t, .inl ht, he⟩
      · exact ⟨t, .inr ht, he⟩
    · rintro ⟨t, ht | ht, he⟩
      · exact .inl ⟨t, ht, he⟩
      · exact .inr ⟨t, ht, he⟩

/-- Lists of types without duplicates are sets to the templates. -/
structure UnionLaws (E : Type*) [DecidableEq E] : Prop where
  union : ∀ a b : List E, a.Nodup → b.Nodup →
    Lists (tupleTypesUnion a b) (members a ∪ members b)
  unionAll : ∀ ts : List (List E), (∀ t ∈ ts, t.Nodup) →
    Lists (tupleTypesUnionAll ts) {e | ∃ t ∈ ts, e ∈ t}
  subtract : ∀ a b : List E, a.Nodup → b.Nodup →
    Lists (tupleTypesSubtract a b) (members a \ members b)
  assoc : ∀ a b c : List E, a.Nodup → b.Nodup → c.Nodup →
    (tupleTypesUnion (tupleTypesUnion a b) c).Perm (tupleTypesUnion a (tupleTypesUnion b c))
  comm : ∀ a b : List E, a.Nodup → b.Nodup → (tupleTypesUnion a b).Perm (tupleTypesUnion b a)
  idem : ∀ a : List E, a.Nodup → (tupleTypesUnion a a).Perm a
  subtract_union : ∀ a b : List E, a.Nodup → b.Nodup →
    ∀ e, e ∈ tupleTypesSubtract (tupleTypesUnion a b) b ↔ e ∈ tupleTypesSubtract a b
  grouped : ∀ (g : Grouping E) (ts : List (List E)), ts.Perm g.tuples → (∀ t ∈ ts, t.Nodup) →
    g.type.Perm (tupleTypesUnionAll ts)

theorem tupleTypes_laws (E : Type*) [DecidableEq E] : UnionLaws E where
  union a b ha hb := (lists_members ha).union (lists_members hb)
  unionAll ts h := lists_unionAll h
  subtract a b ha hb := (lists_members ha).subtract (lists_members hb)
  assoc a b c ha hb hc := by
    have hleft := ((lists_members ha).union (lists_members hb)).union (lists_members hc)
    have hright := (lists_members ha).union ((lists_members hb).union (lists_members hc))
    rw [Set.union_assoc] at hleft
    exact hleft.perm hright
  comm a b ha hb := by
    have hright := (lists_members hb).union (lists_members ha)
    rw [Set.union_comm] at hright
    exact ((lists_members ha).union (lists_members hb)).perm hright
  idem a ha := by
    have hunion := (lists_members ha).union (lists_members ha)
    rw [Set.union_self] at hunion
    exact hunion.perm (lists_members ha)
  subtract_union a b ha hb e := by
    have hunion := ((lists_members ha).union (lists_members hb)).subtract (lists_members hb)
    rw [Set.union_sdiff_right] at hunion
    exact (hunion.mem e).trans (((lists_members ha).subtract (lists_members hb)).mem e).symm
  grouped g ts hts h := by
    have hmem : ∀ t, t ∈ ts ↔ t ∈ g.tuples := fun t => hts.mem_iff
    have htuples := g.lists fun t ht => h t ((hmem t).mpr ht)
    simp only [← hmem] at htuples
    exact htuples.perm (lists_unionAll h)

end Laws

end Eventuals.TypeTraits
