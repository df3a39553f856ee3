import Mathlib.Algebra.GroupWithZero.Nat
import Mathlib.Data.List.Induction
import Mathlib.Tactic.ByContra

/-! The map of header fields of a request or a response (`http.h`). -/
namespace Eventuals.HTTPHeaders

/-- `std::string` -/
abbrev Bytes := List UInt8

def bytes (ascii : String) : Bytes := ascii.toList.map fun c => c.toNat.toUInt8

/-- `std::map<std::string, std::string>` -/
abbrev Headers := Std.ExtTreeMap Bytes Bytes compare

/-- The builder of a request and the parser of a response both look for the key first. -/
def add (headers : Headers) (key value : Bytes) : Headers :=
  match headers[key]? with
  | none => headers.insert key value
  | some old => headers.insert key (old ++ bytes ", " ++ value)

variable {headers : Headers} {key other value : Bytes} {values rest : List Bytes}
  {fields fields' : List (Bytes × Bytes)}

section Values

/-- The values of fields with one name. -/
def joined : List Bytes → Option Bytes
  | [] => none
  | value :: values => some ((bytes ", ").intercalate (value :: values))

def valuesOf (key : Bytes) (fields : List (Bytes × Bytes)) : List Bytes :=
  (fields.filter (·.1 = key)).map Prod.snd

theorem intercalate_concat (sep : Bytes) (h : values ≠ []) :
    sep.intercalate (values ++ [value]) = sep.intercalate values ++ sep ++ value := by
  induction values with
  | nil => exact absurd rfl h
  | cons first values ih =>
    cases values with
    | nil => rw [List.singleton_append, List.intercalate_cons_cons, List.intercalate_singleton,
        List.intercalate_singleton]
    | cons second values =>
      rw [List.cons_append, List.cons_append, List.intercalate_cons_cons, ← List.cons_append,
        ih (List.cons_ne_nil _ _), List.intercalate_cons_cons]
      simp only [List.append_assoc]

theorem joined_of_ne_nil (h : values ≠ []) :
    joined values = some ((bytes ", ").intercalate values) := by
  cases values with
  | nil => exact absurd rfl h
  | cons value values => rfl

theorem joined_concat (values : List Bytes) (value : Bytes) :
    joined (values ++ [value]) = match joined values with
      | none => some value
      | some old => some (old ++ bytes ", " ++ value) := by
  cases values with
  | nil => exact congrArg some List.intercalate_singleton
  | cons first values =>
    rw [joined_of_ne_nil (List.cons_ne_nil _ _)]
    dsimp only
    rw [← intercalate_concat _ (List.cons_ne_nil _ _)]
    rfl

theorem joined_eq_none_iff : joined values = none ↔ values = [] := by
  cases values with
  | nil => exact iff_of_true rfl rfl
  | cons value values => exact iff_of_false nofun nofun

/-- Every value counts, with the two bytes that part it from the next. -/
theorem length_joined (h : joined values = some value) :
    value.length + 2 = (values.map fun v => v.length + 2).sum := by
  induction values generalizing value with
  | nil => cases h
  | cons first values ih =>
    cases values with
    | nil =>
      obtain rfl : first = value := by simpa [joined] using h
      rfl
    | cons second values =>
      have hrest := ih rfl
      cases h
      rw [List.intercalate_cons_cons, List.length_append, List.length_append, List.map_cons,
        List.sum_cons, ← hrest]
      have hsep : (bytes ", ").length = 2 := rfl
      omega

/-- More values cannot look like fewer. -/
theorem joined_append_ne (h : values ≠ []) : joined (values ++ rest) ≠ joined rest := by
  intro heq
  have hne : values ++ rest ≠ [] := List.append_ne_nil_of_left_ne_nil h _
  rw [joined_of_ne_nil hne] at heq
  have hlong := length_joined (joined_of_ne_nil hne)
  have hshort := length_joined heq.symm
  rw [hlong, List.map_append, List.sum_append] at hshort
  obtain ⟨first, values, rfl⟩ := List.exists_cons_of_ne_nil h
  rw [List.map_cons, List.sum_cons] at hshort
  omega

theorem valuesOf_append (key : Bytes) (fields fields' : List (Bytes × Bytes)) :
    valuesOf key (fields ++ fields') = valuesOf key fields ++ valuesOf key fields' := by
  rw [valuesOf, List.filter_append, List.map_append]
  rfl

theorem valuesOf_singleton (key other value : Bytes) :
    valuesOf key [(other, value)] = if other = key then [value] else [] := by
  unfold valuesOf
  split
  case isTrue h => simp [h]
  case isFalse h => simp [h]

theorem mem_valuesOf : value ∈ valuesOf key fields ↔ (key, value) ∈ fields := by
  simp [valuesOf]

end Values

section Gather

theorem getElem?_add (headers : Headers) (key value other : Bytes) :
    (add headers key value)[other]? = if key = other then
      match headers[key]? with
      | none => some value
      | some old => some (old ++ bytes ", " ++ value)
      else headers[other]? := by
  unfold add
  cases headers[key]? with
  | none =>
    dsimp only
    rw [Std.ExtTreeMap.getElem?_insert]
    simp only [Std.LawfulEqCmp.compare_eq_iff_eq]
  | some old =>
    dsimp only
    rw [Std.ExtTreeMap.getElem?_insert]
    simp only [Std.LawfulEqCmp.compare_eq_iff_eq]

/-- The fields in order. -/
def gather (fields : List (Bytes × Bytes)) : Headers :=
  fields.foldl (fun headers field => add headers field.1 field.2) ∅

/-- A key has the values of all fields with that name. -/
theorem getElem?_gather (fields : List (Bytes × Bytes)) (key : Bytes) :
    (gather fields)[key]? = joined (valuesOf key fields) := by
  induction fields using List.reverseRecOn with
  | nil => rfl
  | append_singleton fields field ih =>
    have hfold : gather (fields ++ [field]) = add (gather fields) field.1 field.2 := by
      rw [gather, List.foldl_append]
      rfl
    rw [hfold, getElem?_add, valuesOf_append, valuesOf_singleton]
    split
    case isTrue h => rw [h, ih, joined_concat]
    case isFalse h => rw [List.append_nil, ih]

theorem gather_eq_iff :
    gather fields = gather fields' ↔
      ∀ key, joined (valuesOf key fields) = joined (valuesOf key fields') := by
  constructor
  · intro h key
    rw [← getElem?_gather, h, getElem?_gather]
  · intro h
    refine Std.ExtTreeMap.ext_getElem? fun key => ?_
    rw [getElem?_gather, getElem?_gather, h]

/-- Fields before others are never lost among them. -/
theorem gather_append_eq_iff : gather (fields ++ fields') = gather fields' ↔ fields = [] := by
  constructor
  · intro h
    by_contra hne
    obtain ⟨⟨key, value⟩, fields, rfl⟩ := List.exists_cons_of_ne_nil hne
    have hkey := gather_eq_iff.mp h key
    rw [valuesOf_append] at hkey
    refine joined_append_ne ?_ hkey
    simp [valuesOf]
  · rintro rfl
    rw [List.nil_append]

theorem mem_gather_iff : key ∈ gather fields ↔ ∃ value, (key, value) ∈ fields := by
  rw [Std.ExtTreeMap.mem_iff_isSome_getElem?, getElem?_gather, Option.isSome_iff_ne_none, ne_eq,
    joined_eq_none_iff, List.eq_nil_iff_forall_not_mem]
  simp only [mem_valuesOf, not_forall, not_not]

end Gather

end Eventuals.HTTPHeaders
