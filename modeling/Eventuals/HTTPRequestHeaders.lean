import Mathlib.Data.List.Dedup
import Mathlib.Data.List.TakeWhile
import Eventuals.HTTPHeaders

/-! The header fields of a request, from the builder to the list that libcurl is given
(`http.h`). -/
namespace Eventuals.HTTPHeaders

/-- `Request::_Builder::header` -/
def header (headers : Headers) (key value : Bytes) : Headers := add headers key value

/-- The headers of a request that was built with these calls of `header`. -/
def request (calls : List (Bytes × Bytes)) : Headers :=
  calls.foldl (fun headers call => header headers call.1 call.2) ∅

inductive Check
  /-- "not expecting to have already allocated headers" -/
  | allocated
  /-- `CHECK_NOTNULL(list)` -/
  | notNull
  deriving DecidableEq

/-- A `curl_slist`, unless the pointer to it is null. -/
abbrev Slist := Option (List Bytes)

def c_str (s : Bytes) : Bytes := s.takeWhile (· ≠ 0)

def entry (field : Bytes × Bytes) : Bytes := field.1 ++ bytes ": " ++ field.2

/-- The loop of `Start()` has a list of its own for every header. -/
def transformHeader (curl_slist_append : Slist → Bytes → Slist) (curl_headers : Slist)
    (field : Bytes × Bytes) : Except Check Slist :=
  if curl_headers.isSome then .error .allocated
  else
    match curl_slist_append none (c_str (entry field)) with
    | none => .error .notNull
    | some list => .ok (some list)

/-- What `Start()` sets `CURLOPT_HTTPHEADER` to. -/
def transform (curl_slist_append : Slist → Bytes → Slist) (headers : Headers) :
    Except Check Slist :=
  headers.toList.foldlM (transformHeader curl_slist_append) none

/-- One entry for each name, with the values of its calls in their order. -/
def entries (calls : List (Bytes × Bytes)) : List Bytes :=
  (calls.map Prod.fst).dedup.map fun name =>
    entry (name, (bytes ", ").intercalate (valuesOf name calls))

/-- Nothing aborts, and libcurl is given the entries. -/
def Hands (curl_slist_append : Slist → Bytes → Slist) (calls : List (Bytes × Bytes)) : Prop :=
  ∃ list, transform curl_slist_append (request calls) = .ok list ∧
    (list.getD []).Perm (entries calls)

variable {curl_slist_append : Slist → Bytes → Slist} {calls : List (Bytes × Bytes)}
  {key value s : Bytes} {field : Bytes × Bytes}

theorem request_eq_gather (calls : List (Bytes × Bytes)) : request calls = gather calls := rfl

theorem mem_toList_request :
    (key, value) ∈ (request calls).toList ↔ joined (valuesOf key calls) = some value := by
  rw [Std.ExtTreeMap.mem_toList_iff_getElem?_eq_some, request_eq_gather, getElem?_gather]

theorem joined_of_mem {call : Bytes × Bytes} (h : call ∈ calls) :
    joined (valuesOf call.1 calls) = some ((bytes ", ").intercalate (valuesOf call.1 calls)) := by
  have hmem : call.2 ∈ valuesOf call.1 calls := mem_valuesOf.mpr h
  exact joined_of_ne_nil (List.ne_nil_of_mem hmem)

theorem exists_call (h : field ∈ (request calls).toList) : ∃ call ∈ calls, call.1 = field.1 := by
  have hkey := mem_toList_request.mp h
  have hne : valuesOf field.1 calls ≠ [] := by
    intro hnil
    rw [hnil] at hkey
    cases hkey
  obtain ⟨value, hvalue⟩ := List.exists_mem_of_ne_nil _ hne
  exact ⟨_, mem_valuesOf.mp hvalue, rfl⟩

theorem exists_field {call : Bytes × Bytes} (h : call ∈ calls) :
    ∃ value, (call.1, value) ∈ (request calls).toList :=
  ⟨_, mem_toList_request.mpr (joined_of_mem h)⟩

theorem name_eq {call : Bytes × Bytes} (hl : (request calls).toList = [field])
    (h : call ∈ calls) : call.1 = field.1 := by
  obtain ⟨value, hvalue⟩ := exists_field h
  rw [hl, List.mem_singleton] at hvalue
  rw [← hvalue]

theorem calls_eq_nil (hl : (request calls).toList = []) : calls = [] := by
  rw [List.eq_nil_iff_forall_not_mem]
  intro call hcall
  obtain ⟨value, hvalue⟩ := exists_field hcall
  rw [hl] at hvalue
  exact List.not_mem_nil hvalue

/-- A map has a name once. -/
theorem names_ne {field' : Bytes × Bytes} {rest : List (Bytes × Bytes)}
    (hl : (request calls).toList = field :: field' :: rest) : field.1 ≠ field'.1 := by
  intro heq
  have hdistinct := Std.ExtTreeMap.distinct_keys_toList (t := request calls)
  rw [hl] at hdistinct
  apply (List.pairwise_cons.mp hdistinct).1 field' List.mem_cons_self
  rw [heq]
  exact Std.ReflCmp.compare_self

/-- A C string ends at the first zero. -/
theorem c_str_eq_iff : c_str s = s ↔ 0 ∉ s := by
  rw [c_str, List.takeWhile_eq_self_iff]
  constructor
  · intro h h0
    exact of_decide_eq_true (h 0 h0) rfl
  · intro h c hc
    exact decide_eq_true fun h0 => h (h0 ▸ hc)

theorem zero_mem_intercalate {sep : Bytes} (hsep : 0 ∉ sep) (values : List Bytes) :
    0 ∈ sep.intercalate values ↔ ∃ value ∈ values, 0 ∈ value := by
  induction values with
  | nil => simp
  | cons value values ih =>
    cases values with
    | nil => simp [List.intercalate_singleton]
    | cons second values =>
      rw [List.intercalate_cons_cons, List.mem_append, List.mem_append, ih, or_iff_left hsep]
      exact (List.exists_mem_cons_iff (fun value => 0 ∈ value) _ _).symm

theorem entries_singleton (hl : (request calls).toList = [field]) :
    entries calls = [entry field] ∧
      field.2 = (bytes ", ").intercalate (valuesOf field.1 calls) := by
  have hmem : field ∈ (request calls).toList := hl ▸ List.mem_cons_self
  obtain ⟨call, hcall, hfirst⟩ := exists_call hmem
  have hvalue := mem_toList_request.mp hmem
  rw [← hfirst, joined_of_mem hcall, Option.some.injEq, hfirst] at hvalue
  have hdedup : (calls.map Prod.fst).dedup = [field.1] := by
    rw [← List.perm_singleton, List.perm_ext_iff_of_nodup (List.nodup_dedup _)
      (List.nodup_singleton _)]
    intro name
    rw [List.mem_dedup, List.mem_map, List.mem_singleton]
    constructor
    · rintro ⟨call, hcall, rfl⟩
      exact name_eq hl hcall
    · rintro rfl
      exact ⟨call, hcall, hfirst⟩
  refine ⟨?_, hvalue.symm⟩
  rw [entries, hdedup, List.map_singleton, hvalue]

theorem zero_mem_entry_iff (hl : (request calls).toList = [field]) :
    0 ∈ entry field ↔ ∃ call ∈ calls, 0 ∈ call.1 ∨ 0 ∈ call.2 := by
  obtain ⟨call, hcall, hfirst⟩ := exists_call (hl ▸ List.mem_cons_self)
  rw [entry, (entries_singleton hl).2, List.mem_append, List.mem_append,
    zero_mem_intercalate (by decide), or_iff_left (by decide : (0 : UInt8) ∉ bytes ": ")]
  constructor
  · rintro (h | ⟨value, hvalue, h⟩)
    · exact ⟨call, hcall, .inl (hfirst ▸ h)⟩
    · exact ⟨_, mem_valuesOf.mp hvalue, .inr h⟩
  · rintro ⟨call, hcall, h | h⟩
    · exact .inl (name_eq hl hcall ▸ h)
    · refine .inr ⟨call.2, mem_valuesOf.mpr ?_, h⟩
      rwa [← name_eq hl hcall]

section Lists

variable (hc : ∀ list s, curl_slist_append list s = some (list.getD [] ++ [s]))
include hc

theorem transform_singleton (hl : (request calls).toList = [field]) :
    transform curl_slist_append (request calls) = .ok (some [c_str (entry field)]) := by
  rw [transform, hl]
  simp only [List.foldlM_cons, List.foldlM_nil, transformHeader, hc]
  rfl

/-- The second header finds the list of the first. -/
theorem transform_cons_cons {field' : Bytes × Bytes} {rest : List (Bytes × Bytes)}
    (hl : (request calls).toList = field :: field' :: rest) :
    transform curl_slist_append (request calls) = .error .allocated := by
  rw [transform, hl]
  simp only [List.foldlM_cons, transformHeader, hc]
  rfl

/-- With one name there is one entry, which is whole if no zero is in it. -/
theorem hands_singleton_iff (hl : (request calls).toList = [field]) :
    Hands curl_slist_append calls ↔ 0 ∉ entry field := by
  rw [← c_str_eq_iff, Hands, transform_singleton hc hl, (entries_singleton hl).1]
  constructor
  · rintro ⟨list, hlist, hperm⟩
    cases hlist
    exact List.singleton_perm_singleton.mp hperm
  · intro h
    exact ⟨_, rfl, .of_eq (congrArg (fun s => [s]) h)⟩

end Lists

/-- The list has one entry for each name if and only if there is at most one name; a zero cuts an
entry off. -/
theorem request_headers_iff (hc : ∀ list s, curl_slist_append list s = some (list.getD [] ++ [s]))
    (calls : List (Bytes × Bytes)) :
    Hands curl_slist_append calls ↔
      (∀ call ∈ calls, ∀ call' ∈ calls, call.1 = call'.1) ∧
        ∀ call ∈ calls, 0 ∉ call.1 ∧ 0 ∉ call.2 := by
  cases hl : (request calls).toList with
  | nil =>
    obtain rfl := calls_eq_nil hl
    exact iff_of_true ⟨none, rfl, .refl _⟩ ⟨nofun, nofun⟩
  | cons field rest =>
    cases rest with
    | nil =>
      rw [hands_singleton_iff hc hl, zero_mem_entry_iff hl]
      constructor
      · intro h
        refine ⟨?_, ?_⟩
        · intro call hcall call' hcall'
          rw [name_eq hl hcall, name_eq hl hcall']
        · intro call hcall
          exact ⟨fun h0 => h ⟨call, hcall, .inl h0⟩, fun h0 => h ⟨call, hcall, .inr h0⟩⟩
      · rintro ⟨-, h⟩ ⟨call, hcall, h0 | h0⟩
        · exact (h call hcall).1 h0
        · exact (h call hcall).2 h0
    | cons field' rest =>
      refine iff_of_false ?_ ?_
      · rintro ⟨list, hlist, -⟩
        rw [transform_cons_cons hc hl] at hlist
        cases hlist
      · rintro ⟨hname, -⟩
        obtain ⟨call, hcall, hfirst⟩ := exists_call (hl ▸ List.mem_cons_self)
        obtain ⟨call', hcall', hsecond⟩ :=
          exists_call (hl ▸ List.mem_cons_of_mem _ List.mem_cons_self)
        apply names_ne hl
        rw [← hfirst, ← hsecond]
        exact hname call hcall call' hcall'

theorem request_headers_one : Hands (fun list s => some (list.getD [] ++ [s]))
    [(bytes "foo", bytes "bar1"), (bytes "foo", bytes "bar2")] :=
  (request_headers_iff (fun _ _ => rfl) _).mpr (by decide)

/-- Two names are one too many. -/
theorem request_headers_abort : ¬ Hands (fun list s => some (list.getD [] ++ [s]))
    [(bytes "foo", bytes "bar"), (bytes "baz", bytes "qux")] := by
  rintro ⟨list, hlist, -⟩
  have htransform : transform (fun list s => some (list.getD [] ++ [s]))
      (request [(bytes "foo", bytes "bar"), (bytes "baz", bytes "qux")]) =
      .error .allocated := by decide
  rw [htransform] at hlist
  cases hlist

end Eventuals.HTTPHeaders
