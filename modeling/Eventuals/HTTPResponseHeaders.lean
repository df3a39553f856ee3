import Mathlib.Data.List.DropRight
import Mathlib.Data.List.TakeWhile
import Mathlib.Tactic.Tauto
import Eventuals.HTTPHeaders

/-! The header fields of a response, from the lines that libcurl hands over to the map
(`http.h`). -/
namespace Eventuals.HTTPHeaders

def newline : UInt8 := 10

def carriageReturn : UInt8 := 13

def colon : UInt8 := 58

/-- `headers_buffer_ +=` -/
def headerFunction (headers_buffer data : Bytes) : Bytes := headers_buffer ++ data

/-- The line, and what is left of the stream unless its end was met. -/
def getline : Bytes → Bytes × Option Bytes
  | [] => ([], none)
  | c :: stream =>
    if c = newline then ([], some stream)
    else (c :: (getline stream).1, (getline stream).2)

section Parser

variable (strip : Bytes → Bytes)

/-- The key and the value in a line, if there is a colon in it. -/
def parseLine (line : Bytes) : Option (Bytes × Bytes) :=
  match line.dropWhile (· ≠ colon) with
  | [] => none
  | _ :: value => some (strip (line.takeWhile (· ≠ colon)), strip value)

def addLine (headers : Headers) (line : Bytes) : Headers :=
  match parseLine strip line with
  | none => headers
  | some (key, value) => add headers key value

theorem length_getline {stream rest : Bytes} (h : (getline stream).2 = some rest) :
    rest.length < stream.length := by
  induction stream generalizing rest with
  | nil => cases h
  | cons c stream ih =>
    unfold getline at h
    split at h
    case isTrue =>
      cases h
      exact Nat.lt_succ_self _
    case isFalse => exact Nat.lt_succ_of_lt (ih h)

/-- The loop that builds the map; it ends at the end of the stream. -/
def buildHeaders (headers : Headers) (stream : Bytes) : Headers :=
  match _h : (getline stream).2 with
  | none => addLine strip headers (getline stream).1
  | some rest => buildHeaders (addLine strip headers (getline stream).1) rest
termination_by stream.length
decreasing_by exact length_getline ‹_›

end Parser

def isSpace (c : UInt8) : Bool := c = 32 || (9 ≤ c && c ≤ 13)

/-- What `absl::StripAsciiWhitespace` is for. -/
def trim (s : Bytes) : Bytes := (s.dropWhile isSpace).rdropWhile isSpace

/-- A byte that may be in the name of a field: one that is visible and no delimiter. -/
def isTokenByte (c : UInt8) : Bool :=
  33 ≤ c && c ≤ 126 && c ∉ bytes "\"(),/:;<=>?@[\\]\x7b\x7d"

def IsToken (name : Bytes) : Prop := name ≠ [] ∧ name.all isTokenByte

/-- The bytes of a line that may be in the middle of it. -/
def IsText (s : Bytes) : Prop := newline ∉ s ∧ carriageReturn ∉ s

instance (name : Bytes) : Decidable (IsToken name) := inferInstanceAs (Decidable (_ ∧ _))

instance (s : Bytes) : Decidable (IsText s) := inferInstanceAs (Decidable (_ ∧ _))

def isDigit (c : UInt8) : Bool := 48 ≤ c && c ≤ 57

/-- A field as it was sent; whitespace around the value is part of it. -/
structure FieldLine where
  name : Bytes
  value : Bytes
  token : IsToken name
  text : IsText value

def FieldLine.line (f : FieldLine) : Bytes := f.name ++ bytes ":" ++ f.value

/-- The head of a response. -/
structure Head where
  version : Bytes
  code : Bytes
  reason : Bytes
  fields : List FieldLine
  version_digits : version.all fun c => isDigit c || c = 46
  code_digits : code.all isDigit
  text : IsText reason

namespace Head

variable (h : Head)

def statusPrefix : Bytes := bytes "HTTP/" ++ h.version ++ bytes " " ++ h.code ++ bytes " "

def statusLine : Bytes := h.statusPrefix ++ h.reason

def contents : List Bytes := h.statusLine :: h.fields.map FieldLine.line ++ [[]]

/-- What libcurl calls `header_function` with, one line after the other. -/
def lines : List Bytes := h.contents.map (· ++ [carriageReturn, newline])

/-- The fields with their values trimmed. -/
def trimmed : List (Bytes × Bytes) := h.fields.map fun f => (f.name, trim f.value)

end Head

/-- The headers of the response after the heads of all responses of a transfer. -/
def received (strip : Bytes → Bytes) (heads : List Head) : Headers :=
  buildHeaders strip ∅ ((heads.flatMap Head.lines).foldl headerFunction [])

section Lines

variable {strip : Bytes → Bytes} {headers : Headers} {line stream : Bytes}

theorem splitOn_eq_getline (stream : Bytes) :
    stream.splitOn newline = match (getline stream).2 with
      | none => [(getline stream).1]
      | some rest => (getline stream).1 :: rest.splitOn newline := by
  induction stream with
  | nil => rfl
  | cons c stream ih =>
    rw [List.splitOn_cons_eq_if_modifyHead]
    by_cases hc : c = newline
    · simp [getline, hc]
    · have hbeq : (c == newline) = false := by simpa using hc
      rw [hbeq, ih, getline, if_neg hc]
      cases (getline stream).2 with
      | none => rfl
      | some rest => rfl

/-- The loop takes the lines one after the other. -/
theorem buildHeaders_eq (strip : Bytes → Bytes) (headers : Headers) (stream : Bytes) :
    buildHeaders strip headers stream =
      (stream.splitOn newline).foldl (addLine strip) headers := by
  induction headers, stream using buildHeaders.induct strip with
  | case1 headers stream h =>
    rw [buildHeaders, splitOn_eq_getline]
    split
    case h_1 => simp [h]
    case h_2 rest hr => rw [h] at hr; cases hr
  | case2 headers stream rest h ih =>
    rw [buildHeaders, splitOn_eq_getline]
    split
    case h_1 hr => rw [h] at hr; cases hr
    case h_2 rest' hr =>
      rw [h] at hr ⊢
      cases hr
      exact ih

theorem foldl_headerFunction (lines : List Bytes) (buffer : Bytes) :
    lines.foldl headerFunction buffer = buffer ++ lines.flatten := by
  induction lines generalizing buffer with
  | nil => exact (List.append_nil _).symm
  | cons line lines ih =>
    rw [List.foldl_cons, ih, headerFunction, List.append_assoc, List.flatten_cons]

theorem splitOn_lines {contents : List Bytes} (h : ∀ line ∈ contents, newline ∉ line) :
    (contents.map (· ++ [carriageReturn, newline])).flatten.splitOn newline =
      contents.map (· ++ [carriageReturn]) ++ [[]] := by
  induction contents with
  | nil => rfl
  | cons line contents ih =>
    obtain ⟨hline, hrest⟩ := List.forall_mem_cons.mp h
    have hnot : newline ∉ line ++ [carriageReturn] := by
      rw [List.mem_append, not_or]
      exact ⟨hline, by decide⟩
    have happend : (line ++ [carriageReturn, newline]) ++
        (contents.map (· ++ [carriageReturn, newline])).flatten = (line ++ [carriageReturn]) ++
          newline :: (contents.map (· ++ [carriageReturn, newline])).flatten := by
      simp only [List.append_assoc, List.cons_append, List.nil_append]
    rw [List.map_cons, List.flatten_cons, happend, List.splitOn_append_cons_self_of_not_mem hnot,
      ih hrest]
    rfl

theorem parseLine_of_not_mem (h : colon ∉ line) : parseLine strip line = none := by
  have hdrop : line.dropWhile (· ≠ colon) = [] := by
    rw [List.dropWhile_eq_nil_iff]
    intro c hc
    exact decide_eq_true fun heq => h (heq ▸ hc)
  rw [parseLine, hdrop]

theorem parseLine_append {key value : Bytes} (h : colon ∉ key) :
    parseLine strip (key ++ colon :: value) = some (strip key, strip value) := by
  have hkey : ∀ c ∈ key, decide (c ≠ colon) = true := fun c hc =>
    decide_eq_true fun heq => h (heq ▸ hc)
  have hdrop : (key ++ colon :: value).dropWhile (· ≠ colon) = colon :: value := by
    rw [List.dropWhile_append_of_pos hkey, List.dropWhile_cons_of_neg (by simp)]
  have htake : (key ++ colon :: value).takeWhile (· ≠ colon) = key := by
    rw [List.takeWhile_append_of_pos hkey, List.takeWhile_cons_of_neg (by simp), List.append_nil]
  rw [parseLine, hdrop, htake]

theorem parseLine_eq_none_iff : parseLine strip line = none ↔ colon ∉ line := by
  refine ⟨fun h hmem => ?_, parseLine_of_not_mem⟩
  obtain ⟨key, value, rfl, hkey⟩ := List.eq_append_cons_of_mem hmem
  rw [parseLine_append hkey] at h
  cases h

theorem foldl_addLine (strip : Bytes → Bytes) (headers : Headers) (lines : List Bytes) :
    lines.foldl (addLine strip) headers =
      (lines.filterMap (parseLine strip)).foldl (fun headers field =>
        add headers field.1 field.2) headers := by
  induction lines generalizing headers with
  | nil => rfl
  | cons line lines ih =>
    rw [List.foldl_cons, ih, addLine]
    cases h : parseLine strip line with
    | none => rw [List.filterMap_cons_none h]
    | some field => rw [List.filterMap_cons_some h, List.foldl_cons]

end Lines

section Heads

variable {strip : Bytes → Bytes} {name : Bytes} {c : UInt8} {h : Head} {f : FieldLine}

theorem IsToken.not_mem (h : IsToken name) (hc : isTokenByte c = false) : c ∉ name := by
  intro hmem
  have htoken := List.all_eq_true.mp h.2 c hmem
  rw [hc] at htoken
  cases htoken

theorem Head.not_mem_version (h : Head) (hd : isDigit c = false) (hc : c ≠ 46) :
    c ∉ h.version := by
  intro hmem
  have hversion := List.all_eq_true.mp h.version_digits c hmem
  rw [hd, Bool.false_or, decide_eq_true_iff] at hversion
  exact hc hversion

theorem Head.not_mem_code (h : Head) (hd : isDigit c = false) : c ∉ h.code := by
  intro hmem
  have hdigit := List.all_eq_true.mp h.code_digits c hmem
  rw [hd] at hdigit
  cases hdigit

theorem Head.not_mem_statusPrefix (h : Head) (hp : c ∉ bytes "HTTP/") (hs : c ∉ bytes " ")
    (hd : isDigit c = false) (hc : c ≠ 46) : c ∉ h.statusPrefix := by
  have hversion := h.not_mem_version hd hc
  have hcode := h.not_mem_code hd
  simp only [Head.statusPrefix, List.mem_append, not_or]
  exact ⟨⟨⟨⟨hp, hversion⟩, hs⟩, hcode⟩, hs⟩

theorem Head.colon_not_mem_statusPrefix (h : Head) : colon ∉ h.statusPrefix :=
  h.not_mem_statusPrefix (by decide) (by decide) (by decide) (by decide)

/-- A colon of the status line is in the reason phrase. -/
theorem Head.colon_mem_iff (h : Head) :
    colon ∈ h.statusLine ++ [carriageReturn] ↔ colon ∈ h.reason := by
  rw [List.mem_append, or_iff_left (by decide), Head.statusLine, List.mem_append,
    or_iff_right h.colon_not_mem_statusPrefix]

theorem Head.newline_not_mem (h : Head) : ∀ line ∈ h.contents, newline ∉ line := by
  intro line hline
  rcases List.mem_append.mp hline with hline | hline
  · rcases List.mem_cons.mp hline with rfl | hline
    · rw [Head.statusLine, List.mem_append, not_or]
      exact ⟨h.not_mem_statusPrefix (by decide) (by decide) (by decide) (by decide), h.text.1⟩
    · obtain ⟨f, -, rfl⟩ := List.mem_map.mp hline
      simp only [FieldLine.line, List.mem_append, not_or]
      exact ⟨⟨f.token.not_mem (by decide), by decide⟩, f.text.1⟩
  · rw [List.mem_singleton.mp hline]
    exact List.not_mem_nil

/-- What the parser adds for one head. -/
def parsed (strip : Bytes → Bytes) (h : Head) : List (Bytes × Bytes) :=
  (parseLine strip (h.statusLine ++ [carriageReturn])).toList ++
    h.fields.map fun f => (strip f.name, strip (f.value ++ [carriageReturn]))

theorem parseLine_field (strip : Bytes → Bytes) (f : FieldLine) :
    parseLine strip (f.line ++ [carriageReturn]) =
      some (strip f.name, strip (f.value ++ [carriageReturn])) := by
  have hline : f.line ++ [carriageReturn] = f.name ++ colon :: (f.value ++ [carriageReturn]) := by
    simp only [FieldLine.line, List.append_assoc]
    rfl
  rw [hline, parseLine_append (f.token.not_mem (by decide))]

theorem parsed_eq (strip : Bytes → Bytes) (h : Head) :
    (h.contents.map (· ++ [carriageReturn])).filterMap (parseLine strip) = parsed strip h := by
  have hfields :
      ((h.fields.map FieldLine.line).map (· ++ [carriageReturn])).filterMap (parseLine strip) =
        h.fields.map fun f => (strip f.name, strip (f.value ++ [carriageReturn])) := by
    rw [List.map_map, List.filterMap_map, ← List.filterMap_eq_map]
    exact List.filterMap_congr fun f _ => parseLine_field strip f
  have hblank : parseLine strip [carriageReturn] = none := parseLine_of_not_mem (by decide)
  rw [Head.contents, List.map_append, List.filterMap_append, List.map_cons, ← List.singleton_append,
    List.filterMap_append, hfields, List.map_singleton, List.nil_append,
    List.filterMap_cons_none hblank, List.filterMap_nil, List.append_nil, parsed]
  congr 1

theorem received_eq (strip : Bytes → Bytes) (heads : List Head) :
    received strip heads = gather (heads.flatMap (parsed strip)) := by
  have hlines : heads.flatMap Head.lines =
      (heads.flatMap Head.contents).map (· ++ [carriageReturn, newline]) := by
    rw [List.map_flatMap]
    rfl
  have hnewline : ∀ line ∈ heads.flatMap Head.contents, newline ∉ line := by
    intro line hline
    obtain ⟨h, -, hmem⟩ := List.mem_flatMap.mp hline
    exact h.newline_not_mem line hmem
  rw [received, foldl_headerFunction, List.nil_append, hlines, buildHeaders_eq,
    splitOn_lines hnewline, foldl_addLine, List.filterMap_append, List.map_flatMap,
    List.filterMap_flatMap, List.filterMap_cons_none (parseLine_of_not_mem List.not_mem_nil),
    List.filterMap_nil, List.append_nil]
  simp only [parsed_eq]
  rfl

theorem parsed_eq_nil_iff : parsed strip h = [] ↔ h.fields = [] ∧ colon ∉ h.reason := by
  rw [parsed, List.append_eq_nil_iff, List.map_eq_nil_iff, and_comm, ← h.colon_mem_iff]
  refine and_congr_right fun _ => ?_
  rw [Option.toList_eq_nil_iff, parseLine_eq_none_iff]

theorem received_append_eq_iff (strip : Bytes → Bytes) (earlier later : List Head) :
    received strip (earlier ++ later) = received strip later ↔
      ∀ h ∈ earlier, h.fields = [] ∧ colon ∉ h.reason := by
  rw [received_eq, received_eq, List.flatMap_append, gather_append_eq_iff, List.flatMap_eq_nil_iff]
  exact forall₂_congr fun h _ => parsed_eq_nil_iff

/-- The buffer is never emptied: the headers are those of the last response if and only if nothing
in the heads before it looks like a header. -/
theorem received_eq_final_iff (strip : Bytes → Bytes) (earlier : List Head) (final : Head) :
    received strip (earlier ++ [final]) = received strip [final] ↔
      ∀ h ∈ earlier, h.fields = [] ∧ colon ∉ h.reason :=
  received_append_eq_iff strip earlier [final]

end Heads

section Trim

variable {s : Bytes} {c : UInt8} {f : FieldLine} {h : Head}

theorem mem_dropWhile {p : UInt8 → Bool} (hp : p c = false) (hc : c ∈ s) : c ∈ s.dropWhile p := by
  induction s with
  | nil => cases hc
  | cons d s ih =>
    rw [List.dropWhile_cons]
    split
    case isTrue hd =>
      rcases List.mem_cons.mp hc with rfl | hc
      · rw [hp] at hd
        cases hd
      · exact ih hc
    case isFalse => exact hc

/-- Only whitespace goes. -/
theorem mem_trim (hs : isSpace c = false) (hc : c ∈ s) : c ∈ trim s := by
  rw [trim, List.rdropWhile, List.mem_reverse]
  exact mem_dropWhile hs (List.mem_reverse.mpr (mem_dropWhile hs hc))

theorem trim_of_forall (h : ∀ c ∈ s, isSpace c = false) : trim s = s := by
  have hleft : s.dropWhile isSpace = s := by
    rw [List.dropWhile_eq_self_iff]
    intro hl
    rw [h _ (List.getElem_mem hl)]
    exact Bool.false_ne_true
  rw [trim, hleft, List.rdropWhile_eq_self_iff]
  intro hl
  rw [h _ (List.getLast_mem hl)]
  exact Bool.false_ne_true

/-- What is visible is no whitespace. -/
theorem isSpace_of_isTokenByte (h : isTokenByte c) : isSpace c = false := by
  simp only [isTokenByte, Bool.and_eq_true, decide_eq_true_iff, UInt8.le_iff_toNat_le] at h
  have hvisible : 33 ≤ c.toNat := h.1.1
  rw [Bool.eq_false_iff]
  intro hspace
  rw [isSpace, Bool.or_eq_true, Bool.and_eq_true, decide_eq_true_iff, decide_eq_true_iff,
    decide_eq_true_iff, UInt8.le_iff_toNat_le, UInt8.le_iff_toNat_le] at hspace
  rcases hspace with rfl | ⟨-, hle⟩
  · exact absurd hvisible (by decide)
  · exact absurd (Nat.le_trans hvisible hle) (by decide)

theorem trim_token {name : Bytes} (h : IsToken name) : trim name = name := by
  apply trim_of_forall
  intro c hc
  exact isSpace_of_isTokenByte (List.all_eq_true.mp h.2 c hc)

/-- The end of the line is whitespace as well. -/
theorem trim_concat (hc : isSpace c) : trim (s ++ [c]) = trim s := by
  rw [trim, List.dropWhile_append]
  split
  case isTrue he =>
    rw [trim, List.isEmpty_iff.mp he, List.dropWhile_cons_of_pos hc]
    rfl
  case isFalse => rw [List.rdropWhile_concat_pos _ _ _ hc, trim]

variable {strip : Bytes → Bytes} (hs : ∀ s, strip s = trim s)
include hs

theorem parsed_eq_trimmed (h : Head) :
    parsed strip h = (parseLine strip (h.statusLine ++ [carriageReturn])).toList ++ h.trimmed := by
  have hfield : ∀ f : FieldLine, (strip f.name, strip (f.value ++ [carriageReturn])) =
      (f.name, trim f.value) := by
    intro f
    rw [hs, hs, trim_token f.token, trim_concat (by decide)]
  rw [parsed]
  simp only [hfield]
  rfl

/-- What is before a colon in the status line has a slash in it, unlike the name of a field. -/
theorem parseLine_statusLine (hc : colon ∈ h.reason) :
    ∃ key value, parseLine strip (h.statusLine ++ [carriageReturn]) = some (key, value) ∧
      47 ∈ key := by
  obtain ⟨before, after, hreason, hbefore⟩ := List.eq_append_cons_of_mem hc
  have hkey : colon ∉ h.statusPrefix ++ before := by
    rw [List.mem_append, not_or]
    exact ⟨h.colon_not_mem_statusPrefix, hbefore⟩
  have hline : h.statusLine ++ [carriageReturn] =
      (h.statusPrefix ++ before) ++ colon :: (after ++ [carriageReturn]) := by
    rw [Head.statusLine, hreason]
    simp only [List.append_assoc, List.cons_append]
  have hslash : 47 ∈ trim (h.statusPrefix ++ before) := by
    apply mem_trim (by decide)
    simp only [Head.statusPrefix, List.mem_append]
    exact .inl (.inl (.inl (.inl (.inl (by decide)))))
  refine ⟨trim (h.statusPrefix ++ before), trim (after ++ [carriageReturn]), ?_, hslash⟩
  rw [hline, parseLine_append hkey, hs, hs]

theorem valuesOf_status {name : Bytes} (hname : IsToken name ∨ colon ∉ h.reason) :
    valuesOf name (parseLine strip (h.statusLine ++ [carriageReturn])).toList = [] := by
  by_cases hc : colon ∈ h.reason
  · obtain ⟨key, value, hparse, hslash⟩ := parseLine_statusLine hs hc
    have htoken := hname.resolve_right fun hnot => hnot hc
    have hne : key ≠ name := by
      rintro rfl
      exact htoken.not_mem (by decide) hslash
    rw [hparse, Option.toList_some, valuesOf_singleton, if_neg hne]
  · rw [parseLine_of_not_mem (h.colon_mem_iff.not.mpr hc)]
    rfl

theorem getElem?_received {name : Bytes} (hname : IsToken name ∨ colon ∉ h.reason) :
    (received strip [h])[name]? = joined (valuesOf name h.trimmed) := by
  rw [received_eq, getElem?_gather, List.flatMap_singleton, parsed_eq_trimmed hs, valuesOf_append,
    valuesOf_status hs hname, List.nil_append]

end Trim

section Names

def lower (c : UInt8) : UInt8 := if 65 ≤ c ∧ c ≤ 90 then c + 32 else c

/-- The names of fields are compared without regard to case. -/
def sameName (name name' : Bytes) : Bool := name.map lower = name'.map lower

/-- Fields whose names are the same have one key, and nothing else has one. -/
structure Combines (same : Bytes → Bytes → Bool) (fields : List (Bytes × Bytes))
    (headers : Headers) : Prop where
  combined : ∀ f ∈ fields, ∃ key, same key f.1 ∧
    headers[key]? = joined ((fields.filter fun f' => same f'.1 f.1).map Prod.snd)
  once : ∀ key ∈ headers, ∀ key' ∈ headers, same key key' → key = key'
  only : ∀ key ∈ headers, ∃ f ∈ fields, same key f.1

section Case

variable {fields : List (Bytes × Bytes)} {headers : Headers}

theorem Combines.getElem?_field {f : Bytes × Bytes}
    (h : Combines (fun name name' => name = name') fields headers) (hf : f ∈ fields) :
    headers[f.1]? = joined (valuesOf f.1 fields) := by
  obtain ⟨key, hkey, hvalue⟩ := h.combined f hf
  rw [of_decide_eq_true hkey] at hvalue
  exact hvalue

/-- A name that is not in the headers is not the name of a field. -/
theorem Combines.valuesOf_eq_nil {name : Bytes}
    (h : Combines (fun name name' => name = name') fields headers) (hname : name ∉ headers) :
    valuesOf name fields = [] := by
  by_contra hne
  obtain ⟨value, hvalue⟩ := List.exists_mem_of_ne_nil _ hne
  have hfield := h.getElem?_field (mem_valuesOf.mp hvalue)
  rw [Std.ExtTreeMap.getElem?_eq_none hname, eq_comm, joined_eq_none_iff] at hfield
  exact hne hfield

/-- With names that are told apart by case this is the fold that `add` makes. -/
theorem combines_eq_iff :
    Combines (fun name name' => name = name') fields headers ↔ headers = gather fields := by
  constructor
  · intro h
    apply Std.ExtTreeMap.ext_getElem?
    intro name
    rw [getElem?_gather]
    by_cases hname : name ∈ headers
    · obtain ⟨f, hf, hsame⟩ := h.only name hname
      rw [of_decide_eq_true hsame]
      exact h.getElem?_field hf
    · rw [h.valuesOf_eq_nil hname]
      exact Std.ExtTreeMap.getElem?_eq_none hname
  · rintro rfl
    refine ⟨?_, ?_, ?_⟩
    · intro f _
      exact ⟨f.1, decide_eq_true rfl, getElem?_gather fields f.1⟩
    · intro key _ key' _ hsame
      exact of_decide_eq_true hsame
    · intro key hkey
      obtain ⟨value, hmem⟩ := mem_gather_iff.mp hkey
      exact ⟨_, hmem, decide_eq_true rfl⟩

end Case

/-- At the name of a field the headers have the values of the fields of that name, trimmed and in
order. There is nothing else in them, unless it is from a reason phrase with a colon. -/
theorem received_combines {strip : Bytes → Bytes} (hs : ∀ s, strip s = trim s) (h : Head) :
    (∀ name, IsToken name → (received strip [h])[name]? = joined (valuesOf name h.trimmed)) ∧
      (colon ∉ h.reason →
        Combines (fun name name' => name = name') h.trimmed (received strip [h])) := by
  refine ⟨fun name hname => getElem?_received hs (.inl hname), fun hc => ?_⟩
  rw [combines_eq_iff]
  refine Std.ExtTreeMap.ext_getElem? fun name => ?_
  rw [getElem?_received hs (.inr hc), getElem?_gather]

/-- A redirect is followed to its location, which is then in the headers. -/
theorem received_redirects_iff (strip : Bytes → Bytes) {redirects : List Head}
    (hl : ∀ h ∈ redirects, ∃ f ∈ h.fields, sameName f.name (bytes "Location"))
    (later : List Head) :
    received strip (redirects ++ later) = received strip later ↔ redirects = [] := by
  rw [received_append_eq_iff]
  constructor
  · intro h
    refine List.eq_nil_iff_forall_not_mem.mpr fun head hhead => ?_
    obtain ⟨f, hf, -⟩ := hl head hhead
    rw [(h head hhead).1] at hf
    exact List.not_mem_nil hf
  · rintro rfl
    nofun

end Names

section Responses

def ok (fields : List FieldLine) : Head where
  version := bytes "1.1"
  code := bytes "200"
  reason := bytes "OK"
  fields := fields
  version_digits := by decide
  code_digits := by decide
  text := by decide

def found (location : FieldLine) : Head where
  version := bytes "1.1"
  code := bytes "302"
  reason := bytes "Found"
  fields := [location]
  version_digits := by decide
  code_digits := by decide
  text := by decide

def twice : Head := ok
  [⟨bytes "Foo", bytes " Bar1", by decide, by decide⟩,
    ⟨bytes "Foo", bytes " Bar2", by decide, by decide⟩]

def mixedCase : Head := ok
  [⟨bytes "Foo", bytes " Bar1", by decide, by decide⟩,
    ⟨bytes "foo", bytes " Bar2", by decide, by decide⟩]

theorem received_combines_twice :
    (received trim [twice])[bytes "Foo"]? = some (bytes "Bar1, Bar2") :=
  ((received_combines (fun _ => rfl) twice).1 (bytes "Foo") (by decide)).trans (by decide)

/-- A name in another case is another name. -/
theorem received_mixedCase :
    ¬ Combines sameName mixedCase.trimmed (received trim [mixedCase]) := by
  rw [received_eq]
  intro h
  have heq := h.once (bytes "Foo") (mem_gather_iff.mpr ⟨bytes "Bar1", by decide⟩) (bytes "foo")
    (mem_gather_iff.mpr ⟨bytes "Bar2", by decide⟩) (by decide)
  exact absurd heq (by decide)

/-- The location of a redirect is in the headers of the response that it leads to. -/
theorem received_found : ¬ received trim
    ([found ⟨bytes "Location", bytes " /b", by decide, by decide⟩] ++ [ok []]) =
    received trim [ok []] := by
  rw [received_append_eq_iff]
  intro h
  exact absurd (h _ List.mem_cons_self).1 (List.cons_ne_nil _ _)

end Responses

end Eventuals.HTTPHeaders
