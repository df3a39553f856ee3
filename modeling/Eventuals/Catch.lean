import Eventuals.TypeTraits

/-! What `Catch()` does with an error: some handler runs or the error goes on (`catch.h`). What the
compiler decides from the types and what is decided when the error arrives have to fit. -/
namespace Eventuals.Catch

open TypeTraits (Hierarchy)

inductive Category
  | rvalue
  | constRvalue
  | lvalue
  | constLvalue
  deriving DecidableEq

/-- An error, with what `Error` is deduced as where it is an `Error&&`. -/
structure Deduced (E V : Type*) where
  decay : E
  isConst : Bool
  isReference : Bool
  value : V
  deriving DecidableEq

variable {E V : Type*}

/-- Only an lvalue has a reference deduced for it. -/
def Category.deduce (category : Category) (e : E) (v : V) : Deduced E V :=
  match category with
  | .rvalue => ⟨e, false, false, v⟩
  | .constRvalue => ⟨e, true, false, v⟩
  | .lvalue => ⟨e, false, true, v⟩
  | .constLvalue => ⟨e, true, true, v⟩

/-- `Error_` of a handler, which is a variant if the handler is that of `all()`. -/
inductive HandlerError (E : Type*)
  | error (e : E)
  | variant
  deriving DecidableEq

/-- What the callable of a handler gets. -/
inductive Argument (E V : Type*)
  | error (e : Deduced E V)
  | variant (e : Deduced E V)
  deriving DecidableEq

/-- The calls of what comes next; the handlers have `k_` too. -/
inductive Call (E V : Type*)
  | registerHandler (i : ℕ)
  | startHandler (i : ℕ) (argument : Argument E V)
  | register
  | fail (e : Deduced E V)
  deriving DecidableEq

/-- The types of the handlers in the order they were installed, `all()` behind the others. -/
structure Continuation (E : Type*) where
  raised : List E
  hasAll : Bool
  /-- `interrupt_` is set. -/
  interrupt : Bool
  deriving DecidableEq

def Continuation.catchHandlers (c : Continuation E) : List (HandlerError E) :=
  c.raised.map .error ++ if c.hasAll then [.variant] else []

/-- `Handle()` of the handler at that position -/
def handle (i : ℕ) (interrupt : Bool) (argument : Argument E V) : List (Call E V) :=
  (if interrupt then [.registerHandler i] else []) ++ [.startHandler i argument]

section Handlers

variable [DecidableEq E] (H : Hierarchy E)

/-- `std::is_same_v<Error_, E>` -/
def isSame (handler : E) (e : Deduced E V) : Bool :=
  handler = e.decay ∧ e.isConst = false ∧ e.isReference = false

/-- `std::is_base_of_v<Error_, E>`, which does not look at a `const` but has no reference for a
class. -/
def isBaseOf (handler : E) (e : Deduced E V) : Bool :=
  e.isReference = false ∧ H.isBaseOf handler e.decay

def handles (e : Deduced E V) (handler : E) : Bool :=
  isSame handler e ∨ handler = H.typeErasedError ∨ isBaseOf H handler e

def tryHandle (i : ℕ) (interrupt : Bool) (handler : HandlerError E) (e : Deduced E V) :
    Option (List (Call E V)) :=
  match handler with
  | .variant => some (handle i interrupt (.variant e))
  | .error handler =>
    if handles H e handler then some (handle i interrupt (.error e)) else none

/-- The handlers in their order, until one has handled the error. -/
def tryHandlers (interrupt : Bool) (e : Deduced E V) :
    ℕ → List (HandlerError E) → Bool → Bool × List (Call E V)
  | _, [], handled => (handled, [])
  | i, handler :: handlers, handled =>
    if handled then tryHandlers interrupt e (i + 1) handlers handled
    else
      match tryHandle H i interrupt handler e with
      | some calls =>
        let r := tryHandlers interrupt e (i + 1) handlers true
        (r.1, calls ++ r.2)
      | none => tryHandlers interrupt e (i + 1) handlers false

def Continuation.fail (c : Continuation E) (e : Deduced E V) : List (Call E V) :=
  let r := tryHandlers H c.interrupt e 0 c.catchHandlers false
  if ¬ (H.typeErasedError ∈ c.raised ∨ (∃ b ∈ c.raised, H.isBaseOf b e.decay) ∨ c.hasAll) then
    if r.1 then r.2
    else r.2 ++ (if c.interrupt then [.register] else []) ++ [.fail e]
  else r.2

end Handlers

/-- What may become of an error. -/
inductive Outcome (E V : Type*)
  | handled (i : ℕ) (argument : Argument E V)
  | forwarded (e : Deduced E V)
  deriving DecidableEq

/-- Whatever goes on gets the interrupt first. -/
def Outcome.calls (interrupt : Bool) : Outcome E V → List (Call E V)
  | .handled i argument => handle i interrupt argument
  | .forwarded e => (if interrupt then [.register] else []) ++ [.fail e]

section Dispatch

variable [DecidableEq E] (H : Hierarchy E)

/-- A handler is for the errors of its type and of the types that derive from it; the type-erased
error stands for a base of all. -/
def Catches (e : Deduced E V) (handler : E) : Bool :=
  handler = H.typeErasedError ∨ H.isBaseOf handler e.decay

def Continuation.outcome (c : Continuation E) (e : Deduced E V) : Outcome E V :=
  match c.raised.findIdx? (Catches H e) with
  | some i => .handled i (.error e)
  | none => if c.hasAll then .handled c.raised.length (.variant e) else .forwarded e

/-- What becomes of the error, if anything does: an lvalue may be dropped that some handler is for
and none can handle. -/
def Continuation.taken (c : Continuation E) (e : Deduced E V) : Option (Outcome E V) :=
  match c.raised.findIdx? (handles H e) with
  | some i => some (.handled i (.error e))
  | none =>
    if c.hasAll then some (.handled c.raised.length (.variant e))
    else if c.raised.findIdx? (Catches H e) = none then some (.forwarded e)
    else none

/-- One thing becomes of the error, and it is the right one. -/
def Dispatches (c : Continuation E) (e : Deduced E V) : Prop :=
  c.fail H e = (c.outcome H e).calls c.interrupt

end Dispatch

section First

theorem findIdx_congr {p q : E → Bool} {l : List E} (h : ∀ a ∈ l, p a = q a) :
    l.findIdx? p = l.findIdx? q := by
  induction l with
  | nil => rfl
  | cons a l ih =>
    rw [List.findIdx?_cons, List.findIdx?_cons, h a List.mem_cons_self,
      ih fun b hb => h b (List.mem_cons_of_mem _ hb)]

/-- The first of some is the first of more if it is one of them. -/
theorem findIdx_of_find {p q : E → Bool} (hqp : ∀ a, q a = true → p a = true) {l : List E} {a : E}
    (h : l.find? p = some a) (ha : q a = true) : l.findIdx? q = l.findIdx? p := by
  induction l with
  | nil => rfl
  | cons b l ih =>
    rw [List.findIdx?_cons, List.findIdx?_cons]
    by_cases hb : p b = true
    · rw [List.find?_cons_of_pos hb] at h
      cases h
      rw [ha, hb, if_pos rfl, if_pos rfl]
    · rw [List.find?_cons_of_neg hb] at h
      rw [Bool.eq_false_iff.mpr hb, Bool.eq_false_iff.mpr fun hq => hb (hqp b hq), ih h]

theorem findIdx_eq_some {p : E → Bool} {l : List E} {a : E} (h : l.find? p = some a) :
    ∃ i, l.findIdx? p = some i ∧ l[i]? = some a := by
  induction l with
  | nil => cases h
  | cons b l ih =>
    rw [List.findIdx?_cons]
    by_cases hb : p b = true
    · rw [List.find?_cons_of_pos hb] at h
      exact ⟨0, if_pos hb, h⟩
    · rw [List.find?_cons_of_neg hb] at h
      obtain ⟨i, hi, ha⟩ := ih h
      exact ⟨i + 1, by rw [if_neg hb, hi]; rfl, ha⟩

theorem startHandler_mem_handle {i j : ℕ} {interrupt : Bool} {a : Argument E V}
    {b : Argument E V} (h : Call.startHandler i a ∈ handle j interrupt b) : i = j := by
  cases interrupt <;> simp [handle] at h <;> exact h.1

theorem isReference_deduce (category : Category) (e : E) (v : V) :
    (category.deduce e v).isReference = false ↔ category = .rvalue ∨ category = .constRvalue := by
  cases category <;> simp [Category.deduce]

end First

section Fold

variable [DecidableEq E] {H : Hierarchy E} {e : Deduced E V} {c : Continuation E}

theorem tryHandlers_true (interrupt : Bool) (i : ℕ) (handlers : List (HandlerError E)) :
    tryHandlers H interrupt e i handlers true = (true, []) := by
  induction handlers generalizing i with
  | nil => rfl
  | cons handler handlers ih =>
    rw [tryHandlers, if_pos rfl]
    exact ih (i + 1)

/-- At most one handler has handled the error, the first that can. -/
theorem tryHandlers_raised (interrupt : Bool) (i : ℕ) (raised : List E)
    (rest : List (HandlerError E)) :
    tryHandlers H interrupt e i (raised.map .error ++ rest) false =
      match raised.findIdx? (handles H e) with
      | some j => (true, handle (i + j) interrupt (.error e))
      | none => tryHandlers H interrupt e (i + raised.length) rest false := by
  induction raised generalizing i with
  | nil => rfl
  | cons handler raised ih =>
    rw [List.map_cons, List.cons_append, tryHandlers, if_neg (by simp), tryHandle,
      List.findIdx?_cons]
    by_cases h : handles H e handler = true
    · simp only [h, if_true, tryHandlers_true, List.append_nil, Nat.add_zero]
    · simp only [h]
      rw [ih]
      cases raised.findIdx? (handles H e) with
      | none => simp [Nat.add_assoc, Nat.add_comm 1]
      | some j => simp [Nat.add_assoc, Nat.add_comm 1]

theorem catches_of_handles {handler : E} (h : handles H e handler = true) :
    Catches H e handler = true := by
  simp only [handles, isSame, isBaseOf, Catches, decide_eq_true_eq] at h ⊢
  rcases h with ⟨rfl, -⟩ | h | ⟨-, h⟩
  · exact .inr (H.refl _)
  · exact .inl h
  · exact .inr h

/-- What a handler is for it also handles, unless the error is an lvalue. -/
theorem handles_iff {handler : E} :
    handles H e handler = true ↔
      handler = H.typeErasedError ∨ e.isReference = false ∧ Catches H e handler = true := by
  constructor
  · intro h
    have hcatches := catches_of_handles h
    simp only [handles, isSame, isBaseOf, decide_eq_true_eq] at h
    rcases h with ⟨-, -, hr⟩ | h | ⟨hr, -⟩
    · exact .inr ⟨hr, hcatches⟩
    · exact .inl h
    · exact .inr ⟨hr, hcatches⟩
  · simp only [handles, isSame, isBaseOf, Catches, decide_eq_true_eq]
    rintro (h | ⟨hr, h | h⟩)
    · exact .inr (.inl h)
    · exact .inr (.inl h)
    · exact .inr (.inr ⟨hr, h⟩)

/-- What the handlers are for, all of them, decides whether the error can be forwarded. -/
theorem findIdx_catches_eq_none :
    c.raised.findIdx? (Catches H e) = none ↔
      ¬ (H.typeErasedError ∈ c.raised ∨ ∃ b ∈ c.raised, H.isBaseOf b e.decay) := by
  rw [List.findIdx?_eq_none_iff]
  simp only [Catches, decide_eq_false_iff_not, not_or, not_exists, not_and]
  constructor
  · intro h
    exact ⟨fun hmem => (h _ hmem).1 rfl, fun b hb => (h b hb).2⟩
  · rintro ⟨hnot, hbase⟩ a ha
    exact ⟨fun heq => hnot (heq ▸ ha), hbase a ha⟩

theorem fail_eq (c : Continuation E) (e : Deduced E V) :
    c.fail H e =
      match c.raised.findIdx? (handles H e) with
      | some j => handle j c.interrupt (.error e)
      | none =>
        if c.hasAll then handle c.raised.length c.interrupt (.variant e)
        else if c.raised.findIdx? (Catches H e) = none then (Outcome.forwarded e).calls c.interrupt
        else [] := by
  have hnone : c.raised.findIdx? (Catches H e) = none → c.raised.findIdx? (handles H e) = none :=
    List.findIdx?_eq_none_of_findIdx?_eq_none fun _ _ => catches_of_handles
  unfold Continuation.fail Continuation.catchHandlers
  simp only [tryHandlers_raised, ← or_assoc]
  by_cases hc : c.raised.findIdx? (Catches H e) = none
  · rw [hnone hc, if_pos hc]
    rw [findIdx_catches_eq_none] at hc
    cases ha : c.hasAll with
    | true => simp [tryHandlers, tryHandle]
    | false => simp [hc, tryHandlers, Outcome.calls]
  · rw [if_neg hc]
    rw [findIdx_catches_eq_none, not_not] at hc
    simp only [hc, true_or, not_true_eq_false, if_false]
    cases c.raised.findIdx? (handles H e) with
    | some j => simp
    | none => cases ha : c.hasAll <;> simp [tryHandlers, tryHandle]

/-- What comes next is called once or not at all. -/
theorem fail_eq_taken (c : Continuation E) (e : Deduced E V) :
    c.fail H e = ((c.taken H e).map (Outcome.calls c.interrupt)).getD [] := by
  rw [fail_eq, Continuation.taken]
  cases c.raised.findIdx? (handles H e) with
  | some j => rfl
  | none =>
    cases hall : c.hasAll with
    | true => rfl
    | false =>
      by_cases hc : c.raised.findIdx? (Catches H e) = none
      · simp [hc]
      · simp [hc]

/-- Of what is no lvalue the handlers handle all that they are for. -/
theorem findIdx_handles (hr : e.isReference = false) (raised : List E) :
    raised.findIdx? (handles H e) = raised.findIdx? (Catches H e) := by
  refine findIdx_congr fun handler _ => Bool.eq_iff_iff.mpr ?_
  rw [handles_iff]
  constructor
  · rintro (rfl | ⟨-, h⟩)
    · simp [Catches]
    · exact h
  · exact fun h => .inr ⟨hr, h⟩

/-- Nothing becomes of an lvalue that some handler is for, unless a handler takes everything. -/
theorem taken_eq_none_iff :
    c.taken H e = none ↔ e.isReference = true ∧ c.hasAll = false ∧ H.typeErasedError ∉ c.raised ∧
      ∃ handler ∈ c.raised, Catches H e handler = true := by
  have htaken : c.taken H e = none ↔ c.raised.findIdx? (handles H e) = none ∧ c.hasAll = false ∧
      c.raised.findIdx? (Catches H e) ≠ none := by
    unfold Continuation.taken
    cases c.raised.findIdx? (handles H e) with
    | some i => simp
    | none => cases c.hasAll <;> simp
  rw [htaken, List.findIdx?_eq_none_iff, Ne, List.findIdx?_eq_none_iff]
  simp only [not_forall, Bool.not_eq_false]
  constructor
  · rintro ⟨hnone, hall, handler, hmem, hcatches⟩
    have hnot := fun a ha => mt handles_iff.mpr (Bool.eq_false_iff.mp (hnone a ha))
    refine ⟨?_, hall, fun hmem => hnot _ hmem (.inl rfl), handler, hmem, hcatches⟩
    by_contra hr
    exact hnot handler hmem (.inr ⟨Bool.eq_false_iff.mpr hr, hcatches⟩)
  · rintro ⟨hr, hall, htop, handler, hmem, hcatches⟩
    refine ⟨fun a ha => Bool.eq_false_iff.mpr fun h => ?_, hall, handler, hmem, hcatches⟩
    rcases handles_iff.mp h with rfl | ⟨hr', -⟩
    · exact htop ha
    · rw [hr] at hr'
      cases hr'

theorem taken_ne_none (hr : e.isReference = false) : c.taken H e ≠ none := by
  intro h
  have href := (taken_eq_none_iff.mp h).1
  rw [hr] at href
  cases href

theorem dispatches_of_findIdx
    (h : c.raised.findIdx? (handles H e) = c.raised.findIdx? (Catches H e)) : Dispatches H c e := by
  rw [Dispatches, fail_eq, h, Continuation.outcome]
  cases c.raised.findIdx? (Catches H e) with
  | some i => rfl
  | none => cases c.hasAll <;> rfl

/-- The handler that should handle the error is one that can. -/
theorem handles_of_dispatches {handler : E} (h : Dispatches H c e)
    (hf : c.raised.find? (Catches H e) = some handler) : handles H e handler = true := by
  obtain ⟨i, hi, hget⟩ := findIdx_eq_some hf
  have hmem : Call.startHandler i (.error e) ∈ c.fail H e := by
    rw [h, Continuation.outcome, hi]
    exact List.mem_append_right _ (List.mem_singleton_self _)
  rw [fail_eq] at hmem
  cases hj : c.raised.findIdx? (handles H e) with
  | some j =>
    simp only [hj] at hmem
    obtain rfl := startHandler_mem_handle hmem
    obtain ⟨hlt, hhandles, -⟩ := List.findIdx?_eq_some_iff_getElem.mp hj
    rw [List.getElem?_eq_getElem hlt, Option.some.injEq] at hget
    exact hget ▸ hhandles
  | none =>
    simp only [hj] at hmem
    split at hmem
    · have hlt := (List.getElem?_eq_some_iff.mp hget).1
      rw [startHandler_mem_handle hmem] at hlt
      exact absurd hlt (Nat.lt_irrefl _)
    · rw [hi, if_neg (Option.some_ne_none i)] at hmem
      cases hmem

/-- An error is dispatched as it should be if and only if it is not an lvalue, or the first handler
that is for it is that of the type-erased error, or none is. -/
theorem dispatches_iff (H : Hierarchy E) (c : Continuation E) (category : Category) (e : E)
    (v : V) :
    Dispatches H c (category.deduce e v) ↔
      (category = .rvalue ∨ category = .constRvalue) ∨
        ∀ handler ∈ c.raised.find? (Catches H (category.deduce e v)),
          handler = H.typeErasedError := by
  rw [← isReference_deduce category e v]
  generalize category.deduce e v = d
  constructor
  · intro h
    by_cases hr : d.isReference = false
    · exact .inl hr
    · refine .inr fun handler hf => ?_
      rcases handles_iff.mp (handles_of_dispatches h hf) with heq | ⟨hr', -⟩
      · exact heq
      · exact absurd hr' hr
  · rintro (hr | hfirst)
    · exact dispatches_of_findIdx (findIdx_handles hr c.raised)
    · cases hf : c.raised.find? (Catches H d) with
      | some handler =>
        refine dispatches_of_findIdx (findIdx_of_find (fun _ => catches_of_handles) hf ?_)
        exact handles_iff.mpr (.inl (hfirst handler hf))
      | none =>
        have hnone : c.raised.findIdx? (Catches H d) = none := by
          rw [List.findIdx?_eq_none_iff]
          exact fun a ha => Bool.eq_false_iff.mpr (List.find?_eq_none.mp hf a ha)
        refine dispatches_of_findIdx ?_
        rw [hnone]
        exact List.findIdx?_eq_none_of_findIdx?_eq_none (fun _ _ => catches_of_handles) hnone

/-- Of an lvalue whose type has a handler nothing becomes, or another handler gets it. -/
theorem exists_not_dispatches : ∃ H : Hierarchy ℕ,
    ¬ Dispatches H ⟨[1], false, false⟩ (Category.lvalue.deduce 1 ()) ∧
      ¬ Dispatches H ⟨[1, 0], false, false⟩ (Category.constLvalue.deduce 1 ()) := by
  refine ⟨⟨fun a b => a = b, inferInstance, fun _ => rfl, fun _ _ _ => Eq.trans, 1, 0⟩, ?_⟩
  rw [Dispatches, Dispatches, Continuation.outcome, Continuation.outcome]
  decide

end Fold

end Eventuals.Catch
