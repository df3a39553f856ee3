import Eventuals.Errors

/-! Which errors of a running pipeline its `ErrorsFrom` names. -/
namespace Eventuals.Errors

open TypeTraits

variable {E : Type} [DecidableEq E] {H : Hierarchy E} {p f : Pipeline E} {a b : Signal E}
  {e : E} {errors l r : List E} {handlers : Handlers E}

/-- An `expected` with a variant of errors holds no other than a `RuntimeError`. -/
def ExpectedError.Regular (H : Hierarchy E) : ExpectedError E → Prop
  | .variant errors => ∀ e ∈ errors, H.isBaseOf H.runtimeError e
  | _ => True

mutual

/-- Every `FlatMap` is given an inner stream that names the errors named before it. -/
def Pipeline.Regular (H : Hierarchy E) : Pipeline E → List E → Prop
  | .eventual _, _ | .raise _, _ | .iterate, _ | .filter, _ | .collect, _ => True
  | .expected error, _ => error.Regular H
  | .compose left right, errors =>
    left.Regular H errors ∧ right.Regular H (left.errorsFrom H errors)
  | .then f, _ => f.Regular H []
  | .map f, _ => f.Regular H []
  | .until f, _ => f.Regular H []
  | .flatMap f, errors => f.Regular H [] ∧ ∀ e ∈ errors, H.Contains (f.errorsFrom H []) e
  | .catch handlers, _ => handlers.Regular H

def Handlers.Regular (H : Hierarchy E) : Handlers E → Prop
  | .nil => True
  | .raised _ f handlers => f.Regular H [] ∧ handlers.Regular H
  | .all f => f.Regular H []

end

/-- An error that the types are to name. -/
def Signal.Named (H : Hierarchy E) (errors : List E) : Signal E → Prop
  | .fail e .raised => H.Contains errors e
  | _ => True

section Contains

theorem contains_left (h : H.Contains l e) : H.Contains (union l r) e := by
  obtain ⟨b, hb, he⟩ := h
  exact ⟨b, mem_union.mpr (Or.inl hb), he⟩

theorem contains_right (h : H.Contains r e) : H.Contains (union l r) e := by
  obtain ⟨b, hb, he⟩ := h
  exact ⟨b, mem_union.mpr (Or.inr hb), he⟩

omit [DecidableEq E] in
theorem Signal.Named.mono (h : a.Named H l) (hlr : ∀ e, H.Contains l e → H.Contains r e) :
    a.Named H r := by
  cases a with
  | fail e origin =>
    cases origin with
    | raised => exact hlr e h
    | all => trivial
  | _ => trivial

end Contains

section Methods

omit [DecidableEq E] in
/-- A method that forwards a call makes up no error. -/
theorem named_forwards (hf : p.forwards a = some b) (ha : a.Named H errors) :
    b.Named H errors := by
  cases a <;> cases p <;> simp only [Pipeline.forwards, Option.some.injEq, reduceCtorEq] at hf <;>
    subst hf <;> exact ha

omit [DecidableEq E] in
theorem named_adaptor (hf : p.adaptor a = some b) (ha : a.Named H errors) :
    b.Named H errors := by
  cases a <;> cases p <;> simp only [Pipeline.adaptor, Option.some.injEq, reduceCtorEq] at hf <;>
    subst hf <;> exact ha

/-- What was named before is named after a method that forwards errors. -/
theorem contains_forwards (hr : p.Regular H errors) {e' : E} {origin : Origin}
    (hf : p.forwards a = some (.fail e' origin)) (he : H.Contains errors e) :
    H.Contains (p.errorsFrom H errors) e := by
  cases p with
  | eventual raises => exact contains_right he
  | raise e => exact contains_right he
  | expected error =>
    cases error with
    | string | error | stopped | variant => exact contains_right he
  | compose left right => cases hf
  | «then» f => exact contains_left he
  | iterate => exact contains_left he
  | map f => exact contains_left he
  | filter => exact he
  | «until» f => exact contains_left he
  | flatMap f =>
    obtain ⟨b, hb, hbe⟩ := he
    obtain ⟨b', hb', hbb⟩ := hr.2 b hb
    exact ⟨b', hb', H.trans b' b e hbb hbe⟩
  | collect => exact contains_left he
  | «catch» handlers => cases a <;> simp [Pipeline.forwards] at hf

/-- What a callable may raise is named after the pipeline that calls it. -/
theorem contains_starts (hs : p.starts a = some f) (he : H.Contains (f.errorsFrom H []) e) :
    H.Contains (p.errorsFrom H errors) e := by
  cases p <;> cases a <;> simp only [Pipeline.starts, Option.some.injEq, reduceCtorEq] at hs <;>
    subst hs
  · exact contains_right (contains_right he)
  · exact contains_right he
  · exact contains_right he
  · exact he

theorem regular_starts (hs : p.starts a = some f) (hr : p.Regular H errors) :
    f.Regular H [] := by
  cases p <;> cases a <;> simp only [Pipeline.starts, Option.some.injEq, reduceCtorEq] at hs <;>
    subst hs
  · exact hr
  · exact hr
  · exact hr
  · exact hr.1

end Methods

section Catch

variable {all : Bool}

theorem tryHandle_regular {handlers : Handlers E} (h : handlers.tryHandle H e = some (f, all))
    (hr : handlers.Regular H) : f.Regular H [] := by
  cases handlers with
  | nil => cases h
  | raised e' f' handlers =>
    simp only [Handlers.tryHandle] at h
    split at h
    · cases h
      exact hr.1
    · exact tryHandle_regular h hr.2
  | all f' =>
    cases h
    exact hr

/-- What the eventual of a typed handler may raise is named. -/
theorem tryHandle_raises {handlers : Handlers E}
    (h : handlers.tryHandle H e = some (f, false)) :
    ∃ t ∈ handlers.raises H, ∀ b ∈ f.errorsFrom H [], b ∈ t := by
  cases handlers with
  | nil => cases h
  | raised e' f' handlers =>
    simp only [Handlers.tryHandle] at h
    split at h
    · cases h
      exact ⟨_, List.mem_cons_self, fun b hb => by simp [hb]⟩
    · obtain ⟨t, ht, hb⟩ := tryHandle_raises h
      exact ⟨t, List.mem_cons_of_mem _ ht, hb⟩
  | all f' => cases h

/-- An error that no handler takes is of no class that is caught. -/
theorem tryHandle_none {handlers : Handlers E} (h : handlers.tryHandle H e = none) :
    handlers.hasAll = false ∧
      ∀ b ∈ handlers.catches, b ≠ H.typeErasedError ∧ ¬ H.isBaseOf b e := by
  cases handlers with
  | nil => exact ⟨rfl, nofun⟩
  | raised e' f' handlers =>
    simp only [Handlers.tryHandle] at h
    split at h
    · cases h
    · next hn =>
      obtain ⟨ha, hc⟩ := tryHandle_none h
      refine ⟨ha, fun b hb => ?_⟩
      rcases List.mem_cons.mp hb with rfl | hb
      · exact ⟨fun he => hn (Or.inr (Or.inl he)), fun he => hn (Or.inr (Or.inr he))⟩
      · exact hc b hb
  | all f' => cases h

theorem contains_uncaught (h : handlers.tryHandle H e = none) (he : H.Contains errors e) :
    H.Contains ((Pipeline.catch handlers).errorsFrom H errors) e := by
  obtain ⟨ha, hc⟩ := tryHandle_none h
  obtain ⟨b, hb, hbe⟩ := he
  have hnot : b ∉ handlers.catches := fun hm => (hc b hm).2 hbe
  have herased : H.typeErasedError ∉ handlers.catches := fun hm => (hc _ hm).1 rfl
  refine contains_left ⟨b, ?_, hbe⟩
  rw [if_neg (by simp [ha, herased])]
  exact mem_subtract.mpr ⟨hb, hnot⟩

theorem contains_caught {e' : E} (h : handlers.tryHandle H e = some (f, false))
    (he : H.Contains (f.errorsFrom H []) e') :
    H.Contains ((Pipeline.catch handlers).errorsFrom H errors) e' := by
  obtain ⟨t, ht, hb⟩ := tryHandle_raises h
  obtain ⟨b, hbf, hbe⟩ := he
  exact contains_right ⟨b, mem_unionAll.mpr ⟨t, ht, hb b hbf⟩, hbe⟩

omit [DecidableEq E] in
/-- The errors of an `all()` handler are marked. -/
theorem named_handled (hh : handled all a = some b)
    (ha : all = false → a.Named H errors) : b.Named H errors := by
  cases a <;> simp only [handled, Option.some.injEq, reduceCtorEq] at hh
  · subst hh
    trivial
  · subst hh
    cases all with
    | false => exact ha rfl
    | true => trivial
  · subst hh
    trivial

end Catch

/-- Every error that is passed on is named, unless it comes from an `all()` handler. -/
theorem calls_named (h : Calls H p a b) :
    ∀ errors, p.Regular H errors → a.Named H errors → b.Named H (p.errorsFrom H errors) := by
  induction h with
  | @forward p a b hf =>
    intro errors hr ha
    have hb := named_forwards hf ha
    cases b with
    | fail e origin =>
      cases origin with
      | raised => exact contains_forwards hr hf hb
      | all => trivial
    | _ => trivial
  | eventualStart | eventualStop | expectedStart | expectedStopped | expectedVariantStopped
  | iterateBegin | iterateBody | iterateEnded =>
    intro errors hr ha
    trivial
  | eventualFail he =>
    intro errors hr ha
    exact contains_left he
  | raise =>
    intro errors hr ha
    exact contains_left ⟨_, List.mem_singleton_self _, H.refl _⟩
  | expectedString =>
    intro errors hr ha
    exact contains_left ⟨_, List.mem_singleton_self _, H.refl _⟩
  | expectedError =>
    intro errors hr ha
    exact contains_left ⟨_, List.mem_singleton_self _, H.refl _⟩
  | expectedVariant he =>
    intro errors hr ha
    exact contains_left ⟨_, List.mem_singleton_self _, hr _ he⟩
  | compose _ _ ihl ihr =>
    intro errors hr ha
    exact ihr _ hr.2 (ihl errors hr.1 ha)
  | adapted hs _ hc ih =>
    intro errors hr ha
    have hb := ih [] (regular_starts hs hr) trivial
    exact (named_adaptor hc hb).mono fun e he => contains_starts hs he
  | @caught handlers f all e origin a b ht _ hh ih =>
    intro errors hr ha
    have hf := ih [] (tryHandle_regular ht hr) trivial
    refine named_handled hh fun hall => ?_
    subst hall
    exact hf.mono fun e' he => contains_caught ht he
  | @uncaught handlers e origin ht =>
    intro errors hr ha
    cases origin with
    | raised => exact contains_uncaught ht ha
    | all => trivial

/-- The final continuation is failed with errors that `ErrorsFrom` names, and with those of `all()`
handlers. -/
theorem named_or_all {origin : Origin} (hr : p.Regular H [])
    (h : Calls H p .start (.fail e origin)) :
    H.Contains (p.errorsFrom H []) e ∨ origin = .all := by
  cases origin with
  | raised => exact Or.inl (calls_named h [] hr trivial)
  | all => exact Or.inr rfl

inductive Class
  | error
  | runtimeError
  | typeErasedError
  | myError
  deriving DecidableEq

/-- `MyError` derives from `Error`, as the errors of the library do. -/
def classes : Hierarchy Class where
  isBaseOf b e := b = .error ∨ b = e
  decidable _ _ := inferInstance
  refl _ := Or.inr rfl
  trans := by
    rintro a b c (rfl | rfl) (rfl | rfl)
    · exact Or.inl rfl
    · exact Or.inl rfl
    · exact Or.inl rfl
    · exact Or.inr rfl
  runtimeError := .runtimeError
  typeErasedError := .typeErasedError

/-- `Iterate(..) >> Map(..) >> Map(..)`, where one callable returns an
`expected<int, std::variant<Stopped, RuntimeError>>` and the other an eventual that may raise
`MyError`. -/
def inner : Pipeline Class :=
  .compose (.compose .iterate (.map (.expected (.variant [.runtimeError]))))
    (.map (.eventual [.myError]))

/-- `Iterate(..) >> Map(..) >> FlatMap(..) >> Collect<..>() >> Catch().raised<RuntimeError>(..)`,
where the first callable raises `MyError`, which `FlatMap` passes on. -/
def uncaught : Pipeline Class :=
  .compose
    (.compose (.compose (.compose .iterate (.map (.raise .myError))) (.flatMap inner)) .collect)
    (.catch (.raised .runtimeError just .nil))

theorem regular_uncaught : uncaught.Regular classes [] := by
  have hvariant : (ExpectedError.variant [Class.runtimeError]).Regular classes := by
    intro e he
    cases he with
    | head => exact classes.refl _
    | tail _ h => cases h
  have hnames : ∀ e ∈ (Pipeline.compose .iterate (.map (.raise Class.myError))).errorsFrom classes
      [], classes.Contains (inner.errorsFrom classes []) e := by
    have hinner : inner.errorsFrom classes [] = [.runtimeError, .myError] := by decide
    have hbefore : (Pipeline.compose .iterate (.map (.raise Class.myError))).errorsFrom classes [] =
        [.myError] := by decide
    rw [hinner, hbefore]
    intro e he
    obtain rfl := List.mem_singleton.mp he
    exact ⟨.myError, by simp, classes.refl _⟩
  exact ⟨⟨⟨⟨trivial, trivial⟩, ⟨⟨trivial, hvariant⟩, trivial⟩, hnames⟩, trivial⟩, trivial, trivial⟩

/-- The error comes from before the `FlatMap`. -/
theorem uncaught_named : classes.Contains (uncaught.errorsFrom classes []) .myError ∨
    Origin.raised = .all := by
  have hmap : Calls classes (.map (.raise .myError)) .body (.fail .myError .raised) :=
    .adapted rfl .raise rfl
  have hflatMap : Calls classes (.flatMap inner) (.fail .myError .raised)
      (.fail .myError .raised) := .forward rfl
  have hcollect : Calls classes .collect (.fail .myError .raised) (.fail .myError .raised) :=
    .forward rfl
  refine named_or_all (p := uncaught) regular_uncaught ?_
  exact .compose (.compose (.compose (.compose .iterateBody hmap) hflatMap) hcollect)
    (.uncaught (by decide))

/-- `Raise("10") >> Catch().all([](auto&&) { return Raise("1"); })` -/
def raisesAgain : Pipeline Class :=
  .compose (.raise .runtimeError) (.catch (.all (.raise .runtimeError)))

theorem raisesAgain_unnamed : ¬ ∀ (p : Pipeline Class) (e : Class) (origin : Origin),
    Calls classes p .start (.fail e origin) → classes.Contains (p.errorsFrom classes []) e := by
  intro h
  have hhandler : (Handlers.all (.raise Class.runtimeError)).tryHandle classes .runtimeError =
      some (.raise .runtimeError, true) := rfl
  have hcalls : Calls classes raisesAgain .start (.fail .runtimeError .all) :=
    .compose .raise (.caught hhandler .raise rfl)
  obtain ⟨b, hb, -⟩ := h _ _ _ hcalls
  have hnone : raisesAgain.errorsFrom classes [] = [] := by decide
  rw [hnone] at hb
  cases hb

end Eventuals.Errors
