import Mathlib.Data.List.Forall2
import Eventuals.Register

/-! Which steps of a pipeline keep every continuation registered once before it runs. -/
namespace Eventuals.Register

open Transition

variable {F : Type} {s s' : State F} {k k' : List (Obj F)} {o o' : Obj F} {i : Interrupt}
  {a : Signal} {b p c : ℕ}

/-- The interrupts that are triggered when the given one is: the handler of a continuation triggers
those of its fibers. -/
inductive State.Reached (s : State F) : Interrupt → Prop
  | given : s.Reached .given
  | fiber {b p c : ℕ} {o : Obj F} {i : Interrupt} : s.obj b p = some o → o.interrupt = some i →
      s.Reached i → s.Reached (.fiber b p c)

/-- Every continuation that was called was registered once and before its first call, with an
interrupt that is triggered when the given one is. -/
structure State.Safe (s : State F) : Prop where
  once : ∀ b p o, s.obj b p = some o → o.received ≠ [] → o.registered = 1
  before : ∀ b p o, s.obj b p = some o → ∀ r ∈ o.received, r.2 = 1
  reached : ∀ b p o, s.obj b p = some o → o.received ≠ [] →
    ∃ i, o.interrupt = some i ∧ s.Reached i
  checks : s.failed = none

/-- The step is not a call that a `Concurrent` makes of what follows it, and not a call of a `Task`
that was dispatched before. -/
def Regular (s : State F) : Label → Prop
  | .call b p _ _ => ∀ o ∈ s.obj b p, o.part.forwards ≠ .never
  | .adaptor .. => True
  | .start b p _ _ => ∀ o ∈ s.obj b p, o.part.isTask = true → o.adapted = none

instance (s : State F) : (l : Label) → Decidable (Regular s l)
  | .call b p _ _ => inferInstanceAs (Decidable (∀ o ∈ s.obj b p, o.part.forwards ≠ .never))
  | .adaptor .. => inferInstanceAs (Decidable True)
  | .start b p _ _ =>
    inferInstanceAs (Decidable (∀ o ∈ s.obj b p, o.part.isTask = true → o.adapted = none))

/-- What stays as a continuation goes on. -/
structure Obj.Grows (o o' : Obj F) : Prop where
  part : o'.part = o.part
  interrupt : ∀ i, o.interrupt = some i → o'.interrupt = some i
  received : o.received ≠ [] → o'.received ≠ []

def State.Grows (s s' : State F) : Prop :=
  ∀ b p o, s.obj b p = some o → ∃ o', s'.obj b p = some o' ∧ o.Grows o'

/-- A continuation that nobody has used yet. -/
def Obj.Fresh (o : Obj F) : Prop := o = { part := o.part }

/-- A continuation that was registered as it should. -/
structure Obj.Good (s : State F) (o : Obj F) : Prop where
  once : o.registered = 1
  before : ∀ r ∈ o.received, r.2 = 1
  reached : ∃ i, o.interrupt = some i ∧ s.Reached i
  adapted : ∀ c, o.adapted = some c → s.block c ≠ []

/-- Registration has gone on to what follows. -/
def Obj.Passed (o : Obj F) : Prop :=
  o.part.forwards = .now ∨ o.part.forwards = .later ∧ o.emplaced = true

/-- A block is registered up to a continuation that registration has not passed. -/
inductive Covered (s : State F) : List (Obj F) → Prop
  | nil : Covered s []
  | passed {o : Obj F} {k : List (Obj F)} : o.Good s → o.Passed → Covered s k → Covered s (o :: k)
  | stopped {o : Obj F} {k : List (Obj F)} : o.Good s → ¬ o.Passed → (∀ o' ∈ k, o'.Fresh) →
      Covered s (o :: k)

/-- A block ends in something other than a stage, and an adaptor belongs to a continuation that was
called. -/
structure Shape (s : State F) (parts : List (Part F)) : Prop where
  parents : ∀ b p, .adaptor b p ∈ parts → ∃ o, s.obj b p = some o ∧ o.received ≠ []
  ends : ∃ (stages : List (Stage F)) (last : Part F),
    parts = stages.map .stage ++ [last] ∧ ∀ e, last ≠ .stage e

structure Inv (s : State F) : Prop where
  checks : s.failed = none
  covered : ∀ k ∈ s.blocks, Covered s k
  shape : ∀ k ∈ s.blocks, Shape s (k.map Obj.part)

section Objects

theorem Obj.Grows.refl (o : Obj F) : o.Grows o := ⟨rfl, fun _ h => h, fun h => h⟩

theorem Obj.Grows.trans {o'' : Obj F} (h : o.Grows o') (h' : o'.Grows o'') : o.Grows o'' :=
  ⟨h'.part.trans h.part, fun i hi => h'.interrupt i (h.interrupt i hi),
    fun hr => h'.received (h.received hr)⟩

theorem Obj.Fresh.grows_register (h : o.Fresh) (i : Interrupt) : o.Grows (o.register i) := by
  refine ⟨rfl, fun j hj => ?_, fun hr => hr⟩
  rw [h] at hj
  cases hj

theorem Obj.grows_receive (o : Obj F) (a : Signal) : o.Grows (o.receive a) :=
  ⟨rfl, fun _ h => h, fun _ => by simp [Obj.receive]⟩

theorem Obj.Good.receive (h : o.Good s) (a : Signal) : (o.receive a).Good s := by
  refine ⟨h.once, fun r hr => ?_, h.reached, h.adapted⟩
  rcases List.mem_append.mp hr with hr | hr
  · exact h.before r hr
  · cases List.mem_singleton.mp hr
    exact h.once

theorem Obj.Fresh.good (h : o.Fresh) (hi : s.Reached i) : (o.register i).Good s := by
  rw [h]
  exact ⟨rfl, by simp [Obj.register], ⟨i, rfl, hi⟩, by simp [Obj.register]⟩

theorem Obj.Good.mono (h : o.Good s) (hr : ∀ i, s.Reached i → s'.Reached i)
    (hb : ∀ c, s.block c ≠ [] → s'.block c ≠ []) : o.Good s' := by
  obtain ⟨i, hi, hri⟩ := h.reached
  exact ⟨h.once, h.before, ⟨i, hi, hr i hri⟩, fun c hc => hb c (h.adapted c hc)⟩

end Objects

section States

theorem State.Reached.grows (hg : s.Grows s') (h : s.Reached i) : s'.Reached i := by
  induction h with
  | given => exact .given
  | fiber ho hi _ ih =>
    obtain ⟨o', ho', hgo⟩ := hg _ _ _ ho
    exact .fiber ho' (hgo.interrupt _ hi) ih

theorem block_ne_nil : s.block b ≠ [] ↔ ∃ o, s.obj b 0 = some o := by
  unfold State.obj
  cases s.block b with
  | nil => simp
  | cons o k => simp

theorem State.Grows.block (hg : s.Grows s') (h : s.block b ≠ []) : s'.block b ≠ [] := by
  obtain ⟨o, ho⟩ := block_ne_nil.mp h
  obtain ⟨o', ho', -⟩ := hg _ _ _ ho
  exact block_ne_nil.mpr ⟨o', ho'⟩

theorem Covered.grows (hg : s.Grows s') (h : Covered s k) : Covered s' k := by
  have hgood : ∀ {o : Obj F}, o.Good s → o.Good s' := fun ho =>
    ho.mono (fun _ => State.Reached.grows hg) fun _ => hg.block
  induction h with
  | nil => exact .nil
  | passed ho hp _ ih => exact .passed (hgood ho) hp ih
  | stopped ho hp hk => exact .stopped (hgood ho) hp hk

theorem Shape.grows {parts : List (Part F)} (hg : s.Grows s') (h : Shape s parts) :
    Shape s' parts := by
  refine ⟨fun b p hm => ?_, h.ends⟩
  obtain ⟨o, ho, hr⟩ := h.parents b p hm
  obtain ⟨o', ho', hgo⟩ := hg _ _ _ ho
  exact ⟨o', ho', hgo.received hr⟩

theorem obj_eq_some (h : s.obj b p = some o) :
    s.blocks[b]? = some (s.block b) ∧
      s.block b = (s.block b).take p ++ o :: (s.block b).drop (p + 1) := by
  constructor
  · cases hb : s.blocks[b]? with
    | none => simp [State.obj, State.block, hb] at h
    | some k => simp [State.block, hb]
  · obtain ⟨hp, ho⟩ := List.getElem?_eq_some_iff.mp h
    rw [← ho, ← List.drop_eq_getElem_cons hp, List.take_append_drop]

theorem drop_obj (h : s.obj b p = some o) :
    (s.block b).drop p = o :: (s.block b).drop (p + 1) := by
  obtain ⟨hp, ho⟩ := List.getElem?_eq_some_iff.mp h
  rw [← ho, ← List.drop_eq_getElem_cons hp]

theorem block_mem (h : s.obj b p = some o) : s.block b ∈ s.blocks :=
  List.mem_of_getElem? (obj_eq_some h).1

end States

section Blocks

variable {l : List (Obj F)}

theorem map_part (h : List.Forall₂ Obj.Grows k k') : k'.map Obj.part = k.map Obj.part := by
  induction h with
  | nil => rfl
  | cons ho _ ih => simp only [List.map_cons, ho.part, ih]

theorem forall₂_refl (k : List (Obj F)) : List.Forall₂ Obj.Grows k k :=
  List.forall₂_same.mpr fun o _ => .refl o

theorem forall₂_receive (h : List.Forall₂ Obj.Grows k k') (a : Signal) :
    List.Forall₂ Obj.Grows k (receive a k') := by
  cases h with
  | nil => exact .nil
  | cons ho hk => exact .cons (ho.trans (Obj.grows_receive _ a)) hk

theorem Covered.receive (h : Covered s k) (a : Signal) : Covered s (receive a k) := by
  cases h with
  | nil => exact .nil
  | passed ho hp hk => exact .passed (ho.receive a) hp hk
  | stopped ho hp hk => exact .stopped (ho.receive a) hp hk

/-- A new block is registered up to the first continuation that does not forward at once. -/
theorem register_fresh (hk : ∀ o ∈ k, o.Fresh) (hi : s.Reached i) :
    ∃ k', register i k = some k' ∧ Covered s k' ∧ List.Forall₂ Obj.Grows k k' := by
  induction k with
  | nil => exact ⟨[], rfl, .nil, .nil⟩
  | cons o k ih =>
    have ho : o.Fresh := hk o List.mem_cons_self
    have hrest : ∀ o' ∈ k, o'.Fresh := fun o' h => hk o' (List.mem_cons_of_mem _ h)
    have hnull : o.interrupt = none := by rw [ho]
    by_cases hf : o.part.forwards = .now
    · obtain ⟨k', hr, hc, hg⟩ := ih hrest
      exact ⟨o.register i :: k', by simp [register, hnull, hf, hr],
        .passed (ho.good hi) (Or.inl hf) hc, .cons (ho.grows_register i) hg⟩
    · refine ⟨o.register i :: k, by simp [register, hnull, hf], .stopped (ho.good hi) ?_ hrest,
        .cons (ho.grows_register i) (forall₂_refl k)⟩
      rintro (hp | ⟨-, hp⟩)
      · exact hf hp
      · rw [ho] at hp
        cases hp

theorem Covered.suffix (h : Covered s (l ++ o :: k)) (hr : o.received ≠ []) :
    Covered s (o :: k) := by
  induction l with
  | nil => exact h
  | cons x l ih =>
    cases h with
    | passed _ _ hk => exact ih hk
    | stopped _ _ hk =>
      have ho := hk o (by simp)
      rw [ho] at hr
      exact absurd rfl hr

theorem Covered.replace (h : Covered s (l ++ o :: k)) (hr : o.received ≠ [])
    (hk' : Covered s k') : Covered s (l ++ k') := by
  induction l with
  | nil => exact hk'
  | cons x l ih =>
    cases h with
    | passed hx hp hk => exact .passed hx hp (ih hk)
    | stopped _ _ hk =>
      have ho := hk o (by simp)
      rw [ho] at hr
      exact absurd rfl hr

theorem Covered.head (h : Covered s (o :: k)) : o.Good s := by
  cases h with
  | passed ho _ _ => exact ho
  | stopped ho _ _ => exact ho

/-- A continuation that was called may use what follows it, unless it is a `Concurrent`. -/
theorem Covered.through (h : Covered s (o :: k)) (hn : o.part.forwards ≠ .never) :
    ({ o with emplaced := true } : Obj F).Passed ∧ ∃ k', o.through k = some k' ∧ Covered s k' ∧
      List.Forall₂ Obj.Grows k k' := by
  cases h with
  | passed ho hp hk =>
    refine ⟨hp.imp_right fun h => ⟨h.1, rfl⟩, k, ?_, hk, forall₂_refl k⟩
    rcases hp with hp | ⟨-, hp⟩ <;> simp [Obj.through, hp]
  | stopped ho hp hk =>
    have hlater : o.part.forwards = .later := by
      cases hf : o.part.forwards with
      | now => exact absurd (Or.inl hf) hp
      | later => rfl
      | never => exact absurd hf hn
    have hnew : o.emplaced = false := by
      cases he : o.emplaced with
      | false => rfl
      | true => exact absurd (Or.inr ⟨hlater, he⟩) hp
    obtain ⟨i, hi, hri⟩ := ho.reached
    obtain ⟨k', hreg, hc, hg⟩ := register_fresh hk hri
    exact ⟨Or.inr ⟨hlater, rfl⟩, k', by simp [Obj.through, hlater, hnew, registerIf, hi, hreg],
      hc, hg⟩

theorem build_fresh (stages : List (Stage F)) (last : Part F) :
    ∀ o ∈ build stages last, o.Fresh := by
  intro o ho
  rcases List.mem_append.mp ho with ho | ho
  · obtain ⟨e, -, rfl⟩ := List.mem_map.mp ho
    rfl
  · cases List.mem_singleton.mp ho
    rfl

theorem map_part_build (stages : List (Stage F)) (last : Part F) :
    (build stages last).map Obj.part = (fuse stages).map .stage ++ [last] := by
  simp [build, Function.comp_def]

end Blocks

section Updates

theorem grows_set (hf : List.Forall₂ Obj.Grows (s.block b) k) :
    s.Grows { s with blocks := s.blocks.set b k } := by
  intro b' p o ho
  by_cases hb : b' = b
  · subst hb
    have hlt : b' < s.blocks.length := (List.getElem?_eq_some_iff.mp (obj_eq_some ho).1).1
    have hk : ({ s with blocks := s.blocks.set b' k } : State F).block b' = k := by
      simp [State.block, hlt]
    obtain ⟨hp, rfl⟩ := List.getElem?_eq_some_iff.mp ho
    obtain ⟨hl, hg⟩ := List.forall₂_iff_get.mp hf
    refine ⟨k.get ⟨p, hl ▸ hp⟩, ?_, hg p hp (hl ▸ hp)⟩
    rw [State.obj, hk]
    exact List.getElem?_eq_getElem _
  · refine ⟨o, ?_, .refl o⟩
    simpa [State.obj, State.block, List.getElem?_set_ne (Ne.symm hb)] using ho

theorem inv_set (h : Inv s) (hm : s.block b ∈ s.blocks)
    (hf : List.Forall₂ Obj.Grows (s.block b) k) (hc : Covered s k) :
    Inv { s with blocks := s.blocks.set b k } := by
  have hg := grows_set hf
  refine ⟨h.checks, fun k' hk' => ?_, fun k' hk' => ?_⟩
  · rcases List.mem_or_eq_of_mem_set hk' with hk' | rfl
    · exact (h.covered k' hk').grows hg
    · exact hc.grows hg
  · rcases List.mem_or_eq_of_mem_set hk' with hk' | rfl
    · exact (h.shape k' hk').grows hg
    · rw [map_part hf]
      exact (h.shape _ hm).grows hg

theorem obj_push (ho : s.obj b p = some o) (k : List (Obj F)) :
    ({ s with blocks := s.blocks ++ [k] } : State F).obj b p = some o := by
  have hlt : b < s.blocks.length := (List.getElem?_eq_some_iff.mp (obj_eq_some ho).1).1
  simpa [State.obj, State.block, List.getElem?_append_left hlt] using ho

theorem inv_push (h : Inv s) (hc : Covered s k) (hs : Shape s (k.map Obj.part)) :
    Inv { s with blocks := s.blocks ++ [k] } := by
  have hg : s.Grows { s with blocks := s.blocks ++ [k] } :=
    fun b p o ho => ⟨o, obj_push ho k, .refl o⟩
  refine ⟨h.checks, fun k' hk' => ?_, fun k' hk' => ?_⟩
  · rcases List.mem_append.mp hk' with hk' | hk'
    · exact (h.covered k' hk').grows hg
    · cases List.mem_singleton.mp hk'
      exact hc.grows hg
  · rcases List.mem_append.mp hk' with hk' | hk'
    · exact (h.shape k' hk').grows hg
    · cases List.mem_singleton.mp hk'
      exact hs.grows hg

theorem inv_replace (h : Inv s) (ho : s.obj b p = some o) (hr : o.received ≠ [])
    (hf : List.Forall₂ Obj.Grows (o :: (s.block b).drop (p + 1)) k) (hc : Covered s k) :
    Inv (s.replace b p k) := by
  have hm := block_mem ho
  have hsplit := (obj_eq_some ho).2
  apply inv_set h hm
  · have hl : List.Forall₂ Obj.Grows ((s.block b).take p ++ o :: (s.block b).drop (p + 1))
        ((s.block b).take p ++ k) := List.rel_append (forall₂_refl _) hf
    rwa [← hsplit] at hl
  · exact (hsplit ▸ h.covered _ hm).replace hr hc

theorem Inv.covered_obj (h : Inv s) (ho : s.obj b p = some o) (hr : o.received ≠ []) :
    Covered s (o :: (s.block b).drop (p + 1)) := by
  have hc := h.covered _ (block_mem ho)
  rw [(obj_eq_some ho).2] at hc
  exact hc.suffix hr

theorem Inv.good (h : Inv s) (ho : s.obj b p = some o) (hr : o.received ≠ []) : o.Good s :=
  (h.covered_obj ho hr).head

end Updates

section Steps

theorem inv_call (h : Inv s) (ho : s.obj b p = some o) (hr : o.received ≠ [])
    (hn : o.part.forwards ≠ .never) : Inv (s.call b p a) := by
  have hgood := h.good ho hr
  obtain ⟨hp, k, ht, hc, hg⟩ := (h.covered_obj ho hr).through hn
  unfold State.call
  simp only [drop_obj ho, ht]
  apply inv_replace h ho hr
  · exact .cons ⟨rfl, fun _ h => h, fun h => h⟩ (forall₂_receive hg a)
  · exact .passed ⟨hgood.once, hgood.before, hgood.reached, hgood.adapted⟩ hp (hc.receive a)

theorem inv_adapt (h : Inv s) (ho : s.obj b p = some o) (hr : o.received ≠ [])
    (hc : s.block c ≠ []) : Inv (s.adapt b p c) := by
  have hgood := h.good ho hr
  have hadapted : ({ o with adapted := some c } : Obj F).Good s := by
    refine ⟨hgood.once, hgood.before, hgood.reached, fun c' hc' => ?_⟩
    cases hc'
    exact hc
  unfold State.adapt
  simp only [drop_obj ho]
  apply inv_replace h ho hr
  · exact .cons ⟨rfl, fun _ h => h, fun h => h⟩ (forall₂_refl _)
  · cases h.covered_obj ho hr with
    | passed _ hp hk => exact .passed hadapted hp hk
    | stopped _ hp hk => exact .stopped hadapted hp hk

theorem inv_emplace (h : Inv s) (ho : s.obj b p = some o) (hr : o.received ≠ [])
    (hi : s.Reached i) (stages : List (Stage F)) {last : Part F} (hlast : ∀ e, last ≠ .stage e)
    (hparent : ∀ b' p', last = .adaptor b' p' → b' = b ∧ p' = p) :
    Inv (s.emplace b p a (some i) (build stages last)) := by
  obtain ⟨k, hreg, hc, hg⟩ := register_fresh (build_fresh stages last) hi
  have hmap : (receive a k).map Obj.part = (fuse stages).map .stage ++ [last] := by
    rw [map_part (forall₂_receive hg a), map_part_build]
  have hshape : Shape s ((receive a k).map Obj.part) := by
    rw [hmap]
    refine ⟨fun b' p' hm => ?_, fuse stages, last, rfl, hlast⟩
    rcases List.mem_append.mp hm with hm | hm
    · obtain ⟨e, -, he⟩ := List.mem_map.mp hm
      cases he
    · obtain ⟨rfl, rfl⟩ := hparent b' p' (List.mem_singleton.mp hm).symm
      exact ⟨o, ho, hr⟩
  unfold State.emplace
  simp only [registerIf, hreg]
  apply inv_adapt (inv_push h (hc.receive a) hshape) (obj_push ho _) hr
  intro hnil
  have hk : receive a k = [] := by
    simpa [State.block] using hnil
  rw [hk] at hmap
  simp at hmap

theorem inv_reuse (h : Inv s) (hc : s.block c ≠ []) : Inv (s.reuse c a none) := by
  obtain ⟨o, ho⟩ := block_ne_nil.mp hc
  have hm := block_mem ho
  unfold State.reuse State.replace
  simp only [registerIf, List.take_zero, List.nil_append]
  exact inv_set h hm (forall₂_receive (forall₂_refl _) a) ((h.covered _ hm).receive a)

theorem inv_start (h : Inv s) (ho : s.obj b p = some o) (hr : o.received ≠ [])
    (hnew : o.part.isTask = true → o.adapted = none) (stages : List (Stage F)) :
    Inv (s.start b p o a stages) := by
  have hgood := h.good ho hr
  obtain ⟨i, hi, hri⟩ := hgood.reached
  have hadaptor : ∀ a {i : Interrupt}, s.Reached i →
      Inv (s.emplace b p a (some i) (build stages (.adaptor b p))) := by
    intro a i hri
    apply inv_emplace h ho hr hri stages
    · intro e he
      cases he
    · intro b' p' he
      cases he
      exact ⟨rfl, rfl⟩
  have hfiber : s.Reached (.fiber b p s.blocks.length) := .fiber ho hi hri
  have hbuilt : Inv (s.emplace b p .start o.interrupt (build stages (.adaptor b p))) :=
    hi ▸ hadaptor .start hri
  have hreused {c : ℕ} (hc : o.adapted = some c) : Inv (s.reuse c .start none) :=
    inv_reuse h (hgood.adapted c hc)
  unfold State.start
  split
  · split
    · exact hbuilt
    · next c hc => exact hreused hc
  · split
    · exact hbuilt
    · next c hc => exact hreused hc
  · next f hp =>
    have hnone : o.adapted = none := hnew (by rw [hp]; rfl)
    simp only [hi, hnone]
    exact hadaptor a hri
  · apply inv_emplace h ho hr hfiber stages
    · intro e he
      cases he
    · intro b' p' he
      cases he
  · exact hadaptor .start hfiber
  · exact hadaptor .start hfiber
  · exact hbuilt

theorem got_received (h : o.got a = true) : o.received ≠ [] := by
  intro hnil
  simp [Obj.got, hnil] at h

theorem forwards_of_adapts {part : Part F} {a' : Signal} (h : a' ∈ part.adapts a) :
    part.forwards = .now := by
  cases part with
  | stage e => cases e <;> first | rfl | simp [Part.adapts, Stage.adaptor] at h
  | adaptor b p => rfl
  | terminal => rfl

variable {returns : F → ℕ → List (Stage F)} {pipeline : List (Stage F)}

theorem inv_next {l : Label} (h : Inv s) (he : Enabled returns s l) (hl : Regular s l) :
    Inv (next returns s l) := by
  cases l with
  | call b p a a' =>
    obtain ⟨o, ho, hgot, -⟩ : ∃ o, s.obj b p = some o ∧ o.got a = true ∧ a' ∈ o.part.calls a := by
      simpa [Option.any_eq_true] using he.2
    exact inv_call h ho (got_received hgot) (hl o ho)
  | adaptor b p a a' =>
    obtain ⟨o, ho, hgot, o', ho', ha⟩ : ∃ o, s.obj b p = some o ∧ o.got a = true ∧
        ∃ o', s.parent o.part = some o' ∧ a' ∈ o'.part.adapts a := by
      simpa [Option.any_eq_true] using he.2
    cases hp : o.part with
    | stage e => simp [hp, State.parent] at ho'
    | terminal => simp [hp, State.parent] at ho'
    | adaptor b' p' =>
      rw [hp] at ho'
      have hm : .adaptor b' p' ∈ (s.block b).map Obj.part :=
        hp ▸ List.mem_map_of_mem (List.mem_of_getElem? ho)
      obtain ⟨o'', ho'', hr⟩ := (h.shape _ (block_mem ho)).parents b' p' hm
      have hsome : some o'' = some o' := ho''.symm.trans ho'
      cases hsome
      have hnow := forwards_of_adapts ha
      simp only [next, ho, Option.map_some, hp]
      exact inv_call h ho'' hr (by simp [hnow])
  | start b p a n =>
    obtain ⟨o, ho, hgot, -⟩ : ∃ o, s.obj b p = some o ∧ o.got a = true ∧
        (o.part.starts returns a n).isSome = true := by
      simpa [Option.any_eq_true] using he.2
    simp only [next, ho]
    exact inv_start h ho (got_received hgot) (hl o ho) _

theorem inv_init (pipeline : List (Stage F)) : Inv (init pipeline) := by
  have hempty : Inv (⟨[], none⟩ : State F) :=
    ⟨rfl, fun k hk => absurd hk List.not_mem_nil, fun k hk => absurd hk List.not_mem_nil⟩
  obtain ⟨k, hreg, hc, hg⟩ := register_fresh (s := ⟨[], none⟩)
    (build_fresh pipeline .terminal) .given
  have hshape : Shape (⟨[], none⟩ : State F) ((receive .start k).map Obj.part) := by
    rw [map_part (forall₂_receive hg .start), map_part_build]
    refine ⟨fun b p hm => ?_, fuse pipeline, .terminal, rfl, by simp⟩
    simp at hm
  have hpush := inv_push hempty (hc.receive .start) hshape
  simpa [init, hreg] using hpush

theorem inv_reachable (h : ((machine returns pipeline).restrict Regular).Reachable s) : Inv s := by
  induction h with
  | initial h0 => exact h0 ▸ inv_init pipeline
  | step _ hst ih =>
    obtain ⟨⟨he, hl⟩, rfl⟩ := hst
    exact inv_next ih he hl

end Steps

section Exact

theorem Inv.safe (h : Inv s) : s.Safe where
  once _ _ _ ho hr := (h.good ho hr).once
  before _ _ _ ho r hm := (h.good ho (List.ne_nil_of_mem hm)).before r hm
  reached _ _ _ ho hr := (h.good ho hr).reached
  checks := h.checks

theorem fail_unsafe (check : Check) : ¬ (s.fail check).Safe := by
  intro h
  cases h.checks

theorem obj_replace (ho : s.obj b p = some o) (k : List (Obj F)) (n : ℕ) :
    (s.replace b p k).obj b (p + n) = k[n]? := by
  have hlt : b < s.blocks.length := (List.getElem?_eq_some_iff.mp (obj_eq_some ho).1).1
  have hp : p < (s.block b).length := (List.getElem?_eq_some_iff.mp ho).1
  have hlen : ((s.block b).take p).length = p := List.length_take_of_le (by omega)
  have hblock : (s.replace b p k).block b = (s.block b).take p ++ k := by
    simp [State.replace, State.block, hlt]
  rw [State.obj, hblock, List.getElem?_append_right (by omega)]
  congr 1
  omega

/-- Something follows every stage. -/
theorem Inv.follows (h : Inv s) (ho : s.obj b p = some o) {e : Stage F} (he : o.part = .stage e) :
    ∃ o', s.obj b (p + 1) = some o' := by
  obtain ⟨stages, last, hparts, hlast⟩ := (h.shape _ (block_mem ho)).ends
  have hlen : (s.block b).length = stages.length + 1 := by
    simpa using congrArg List.length hparts
  have hp : p < (s.block b).length := (List.getElem?_eq_some_iff.mp ho).1
  by_cases hlt : p < stages.length
  · exact ⟨_, List.getElem?_eq_getElem (by omega)⟩
  · have hpart : ((s.block b).map Obj.part)[p]? = some (.stage e) := by
      rw [List.getElem?_map]
      exact (congrArg (Option.map Obj.part) ho).trans (congrArg some he)
    obtain rfl : p = stages.length := by omega
    rw [hparts, List.getElem?_append_right (by simp)] at hpart
    simp only [List.length_map, Nat.sub_self, List.getElem?_cons_zero, Option.some.injEq] at hpart
    exact absurd hpart (hlast e)

/-- What follows a `Concurrent` runs without having been registered. -/
theorem call_unsafe (h : Inv s) (ho : s.obj b p = some o) (hr : o.received ≠ [])
    (hn : o.part.forwards = .never) : ¬ (s.call b p a).Safe := by
  intro hsafe
  obtain ⟨e, he⟩ : ∃ e, o.part = .stage e := by
    cases hp : o.part with
    | stage e => exact ⟨e, rfl⟩
    | adaptor b p => simp [hp, Part.forwards] at hn
    | terminal => simp [hp, Part.forwards] at hn
  obtain ⟨o', ho'⟩ := h.follows ho he
  have hfresh : o'.Fresh := by
    cases h.covered_obj ho hr with
    | passed _ hp _ => simp [Obj.Passed, hn] at hp
    | stopped _ _ hk => exact hk o' (drop_obj ho' ▸ List.mem_cons_self)
  have hcall : s.call b p a = s.replace b p ({ o with emplaced := true } ::
      o'.receive a :: (s.block b).drop (p + 1 + 1)) := by
    unfold State.call
    simp [drop_obj ho, drop_obj ho', Obj.through, hn, receive]
  have hobj : (s.call b p a).obj b (p + 1) = some (o'.receive a) := by
    rw [hcall, obj_replace ho]
    rfl
  have hrun := hsafe.before b (p + 1) _ hobj (a, o'.registered) (by simp [Obj.receive])
  rw [hfresh] at hrun
  cases hrun

/-- A `HeapTask` that is dispatched again is registered again. -/
theorem reuse_unsafe (h : Inv s) (hc : s.block c ≠ []) (i : Interrupt) :
    ¬ (s.reuse c a (some i)).Safe := by
  obtain ⟨o, ho⟩ := block_ne_nil.mp hc
  have hk := drop_obj ho
  rw [List.drop_zero] at hk
  have hgood : o.Good s := Covered.head (hk ▸ h.covered _ (block_mem ho))
  unfold State.reuse
  simp only [registerIf]
  split
  · exact fail_unsafe _
  · next k hreg =>
    intro hsafe
    obtain ⟨k', rfl⟩ : ∃ k', k = o.register i :: k' := by
      rw [hk, register] at hreg
      split at hreg
      · cases hreg
      · split at hreg
        · obtain ⟨k', -, rfl⟩ := Option.map_eq_some_iff.mp hreg
          exact ⟨k', rfl⟩
        · cases hreg
          exact ⟨_, rfl⟩
    have hobj := obj_replace ho (receive a (o.register i :: k')) 0
    have htwice := hsafe.once c 0 _ hobj (by simp [Obj.receive])
    have honce := hgood.once
    simp only [Obj.receive, Obj.register] at htwice
    omega

theorem start_unsafe (h : Inv s) (ho : s.obj b p = some o) (hr : o.received ≠ [])
    (htask : o.part.isTask = true) (hold : o.adapted ≠ none) (stages : List (Stage F)) :
    ¬ (s.start b p o a stages).Safe := by
  have hgood := h.good ho hr
  obtain ⟨i, hi, -⟩ := hgood.reached
  obtain ⟨c, hc⟩ := Option.ne_none_iff_exists'.mp hold
  unfold State.start
  split
  case h_3 =>
    simp only [hi, hc]
    exact reuse_unsafe h (hgood.adapted c hc) i
  all_goals simp_all [Part.isTask]

variable {returns : F → ℕ → List (Stage F)} {pipeline : List (Stage F)}

theorem regular_of_safe {l : Label} (h : Inv s) (he : Enabled returns s l)
    (hs : (next returns s l).Safe) : Regular s l := by
  cases l with
  | call b p a a' =>
    intro o ho hn
    have hgot : o.got a = true ∧ a' ∈ o.part.calls a := by
      simpa [Option.mem_def.mp ho] using he.2
    exact call_unsafe h ho (got_received hgot.1) hn hs
  | adaptor => trivial
  | start b p a n =>
    intro o ho htask
    have hgot : o.got a = true ∧ (o.part.starts returns a n).isSome = true := by
      simpa [Option.mem_def.mp ho] using he.2
    by_contra hold
    simp only [next, Option.mem_def.mp ho] at hs
    exact start_unsafe h ho (got_received hgot.1) htask hold _ hs

/-- Every continuation is registered once before it runs, in the runs whose steps are all regular;
a step that is not is the first to go wrong. -/
theorem registers_iff_regular (returns : F → ℕ → List (Stage F)) (pipeline : List (Stage F))
    (h : ((machine returns pipeline).restrict Regular).Reachable s) :
    s.Safe ∧ ∀ l, (machine returns pipeline).Enabled s l →
      (((machine returns pipeline).next s l).Safe ↔ Regular s l) := by
  have hinv := inv_reachable h
  refine ⟨hinv.safe, fun l he => ⟨regular_of_safe hinv he, fun hl => ?_⟩⟩
  exact (inv_next hinv he hl).safe

section Examples

/-- `[]() { return Map(...); }`, `[]() { return Task::Of<...>(...); }`, what that is given and what
its `Then()` returns. -/
def callables : ℕ → ℕ → List (Stage ℕ)
  | 0, _ => [.map [.value]]
  | 1, _ => [.task (.eventual 2)]
  | 2, _ => [.then (.eventual 3)]
  | _, _ => [.eventual]

/-- A `Task` for each value of a stream. -/
def taskEach : List (Stage ℕ) := [.iterate, .map [.eventual 1], .loop]

/-- The same after a `Concurrent`. -/
def taskAfterConcurrent : List (Stage ℕ) :=
  [.iterate, .concurrent (.eventual 0), .map [.eventual 1], .loop]

/-- A `Task` that a `Reduce` starts for each value. -/
def reduceTask : List (Stage ℕ) := [.iterate, .reduce (.eventual 1)]

theorem taskEach_registers : ∃ s, ((machine callables taskEach).restrict Regular).Reachable s ∧
    (s.obj 6 0).any (fun o => o.got .start) = true ∧ s.Safe := by
  obtain ⟨s, h, ht⟩ := Machine.exists_reachable_of_exec
    (M := (machine callables taskEach).restrict Regular)
    [.call 0 0 .start .begin, .call 0 1 .begin .begin, .call 0 0 .start .body,
      .start 0 1 .body 0, .start 1 0 .start 0, .start 2 0 .start 0, .start 3 0 .start 0,
      .call 4 0 .start .start, .adaptor 4 1 .start .start, .adaptor 3 1 .start .start,
      .adaptor 2 1 .start .start, .adaptor 1 1 .start .body, .call 0 0 .start .body,
      .start 0 1 .body 0, .start 1 0 .start 0, .start 5 0 .start 0]
    (fun s => (s.obj 6 0).any fun o => o.got .start) rfl (by decide)
  exact ⟨s, h, ht, (registers_iff_regular callables taskEach h).1⟩

/-- Past a `Concurrent`, a `Task` is dispatched without an interrupt; a `Task` that is dispatched
for every value registers its `Then()` again. -/
theorem concurrent_forgets :
    (∃ s, (machine callables taskAfterConcurrent).Reachable s ∧
      s.failed = some .dispatchedWithoutInterrupt ∧ ¬ s.Safe) ∧
    ∃ s, (machine callables reduceTask).Reachable s ∧
      s.failed = some .registeredTwice ∧ ¬ s.Safe := by
  constructor
  · obtain ⟨s, h, ht⟩ := Machine.exists_reachable_of_exec
      (M := machine callables taskAfterConcurrent)
      [.call 0 0 .start .begin, .call 0 1 .begin .begin, .call 0 2 .begin .begin,
        .call 0 0 .start .body, .start 0 1 .body 0,
        -- The fiber takes the value and hands it over.
        .call 1 0 .start .start, .call 1 1 .start .begin, .call 1 2 .begin .begin,
        .call 1 3 .begin .begin, .call 1 4 .begin .begin, .call 1 1 .start .body,
        .start 1 2 .body 0, .call 2 0 .start .start, .adaptor 2 1 .start .body,
        .call 1 3 .body .body, .start 1 4 .body 0, .call 3 0 .start .start,
        .adaptor 3 1 .start .body,
        .call 0 1 .begin .body, .start 0 2 .body 0, .start 4 0 .start 0, .start 5 0 .start 0]
      (fun s => s.failed = some .dispatchedWithoutInterrupt) rfl (by decide)
    have hfailed : s.failed = some .dispatchedWithoutInterrupt := of_decide_eq_true ht
    refine ⟨s, h, hfailed, fun hs => ?_⟩
    cases hs.checks.symm.trans hfailed
  · obtain ⟨s, h, ht⟩ := Machine.exists_reachable_of_exec (M := machine callables reduceTask)
      [.call 0 0 .start .begin, .call 0 0 .start .body, .start 0 1 .body 0, .start 1 0 .start 0,
        .start 2 0 .start 0, .call 3 0 .start .start, .adaptor 3 1 .start .start,
        .adaptor 2 1 .start .start, .call 0 0 .start .body, .start 0 1 .body 0,
        .start 1 0 .start 0]
      (fun s => s.failed = some .registeredTwice) rfl (by decide)
    have hfailed : s.failed = some .registeredTwice := of_decide_eq_true ht
    refine ⟨s, h, hfailed, fun hs => ?_⟩
    cases hs.checks.symm.trans hfailed

end Examples

end Exact

end Eventuals.Register
