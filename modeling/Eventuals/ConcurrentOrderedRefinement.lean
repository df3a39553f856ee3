import Eventuals.ConcurrentUndisturbed
import Eventuals.ConcurrentOrderedTranches

/-! `ConcurrentOrdered(f)` moves tranches: its fibers push the items that `f` makes of the upstream
values, each as far as its adaptor has come. -/
namespace Eventuals.Concurrent

variable {X V E : Type*} {s : State X V E} {l : Label X V E}

/-- The value the ingress has in hand. -/
def Ingress.held : Ingress X E → Option X
  | .create arg | .start arg _ => some arg
  | _ => none

/-- The steps that leave upstream and the fibers where they are. -/
def Label.aside : Label X V E → Bool
  | .begin | .next | .ingressBegin | .ingressEpilogue _ | .egress | .waitForDone | .ended
  | .done => true
  | _ => false

structure Unmoved (s t : State X V E) : Prop where
  control : ∀ k, t.control k = s.control k
  held : t.ingress.held = s.ingress.held
  pushed : t.pushed = s.pushed
  upstreamOver : t.upstreamOver = s.upstreamOver

theorem unmoved_egressSection (s : State X V E) : Unmoved s s.egressSection := by
  rcases egress_cases s with ⟨-, -, hr⟩ | ⟨-, -, -, hr⟩ | ⟨value, values, -, -, hr⟩ |
    ⟨-, -, -, -, hr⟩
  · exact hr ▸ ⟨fun _ => rfl, rfl, rfl, rfl⟩
  · exact hr ▸ ⟨fun _ => rfl, rfl, rfl, rfl⟩
  · exact hr ▸ ⟨fun _ => rfl, rfl, rfl, rfl⟩
  · obtain ⟨d, c, hd⟩ := callDone_shape { s with egressSaved := true, egress := .awaitingEnded }
    exact (hr.trans hd) ▸ ⟨fun _ => rfl, rfl, rfl, rfl⟩

theorem unmoved_next (hi : Inv s) (hr : Ready s l) (hl : l.aside = true) :
    Unmoved s (next s l) := by
  cases l <;> simp only [Label.aside, Bool.false_eq_true] at hl
  case begin => exact ⟨fun _ => rfl, rfl, rfl, rfl⟩
  case next => exact ⟨fun _ => rfl, rfl, rfl, rfl⟩
  case ingressBegin => exact ⟨fun _ => rfl, by simp [next, Ingress.held, hr.2], rfl, rfl⟩
  case ingressEpilogue o =>
    obtain ⟨e, w, c, -, -, hx⟩ := ingressEpilogue_shape s o
    simp only [next, hx]
    refine ⟨fun _ => rfl, ?_, rfl, rfl⟩
    simp [Ingress.held, show s.ingress = .epilogue o from hr]
  case egress => exact unmoved_egressSection s
  case waitForDone =>
    simp only [next, State.waitForDoneSection]
    split <;> exact ⟨fun _ => rfl, rfl, rfl, rfl⟩
  case ended =>
    simp only [next, ended_eq hi.toBase hr]
    exact ⟨fun _ => rfl, rfl, rfl, rfl⟩
  case done =>
    obtain ⟨w, c, -, hx⟩ := doneSection_shape s
    simp only [next, hx]
    refine ⟨fun k => ?_, rfl, rfl, rfl⟩
    simp [State.control, State.interruptFibers, interruptFibers, Function.comp_def,
      trigger_control]

end Eventuals.Concurrent

namespace Eventuals.ConcurrentOrdered

open Function (update)
open Transition (Machine)
open Concurrent (Fiber.Control Ingress.held Undisturbed Unmoved)

variable {A W E : Type*} {f : A → List W} {upstream : List A}

section Adaptors

variable {t : ℕ} {d : Adaptor W}

/-- What an adaptor has yet to answer. -/
def Adaptor.rest (d : Adaptor W) : List (Item W) :=
  if d.ended then [] else d.upstream.map (fun w => (d.j, some w)) ++ [(-d.j, none)]

/-- The adaptor works on tranche number `t`; it has an index once it has had a value. -/
structure Adaptor.Serves (f : A → List W) (upstream : List A) (t : ℕ) (d : Adaptor W) : Prop where
  j : d.j = tag t
  lt : t < upstream.length
  index : d.index = none ∨ d.index = some (tag t)
  first : d.index = none → ∀ a, upstream[t]? = some a → d.upstream = f a ∧ d.ended = false
  later : d.index ≠ none → ∀ a, upstream[t]? = some a → f a ≠ []

theorem Adaptor.serves_begin {a : A} (ha : upstream[t]? = some a) :
    Adaptor.Serves f upstream t (.begin (tag t) (f a)) where
  j := rfl
  lt := (List.getElem?_eq_some_iff.mp ha).1
  index := Or.inl rfl
  first _ b hb := by
    rw [ha, Option.some.injEq] at hb
    exact ⟨hb ▸ rfl, rfl⟩
  later hn := absurd rfl hn

/-- An adaptor has come to its end, answers the next of its items or fails for want of a value. -/
theorem Adaptor.Serves.next_cases (h : Adaptor.Serves f upstream t d)
    (hn : upstream.length < 2 ^ 31) :
    d.ended = true ∧ d.next = (.ended, d) ∨
    (∃ p d', d.next = (.body p, d') ∧ d.rest = p :: d'.rest ∧ d'.j = d.j ∧
      Adaptor.Serves f upstream t d' ∧ d'.index ≠ none) ∨
    ∃ c, d.next.1 = .failed c ∧ ∃ a ∈ upstream, f a = [] := by
  obtain ⟨a, ha⟩ : ∃ a, upstream[t]? = some a := ⟨_, List.getElem?_eq_getElem h.lt⟩
  cases he : d.ended with
  | true => exact Or.inl ⟨rfl, by simp [Adaptor.next, he]⟩
  | false =>
    right
    cases hu : d.upstream with
    | cons w ws =>
      left
      have hi : d.index = none ∨ d.index = some d.j := h.j ▸ h.index
      refine ⟨(d.j, some w), { d with upstream := ws, index := some d.j }, ?_, ?_, rfl, ?_, by simp⟩
      · simp [Adaptor.next, he, hu, Adaptor.body, hi]
      · simp [Adaptor.rest, he, hu]
      · refine ⟨h.j, h.lt, Or.inr (by simp [h.j]), by simp, fun _ b hb => ?_⟩
        by_cases hx : d.index = none
        · rw [← (h.first hx b hb).1, hu]
          simp
        · exact h.later hx b hb
    | nil =>
      rcases h.index with hi | hi
      · right
        refine ⟨.index, by simp [Adaptor.next, he, hu, Adaptor.upstreamEnded, hi], a,
          List.mem_of_getElem? ha, ?_⟩
        rw [← (h.first hi a ha).1, hu]
      · left
        refine ⟨(-d.j, none), { d with ended := true }, ?_, ?_, rfl, ?_, by simp [hi]⟩
        · have hm := int_marker h.lt hn
          rw [← h.j] at hi hm
          simp only [Adaptor.next, he, Bool.false_eq_true, if_false, hu, Adaptor.upstreamEnded, hi,
            hm]
        · simp [Adaptor.rest, he, hu]
        · exact ⟨h.j, h.lt, Or.inr hi, by simp [hi], h.later⟩

end Adaptors

section View

/-- What a fiber has yet to push, with the index it does so under. -/
def leftOf (d : Adaptor W) : Option (Fiber.Control (Item W) E) → Option (ℤ × List (Item W))
  | some (.pushing p) => some (d.j, p :: d.rest)
  | some .submitted | some .running | some (.epilogue _) => some (d.j, d.rest)
  | _ => none

def State.view (s : State A W E) : Tranches A W where
  upstream := s.upstream
  i := s.i
  held := s.concurrent.ingress.held
  left k := leftOf (s.adaptor k) (s.concurrent.control k)
  pushed := s.concurrent.pushed.map Prod.snd

/-- A fiber at work has an adaptor at work. -/
def Fits (f : A → List W) (upstream : List A) (d : Adaptor W) :
    Option (Fiber.Control (Item W) E) → Prop
  | some (.pushing _) => ∃ t, d.Serves f upstream t ∧ d.index ≠ none
  | some .submitted | some .running => ∃ t, d.Serves f upstream t
  | some (.epilogue _) => (∃ t, d.Serves f upstream t) ∧ d.ended = true
  | _ => True

structure Composed (f : A → List W) (upstream : List A) (s : State A W E) : Prop where
  concurrent : ((Concurrent.machine _ _ _).restrict Undisturbed).Reachable s.concurrent
  fits : ∀ k, Fits f upstream (s.adaptor k) (s.concurrent.control k)
  marked : ∀ t a, (-tag t, none) ∈ s.concurrent.pushed.map Prod.snd → upstream[t]? = some a →
    f a ≠ []
  upstreamOver : s.concurrent.upstreamOver = true → s.upstream = []
  view : (Tranches.machine f upstream).Reachable s.view

theorem composed_init (registered : Bool) :
    Composed f upstream (State.init upstream registered : State A W E) where
  concurrent := .initial ⟨registered, rfl⟩
  fits k := trivial
  marked t a hm := by simp [State.init, Concurrent.State.init] at hm
  upstreamOver ho := by simp [State.init, Concurrent.State.init] at ho
  view := .initial rfl

theorem Allowed.undisturbed {s : State A W E} {l : Concurrent.Label (ℤ × A) (Item W) E}
    (h : Allowed s l) : Undisturbed s.concurrent l := by
  cases l <;> first | exact h.elim | exact h.2 | trivial

variable {s : State A W E} {l : Concurrent.Label (ℤ × A) (Item W) E} {k : ℕ}

theorem Composed.next_concurrent (h : Composed f upstream s)
    (he : Concurrent.Enabled s.concurrent l) (ha : Allowed s l) :
    ((Concurrent.machine _ _ _).restrict Undisturbed).Reachable (Concurrent.next s.concurrent l) :=
  h.concurrent.next ⟨he, ha.undisturbed⟩

theorem Composed.inv (h : Composed f upstream s) : Concurrent.Inv s.concurrent :=
  Concurrent.inv_reachable h.concurrent.of_restrict

theorem Composed.history (h : Composed f upstream s) : Concurrent.History s.concurrent :=
  Concurrent.history_reachable h.concurrent.of_restrict

theorem Composed.calm (h : Composed f upstream s) : Concurrent.Calm s.concurrent :=
  Concurrent.calm_reachable h.concurrent

theorem Composed.not_triggered (h : Composed f upstream s) :
    s.concurrent.installed ≠ .triggered :=
  Concurrent.not_triggered (h.concurrent.mono fun _ _ => Undisturbed.uninterrupted)

theorem Composed.not_failed (h : Composed f upstream s) : s.concurrent.failed = none :=
  Concurrent.failed_uninterrupted (h.concurrent.mono fun _ _ => Undisturbed.uninterrupted)

/-- Nothing has happened to the tranches. -/
theorem Composed.keep {s' : State A W E} (h : Composed f upstream s)
    (hc : ((Concurrent.machine _ _ _).restrict Undisturbed).Reachable s'.concurrent)
    (hfits : ∀ k, Fits f upstream (s'.adaptor k) (s'.concurrent.control k))
    (hover : s'.concurrent.upstreamOver = s.concurrent.upstreamOver)
    (hv : s'.view = s.view) : Composed f upstream s' where
  concurrent := hc
  fits := hfits
  marked := by
    have hp : s'.concurrent.pushed.map Prod.snd = s.concurrent.pushed.map Prod.snd :=
      congrArg Tranches.pushed hv
    exact hp ▸ h.marked
  upstreamOver ho := by
    have hu : s'.upstream = s.upstream := congrArg Tranches.upstream hv
    exact hu.trans (h.upstreamOver (hover ▸ ho))
  view := hv ▸ h.view

theorem view_eq {s' : State A W E} (hu : s'.upstream = s.upstream) (hi : s'.i = s.i)
    (hheld : s'.concurrent.ingress.held = s.concurrent.ingress.held)
    (hp : s'.concurrent.pushed = s.concurrent.pushed)
    (hleft : ∀ k, leftOf (s'.adaptor k) (s'.concurrent.control k) =
      leftOf (s.adaptor k) (s.concurrent.control k)) : s'.view = s.view := by
  simp only [State.view, hu, hi, hheld, hp, hleft]

theorem around_aside (hl : l.aside = true) :
    (around f s l).upstream = s.upstream ∧ (around f s l).i = s.i ∧
      (around f s l).adaptor = s.adaptor := by
  cases l <;> simp only [Concurrent.Label.aside, Bool.false_eq_true] at hl
  case egress =>
    simp only [around]
    split <;> exact ⟨rfl, rfl, rfl⟩
  all_goals exact ⟨rfl, rfl, rfl⟩

theorem composed_aside (h : Composed f upstream s) (he : Concurrent.Enabled s.concurrent l)
    (ha : Allowed s l) (hl : l.aside = true) : Composed f upstream (next f s (.concurrent l)) := by
  obtain ⟨hu, hi, hd⟩ := around_aside (f := f) (s := s) hl
  have hm := Concurrent.unmoved_next h.inv he.2 hl
  refine h.keep (h.next_concurrent he ha) ?_ hm.upstreamOver (view_eq hu hi hm.held hm.pushed ?_)
  · intro k
    simp only [next, hm.control, hd]
    exact h.fits k
  · intro k
    simp only [next, hm.control, hd]

theorem Composed.view_next {s' : State A W E} (h : Composed f upstream s)
    {m : Tranches.Label A W} (hm : Tranches.Enabled s.view m)
    (hv : s'.view = Tranches.next f s.view m) :
    (Tranches.machine f upstream).Reachable s'.view :=
  hv ▸ Machine.Reachable.next h.view hm

/-- Fiber number `k` moves on, and has as much to push as before. -/
theorem composed_fiber {s' : State A W E} (h : Composed f upstream s)
    {c : Fiber.Control (Item W) E}
    (hc : ((Concurrent.machine _ _ _).restrict Undisturbed).Reachable s'.concurrent)
    (hcontrol : ∀ j, s'.concurrent.control j = if j = k then some c else s.concurrent.control j)
    (hd : ∀ j, j ≠ k → s'.adaptor j = s.adaptor j)
    (hu : s'.upstream = s.upstream) (hi : s'.i = s.i)
    (hheld : s'.concurrent.ingress.held = s.concurrent.ingress.held)
    (hp : s'.concurrent.pushed = s.concurrent.pushed)
    (hover : s'.concurrent.upstreamOver = s.concurrent.upstreamOver)
    (hfits : Fits f upstream (s'.adaptor k) (some c))
    (hleft : leftOf (s'.adaptor k) (some c) = leftOf (s.adaptor k) (s.concurrent.control k)) :
    Composed f upstream s' := by
  refine h.keep hc ?_ hover (view_eq hu hi hheld hp ?_)
  · intro j
    by_cases hj : j = k
    · rw [hcontrol, if_pos hj, hj]
      exact hfits
    · rw [hcontrol, if_neg hj, hd j hj]
      exact h.fits j
  · intro j
    by_cases hj : j = k
    · rw [hcontrol, if_pos hj, hj]
      exact hleft
    · rw [hcontrol, if_neg hj, hd j hj]

end View

section Steps

variable {s : State A W E} {l : Concurrent.Label (ℤ × A) (Item W) E} {k : ℕ} {arg : ℤ × A}
  {p : Item W}

theorem composed_fiberStart (h : Composed f upstream s)
    (he : Concurrent.Enabled s.concurrent (.fiberStart k)) :
    Composed f upstream (next f s (.concurrent (.fiberStart k))) := by
  have hc : s.concurrent.control k = some .submitted := he.2
  have hfits := h.fits k
  rw [hc] at hfits
  exact composed_fiber (k := k) h (h.next_concurrent he trivial)
    (Concurrent.control_setControl hc .running) (fun _ _ => rfl) rfl rfl rfl rfl rfl hfits
    (by rw [hc]; rfl)

theorem Composed.serves (h : Composed f upstream s)
    (hc : s.concurrent.control k = some .running) : ∃ t, (s.adaptor k).Serves f upstream t := by
  have := h.fits k
  rwa [hc] at this

theorem Composed.ended (h : Composed f upstream s) (hn : upstream.length < 2 ^ 31)
    {o : Concurrent.Outcome E} (hc : s.concurrent.control k = some .running)
    (ha : Allowed s (.fiberOutcome k o)) : (s.adaptor k).ended = true := by
  obtain ⟨t, ht⟩ := h.serves hc
  rcases ht.next_cases hn with hx | ⟨p, d', hx, -⟩ | ⟨c, hx, -⟩
  · exact hx.1
  · simp [Allowed, hx] at ha
  · simp [Allowed, hx] at ha

theorem Composed.value (h : Composed f upstream s) (hn : upstream.length < 2 ^ 31)
    (hc : s.concurrent.control k = some .running) (ha : Allowed s (.fiberValue k p)) :
    ∃ t d', (s.adaptor k).next = (.body p, d') ∧ (s.adaptor k).rest = p :: d'.rest ∧
      d'.j = (s.adaptor k).j ∧ d'.Serves f upstream t ∧ d'.index ≠ none := by
  obtain ⟨t, ht⟩ := h.serves hc
  rcases ht.next_cases hn with hx | ⟨q, d', hx, hq⟩ | ⟨c, hx, -⟩
  · simp [Allowed, hx.2] at ha
  · obtain rfl : q = p := by simpa [Allowed, hx] using ha
    exact ⟨t, d', hx, hq⟩
  · simp [Allowed, hx] at ha

theorem composed_fiberOutcome (h : Composed f upstream s) (hn : upstream.length < 2 ^ 31)
    {o : Concurrent.Outcome E} (he : Concurrent.Enabled s.concurrent (.fiberOutcome k o))
    (ha : Allowed s (.fiberOutcome k o)) :
    Composed f upstream (next f s (.concurrent (.fiberOutcome k o))) := by
  have hc : s.concurrent.control k = some .running := he.2
  have hended := h.ended hn hc ha
  exact composed_fiber (k := k) h (h.next_concurrent he ha)
    (Concurrent.control_setControl hc (.epilogue o)) (fun _ _ => rfl) rfl rfl rfl rfl rfl
    ⟨h.serves hc, hended⟩ (by rw [hc]; rfl)

theorem composed_fiberValue (h : Composed f upstream s) (hn : upstream.length < 2 ^ 31)
    (he : Concurrent.Enabled s.concurrent (.fiberValue k p)) (ha : Allowed s (.fiberValue k p)) :
    Composed f upstream (next f s (.concurrent (.fiberValue k p))) := by
  have hc : s.concurrent.control k = some .running := he.2
  obtain ⟨t, d', hx, hrest, hj, hs, hi⟩ := h.value hn hc ha
  have hself : (next f s (.concurrent (.fiberValue k p))).adaptor k = d' := by
    simp [next, around, hx]
  refine composed_fiber (k := k) h (h.next_concurrent he ha)
    (Concurrent.control_setControl hc (.pushing p)) ?_ rfl rfl rfl rfl rfl ?_ ?_
  · intro j hne
    simp [next, around, hne]
  · rw [hself]
    exact ⟨t, hs, hi⟩
  · rw [hself, hc]
    simp [leftOf, hrest, hj]

theorem composed_createOrReuseFiber (h : Composed f upstream s)
    {contexts : ℕ → Concurrent.Context}
    (he : Concurrent.Enabled s.concurrent (.createOrReuseFiber arg contexts)) :
    Composed f upstream (next f s (.concurrent (.createOrReuseFiber arg contexts))) := by
  have hg : s.concurrent.ingress = .create arg := he.2.1
  obtain ⟨i, fibers, hx, hold, hget⟩ :=
    h.calm.create h.inv h.history h.not_triggered contexts hg
  have hs : (next f s (.concurrent (.createOrReuseFiber arg contexts))).concurrent =
      { s.concurrent with fibers := fibers, fibersDone := false, ingress := .start arg i } := hx
  refine composed_fiber (k := i) (c := .created) h (h.next_concurrent he trivial) ?_
    (fun _ _ => rfl) rfl rfl ?_ ?_ ?_ trivial ?_
  · intro j
    rw [hs]
    exact Concurrent.control_of_getElem? hget j
  · rw [hs, hg]
    rfl
  · rw [hs]
  · rw [hs]
  · cases hc : s.concurrent.control i with
    | none => rfl
    | some c =>
      rw [hold c hc]
      rfl

theorem composed_upstreamOutcome (h : Composed f upstream s) {o : Concurrent.Outcome E}
    (he : Concurrent.Enabled s.concurrent (.upstreamOutcome o))
    (ha : Allowed s (.upstreamOutcome o)) :
    Composed f upstream (next f s (.concurrent (.upstreamOutcome o))) := by
  obtain ⟨hu, rfl⟩ : s.upstream = [] ∧ o = none := ha
  obtain ⟨hx, hg⟩ := Concurrent.upstreamOutcome_eq h.inv he.2
  have hs : (next f s (.concurrent (.upstreamOutcome none))).concurrent =
      { s.concurrent with
        ingress := .epilogue none, upstreamOver := true,
        failures := s.concurrent.failures ++ [] } := hx
  have hheld : s.concurrent.ingress.held = none := by
    rcases hg with hg | hg <;> simp [hg, Ingress.held]
  have hv : (next f s (.concurrent (.upstreamOutcome none))).view = s.view := by
    refine view_eq rfl rfl ?_ ?_ ?_
    · rw [hs, hheld]
      rfl
    · rw [hs]
    · intro k
      rw [hs]
      rfl
  refine ⟨h.next_concurrent he ⟨hu, rfl⟩, ?_, ?_, fun _ => hu, hv ▸ h.view⟩
  · rw [hs]
    exact h.fits
  · rw [hs]
    exact h.marked

theorem composed_upstreamValue (h : Composed f upstream s)
    (he : Concurrent.Enabled s.concurrent (.upstreamValue arg))
    (ha : Allowed s (.upstreamValue arg)) :
    Composed f upstream (next f s (.concurrent (.upstreamValue arg))) := by
  have hg : s.concurrent.ingress = .awaitingNext := he.2
  obtain ⟨a, hu, rfl⟩ : ∃ a, s.upstream.head? = some a ∧ (s.i, a) = arg := by
    simpa [Allowed] using ha
  obtain ⟨handler, installed, interrupt, hs⟩ : ∃ handler installed interrupt,
      (next f s (.concurrent (.upstreamValue (s.i, a)))).concurrent = { s.concurrent with
        handler := handler, installed := installed, interrupt := interrupt,
        ingress := .create (s.i, a) } :=
    Concurrent.body_eq h.inv h.not_failed h.not_triggered (s.i, a)
  have hv : (next f s (.concurrent (.upstreamValue (s.i, a)))).view =
      Tranches.next f s.view (.take a) := by
    refine Tranches.ext rfl rfl ?_ (funext fun k => ?_) ?_
    · simp only [State.view, hs]
      rfl
    · simp only [State.view, hs]
      rfl
    · simp only [State.view, hs]
      rfl
  have henabled : Tranches.Enabled s.view (.take a) := by
    refine ⟨?_, hu⟩
    simp [State.view, hg, Ingress.held]
  refine ⟨h.next_concurrent he ha, ?_, ?_, ?_, h.view_next henabled hv⟩
  · rw [hs]
    exact h.fits
  · rw [hs]
    exact h.marked
  · rw [hs]
    intro ho
    change s.upstream.tail = []
    rw [h.upstreamOver ho]
    rfl

theorem composed_startFiber (h : Composed f upstream s) (hn : upstream.length < 2 ^ 31)
    (he : Concurrent.Enabled s.concurrent (.startFiber arg k)) :
    Composed f upstream (next f s (.concurrent (.startFiber arg k))) := by
  have hg : s.concurrent.ingress = .start arg k := he.2
  have hc := (h.inv.created k).mpr ⟨arg, hg⟩
  have hcontrol := Concurrent.control_startFiber hc
  have hheld : s.view.held = some (arg.1, arg.2) := by
    simp [State.view, hg, Ingress.held]
  have hleft : s.view.left k = none := by
    simp [State.view, hc, leftOf]
  have hv : (next f s (.concurrent (.startFiber arg k))).view =
      Tranches.next f s.view (.start k arg.1 arg.2) := by
    refine Tranches.ext rfl rfl rfl (funext fun j => ?_) rfl
    change leftOf (update s.adaptor k _ j) ((s.concurrent.startFiber k).control j) = _
    rw [hcontrol]
    by_cases hj : j = k
    · subst hj
      simp [leftOf, Tranches.next, Adaptor.rest, Adaptor.begin, tranche]
    · simp [State.view, Tranches.next, hj]
  obtain ⟨n, hl⟩ := Tranches.ledger_reachable hn h.view
  obtain ⟨t, -, ht, ha⟩ := hl.held _ _ hheld
  refine ⟨h.next_concurrent he trivial, ?_, h.marked, h.upstreamOver,
    h.view_next (m := .start k arg.1 arg.2) ⟨hheld, hleft⟩ hv⟩
  intro j
  change Fits f upstream (update s.adaptor k _ j) ((s.concurrent.startFiber k).control j)
  rw [hcontrol]
  by_cases hj : j = k
  · subst hj
    rw [if_pos rfl, Function.update_self, ht]
    exact ⟨t, Adaptor.serves_begin ha⟩
  · rw [if_neg hj, Function.update_of_ne hj]
    exact h.fits j

theorem composed_push (h : Composed f upstream s) (hn : upstream.length < 2 ^ 31)
    (he : Concurrent.Enabled s.concurrent (.push k p)) :
    Composed f upstream (next f s (.concurrent (.push k p))) := by
  have hc : s.concurrent.control k = some (.pushing p) := he.2
  have hcontrol := Concurrent.control_setControl hc .running
  obtain ⟨t, ht, hindex⟩ : ∃ t, (s.adaptor k).Serves f upstream t ∧ (s.adaptor k).index ≠ none := by
    have := h.fits k
    rwa [hc] at this
  obtain ⟨e, c, -, hs⟩ := Concurrent.push_shape s.concurrent k p
  have hs' : (next f s (.concurrent (.push k p))).concurrent =
      { s.concurrent.setControl k .running with
        values := s.concurrent.values ++ [(k, p)], pushed := s.concurrent.pushed ++ [(k, p)],
        egress := e, failed := c } := hs
  have hleft : s.view.left k = some ((s.adaptor k).j, p :: (s.adaptor k).rest) := by
    simp [State.view, hc, leftOf]
  have hv : (next f s (.concurrent (.push k p))).view =
      Tranches.next f s.view (.push k (s.adaptor k).j p (s.adaptor k).rest) := by
    refine Tranches.ext rfl rfl ?_ (funext fun j => ?_) ?_
    · simp only [State.view, hs']
      rfl
    · simp only [State.view, hs']
      change leftOf (s.adaptor j) ((s.concurrent.setControl k .running).control j) = _
      rw [hcontrol]
      by_cases hj : j = k
      · subst hj
        simp [leftOf, Tranches.next]
      · simp [Tranches.next, hj]
    · simp only [State.view, hs', List.map_append]
      rfl
  obtain ⟨n, hl⟩ := Tranches.ledger_reachable hn h.view
  obtain ⟨u, -, hu, -, hitems⟩ := hl.working _ _ _ hleft
  obtain rfl := tag_inj.mp (ht.j.symm.trans hu)
  have hmem : p ∈ items f upstream t := hitems ▸ by simp
  refine ⟨h.next_concurrent he trivial, ?_, ?_, ?_,
    h.view_next (m := .push k (s.adaptor k).j p (s.adaptor k).rest) hleft hv⟩
  · intro j
    rw [hs']
    change Fits f upstream (s.adaptor j) ((s.concurrent.setControl k .running).control j)
    rw [hcontrol]
    by_cases hj : j = k
    · rw [if_pos hj, hj]
      exact ⟨t, ht⟩
    · rw [if_neg hj]
      exact h.fits j
  · intro u a hm ha
    rw [hs'] at hm
    simp only [List.map_append, List.map_cons, List.map_nil, List.mem_append,
      List.mem_singleton] at hm
    rcases hm with hm | hm
    · exact h.marked u a hm ha
    · have habs := (natAbs_of_mem_items hmem).1
      rw [← hm] at habs
      have htu : u = t := by
        simp only [tag] at habs
        omega
      exact ht.later hindex a (htu ▸ ha)
  · rw [hs']
    exact h.upstreamOver

theorem composed_fiberEpilogue (h : Composed f upstream s) {o : Concurrent.Outcome E}
    (he : Concurrent.Enabled s.concurrent (.fiberEpilogue k o)) :
    Composed f upstream (next f s (.concurrent (.fiberEpilogue k o))) := by
  have hc : s.concurrent.control k = some (.epilogue o) := he.2
  obtain rfl := h.calm.fiberOutcome_eq hc
  have hcontrol := Concurrent.control_finishFiber hc
  have hended : (s.adaptor k).ended = true := by
    have := h.fits k
    rw [hc] at this
    exact this.2
  obtain ⟨e, w, c, -, -, hs⟩ := Concurrent.fiberEpilogue_shape s.concurrent k none
  have hs' : (next f s (.concurrent (.fiberEpilogue k none))).concurrent =
      { (s.concurrent.finishFiber k).record none with
        fibersDone := Concurrent.fibersDone (s.concurrent.finishFiber k).fibers,
        egress := e, waitForDone := w, failed := c } := hs
  have hcontrol' : ∀ j, (next f s (.concurrent (.fiberEpilogue k none))).concurrent.control j =
      if j = k then some .finished else s.concurrent.control j := by
    intro j
    rw [hs']
    exact hcontrol j
  have hleft : s.view.left k = some ((s.adaptor k).j, []) := by
    simp [State.view, hc, leftOf, Adaptor.rest, hended]
  have hv : (next f s (.concurrent (.fiberEpilogue k none))).view =
      Tranches.next f s.view (.finish k (s.adaptor k).j) := by
    refine Tranches.ext rfl rfl ?_ (funext fun j => ?_) ?_
    · simp only [State.view, hs']
      rfl
    · change leftOf (s.adaptor j)
        ((next f s (.concurrent (.fiberEpilogue k none))).concurrent.control j) = _
      rw [hcontrol']
      by_cases hj : j = k
      · subst hj
        simp [leftOf, Tranches.next]
      · simp [Tranches.next, State.view, hj]
    · simp only [State.view, hs']
      rfl
  refine ⟨h.next_concurrent he trivial, ?_, ?_, ?_,
    h.view_next (m := .finish k (s.adaptor k).j) hleft hv⟩
  · intro j
    rw [hcontrol']
    split
    · trivial
    · exact h.fits j
  · rw [hs']
    exact h.marked
  · rw [hs']
    exact h.upstreamOver

theorem composed_next {l : Label A W E} (h : Composed f upstream s)
    (hn : upstream.length < 2 ^ 31) (he : Enabled s l) : Composed f upstream (next f s l) := by
  cases l with
  | check k =>
    simp only [next]
    split
    · exact { h with view := h.view }
    · exact h
  | next => exact { h with view := h.view }
  | reorder => exact { h with view := h.view }
  | concurrent l =>
    obtain ⟨hl, ha⟩ := he.2.2.2
    cases hs : l.aside with
    | true => exact composed_aside h hl ha hs
    | false =>
      cases l <;> simp only [Concurrent.Label.aside, Bool.true_eq_false] at hs
      case upstreamValue arg => exact composed_upstreamValue h hl ha
      case upstreamOutcome o => exact composed_upstreamOutcome h hl ha
      case upstreamInstall | downstreamDone | trigger => exact ha.elim
      case fiberValue k p => exact composed_fiberValue h hn hl ha
      case fiberOutcome k o => exact composed_fiberOutcome h hn hl ha
      case createOrReuseFiber arg contexts => exact composed_createOrReuseFiber h hl
      case startFiber arg k => exact composed_startFiber h hn hl
      case interrupt =>
        obtain ⟨ahead, hx⟩ := hl.2
        exact absurd (h.inv.triggered (by simp [hx])).1 h.not_triggered
      case fiberStart k => exact composed_fiberStart h hl
      case push k p => exact composed_push h hn hl
      case fiberEpilogue k o => exact composed_fiberEpilogue h hl

theorem composed_reachable (hn : upstream.length < 2 ^ 31)
    (h : (machine E f upstream).Reachable s) : Composed f upstream s := by
  refine h.invariant ?_ ?_
  · rintro s ⟨registered, rfl⟩
    exact composed_init registered
  · exact fun s l hs he => composed_next hs hn he

end Steps

end Eventuals.ConcurrentOrdered
