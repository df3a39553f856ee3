import Mathlib.Data.Finset.Card
import Mathlib.Data.Finset.Range
import Eventuals.Join

/-! The fibers of `DoAll()` and `ForkJoin()` against their counter, and what the last one makes of
the slots. -/
namespace Eventuals.Join

open Transition (Machine)

variable {V E : Type*}

section Values

variable {values : List (Slot V E)} {completions : List (Signal V E)}

theorem foldl_of_stopped (values : List (Slot V E)) :
    values.foldl extractStoppedOrError (some .stopped) = some .stopped := by
  induction values with
  | nil => rfl
  | cons slot values ih => cases slot <;> exact ih

/-- The loop of `ForkJoin()` may stop early, as nothing replaces `Stopped`. -/
theorem extract_eq (stoppedOrError : Option (StoppedOrError E)) (values : List (Slot V E)) :
    ForkJoin.extract stoppedOrError values = values.foldl extractStoppedOrError stoppedOrError := by
  induction values generalizing stoppedOrError with
  | nil => rfl
  | cons slot values ih =>
    cases slot with
    | undefined => exact ih _
    | value v => exact ih _
    | stoppedOrError e =>
      cases stoppedOrError with
      | none => exact ih _
      | some e' =>
        cases e' with
        | stopped => exact (foldl_of_stopped values).symm
        | error e' => exact ih _

theorem getStoppedOrErrorIfExists_eq (construct : Construct) (values : List (Slot V E)) :
    construct.getStoppedOrErrorIfExists values = values.foldl extractStoppedOrError none := by
  cases construct with
  | doAll => rfl
  | forkJoin => exact extract_eq none values

def lastError : List (Slot V E) → Option E
  | [] => none
  | .stoppedOrError (.error e) :: values => (lastError values).or (some e)
  | _ :: values => lastError values

theorem foldl_stopped (stoppedOrError : Option (StoppedOrError E))
    (hm : .stoppedOrError .stopped ∈ values) :
    values.foldl extractStoppedOrError stoppedOrError = some .stopped := by
  rw [← extract_eq]
  induction values generalizing stoppedOrError with
  | nil => simp at hm
  | cons slot values ih =>
    cases slot with
    | undefined => exact ih _ (by simpa using hm)
    | value v => exact ih _ (by simpa using hm)
    | stoppedOrError e =>
      cases stoppedOrError with
      | some e' =>
        cases e' with
        | stopped => rfl
        | error e' =>
          cases e with
          | stopped => exact (extract_eq ..).trans (foldl_of_stopped values)
          | error e => exact ih _ (by simpa using hm)
      | none =>
        cases e with
        | stopped => exact (extract_eq ..).trans (foldl_of_stopped values)
        | error e => exact ih _ (by simpa using hm)

theorem foldl_error {stoppedOrError : Option (StoppedOrError E)}
    (hs : stoppedOrError ≠ some .stopped) (hm : .stoppedOrError .stopped ∉ values) :
    values.foldl extractStoppedOrError stoppedOrError =
      ((lastError values).map .error).or stoppedOrError := by
  induction values generalizing stoppedOrError with
  | nil => simp [lastError]
  | cons slot values ih =>
    have hm' : .stoppedOrError .stopped ∉ values := fun h => hm (List.mem_cons_of_mem _ h)
    cases slot with
    | undefined => exact ih hs hm'
    | value v => exact ih hs hm'
    | stoppedOrError e =>
      cases e with
      | stopped => exact absurd List.mem_cons_self hm
      | error e =>
        have hx : extractStoppedOrError stoppedOrError (.stoppedOrError (.error e) : Slot V E) =
            some (.error e) := by
          cases stoppedOrError with
          | none => rfl
          | some e' =>
            cases e' with
            | stopped => exact absurd rfl hs
            | error e' => rfl
        rw [List.foldl_cons, hx, ih (by simp) hm', lastError]
        cases lastError values <;> simp

theorem lastError_mem {e : E} (h : lastError values = some e) :
    .stoppedOrError (.error e) ∈ values := by
  induction values with
  | nil => simp [lastError] at h
  | cons slot values ih =>
    cases slot with
    | undefined => exact List.mem_cons_of_mem _ (ih h)
    | value v => exact List.mem_cons_of_mem _ (ih h)
    | stoppedOrError e' =>
      cases e' with
      | stopped => exact List.mem_cons_of_mem _ (ih h)
      | error e' =>
        cases hl : lastError values with
        | none =>
          simp only [lastError, hl, Option.none_or, Option.some.injEq] at h
          exact h ▸ List.mem_cons_self
        | some e'' =>
          simp only [lastError, hl, Option.some_or, Option.some.injEq] at h
          exact List.mem_cons_of_mem _ (ih (h ▸ hl))

theorem lastError_eq_none
    (h : ∀ e, (.stoppedOrError (.error e) : Slot V E) ∉ values) : lastError values = none := by
  cases hx : lastError values with
  | none => rfl
  | some e => exact absurd (lastError_mem hx) (h e)

theorem not_mem_of_lastError (h : lastError values = none) (e : E) :
    (.stoppedOrError (.error e) : Slot V E) ∉ values := by
  induction values with
  | nil => simp
  | cons slot values ih =>
    cases slot with
    | undefined => simpa using ih h
    | value v => simpa using ih h
    | stoppedOrError e' =>
      cases e' with
      | stopped => simpa using ih h
      | error e' => simp [lastError] at h

/-- The error at the highest index. -/
theorem lastError_eq {i : ℕ} {e : E} (hi : values[i]? = some (.stoppedOrError (.error e)))
    (hj : ∀ j, i < j → ∀ e', values[j]? ≠ some (Slot.stoppedOrError (StoppedOrError.error e'))) :
    lastError values = some e := by
  induction values generalizing i with
  | nil => simp at hi
  | cons slot values ih =>
    cases i with
    | zero =>
      obtain rfl : slot = .stoppedOrError (.error e) := by simpa using hi
      have hrest : lastError values = none := by
        refine lastError_eq_none fun e' hm => ?_
        obtain ⟨j, hje⟩ := List.mem_iff_getElem?.mp hm
        exact hj (j + 1) (by omega) e' (by simpa using hje)
      simp [lastError, hrest]
    | succ i =>
      have hrest := ih (i := i) (by simpa using hi) fun j hij e' => by
        simpa using hj (j + 1) (by omega) e'
      cases slot with
      | undefined => exact hrest
      | value v => exact hrest
      | stoppedOrError e' =>
        cases e' with
        | stopped => exact hrest
        | error e' => simp [lastError, hrest]

theorem getValues_eq (vs : List V) :
    getValues (vs.map fun v => (.value v : Slot V E)) = .ok vs := by
  induction vs with
  | nil => rfl
  | cons v vs ih => simp [getValues, ih]

theorem exists_map_start (h : ∀ c ∈ completions, ∃ v, c = .start v) :
    ∃ vs : List V, completions = vs.map .start := by
  induction completions with
  | nil => exact ⟨[], rfl⟩
  | cons c cs ih =>
    obtain ⟨v, rfl⟩ := h c List.mem_cons_self
    obtain ⟨vs, rfl⟩ := ih fun c hc => h c (List.mem_cons_of_mem _ hc)
    exact ⟨v :: vs, rfl⟩

/-- What the continuation has to be told, from how each eventual completed. -/
structure Result (completions : List (Signal V E)) (signal : Signal (List V) E) : Prop where
  started : ∀ vs, completions = vs.map .start → signal = .start vs
  stopped : .stop ∈ completions → signal = .stop
  failed : .stop ∉ completions → ∀ (i : ℕ) (e : E), completions[i]? = some (Signal.fail e) →
    (∀ j, i < j → ∀ e', completions[j]? ≠ some (Signal.fail e')) → signal = .fail e

theorem slot_eq_error {c : Signal V E} {e : E} :
    c.slot = .stoppedOrError (.error e) ↔ c = .fail e := by
  cases c <;> simp [Signal.slot]

theorem slot_eq_stopped {c : Signal V E} : c.slot = .stoppedOrError .stopped ↔ c = .stop := by
  cases c <;> simp [Signal.slot]

/-- Every mix of completions has one result, and no `CHECK` fails on the way to it. -/
theorem complete_eq (construct : Construct) {completion : Signal V E}
    (hc : completion ∈ completions) :
    ∃ signal, construct.complete (completions.map Signal.slot) completion = .ok signal ∧
      Result completions signal := by
  have hstopped : (.stoppedOrError .stopped : Slot V E) ∈ completions.map Signal.slot ↔
      .stop ∈ completions := by
    simp [List.mem_map, slot_eq_stopped]
  unfold Construct.complete
  rw [getStoppedOrErrorIfExists_eq]
  by_cases hs : .stop ∈ completions
  · rw [foldl_stopped none (hstopped.mpr hs)]
    refine ⟨.stop, rfl, ?_, fun _ => rfl, fun hn => absurd hs hn⟩
    rintro vs rfl
    simp at hs
  · rw [foldl_error (by simp) fun h => hs (hstopped.mp h)]
    have hlast : ∀ (i : ℕ) (e : E), completions[i]? = some (Signal.fail e) →
        (∀ j, i < j → ∀ e', completions[j]? ≠ some (Signal.fail e')) →
        lastError (completions.map Signal.slot) = some e := by
      intro i e hi hj
      refine lastError_eq (i := i) (by simp [hi, Signal.slot]) fun j hij e' hje => ?_
      rw [List.getElem?_map, Option.map_eq_some_iff] at hje
      obtain ⟨c, hcj, hce⟩ := hje
      exact hj j hij e' (slot_eq_error.mp hce ▸ hcj)
    cases hx : lastError (completions.map Signal.slot) with
    | some e =>
      refine ⟨.fail e, rfl, ?_, fun h => absurd h hs, fun _ i e' hi hj => ?_⟩
      · rintro vs rfl
        have hm := lastError_mem hx
        simp [Signal.slot] at hm
      · have := (hlast i e' hi hj).symm.trans hx
        simp only [Option.some.injEq] at this
        rw [this]
    | none =>
      have hall : ∀ c ∈ completions, ∃ v, c = .start v := by
        intro c hm
        cases c with
        | start v => exact ⟨v, rfl⟩
        | stop => exact absurd hm hs
        | fail e => exact (not_mem_of_lastError hx e (List.mem_map.mpr ⟨_, hm, rfl⟩)).elim
      obtain ⟨vs, rfl⟩ := exists_map_start hall
      refine ⟨.start vs, ?_, ?_, fun h => absurd h hs, ?_⟩
      · obtain ⟨v, -, rfl⟩ := List.mem_map.mp hc
        have hg : getValues ((vs.map Signal.start).map Signal.slot : List (Slot V E)) = .ok vs := by
          rw [List.map_map]
          exact getValues_eq vs
        simp only [Option.map_none, Option.none_or, hg]
      · intro ws hw
        rw [List.map_injective_iff.mpr (fun a b h => by simpa using h) hw]
      · intro _ i e hi
        rw [List.getElem?_map, Option.map_eq_some_iff] at hi
        obtain ⟨v, -, hv⟩ := hi
        simp at hv

end Values

section Counter

variable {construct : Construct} {forks i j : ℕ} {s : State V E} {c : Fiber.Control V E}
  {f : Fiber V E} {completion : Signal V E}

/-- The fiber has counted down. -/
def Fiber.Control.Counted : Fiber.Control V E → Prop
  | .completing _ | .interrupting | .triggering .. | .returned => True
  | _ => False

/-- What a fiber has done about its completion. -/
def Fiber.Fits (f : Fiber V E) (slot : Option (Slot V E)) : Prop :=
  match f.control with
  | .created | .running => f.completion = none
  | .writing c => f.completion = some c
  | .decrementing c | .completing c => f.completion = some c ∧ slot = some c.slot
  | .interrupting | .triggering .. | .returned => ∃ c, f.completion = some c ∧ slot = some c.slot

/-- The continuation has been called once, by the last fiber, when all had completed. -/
structure Called (s : State V E) : Prop where
  counter : s.counter = 0
  call : ∃ i signal completions, s.calls = [(some i, signal)] ∧ s.order.getLast? = some i ∧
    s.fibers.map Fiber.completion = completions.map some ∧ Result completions signal

/-- How far `Start()` has come with the fibers. -/
structure Layout (construct : Construct) (forks : ℕ) (s : State V E) : Prop where
  notStarted : s.start = .notStarted → s.fibers = [] ∧ s.values = []
  values : s.start ≠ .notStarted → s.values.length = forks
  building : ∀ index, s.start = .building index → s.fibers.length = index ∧
    (construct = .doAll → index = 0)
  submitting : ∀ index, s.start = .submitting index → s.fiber index = some .created ∧
    (construct = .forkJoin → s.fibers.length = index + 1) ∧
    (construct = .doAll → s.fibers.length = forks ∧
      ∀ j, index ≤ j → j < forks → s.fiber j = some .created)
  returned : s.start = .returned → s.fibers.length = forks
  size : s.fibers.length ≤ s.values.length

structure Inv (construct : Construct) (forks : ℕ) (s : State V E) : Prop
    extends Layout construct forks s where
  count : s.counter + s.order.length = s.values.length
  nodup : s.order.Nodup
  order : ∀ i, i ∈ s.order ↔ ∃ c, s.fiber i = some c ∧ c.Counted
  fits : ∀ (i : ℕ) (f : Fiber V E), s.fibers[i]? = some f → f.Fits s.values[i]?
  last : ∀ i c, s.fiber i = some (.completing c) →
    s.counter = 0 ∧ s.calls = [] ∧ s.order.getLast? = some i
  called : s.calls ≠ [] → Called s
  owed : s.counter = 0 → s.values ≠ [] →
    s.calls ≠ [] ∨ ∃ i c, s.fiber i = some (.completing c)
  failed : s.failed = none

theorem fiber_eq_some : s.fiber i = some c ↔ ∃ f, s.fibers[i]? = some f ∧ f.control = c := by
  simp [State.fiber]

theorem fiber_setControl (hc : s.fiber i = some c) (c' : Fiber.Control V E) (j : ℕ) :
    (s.setControl i c').fiber j = if j = i then some c' else s.fiber j := by
  obtain ⟨f, hf, -⟩ := fiber_eq_some.mp hc
  by_cases hij : j = i
  · subst hij
    simp [State.fiber, State.setControl, hf]
  · simp [State.fiber, State.setControl, hij, Ne.symm hij]

theorem Inv.lt_of_fiber (hc : s.fiber i = some c) : i < s.fibers.length := by
  obtain ⟨f, hf, -⟩ := fiber_eq_some.mp hc
  exact (List.getElem?_eq_some_iff.mp hf).1

/-- Once the counter is at zero every fiber exists and has counted down. -/
theorem Inv.all_counted (h : Inv construct forks s) (h0 : s.counter = 0) :
    s.fibers.length = s.values.length ∧
      ∀ i < s.fibers.length, ∃ c, s.fiber i = some c ∧ c.Counted := by
  have hsub : s.order.toFinset ⊆ Finset.range s.fibers.length := by
    intro i hi
    obtain ⟨c, hc, -⟩ := (h.order i).mp (List.mem_toFinset.mp hi)
    exact Finset.mem_range.mpr (Inv.lt_of_fiber hc)
  have hcard : s.order.toFinset.card = s.order.length := List.toFinset_card_of_nodup h.nodup
  have hle := Finset.card_le_card hsub
  rw [Finset.card_range] at hle
  have hcount := h.count
  have hsize := h.size
  refine ⟨by omega, fun i hi => (h.order i).mp ?_⟩
  have heq := Finset.eq_of_subset_of_card_le hsub (by rw [Finset.card_range]; omega)
  rw [← List.mem_toFinset, heq]
  exact Finset.mem_range.mpr hi

theorem Inv.counter_ne_zero (h : Inv construct forks s) (hc : s.fiber i = some c)
    (hn : ¬ c.Counted) : s.counter ≠ 0 := by
  intro h0
  obtain ⟨c', hc', hcounted⟩ := (h.all_counted h0).2 i (Inv.lt_of_fiber hc)
  rw [hc, Option.some.injEq] at hc'
  exact hn (hc' ▸ hcounted)

theorem Inv.not_called (h : Inv construct forks s) (h0 : s.counter ≠ 0) : s.calls = [] := by
  by_contra hc
  exact h0 (h.called hc).counter

theorem map_completion {fibers : List (Fiber V E)} (h : ∀ f ∈ fibers, f.completion ≠ none) :
    ∃ completions : List (Signal V E), fibers.map Fiber.completion = completions.map some := by
  induction fibers with
  | nil => exact ⟨[], rfl⟩
  | cons f fibers ih =>
    obtain ⟨c, hc⟩ := Option.ne_none_iff_exists'.mp (h f List.mem_cons_self)
    obtain ⟨cs, hcs⟩ := ih fun f hf => h f (List.mem_cons_of_mem _ hf)
    exact ⟨c :: cs, by simp [hc, hcs]⟩

theorem Fiber.Fits.counted {slot : Option (Slot V E)} (h : f.Fits slot)
    (hc : f.control.Counted) : ∃ c, f.completion = some c ∧ slot = some c.slot := by
  unfold Fiber.Fits at h
  cases hx : f.control <;> simp only [hx, Fiber.Control.Counted] at h hc
  case completing c => exact ⟨c, h⟩
  all_goals exact h

/-- The slots then are those of the completions. -/
theorem Inv.completions (h : Inv construct forks s) (h0 : s.counter = 0) :
    ∃ completions : List (Signal V E), s.fibers.map Fiber.completion = completions.map some ∧
      s.values = completions.map Signal.slot := by
  obtain ⟨hlen, hall⟩ := h.all_counted h0
  have hfits : ∀ (i : ℕ) (f : Fiber V E), s.fibers[i]? = some f →
      ∃ c, f.completion = some c ∧ s.values[i]? = some c.slot := by
    intro i f hf
    obtain ⟨c, hc, hcounted⟩ := hall i (List.getElem?_eq_some_iff.mp hf).1
    obtain ⟨f', hf', rfl⟩ := fiber_eq_some.mp hc
    rw [hf, Option.some.injEq] at hf'
    subst hf'
    exact (h.fits i f hf).counted hcounted
  obtain ⟨cs, hcs⟩ := map_completion fun f hm => by
    obtain ⟨i, hi⟩ := List.mem_iff_getElem?.mp hm
    obtain ⟨c, hc, -⟩ := hfits i f hi
    simp [hc]
  refine ⟨cs, hcs, List.ext_getElem? fun i => ?_⟩
  have hi : (s.fibers[i]?).map Fiber.completion = (cs[i]?).map some := by
    rw [← List.getElem?_map, hcs, List.getElem?_map]
  cases hf : s.fibers[i]? with
  | none =>
    have hge : s.fibers.length ≤ i := List.getElem?_eq_none_iff.mp hf
    have hnone : cs[i]? = none := by simpa [hf] using hi.symm
    rw [List.getElem?_map, hnone, List.getElem?_eq_none (by omega)]
    rfl
  | some f =>
    obtain ⟨c, hc, hv⟩ := hfits i f hf
    have hsome : cs[i]? = some c := by
      rw [hf, Option.map_some, hc] at hi
      cases hx : cs[i]? with
      | none => simp [hx] at hi
      | some c' => simpa [hx] using hi.symm
    rw [hv, List.getElem?_map, hsome]
    rfl

end Counter

section Steps

variable {construct : Construct} {forks i j index : ℕ} {s t : State V E} {c c' : Fiber.Control V E}
  {completion : Signal V E}

theorem Layout.move (h : Layout construct forks s) (hs : t.start = s.start)
    (hl : t.fibers.length = s.fibers.length) (hv : t.values.length = s.values.length)
    (hc : ∀ i, s.fiber i = some .created → t.fiber i = some .created) :
    Layout construct forks t where
  notStarted hn := by
    obtain ⟨hf, hv'⟩ := h.notStarted (hs ▸ hn)
    rw [hf] at hl
    rw [hv'] at hv
    exact ⟨List.eq_nil_of_length_eq_zero hl, List.eq_nil_of_length_eq_zero hv⟩
  values hn := hv.trans (h.values (hs ▸ hn))
  building index hi := hl ▸ h.building index (hs ▸ hi)
  submitting index hi := by
    obtain ⟨h1, h2, h3⟩ := h.submitting index (hs ▸ hi)
    exact ⟨hc _ h1, hl ▸ h2, fun hd => ⟨hl ▸ (h3 hd).1, fun j hij hj => hc _ ((h3 hd).2 j hij hj)⟩⟩
  returned hr := hl.trans (h.returned (hs ▸ hr))
  size := by
    have := h.size
    omega

theorem inv_init : Inv construct forks (State.init V E) := by
  refine ⟨⟨?_, ?_, ?_, ?_, ?_, ?_⟩, ?_, ?_, ?_, ?_, ?_, ?_, ?_, ?_⟩ <;>
    simp [State.init, State.fiber]

theorem use_shape (s : State V E) (i : ℕ) : ∃ used, s.use i = { s with used := used } := by
  unfold State.use
  split
  · exact ⟨_, rfl⟩
  · exact ⟨_, rfl⟩

/-- What the rest of a fiber's life depends on. -/
def Fiber.part (f : Fiber V E) : Fiber.Control V E × Option (Signal V E) :=
  (f.control, f.completion)

theorem triggerFiber_shape (s : State V E) (j : ℕ) :
    ∃ fibers late, s.triggerFiber j = { s with fibers := fibers, late := late } ∧
      fibers.map Fiber.part = s.fibers.map Fiber.part := by
  unfold State.triggerFiber
  split
  · next f hf =>
    split
    · exact ⟨_, _, rfl, rfl⟩
    · refine ⟨_, _, rfl, List.ext_getElem? fun k => ?_⟩
      simp only [List.getElem?_map, List.getElem?_set]
      by_cases hjk : j = k
      · subst hjk
        rw [if_pos rfl, if_pos (List.getElem?_eq_some_iff.mp hf).1, hf]
        rfl
      · rw [if_neg hjk]
  · exact ⟨_, _, rfl, rfl⟩

theorem fiber_of_part {fibers : List (Fiber V E)}
    (hp : fibers.map Fiber.part = s.fibers.map Fiber.part) (i : ℕ) :
    fibers[i]?.map Fiber.control = s.fiber i := by
  have hi := congrArg (fun l => (l[i]?).map Prod.fst) hp
  simpa [List.getElem?_map, Option.map_map, Function.comp_def, Fiber.part, State.fiber] using hi

/-- Triggering interrupts changes nothing here. -/
theorem Inv.of_part (h : Inv construct forks s) {fibers : List (Fiber V E)}
    (hp : fibers.map Fiber.part = s.fibers.map Fiber.part) :
    Inv construct forks { s with fibers := fibers } := by
  have hlen : fibers.length = s.fibers.length := by
    simpa using congrArg List.length hp
  have hfiber : ∀ i, State.fiber { s with fibers := fibers } i = s.fiber i := fiber_of_part hp
  have hcompletion : fibers.map Fiber.completion = s.fibers.map Fiber.completion := by
    have := congrArg (List.map Prod.snd) hp
    simpa [List.map_map, Function.comp_def, Fiber.part] using this
  exact { h with
    toLayout := h.toLayout.move rfl hlen rfl fun i hi => (hfiber i).trans hi
    order := fun i => by
      rw [hfiber]
      exact h.order i
    fits := fun i f hf => by
      have hi := congrArg (fun l => l[i]?) hp
      simp only [List.getElem?_map] at hi
      have hf' : fibers[i]? = some f := hf
      rw [hf', Option.map_some] at hi
      obtain ⟨f', hf', hpart⟩ := Option.map_eq_some_iff.mp hi.symm
      have hfits := h.fits i f' hf'
      simp only [Fiber.part, Prod.mk.injEq] at hpart
      unfold Fiber.Fits at hfits ⊢
      rw [hpart.1, hpart.2] at hfits
      exact hfits
    last := fun i c hi => h.last i c ((hfiber i).symm.trans hi)
    called := fun hn => by
      obtain ⟨h0, i, signal, cs, hc, hl, hm, hr⟩ := h.called hn
      exact ⟨h0, i, signal, cs, hc, hl, hcompletion.trans hm, hr⟩
    owed := fun h0 hv => (h.owed h0 hv).imp_right fun ⟨i, c, hi⟩ => ⟨i, c, (hfiber i).trans hi⟩ }

theorem Inv.used (h : Inv construct forks s) (used : List ℕ) :
    Inv construct forks { s with used := used } :=
  { h with called := fun hn => { h.called hn with } }

theorem Inv.triggerFiber (h : Inv construct forks s) (j : ℕ) :
    Inv construct forks (s.triggerFiber j) := by
  obtain ⟨fibers, late, hs, hp⟩ := triggerFiber_shape s j
  rw [hs]
  exact { h.of_part hp with called := fun hn => { (h.of_part hp).called hn with } }

theorem fiber_triggerFiber (s : State V E) (i j : ℕ) : (s.triggerFiber j).fiber i = s.fiber i := by
  obtain ⟨fibers, late, hs, hp⟩ := triggerFiber_shape s j
  rw [hs]
  exact fiber_of_part hp i

theorem length_setControl (s : State V E) (i : ℕ) (c : Fiber.Control V E) :
    (s.setControl i c).fibers.length = s.fibers.length := by
  simp [State.setControl]

theorem completion_setControl (s : State V E) (i : ℕ) (c : Fiber.Control V E) :
    (s.setControl i c).fibers.map Fiber.completion = s.fibers.map Fiber.completion := by
  refine List.ext_getElem? fun j => ?_
  simp only [State.setControl, List.getElem?_map, List.getElem?_modify]
  by_cases hij : i = j <;> cases s.fibers[j]? <;> simp [hij]

theorem created_setControl (hc : s.fiber i = some c) (hn : c ≠ .created) (j : ℕ)
    (hj : s.fiber j = some .created) : (s.setControl i c').fiber j = some .created := by
  have hij : j ≠ i := by
    rintro rfl
    rw [hc, Option.some.injEq] at hj
    exact hn hj
  rw [fiber_setControl hc, if_neg hij, hj]

theorem fits_setControl {values : List (Slot V E)} (hc : s.fiber i = some c)
    (hf : ∀ (j : ℕ) (f : Fiber V E), s.fibers[j]? = some f → j ≠ i → f.Fits values[j]?)
    (hi : ∀ f : Fiber V E, s.fibers[i]? = some f → f.control = c →
      Fiber.Fits { f with control := c' } values[i]?)
    (j : ℕ) (f : Fiber V E) (hj : (s.setControl i c').fibers[j]? = some f) : f.Fits values[j]? := by
  simp only [State.setControl, List.getElem?_modify] at hj
  by_cases hij : i = j
  · subst hij
    obtain ⟨f', hf', hcf⟩ := fiber_eq_some.mp hc
    rw [hf'] at hj
    simp only [if_true, Option.map_eq_map, Option.map_some, Option.some.injEq] at hj
    exact hj ▸ hi f' hf' hcf
  · exact hf j f (by simpa [hij] using hj) (Ne.symm hij)

section Moved

variable {fiber : ℕ → Option (Fiber.Control V E)} (h : Inv construct forks s)
  (hfiber : ∀ j, fiber j = if j = i then some c' else s.fiber j)
include h hfiber

/-- Where a fiber moves without counting down, the order is still that of the fibers that have. -/
theorem Inv.order_moved (hc : s.fiber i = some c) (hcount : c'.Counted ↔ c.Counted) (j : ℕ) :
    j ∈ s.order ↔ ∃ x, fiber j = some x ∧ x.Counted := by
  rw [h.order, hfiber]
  by_cases hij : j = i
  · subst hij
    rw [if_pos rfl, hc]
    constructor
    · rintro ⟨x, hx, hcounted⟩
      obtain rfl := Option.some.inj hx
      exact ⟨c', rfl, hcount.mpr hcounted⟩
    · rintro ⟨x, hx, hcounted⟩
      obtain rfl := Option.some.inj hx
      exact ⟨c, rfl, hcount.mp hcounted⟩
  · rw [if_neg hij]

theorem Inv.last_moved {x : Signal V E} (hn : ∀ x, c' ≠ .completing x)
    (hj : fiber j = some (.completing x)) :
    s.counter = 0 ∧ s.calls = [] ∧ s.order.getLast? = some j := by
  rw [hfiber] at hj
  split at hj
  · exact absurd (Option.some.inj hj) (hn x)
  · exact h.last j x hj

end Moved

/-- A fiber that has counted down moves on. -/
theorem Inv.setControl (h : Inv construct forks s) (hc : s.fiber i = some c) (hcount : c.Counted)
    (hn : ∀ x, c ≠ .completing x) (hcount' : c'.Counted) (hn' : ∀ x, c' ≠ .completing x) :
    Inv construct forks (s.setControl i c') := by
  have hfiber := fiber_setControl hc c'
  have hcreated : c ≠ .created := by
    rintro rfl
    exact hcount
  exact { h with
    toLayout := h.toLayout.move rfl (length_setControl ..) rfl
      (created_setControl hc hcreated)
    order := h.order_moved hfiber hc (iff_of_true hcount' hcount)
    fits := fun j f hj => fits_setControl hc (fun j f hf _ => h.fits j f hf) (fun f hf hfc => by
      obtain ⟨x, hx, hv⟩ := (h.fits i f hf).counted (hfc ▸ hcount)
      cases c' with
      | interrupting | triggering | returned => exact ⟨x, hx, hv⟩
      | completing x => exact absurd rfl (hn' x)
      | created | running | writing | decrementing => exact hcount'.elim) j f hj
    last := fun j x hj => h.last_moved hfiber hn' hj
    called := fun hcalls => by
      obtain ⟨h0, k, signal, cs, hk, hl, hm, hr⟩ := h.called hcalls
      exact ⟨h0, k, signal, cs, hk, hl, (completion_setControl ..).trans hm, hr⟩
    owed := fun h0 hv => (h.owed h0 hv).imp_right fun ⟨j, x, hj⟩ => by
      refine ⟨j, x, ?_⟩
      have hij : j ≠ i := by
        rintro rfl
        rw [hc, Option.some.injEq] at hj
        exact hn x hj
      rw [hfiber, if_neg hij, hj] }

theorem fiber_completeEventual (hc : s.fiber i = some c) (completion : Signal V E) (j : ℕ) :
    (s.completeEventual i completion).fiber j =
      if j = i then some (.writing completion) else s.fiber j := by
  obtain ⟨f, hf, -⟩ := fiber_eq_some.mp hc
  by_cases hij : j = i
  · subst hij
    simp [State.fiber, State.completeEventual, hf]
  · simp [State.fiber, State.completeEventual, hij, Ne.symm hij]

theorem inv_complete (h : Inv construct forks s) (hc : s.fiber i = some .running) :
    Inv construct forks (s.completeEventual i completion) := by
  have hfiber := fiber_completeEventual hc completion
  have h0 := h.counter_ne_zero hc (by simp [Fiber.Control.Counted])
  exact { h with
    toLayout := h.toLayout.move rfl (by simp [State.completeEventual]) rfl fun j hj => by
      have hij : j ≠ i := by
        rintro rfl
        simp [hc] at hj
      rw [hfiber, if_neg hij, hj]
    order := h.order_moved hfiber hc (by simp [Fiber.Control.Counted])
    fits := fun j f hj => by
      simp only [State.completeEventual, List.getElem?_modify] at hj
      by_cases hij : i = j
      · subst hij
        obtain ⟨f', hf', -⟩ := fiber_eq_some.mp hc
        rw [hf'] at hj
        simp only [if_true, Option.map_eq_map, Option.map_some, Option.some.injEq] at hj
        exact hj ▸ rfl
      · exact h.fits j f (by simpa [hij] using hj)
    last := fun j x hj => h.last_moved hfiber (by simp) hj
    called := fun hn => absurd (h.called hn).counter h0
    owed := fun hn => absurd hn h0 }

theorem not_mem_order (h : Inv construct forks s) (hc : s.fiber i = some c)
    (hn : ¬ c.Counted) : i ∉ s.order := by
  intro hm
  obtain ⟨c', hx, hcount⟩ := (h.order i).mp hm
  rw [hc, Option.some.injEq] at hx
  exact hn (hx ▸ hcount)

theorem write_eq (s : State V E) (i : ℕ) (completion : Signal V E) :
    ∃ used, s.write i completion =
      { State.setControl { s with values := s.values.set i completion.slot } i
          (.decrementing completion) with used := used } := by
  obtain ⟨used, hu⟩ := use_shape s i
  exact ⟨used, by rw [State.write, hu]; rfl⟩

theorem inv_write (h : Inv construct forks s) (hc : s.fiber i = some (.writing completion)) :
    Inv construct forks (s.write i completion) := by
  obtain ⟨used, hu⟩ := write_eq s i completion
  have hx : State.fiber { s with values := s.values.set i completion.slot } i =
    some (.writing completion) := hc
  have hnc : ¬ (Fiber.Control.writing completion).Counted := by simp [Fiber.Control.Counted]
  have h0 := h.counter_ne_zero hc hnc
  have hfiber := fiber_setControl hx (.decrementing completion)
  have hlt : i < s.values.length := by
    have := h.size
    have := Inv.lt_of_fiber hc
    omega
  have hinv : Inv construct forks (State.setControl
      { s with values := s.values.set i completion.slot } i (.decrementing completion)) :=
    { h with
      toLayout := h.toLayout.move rfl (length_setControl ..) (by simp [State.setControl])
        (created_setControl hx (by simp))
      count := by
        have := h.count
        simpa [State.setControl] using this
      order := h.order_moved hfiber hc (by simp [Fiber.Control.Counted])
      fits := fits_setControl hx (fun j f hf hij => by
        change f.Fits (s.values.set i _)[j]?
        rw [List.getElem?_set_ne (Ne.symm hij)]
        exact h.fits j f hf) fun f hf hfc => by
          have hfit := h.fits i f hf
          simp only [Fiber.Fits, hfc] at hfit
          exact ⟨hfit, List.getElem?_set_self hlt⟩
      last := fun j x hj => h.last_moved hfiber (by simp) hj
      called := fun hn => absurd (h.called hn).counter h0
      owed := fun hn => absurd hn h0 }
  rw [hu]
  exact hinv.used used

theorem decrement_eq (s : State V E) (i : ℕ) (completion : Signal V E) :
    ∃ used, s.decrement i completion =
      { State.setControl { s with counter := s.counter - 1, order := s.order ++ [i] } i
          (State.afterDecrement s.counter completion) with used := used } := by
  obtain ⟨used, hu⟩ := use_shape s i
  exact ⟨used, by rw [State.decrement, hu]; rfl⟩

theorem counted_afterDecrement (counter : ℕ) (completion : Signal V E) :
    (State.afterDecrement counter completion).Counted := by
  unfold State.afterDecrement
  split
  · trivial
  · cases completion <;> trivial

theorem afterDecrement_completing {counter : ℕ} {x : Signal V E}
    (h : State.afterDecrement counter completion = .completing x) : counter = 1 := by
  unfold State.afterDecrement at h
  split at h
  · next h1 => exact h1
  · cases completion <;> simp at h

theorem fits_afterDecrement {f : Fiber V E} {slot : Option (Slot V E)} (counter : ℕ)
    (h : f.completion = some completion ∧ slot = some completion.slot) :
    Fiber.Fits { f with control := State.afterDecrement counter completion } slot := by
  unfold State.afterDecrement
  split
  · exact h
  · cases completion <;> exact ⟨_, h⟩

theorem inv_decrement (h : Inv construct forks s)
    (hc : s.fiber i = some (.decrementing completion)) :
    Inv construct forks (s.decrement i completion) := by
  obtain ⟨used, hu⟩ := decrement_eq s i completion
  have hx : State.fiber { s with counter := s.counter - 1, order := s.order ++ [i] } i =
    some (.decrementing completion) := hc
  have hnc : ¬ (Fiber.Control.decrementing completion).Counted := by simp [Fiber.Control.Counted]
  have h0 := h.counter_ne_zero hc hnc
  have hcalls := h.not_called h0
  have hfiber := fiber_setControl hx (State.afterDecrement s.counter completion)
  have hinv : Inv construct forks (State.setControl
      { s with counter := s.counter - 1, order := s.order ++ [i] } i
      (State.afterDecrement s.counter completion)) :=
    { h with
      toLayout := h.toLayout.move rfl (length_setControl ..) rfl (created_setControl hx (by simp))
      count := by
        have := h.count
        simp only [State.setControl, List.length_append, List.length_singleton]
        omega
      nodup := by
        have hnot := not_mem_order h hc hnc
        have := List.nodup_append.mpr ⟨h.nodup, List.nodup_singleton i, fun a ha b hb => by
          rintro rfl
          exact hnot (List.mem_singleton.mp hb ▸ ha)⟩
        exact this
      order := fun j => by
        rw [hfiber]
        change j ∈ s.order ++ [i] ↔ _
        by_cases hij : j = i
        · subst hij
          rw [if_pos rfl]
          exact iff_of_true (by simp) ⟨_, rfl, counted_afterDecrement ..⟩
        · rw [if_neg hij, List.mem_append, List.mem_singleton, or_iff_left hij]
          exact h.order j
      fits := fits_setControl hx (fun j f hf _ => h.fits j f hf)
        fun f hf hfc => by
          have hfit := h.fits i f hf
          simp only [Fiber.Fits, hfc] at hfit
          exact fits_afterDecrement s.counter hfit
      last := fun j x hj => by
        rw [hfiber] at hj
        split at hj
        · next hij =>
          simp only [Option.some.injEq] at hj
          have h1 := afterDecrement_completing hj
          refine ⟨?_, hcalls, ?_⟩
          · change s.counter - 1 = 0
            omega
          · subst hij
            exact List.getLast?_concat
        · exact absurd (h.last j x hj).1 h0
      called := fun hn => absurd hcalls hn
      owed := fun hn _ => by
        refine Or.inr ⟨i, completion, ?_⟩
        have h1 : s.counter = 1 := by
          have hn' : s.counter - 1 = 0 := hn
          omega
        rw [hfiber, if_pos rfl]
        exact congrArg some (if_pos h1) }
  rw [hu]
  exact hinv.used used

theorem inv_call (h : Inv construct forks s) (hc : s.fiber i = some (.completing completion)) :
    Inv construct forks (s.call construct i completion) := by
  obtain ⟨h0, hcalls, hlast⟩ := h.last i completion hc
  obtain ⟨cs, hcs, hvalues⟩ := h.completions h0
  have hmem : completion ∈ cs := by
    obtain ⟨f, hf, hfc⟩ := fiber_eq_some.mp hc
    have hfit := h.fits i f hf
    simp only [Fiber.Fits, hfc] at hfit
    have hm : some completion ∈ s.fibers.map Fiber.completion :=
      hfit.1 ▸ List.mem_map_of_mem (List.mem_of_getElem? hf)
    rw [hcs] at hm
    simpa using hm
  obtain ⟨signal, hsignal, hresult⟩ := complete_eq construct hmem
  have hs : s.call construct i completion =
      { s.setControl i .returned with calls := s.calls ++ [(some i, signal)] } := by
    simp [State.call, hvalues, hsignal]
  have hfiber := fiber_setControl hc .returned
  have hcalled : Called
      { s.setControl i .returned with calls := s.calls ++ [(some i, signal)] } :=
    ⟨h0, i, signal, cs, by simp [hcalls], hlast, (completion_setControl ..).trans hcs, hresult⟩
  rw [hs]
  exact { h with
    toLayout := h.toLayout.move rfl (length_setControl ..) rfl (created_setControl hc (by simp))
    order := h.order_moved hfiber hc (iff_of_true trivial trivial)
    fits := fits_setControl hc (fun j f hf _ => h.fits j f hf) fun f hf hfc => by
      have hfit := h.fits i f hf
      simp only [Fiber.Fits, hfc] at hfit
      exact ⟨completion, hfit⟩
    last := fun j x hj => by
      change (s.setControl i .returned).fiber j = _ at hj
      rw [hfiber] at hj
      split at hj
      · simp at hj
      · next hij =>
        have := (h.last j x hj).2.2
        rw [hlast, Option.some.injEq] at this
        exact absurd this.symm hij
    called := fun _ => hcalled
    owed := fun _ _ => Or.inl (by simp) }

theorem counted_nextControl (j n : ℕ) : (State.nextControl j n : Fiber.Control V E).Counted := by
  unfold State.nextControl
  split <;> trivial

theorem nextControl_ne (j n : ℕ) (x : Signal V E) : State.nextControl j n ≠ .completing x := by
  unfold State.nextControl
  split <;> simp

theorem inv_interrupts (h : Inv construct forks s) (hc : s.fiber i = some .interrupting) :
    Inv construct forks (s.interrupts i) := by
  obtain ⟨used, hu⟩ := use_shape s i
  have hinv := (h.used used).setControl hc trivial (by simp)
    (counted_nextControl 0 s.fibers.length) fun x => nextControl_ne 0 s.fibers.length x
  rw [State.interrupts, hu]
  exact hinv

theorem inv_triggers (h : Inv construct forks s) {n : ℕ}
    (hc : s.fiber i = some (.triggering j n)) : Inv construct forks (s.triggers i j n) := by
  obtain ⟨used, hu⟩ := use_shape s i
  have hc' : ((s.use i).triggerFiber j).fiber i = some (.triggering j n) := by
    rw [fiber_triggerFiber, hu]
    exact hc
  have hinv : Inv construct forks (s.use i) := hu ▸ h.used used
  exact (hinv.triggerFiber j).setControl hc' trivial (by simp) (counted_nextControl ..)
    fun x => nextControl_ne _ _ x

theorem fiber_append (s : State V E) (n j : ℕ) (start : Start) :
    State.fiber { s with fibers := s.fibers ++ List.replicate n State.newFiber, start := start } j =
      if j < s.fibers.length then s.fiber j
      else if j < s.fibers.length + n then some .created else none := by
  unfold State.fiber
  by_cases hj : j < s.fibers.length
  · rw [if_pos hj, List.getElem?_append_left hj]
  · rw [if_neg hj, List.getElem?_append_right (by omega), List.getElem?_replicate]
    by_cases hn : j < s.fibers.length + n
    · rw [if_pos (by omega), if_pos hn]
      rfl
    · rw [if_neg (by omega), if_neg hn]
      rfl

/-- The fibers that `Start()` makes at once: all of them, or one. -/
theorem Inv.append (h : Inv construct forks s) (hs : s.start = .building index) {n : ℕ}
    (hn : 0 < n) (hle : index + n ≤ forks) (hd : construct = .doAll → n = forks)
    (hf : construct = .forkJoin → n = 1) :
    Inv construct forks
      { s with
        fibers := s.fibers ++ List.replicate n State.newFiber, start := .submitting index } := by
  obtain ⟨hlen, hzero⟩ := h.building index hs
  have hv : s.values.length = forks := h.values (by simp [hs])
  have h0 : s.counter ≠ 0 := fun h0 => by
    have := (h.all_counted h0).1
    omega
  have hfiber := fun j => fiber_append s n j (.submitting index)
  have hlen' : (s.fibers ++ List.replicate n (State.newFiber : Fiber V E)).length = index + n := by
    simp [hlen]
  exact { h with
    notStarted := by simp
    values := fun _ => hv
    building := by simp
    submitting := fun k hk => by
      obtain rfl : index = k := by simpa using hk
      refine ⟨?_, fun hx => hlen'.trans (by rw [hf hx]), fun hx => ⟨?_, fun j hj hjf => ?_⟩⟩
      · rw [hfiber, if_neg (by omega), if_pos (by omega)]
      · rw [hlen', hzero hx, hd hx, Nat.zero_add]
      · have := hzero hx
        have := hd hx
        rw [hfiber, if_neg (by omega), if_pos (by omega)]
    returned := by simp
    size := by
      change (s.fibers ++ _).length ≤ s.values.length
      omega
    order := fun j => by
      change j ∈ s.order ↔ _
      rw [hfiber, h.order]
      by_cases hj : j < s.fibers.length
      · rw [if_pos hj]
      · rw [if_neg hj]
        refine iff_of_false (fun ⟨c, hc, _⟩ => hj (Inv.lt_of_fiber hc)) ?_
        rintro ⟨c, hc, hcount⟩
        split at hc
        · rw [Option.some.injEq] at hc
          exact (hc ▸ hcount : (Fiber.Control.created : Fiber.Control V E).Counted)
        · simp at hc
    fits := fun j f hj => by
      have hj' : (s.fibers ++ List.replicate n State.newFiber)[j]? = some f := hj
      rcases Nat.lt_or_ge j s.fibers.length with hlt | hge
      · rw [List.getElem?_append_left hlt] at hj'
        exact h.fits j f hj'
      · rw [List.getElem?_append_right hge] at hj'
        obtain rfl := List.eq_of_mem_replicate (List.mem_of_getElem? hj')
        rfl
    last := fun j x hj => by
      rw [hfiber] at hj
      split at hj
      · exact absurd (h.last j x hj).1 h0
      · split at hj <;> simp at hj
    called := fun hx => absurd (h.called hx).counter h0
    owed := fun hx => absurd hx h0 }

theorem inv_build (h : Inv construct forks s) (hs : s.start = .building index)
    (hlt : index < forks) : Inv construct forks (s.build construct forks index) := by
  obtain ⟨hlen, hzero⟩ := h.building index hs
  cases construct with
  | doAll =>
    obtain rfl := hzero rfl
    have hnil : s.fibers = [] := List.eq_nil_of_length_eq_zero hlen
    have hinv := h.append hs hlt (by omega) (fun _ => rfl) (by simp)
    rw [hnil, List.nil_append] at hinv
    exact hinv
  | forkJoin => exact h.append hs Nat.one_pos hlt (by simp) fun _ => rfl

theorem inv_running (h : Inv construct forks s) (hc : s.fiber i = some .created) (start : Start)
    (hl : Layout construct forks { s.setControl i .running with start := start }) :
    Inv construct forks { s.setControl i .running with start := start } := by
  have hfiber := fiber_setControl hc .running
  have h0 := h.counter_ne_zero hc (by simp [Fiber.Control.Counted])
  exact { h with
    toLayout := hl
    order := h.order_moved hfiber hc (by simp [Fiber.Control.Counted])
    fits := fits_setControl hc (fun j f hf _ => h.fits j f hf) fun f hf hfc => by
      have hfit := h.fits i f hf
      simp only [Fiber.Fits, hfc] at hfit
      exact hfit
    last := fun j x hj => h.last_moved hfiber (by simp) hj
    called := fun hx => absurd (h.called hx).counter h0
    owed := fun hx => absurd hx h0 }

theorem inv_submit (h : Inv construct forks s) (hs : s.start = .submitting index) :
    Inv construct forks (s.submit construct forks index) := by
  obtain ⟨hc, hfork, hdo⟩ := h.submitting index hs
  have hlen := length_setControl s index .running
  have hv : s.values.length = forks := h.values (by simp [hs])
  have hsize := h.size
  refine inv_running h hc _ ?_
  cases construct with
  | doAll =>
    obtain ⟨hforks, hrest⟩ := hdo rfl
    dsimp only
    split
    · next hlt =>
      refine ⟨by simp, fun _ => hv, by simp, fun k hk => ?_, by simp, hlen.trans_le hsize⟩
      obtain rfl : index + 1 = k := by simpa using hk
      have hcreated : ∀ j, index + 1 ≤ j → j < forks →
          (s.setControl index .running).fiber j = some .created := by
        intro j hj hjf
        rw [fiber_setControl hc, if_neg (by omega)]
        exact hrest j (by omega) hjf
      exact ⟨hcreated _ le_rfl hlt, by simp, fun _ => ⟨hlen.trans hforks, hcreated⟩⟩
    · exact ⟨by simp, fun _ => hv, by simp, by simp, fun _ => hlen.trans hforks,
        hlen.trans_le hsize⟩
  | forkJoin =>
    refine ⟨by simp, fun _ => hv, fun k hk => ⟨?_, by simp⟩, by simp, by simp,
      hlen.trans_le hsize⟩
    obtain rfl : index + 1 = k := by simpa using hk
    exact hlen.trans (hfork rfl)

theorem inv_startReturns (h : Inv construct forks s) (hs : s.start = .building forks) :
    Inv construct forks { s with start := .returned } :=
  { h with
    notStarted := by simp
    values := fun _ => h.values (by simp [hs])
    building := by simp
    submitting := by simp
    returned := fun _ => (h.building forks hs).1
    called := fun hn => { h.called hn with } }

theorem Inv.calls_of_notStarted (h : Inv construct forks s) (hs : s.start = .notStarted) :
    s.calls = [] := by
  by_contra hn
  obtain ⟨i, signal, cs, -, hlast, -, -⟩ := (h.called hn).call
  have hcount := h.count
  rw [(h.notStarted hs).2, List.length_nil] at hcount
  have hnil : s.order = [] := List.eq_nil_of_length_eq_zero (by omega)
  simp [hnil] at hlast

theorem inv_begin (h : Inv construct forks s) (hs : s.start = .notStarted)
    {installed : Option Bool} (hi : installed ≠ some false) :
    Inv construct forks (s.begin forks installed) := by
  obtain ⟨hfibers, hvalues⟩ := h.notStarted hs
  have hfiber : ∀ j, s.fiber j = none := by simp [State.fiber, hfibers]
  have hcount := h.count
  rw [hvalues, List.length_nil] at hcount
  have hcalls := h.calls_of_notStarted hs
  have hinv : Inv construct forks
      { s with
        start := .building 0, values := List.replicate forks .undefined, counter := forks
        handler := if installed.isSome then .installed else .uninstalled } :=
    { h with
      notStarted := by simp
      values := by simp
      building := fun index hk => by
        obtain rfl : 0 = index := by simpa using hk
        simp [hfibers]
      submitting := by simp
      returned := by simp
      size := by simp [hfibers]
      count := by
        simp only [List.length_replicate]
        omega
      fits := by simp [hfibers]
      last := fun j x hj => by
        have hnone : s.fiber j = some (.completing x) := hj
        rw [hfiber] at hnone
        simp at hnone
      called := fun hn => absurd hcalls hn
      owed := fun h0 hn => by
        simp only at h0
        simp [h0] at hn }
  cases installed with
  | none => exact hinv
  | some b =>
    cases b with
    | true => exact hinv
    | false => exact absurd rfl hi

theorem Inv.handler (h : Inv construct forks s) (handler : Handler) (missing : Bool) :
    Inv construct forks { s with handler := handler, missing := missing } :=
  { h with called := fun hn => { h.called hn with } }

/-- `Start()` is not told that the interrupt has already been triggered. -/
def Uninterrupted (_ : State V E) : Label V E → Prop
  | .start installed => installed ≠ some false
  | _ => True

theorem inv_next {l : Label V E} (h : Inv construct forks s) (he : Enabled construct forks s l)
    (hl : Uninterrupted s l) : Inv construct forks (next construct forks s l) := by
  cases l with
  | start installed => exact inv_begin h he hl
  | trigger => exact h.handler ..
  | complete i completion => exact inv_complete h he
  | build index => exact inv_build h he.1 he.2
  | submit index => exact inv_submit h he
  | startReturns => exact inv_startReturns h he.2
  | handlerInterrupts =>
    change Inv construct forks (s.handlerInterrupts construct)
    unfold State.handlerInterrupts
    split
    · exact h.handler ..
    · exact h.handler ..
  | handlerTriggers j n => exact (h.triggerFiber j).handler ..
  | write i completion => exact inv_write h he
  | decrement i completion => exact inv_decrement h he
  | call i completion => exact inv_call h he
  | interrupts i => exact inv_interrupts h he
  | triggers i j n => exact inv_triggers h he

theorem inv_reachable (h : ((machine construct forks V E).restrict Uninterrupted).Reachable s) :
    Inv construct forks s := by
  refine Machine.Reachable.invariant (fun s hi => ?_) (fun s l hs he => ?_) h
  · obtain rfl : s = State.init V E := hi
    exact inv_init
  · exact inv_next hs he.1 he.2

end Steps

end Eventuals.Join
