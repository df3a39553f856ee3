import Mathlib.Tactic.Ring
import Eventuals.JoinInvariant

/-! The continuation of `DoAll()` and `ForkJoin()` is told once, and it is told if there is a fiber
to do it. -/
namespace Eventuals.Join

open Transition (Machine)

variable {V E : Type*} {construct : Construct} {forks i j n : ℕ} {s t : State V E}
  {c c' : Fiber.Control V E}

section Weight

/-- What a fiber still has to do. -/
def controlWeight (forks : ℕ) : Fiber.Control V E → ℕ
  | .created => forks + 8
  | .running => forks + 7
  | .writing _ => forks + 6
  | .decrementing _ => forks + 5
  | .interrupting => forks + 4
  | .triggering j n => n - j + 1
  | .completing _ => 1
  | .returned => 0

def startWeight (forks : ℕ) : Construct → Start → ℕ
  | _, .notStarted => forks * (forks + 10) + forks + 10
  | _, .building index => (forks - index) * (forks + 10) + 1
  | .doAll, .submitting index => forks - index
  | .forkJoin, .submitting index => (forks - (index + 1)) * (forks + 10) + 2
  | _, .returned => 0

def handlerWeight (forks : ℕ) : Handler → ℕ
  | .installed => forks + 3
  | .interrupting => forks + 2
  | .triggering j n => n - j + 1
  | .uninstalled | .returned => 0

def fibersWeight (forks : ℕ) (fibers : List (Fiber V E)) : ℕ :=
  (fibers.map fun f => controlWeight forks f.control).sum

def State.weight (construct : Construct) (forks : ℕ) (s : State V E) : ℕ :=
  startWeight forks construct s.start + handlerWeight forks s.handler + fibersWeight forks s.fibers

theorem fibersWeight_modify (forks : ℕ) {fibers : List (Fiber V E)} {f : Fiber V E}
    (hf : fibers[i]? = some f)
    (g : Fiber V E → Fiber V E) :
    fibersWeight forks (fibers.modify i g) + controlWeight forks f.control =
      fibersWeight forks fibers + controlWeight forks (g f).control := by
  induction fibers generalizing i with
  | nil => simp at hf
  | cons x fibers ih =>
    cases i with
    | zero =>
      obtain rfl : x = f := by simpa using hf
      simp only [fibersWeight, List.modify_zero_cons, List.map_cons, List.sum_cons]
      omega
    | succ i =>
      have hrest := ih (i := i) (by simpa using hf)
      simp only [fibersWeight, List.modify_succ_cons, List.map_cons, List.sum_cons] at hrest ⊢
      omega

theorem fibersWeight_setControl (forks : ℕ) (c' : Fiber.Control V E) (hc : s.fiber i = some c) :
    fibersWeight forks (s.setControl i c').fibers + controlWeight forks c =
      fibersWeight forks s.fibers + controlWeight forks c' := by
  obtain ⟨f, hf, rfl⟩ := fiber_eq_some.mp hc
  exact fibersWeight_modify forks hf _

theorem fibersWeight_part {fibers : List (Fiber V E)}
    (hp : fibers.map Fiber.part = s.fibers.map Fiber.part) :
    fibersWeight forks fibers = fibersWeight forks s.fibers := by
  have h := congrArg (fun l => (l.map fun p => controlWeight forks p.1).sum) hp
  simpa [List.map_map, Function.comp_def, Fiber.part, fibersWeight] using h

theorem fibersWeight_triggerFiber (forks : ℕ) (s : State V E) (j : ℕ) :
    fibersWeight forks (s.triggerFiber j).fibers = fibersWeight forks s.fibers := by
  obtain ⟨fibers, late, hs, hp⟩ := triggerFiber_shape s j
  rw [hs]
  exact fibersWeight_part hp

theorem fibersWeight_new (n : ℕ) :
    fibersWeight forks (List.replicate n (State.newFiber : Fiber V E)) = n * (forks + 8) := by
  simp [fibersWeight, State.newFiber, controlWeight]

theorem nextControl_weight (j n : ℕ) :
    controlWeight forks (State.nextControl (j + 1) n : Fiber.Control V E) < n - j + 1 := by
  unfold State.nextControl
  split
  · simp only [controlWeight]
    omega
  · simp [controlWeight]

theorem nextControl_weight_zero (hn : n ≤ forks) :
    controlWeight forks (State.nextControl 0 n : Fiber.Control V E) < forks + 4 := by
  unfold State.nextControl
  split <;> simp only [controlWeight] <;> omega

theorem nextHandler_weight (forks j n : ℕ) :
    handlerWeight forks (State.nextHandler (j + 1) n) < n - j + 1 := by
  unfold State.nextHandler
  split
  · simp only [handlerWeight]
    omega
  · simp [handlerWeight]

theorem nextHandler_weight_zero (hn : n ≤ forks) :
    handlerWeight forks (State.nextHandler 0 n) < forks + 2 := by
  unfold State.nextHandler
  split <;> simp only [handlerWeight] <;> omega

theorem afterDecrement_weight (counter : ℕ) (completion : Signal V E) :
    controlWeight forks (State.afterDecrement counter completion) < forks + 5 := by
  unfold State.afterDecrement
  split
  · simp [controlWeight]
  · cases completion <;> simp [controlWeight]

theorem Layout.length_le (h : Layout construct forks s) : s.fibers.length ≤ forks := by
  by_cases hs : s.start = .notStarted
  · simp [(h.notStarted hs).1]
  · exact h.values hs ▸ h.size

theorem weight_setControl (hc : s.fiber i = some c)
    (hlt : controlWeight forks c' < controlWeight forks c) (hs : t.start = s.start)
    (hh : t.handler = s.handler) (hf : t.fibers = (s.setControl i c').fibers) :
    t.weight construct forks < s.weight construct forks := by
  have := fibersWeight_setControl forks c' hc
  rw [State.weight, State.weight, hs, hh, hf]
  omega

theorem weight_start (h : Inv construct forks s) (hs : s.start = .notStarted)
    {installed : Option Bool} (hi : installed ≠ some false) :
    (s.begin forks installed).weight construct forks < s.weight construct forks := by
  obtain ⟨hfibers, -⟩ := h.notStarted hs
  have key : ∀ handler : Handler, handlerWeight forks handler ≤ forks + 3 →
      State.weight construct forks { s with
        start := .building 0, values := List.replicate forks .undefined, counter := forks
        handler := handler } < s.weight construct forks := by
    intro handler hle
    have hb : startWeight forks construct (.building 0) = forks * (forks + 10) + 1 := by
      cases construct <;> rfl
    have hn : startWeight forks construct .notStarted = forks * (forks + 10) + forks + 10 := by
      cases construct <;> rfl
    simp only [State.weight, hs, hb, hn]
    omega
  cases installed with
  | none => exact key _ (by simp [handlerWeight])
  | some b =>
    cases b with
    | true => exact key _ (by simp [handlerWeight])
    | false => exact absurd rfl hi

theorem weight_build (h : Inv construct forks s) {index : ℕ} (hs : s.start = .building index)
    (hlt : index < forks) :
    (s.build construct forks index).weight construct forks < s.weight construct forks := by
  obtain ⟨hlen, hzero⟩ := h.building index hs
  cases construct with
  | doAll =>
    obtain rfl := hzero rfl
    have hmul : forks * (forks + 10) = forks * (forks + 8) + forks * 2 := by ring
    have hnil : s.fibers = [] := List.eq_nil_of_length_eq_zero hlen
    simp only [State.weight, State.build, hs, startWeight, fibersWeight_new, hnil, Nat.sub_zero]
    omega
  | forkJoin =>
    have hmul : (forks - index) * (forks + 10) =
        (forks - (index + 1)) * (forks + 10) + forks + 10 := by
      obtain ⟨k, rfl⟩ := Nat.exists_eq_add_of_lt hlt
      have hk : index + k + 1 - (index + 1) = k := by omega
      have hk' : index + k + 1 - index = k + 1 := by omega
      rw [hk, hk']
      ring
    have hadd : fibersWeight forks (s.fibers ++ [State.newFiber]) =
        fibersWeight forks s.fibers + (forks + 8) := by
      simp [fibersWeight, State.newFiber, controlWeight]
    simp only [State.weight, State.build, hs, startWeight, hadd]
    omega

theorem weight_submit (h : Inv construct forks s) {index : ℕ} (hs : s.start = .submitting index) :
    (s.submit construct forks index).weight construct forks < s.weight construct forks := by
  obtain ⟨hc, hfork, hdo⟩ := h.submitting index hs
  have hw := fibersWeight_setControl forks .running hc
  have hlt := Inv.lt_of_fiber hc
  have hstart : startWeight forks construct (s.submit construct forks index).start ≤
      startWeight forks construct (.submitting index) := by
    cases construct with
    | doAll =>
      simp only [State.submit]
      split <;> simp only [startWeight] <;> omega
    | forkJoin => simp [State.submit, startWeight]
  have hf : (s.submit construct forks index).fibers = (s.setControl index .running).fibers := rfl
  have hh : (s.submit construct forks index).handler = s.handler := rfl
  simp only [controlWeight] at hw
  rw [State.weight, State.weight, hf, hh, hs]
  omega

theorem weight_handler {handler : Handler} (missing : Bool)
    (hlt : handlerWeight forks handler < handlerWeight forks s.handler) :
    State.weight construct forks { s with handler := handler, missing := missing } <
      s.weight construct forks := by
  simp only [State.weight]
  omega

theorem fiber_use (s : State V E) (i j : ℕ) : (s.use i).fiber j = s.fiber j := by
  obtain ⟨used, hu⟩ := use_shape s i
  rw [hu]
  rfl

theorem weight_use (s : State V E) (i : ℕ) :
    (s.use i).weight construct forks = s.weight construct forks := by
  obtain ⟨used, hu⟩ := use_shape s i
  rw [hu]
  rfl

theorem weight_triggerFiber (s : State V E) (j : ℕ) :
    (s.triggerFiber j).weight construct forks = s.weight construct forks := by
  obtain ⟨fibers, late, hs, hp⟩ := triggerFiber_shape s j
  have hw : fibersWeight forks fibers = fibersWeight forks s.fibers := fibersWeight_part hp
  rw [hs]
  simp only [State.weight, hw]

theorem weight_next {l : Label V E} (h : Inv construct forks s) (he : Enabled construct forks s l)
    (hl : Uninterrupted s l) :
    (next construct forks s l).weight construct forks < s.weight construct forks := by
  have hlen := h.length_le
  cases l with
  | start installed => exact weight_start h he hl
  | trigger =>
    have hs : s.handler = .installed := he
    exact weight_handler s.missing (by simp [hs, handlerWeight])
  | complete i completion =>
    obtain ⟨f, hf, hc⟩ := fiber_eq_some.mp he
    have hw := fibersWeight_modify forks hf fun f =>
      { f with control := .writing completion, completion := some completion }
    rw [hc] at hw
    simp only [controlWeight] at hw
    change startWeight forks construct s.start + handlerWeight forks s.handler +
      fibersWeight forks (s.fibers.modify i _) < _
    rw [State.weight]
    omega
  | build index => exact weight_build h he.1 he.2
  | submit index => exact weight_submit h he
  | startReturns =>
    have hs : s.start = .building forks := he.2
    have hx : construct = .forkJoin := he.1
    subst hx
    simp only [next, State.weight, hs, startWeight]
    omega
  | handlerInterrupts =>
    have hs : s.handler = .interrupting := he
    have hw : handlerWeight forks .interrupting = forks + 2 := rfl
    change (s.handlerInterrupts construct).weight construct forks < _
    unfold State.handlerInterrupts
    split
    · exact weight_handler _ (by rw [hs]; simp [handlerWeight])
    · refine weight_handler s.missing ?_
      rw [hs, hw]
      exact nextHandler_weight_zero hlen
  | handlerTriggers j n =>
    have hs : s.handler = .triggering j n := he
    have hw : handlerWeight forks (.triggering j n) = n - j + 1 := rfl
    have hf := fibersWeight_triggerFiber forks s j
    have hlt := nextHandler_weight forks j n
    obtain ⟨fibers, late, hx, -⟩ := triggerFiber_shape s j
    have hstart : (s.triggerFiber j).start = s.start := by rw [hx]
    change startWeight forks construct (s.triggerFiber j).start +
      handlerWeight forks (State.nextHandler (j + 1) n) +
      fibersWeight forks (s.triggerFiber j).fibers < _
    rw [State.weight, hs, hw, hf, hstart]
    omega
  | write i completion =>
    obtain ⟨used, hu⟩ := write_eq s i completion
    have hx : next construct forks s (.write i completion) = _ := hu
    rw [hx]
    exact weight_setControl he (by simp [controlWeight]) rfl rfl rfl
  | decrement i completion =>
    obtain ⟨used, hu⟩ := decrement_eq s i completion
    have hx : next construct forks s (.decrement i completion) = _ := hu
    rw [hx]
    exact weight_setControl he (afterDecrement_weight ..) rfl rfl rfl
  | call i completion =>
    change (s.call construct i completion).weight construct forks < _
    unfold State.call
    split <;> exact weight_setControl he (by simp [controlWeight]) rfl rfl rfl
  | interrupts i =>
    have hx : (s.use i).fiber i = some .interrupting := (fiber_use s i i).trans he
    rw [← weight_use s i]
    exact weight_setControl (t := s.interrupts i) hx (nextControl_weight_zero hlen) rfl rfl rfl
  | triggers i j n =>
    have hx : ((s.use i).triggerFiber j).fiber i = some (.triggering j n) :=
      (fiber_triggerFiber ..).trans ((fiber_use s i i).trans he)
    rw [← weight_use s i, ← weight_triggerFiber (s.use i) j]
    exact weight_setControl (t := s.triggers i j n) hx (nextControl_weight j n) rfl rfl rfl

end Weight

section Delivered

/-- What the continuation has been told so far: nothing, or the result of all the fibers by the
last of them to count down. -/
structure Delivered (forks : ℕ) (s : State V E) : Prop where
  checks : s.failed = none
  once : s.calls.length ≤ 1
  result : ∀ call ∈ s.calls, ∃ completions,
    s.fibers.map Fiber.completion = completions.map some ∧ completions.length = forks ∧
      Result completions call.2
  last : ∀ call ∈ s.calls, s.order.length = forks ∧ ∃ i, call.1 = some i ∧ s.order.getLast? = some i

/-- Every run comes to an end, and once `Start()` and all the callbacks have returned the
continuation has been called. -/
structure CalledOnce (construct : Construct) (forks : ℕ) (V E : Type*) : Prop where
  delivered : ∀ s, ((machine construct forks V E).restrict Uninterrupted).Reachable s →
    Delivered forks s
  ends : ∀ s, ((machine construct forks V E).restrict Uninterrupted).Reachable s →
    s.start = .returned → (∀ f ∈ s.fibers, f.completion ≠ none) →
    ((machine construct forks V E).restrict Uninterrupted).Quiet (fun l => l.internal = true) s →
    s.calls ≠ []
  bounded : ∃ n, ∀ s xs t, ((machine construct forks V E).restrict Uninterrupted).Initial s →
    ((machine construct forks V E).restrict Uninterrupted).Run s xs t → xs.length ≤ n

theorem Inv.delivered (h : Inv construct forks s) : Delivered forks s := by
  have hcall : ∀ call ∈ s.calls, ∃ i signal completions, s.calls = [(some i, signal)] ∧
      call = (some i, signal) ∧ s.counter = 0 ∧ s.order.getLast? = some i ∧
      s.fibers.map Fiber.completion = completions.map some ∧ Result completions signal := by
    intro call hm
    obtain ⟨h0, i, signal, cs, hc, hl, hcs, hr⟩ := h.called (List.ne_nil_of_mem hm)
    rw [hc, List.mem_singleton] at hm
    exact ⟨i, signal, cs, hc, hm, h0, hl, hcs, hr⟩
  have hvalues : s.calls ≠ [] → s.values.length = forks := by
    intro hn
    exact h.values fun hs => hn (h.calls_of_notStarted hs)
  refine ⟨h.failed, ?_, fun call hm => ?_, fun call hm => ?_⟩
  · by_cases hn : s.calls = []
    · simp [hn]
    · obtain ⟨-, i, signal, cs, hc, -⟩ := h.called hn
      simp [hc]
  · obtain ⟨i, signal, cs, hc, rfl, h0, hl, hcs, hr⟩ := hcall call hm
    refine ⟨cs, hcs, ?_, hr⟩
    have hlen := (h.all_counted h0).1
    have hmap := congrArg List.length hcs
    rw [List.length_map, List.length_map] at hmap
    have := hvalues (List.ne_nil_of_mem hm)
    omega
  · obtain ⟨i, signal, cs, hc, rfl, h0, hl, -⟩ := hcall call hm
    have hcount := h.count
    have := hvalues (List.ne_nil_of_mem hm)
    exact ⟨by omega, i, rfl, hl⟩

/-- A fiber that has completed and that has no step to take has counted down. -/
theorem Inv.counted_of_quiet (h : Inv construct forks s)
    (hq : (machine construct forks V E).Quiet (fun l => l.internal = true) s) (f : Fiber V E)
    (hf : s.fibers[i]? = some f) (hc : f.completion ≠ none) : i ∈ s.order := by
  have hfit := h.fits i f hf
  have hfiber : s.fiber i = some f.control := fiber_eq_some.mpr ⟨f, hf, rfl⟩
  refine (h.order i).mpr ⟨f.control, hfiber, ?_⟩
  cases hx : f.control with
  | created | running =>
    simp only [Fiber.Fits, hx] at hfit
    exact absurd hfit hc
  | writing c => exact absurd (hfiber.trans (congrArg some hx)) (hq (.write i c) rfl)
  | decrementing c => exact absurd (hfiber.trans (congrArg some hx)) (hq (.decrement i c) rfl)
  | completing | interrupting | triggering | returned => trivial

theorem Inv.called_of_quiet (h : Inv construct forks s) (hforks : 0 < forks)
    (hq : (machine construct forks V E).Quiet (fun l => l.internal = true) s)
    (hs : s.start = .returned) (hall : ∀ f ∈ s.fibers, f.completion ≠ none) : s.calls ≠ [] := by
  have hsub : Finset.range s.fibers.length ⊆ s.order.toFinset := by
    intro i hi
    have hlt := Finset.mem_range.mp hi
    exact List.mem_toFinset.mpr (h.counted_of_quiet hq s.fibers[i]
      (List.getElem?_eq_getElem hlt) (hall _ (List.getElem_mem hlt)))
  have hle := Finset.card_le_card hsub
  rw [Finset.card_range, List.toFinset_card_of_nodup h.nodup, h.returned hs] at hle
  have hcount := h.count
  have hv : s.values.length = forks := h.values (by simp [hs])
  have hne : s.values ≠ [] := List.ne_nil_of_length_pos (by omega)
  refine (h.owed (by omega) hne).resolve_right ?_
  rintro ⟨i, c, hi⟩
  exact hq (.call i c) rfl hi

theorem CalledOnce.of_pos (construct : Construct) (hforks : 0 < forks) :
    CalledOnce construct forks V E := by
  refine ⟨fun s hs => (inv_reachable hs).delivered, fun s hs hstart hall hq => ?_, ?_⟩
  · refine (inv_reachable hs).called_of_quiet hforks (fun l hl he => hq l hl ⟨he, ?_⟩) hstart hall
    cases l <;> simp_all [Label.internal, Uninterrupted]
  · refine ⟨(State.init V E).weight construct forks, fun s xs t hs hr => ?_⟩
    obtain rfl : s = State.init V E := hs
    exact hr.length_le (fun s l hr he => weight_next (inv_reachable hr) he.1 he.2) (.initial rfl)

end Delivered

/-- With nothing to fork `Start()` returns and nobody counts down. -/
theorem ForkJoin.not_calledOnce_zero (V E : Type*) : ¬ CalledOnce .forkJoin 0 V E := by
  intro h
  have hb : ((machine .forkJoin 0 V E).restrict Uninterrupted).Reachable
      ((State.init V E).begin 0 none) :=
    .step (.initial rfl) (l := .start none) ⟨⟨rfl, by simp [Uninterrupted]⟩, rfl⟩
  have hr : ((machine .forkJoin 0 V E).restrict Uninterrupted).Reachable
      { (State.init V E).begin 0 none with start := .returned } :=
    .step hb (l := .startReturns) ⟨⟨⟨rfl, rfl⟩, trivial⟩, rfl⟩
  refine h.ends _ hr rfl (fun f hf => ?_) (fun l hl => ?_) rfl
  · exact absurd hf List.not_mem_nil
  · rintro ⟨he, -⟩
    cases l with
    | start | trigger | complete => simp [Label.internal] at hl
    | build => exact nomatch he.1
    | startReturns => exact nomatch he.2
    | submit => exact nomatch he
    | handlerInterrupts => exact nomatch he
    | handlerTriggers => exact nomatch he
    | write => exact nomatch he
    | decrement => exact nomatch he
    | call => exact nomatch he
    | interrupts => exact nomatch he
    | triggers => exact nomatch he

end Eventuals.Join
