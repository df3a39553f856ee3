import Mathlib.Algebra.BigOperators.Group.Finset.Basic
import Mathlib.Algebra.GroupWithZero.Nat
import Eventuals.ConcurrentOrderedOutput

/-! `ConcurrentOrdered(f)` comes to an end, and where it does it has emitted everything. -/
namespace Eventuals.ConcurrentOrdered

open Transition (Machine)
open Concurrent (Fiber.Control Ingress Egress WaitForDone Done)

variable {A W E : Type*} {f : A → List W} {upstream : List A} {s : State A W E}

section Final

theorem allowed_of_internal {l : Concurrent.Label (ℤ × A) (Item W) E} (h : l.internal = true) :
    Allowed s l := by
  cases l <;> trivial

theorem Linked.reorder_failed (h : Linked f upstream s) : s.reorder.failed = none := by
  obtain ⟨l, -, hi⟩ := h.items
  exact hi.failed

/-- Where no part can take a step, downstream has been told that it is over. -/
theorem terminated_of_final (hc : Composed f upstream s) (hl : Linked f upstream s)
    (hn : upstream.length < 2 ^ 31) (hf : s.failed = none) (hq : ∀ l, ¬ Enabled s l) :
    s.concurrent.egress = .terminated := by
  have quiet : ∀ l, ¬ Ready s l := fun l hr =>
    hq l ⟨hf, hl.reorder_failed, hc.not_failed, hr⟩
  have silent : ∀ l, Allowed s l → ¬ Concurrent.Ready s.concurrent l := fun l ha hr =>
    quiet (.concurrent l) ⟨⟨hc.not_failed, hr⟩, ha⟩
  have hst := Concurrent.stuck_of_quiescent hc.inv hc.not_failed fun l hi he =>
    silent l (allowed_of_internal hi) he.2
  have ha := hl.agrees
  have hw : s.reorder.control = .awaiting := by
    cases hx : s.reorder.control with
    | notBegun =>
      rw [hx] at ha
      exact (silent .begin trivial ha).elim
    | idle => exact (quiet .next hx).elim
    | next => exact (quiet .reorder (Or.inl hx)).elim
    | body item => exact (quiet .reorder (Or.inr ⟨item, hx⟩)).elim
    | asking =>
      rw [hx] at ha
      exact (silent .next hx ha).elim
    | awaiting => rfl
  by_contra ht
  have hu : s.concurrent.Unanswered := by
    rw [hw] at ha
    rcases ha with he | he | he | he
    · exact Or.inl he
    · exact Or.inr (Or.inl he)
    · exact Or.inr (Or.inr ⟨he, hc.calm.doneCalled⟩)
    · exact absurd he ht
  rcases hst.owed_or_running hc.inv hc.history hu with (hg | hg) | ⟨k, hk⟩
  · cases hx : s.upstream with
    | nil => exact silent (.upstreamOutcome none) ⟨hx, rfl⟩ (Or.inr (Or.inl hg))
    | cons a as => exact silent (.upstreamValue (s.i, a)) (by simp [Allowed, hx]) hg
  · exact hc.calm.taken hg
  · obtain ⟨t, hs⟩ := hc.serves hk
    rcases hs.next_cases hn with hx | ⟨p, d', hx, -⟩ | ⟨c, hx, -⟩
    · exact silent (.fiberOutcome k none) (by simp [Allowed, hx]) hk
    · exact silent (.fiberValue k p) (by simp [Allowed, hx]) hk
    · exact quiet (.check k) ⟨hk, c, hx⟩

/-- Where downstream has been told, every tranche has been emitted to its end. -/
theorem all_of_terminated (hc : Composed f upstream s) (hl : Linked f upstream s)
    (hn : upstream.length < 2 ^ 31) (ht : s.concurrent.egress = .terminated) :
    s.concurrent.terminals = [none] ∧ s.reorder.out = upstream.flatMap f ∧
      ∀ a ∈ upstream, f a ≠ [] := by
  have hh := hc.history
  obtain ⟨ho, hdone⟩ := hh.afterAll ht
  have hup := (hh.doneAfterAll ht).resolve_left hc.calm.bypassed
  have hv := hh.flushed ht hc.calm.doneCalled hc.calm.recorded
  have hdel : s.concurrent.delivered = s.concurrent.pushed := by
    rw [← hh.delivered, hv, List.append_nil]
  have hheld : s.view.held = none := by
    simp [State.view, hc.inv.upstreamDone_iff.mp hup, Ingress.held]
  have hleft : ∀ k, s.view.left k = none := by
    intro k
    change leftOf (s.adaptor k) (s.concurrent.control k) = none
    cases hx : s.concurrent.control k with
    | none => rfl
    | some c =>
      by_cases hf : c = .finished
      · rw [hf]
        rfl
      · exact absurd hdone (hc.inv.not_fibersDone hx hf)
  obtain ⟨n, hledger⟩ := Tranches.ledger_reachable hn hc.view
  have hall := hledger.all (hc.upstreamOver ho) hheld hleft
  have hw := hl.awaiting (Or.inr (Or.inr ht))
  obtain ⟨l, hd, hi⟩ := hl.items
  rw [hw] at hd
  replace hd := hd.trans (List.append_nil l)
  have hpushed : s.view.pushed = l := by
    rw [← hd, hdel]
    rfl
  refine ⟨?_, ?_, ?_⟩
  · simp [hh.terminated ht, hc.calm.recorded]
  · exact hi.out_all hn (hd ▸ hc.interleaved hn) (hpushed ▸ hall) hw
  · intro a ha
    obtain ⟨t, hta⟩ := List.mem_iff_getElem?.mp ha
    refine hc.marked t a ?_ hta
    have hm : (-tag t, none) ∈ ofTranche t s.view.pushed := by
      rw [hall, items_eq hta]
      simp
    exact List.mem_of_mem_filter hm

end Final

section Measure

/-- A bound on the steps that a fiber has yet to take, and on those it makes others take. -/
def fiberWeight (d : Adaptor W) : Option (Fiber.Control (Item W) E) → ℕ
  | some .submitted => 6 + 8 * d.rest.length
  | some .running => 5 + 8 * d.rest.length
  | some (.pushing _) => 12 + 8 * d.rest.length
  | some (.epilogue _) => 4
  | _ => 0

def ingressWeight (f : A → List W) : Ingress (ℤ × A) E → ℕ
  | .notBegun => 7
  | .awaitingNext => 6
  | .create arg => 14 + 8 * (tranche f arg.1 arg.2).length
  | .start arg _ => 13 + 8 * (tranche f arg.1 arg.2).length
  | .awaitingDone => 5
  | .epilogue _ => 4
  | .finished | .dropped => 0

def upstreamWeight (f : A → List W) (upstream : List A) : ℕ :=
  (upstream.map fun a => 9 + 8 * (tranche f 0 a).length).sum

def egressWeight : Egress → ℕ
  | .notBegun => 5
  | .idle | .acquiring => 1
  | .waiting | .awaitingEnded | .terminated => 0

def waitForDoneWeight : WaitForDone → ℕ
  | .acquiring => 2
  | .ending => 1
  | .notBegun | .waiting | .finished => 0

def doneWeight : Done → ℕ
  | .idle | .acquiring => 3
  | .ran => 0

def controlWeight : Control W → ℕ
  | .body _ => 4
  | .idle => 3
  | .next => 2
  | .asking => 1
  | .notBegun | .awaiting => 0

def State.fibersWeight (s : State A W E) : ℕ :=
  ∑ k ∈ Finset.range s.concurrent.fibers.length,
    fiberWeight (s.adaptor k) (s.concurrent.control k)

/-- What is left of the tranches up to `ReorderAdaptor()`. -/
def State.concurrentWeight (f : A → List W) (s : State A W E) : ℕ :=
  upstreamWeight f s.upstream + ingressWeight f s.concurrent.ingress + s.fibersWeight +
    5 * s.concurrent.values.length + egressWeight s.concurrent.egress +
    waitForDoneWeight s.concurrent.waitForDone + doneWeight s.concurrent.done

def Reorder.weight (f : A → List W) (upstream : List A) (r : Reorder W) : ℕ :=
  controlWeight r.control + 2 * ((upstream.flatMap f).length - r.out.length) +
    (upstream.length - r.passed)

def State.weight (f : A → List W) (upstream : List A) (s : State A W E) : ℕ :=
  (if s.failed = none then 1 else 0) + s.concurrentWeight f + s.reorder.weight f upstream

theorem length_tranche (j : ℤ) (a : A) : (tranche f j a).length = (f a).length + 1 := by
  simp [tranche]

theorem egressWeight_notified (e : Egress) : egressWeight e.notified ≤ egressWeight e + 1 := by
  cases e <;> simp [Egress.notified, egressWeight]

theorem waitForDoneWeight_notified (w : WaitForDone) :
    waitForDoneWeight w.notified ≤ waitForDoneWeight w + 2 := by
  cases w <;> simp [WaitForDone.notified, waitForDoneWeight]

theorem fibersWeight_eq {n : ℕ} (hn : s.concurrent.fibers.length ≤ n) :
    s.fibersWeight =
      ∑ k ∈ Finset.range n, fiberWeight (s.adaptor k) (s.concurrent.control k) := by
  refine Finset.sum_subset (fun k hk => ?_) fun k _ hk => ?_
  · simp only [Finset.mem_range] at hk ⊢
    omega
  · have hnone : s.concurrent.control k = none := by
      simp only [Finset.mem_range, not_lt] at hk
      simp [Concurrent.State.control, hk]
    rw [hnone]
    rfl

/-- One fiber moves, the others weigh what they did. -/
theorem fibersWeight_move {t : State A W E} {k : ℕ}
    (h : ∀ j, j ≠ k → fiberWeight (t.adaptor j) (t.concurrent.control j) =
      fiberWeight (s.adaptor j) (s.concurrent.control j)) :
    t.fibersWeight + fiberWeight (s.adaptor k) (s.concurrent.control k) =
      s.fibersWeight + fiberWeight (t.adaptor k) (t.concurrent.control k) := by
  have hk : k ∈ Finset.range (s.concurrent.fibers.length + t.concurrent.fibers.length + k + 1) := by
    simp only [Finset.mem_range]
    omega
  rw [fibersWeight_eq (s := s) (n := s.concurrent.fibers.length +
      t.concurrent.fibers.length + k + 1) (by omega),
    fibersWeight_eq (s := t) (n := s.concurrent.fibers.length +
      t.concurrent.fibers.length + k + 1) (by omega),
    ← Finset.sum_erase_add _ _ hk, ← Finset.sum_erase_add _ _ hk]
  have hrest := Finset.sum_congr (rfl : (Finset.range (s.concurrent.fibers.length +
    t.concurrent.fibers.length + k + 1)).erase k = _) fun j hj => h j (Finset.ne_of_mem_erase hj)
  omega

theorem fibersWeight_congr {t : State A W E}
    (h : ∀ j, fiberWeight (t.adaptor j) (t.concurrent.control j) =
      fiberWeight (s.adaptor j) (s.concurrent.control j)) : t.fibersWeight = s.fibersWeight := by
  have := fibersWeight_move (s := s) (t := t) (k := 0) fun j _ => h j
  have h0 := h 0
  omega

/-- Fiber number `k` gets to where `c` says. -/
theorem fibersWeight_step {t : State A W E} {k : ℕ} {c : Fiber.Control (Item W) E}
    (hcontrol : ∀ j, t.concurrent.control j = if j = k then some c else s.concurrent.control j)
    (hd : ∀ j, j ≠ k → t.adaptor j = s.adaptor j) :
    t.fibersWeight + fiberWeight (s.adaptor k) (s.concurrent.control k) =
      s.fibersWeight + fiberWeight (t.adaptor k) (some c) := by
  have hmove := fibersWeight_move (s := s) (t := t) (k := k) fun j hj => by
    rw [hcontrol, if_neg hj, hd j hj]
  rwa [hcontrol, if_pos rfl] at hmove

theorem concurrentWeight_lt {s' : State A W E} (hu : s'.upstream = s.upstream)
    (hg : s'.concurrent.ingress = s.concurrent.ingress)
    (hv : s'.concurrent.values = s.concurrent.values)
    (he : s'.concurrent.egress = s.concurrent.egress)
    (hw : s'.concurrent.waitForDone = s.concurrent.waitForDone)
    (hd : s'.concurrent.done = s.concurrent.done) (hlt : s'.fibersWeight < s.fibersWeight) :
    s'.concurrentWeight f < s.concurrentWeight f := by
  simp only [State.concurrentWeight, hu, hg, hv, he, hw, hd]
  omega

variable {l : Concurrent.Label (ℤ × A) (Item W) E}

theorem weight_lt {s' : State A W E} (hf : s'.failed = s.failed) (hr : s'.reorder = s.reorder)
    (h : s'.concurrentWeight f < s.concurrentWeight f) :
    s'.weight f upstream < s.weight f upstream := by
  simp only [State.weight, hf, hr]
  omega

theorem concurrentWeight_inward (hc : Composed f upstream s) (hn : upstream.length < 2 ^ 31)
    (hr : Concurrent.Ready s.concurrent l) (ha : Allowed s l) (hl : l.outward = false) :
    (next f s (.concurrent l)).concurrentWeight f < s.concurrentWeight f := by
  cases l with
  | begin | next | downstreamDone | egress | ended => simp [Concurrent.Label.outward] at hl
  | upstreamInstall | trigger => exact ha.elim
  | upstreamValue arg =>
    have hg : s.concurrent.ingress = .awaitingNext := hr
    obtain ⟨a, hu, rfl⟩ : ∃ a, s.upstream.head? = some a ∧ (s.i, a) = arg := by
      simpa [Allowed] using ha
    obtain ⟨as, has⟩ : ∃ as, s.upstream = a :: as := List.head?_eq_some_iff.mp hu
    obtain ⟨x, y, z, hb⟩ := Concurrent.body_eq hc.inv hc.not_failed hc.not_triggered (s.i, a)
    have hs : (next f s (.concurrent (.upstreamValue (s.i, a)))).concurrent = _ := hb
    have hu' : (next f s (.concurrent (.upstreamValue (s.i, a)))).upstream = as :=
      congrArg List.tail has
    have hfibers : (next f s (.concurrent (.upstreamValue (s.i, a)))).fibersWeight =
        s.fibersWeight := fibersWeight_congr fun j => by rw [hs]; rfl
    simp only [State.concurrentWeight, hs, hu', hfibers, has, hg, upstreamWeight, List.map_cons,
      List.sum_cons, ingressWeight, length_tranche]
    omega
  | upstreamOutcome o =>
    obtain ⟨-, rfl⟩ : s.upstream = [] ∧ o = none := ha
    obtain ⟨hx, hg⟩ := Concurrent.upstreamOutcome_eq hc.inv hr
    have hs : (next f s (.concurrent (.upstreamOutcome none))).concurrent = _ := hx
    have hu : (next f s (.concurrent (.upstreamOutcome none))).upstream = s.upstream := rfl
    have hfibers : (next f s (.concurrent (.upstreamOutcome none))).fibersWeight =
        s.fibersWeight := fibersWeight_congr fun j => by rw [hs]; rfl
    have hlt : 4 < ingressWeight f s.concurrent.ingress := by
      rcases hg with hg | hg <;> simp [hg, ingressWeight]
    simp only [State.concurrentWeight, hs, hu, hfibers, ingressWeight] at hlt ⊢
    omega
  | fiberValue k p =>
    have hk : s.concurrent.control k = some .running := hr
    obtain ⟨t, d', hx, hrest, -⟩ := hc.value hn hk ha
    have hself : (next f s (.concurrent (.fiberValue k p))).adaptor k = d' := by
      simp [next, around, hx]
    have hstep := fibersWeight_step (s := s) (t := next f s (.concurrent (.fiberValue k p)))
      (Concurrent.control_setControl hk (.pushing p)) fun j hj => by simp [next, around, hj]
    simp only [hself, hk, fiberWeight, hrest, List.length_cons] at hstep
    exact concurrentWeight_lt rfl rfl rfl rfl rfl rfl (by omega)
  | fiberOutcome k o =>
    have hk : s.concurrent.control k = some .running := hr
    have hstep := fibersWeight_step (s := s) (t := next f s (.concurrent (.fiberOutcome k o)))
      (Concurrent.control_setControl hk (.epilogue o)) fun j hj => rfl
    simp only [hk, fiberWeight] at hstep
    exact concurrentWeight_lt rfl rfl rfl rfl rfl rfl (by omega)
  | fiberStart k =>
    have hk : s.concurrent.control k = some .submitted := hr
    have hstep := fibersWeight_step (s := s) (t := next f s (.concurrent (.fiberStart k)))
      (Concurrent.control_setControl hk .running) fun j hj => rfl
    have hself : (next f s (.concurrent (.fiberStart k))).adaptor k = s.adaptor k := rfl
    simp only [hk, hself, fiberWeight] at hstep
    exact concurrentWeight_lt rfl rfl rfl rfl rfl rfl (by omega)
  | ingressBegin =>
    have hg : s.concurrent.ingress = .notBegun := hr.2
    have hw : (next f s (.concurrent .ingressBegin)).concurrentWeight f =
        upstreamWeight f s.upstream + 6 + s.fibersWeight + 5 * s.concurrent.values.length +
          egressWeight s.concurrent.egress + waitForDoneWeight s.concurrent.waitForDone +
          doneWeight s.concurrent.done := rfl
    rw [hw, State.concurrentWeight, hg, ingressWeight]
    omega
  | createOrReuseFiber arg contexts =>
    have hg : s.concurrent.ingress = .create arg := hr.1
    obtain ⟨i, fibers, hx, hold, hget⟩ :=
      hc.calm.create hc.inv hc.history hc.not_triggered contexts hg
    have hs : (next f s (.concurrent (.createOrReuseFiber arg contexts))).concurrent = _ := hx
    have hu : (next f s (.concurrent (.createOrReuseFiber arg contexts))).upstream =
      s.upstream := rfl
    have hstep := fibersWeight_step (s := s) (c := .created)
      (t := next f s (.concurrent (.createOrReuseFiber arg contexts))) (k := i) (fun j => by
        rw [hs]
        exact Concurrent.control_of_getElem? hget j) fun j hj => rfl
    have hzero : fiberWeight (s.adaptor i) (s.concurrent.control i) = 0 := by
      cases hk : s.concurrent.control i with
      | none => rfl
      | some c =>
        rw [hold c hk]
        rfl
    rw [hzero] at hstep
    change _ = _ + 0 at hstep
    simp only [State.concurrentWeight, hs, hu, hg, ingressWeight]
    omega
  | startFiber arg k =>
    have hg : s.concurrent.ingress = .start arg k := hr
    have hk := (hc.inv.created k).mpr ⟨arg, hg⟩
    have hself : (next f s (.concurrent (.startFiber arg k))).adaptor k =
        .begin arg.1 (f arg.2) := by
      simp [next, around]
    have hstep := fibersWeight_step (s := s) (t := next f s (.concurrent (.startFiber arg k)))
      (Concurrent.control_startFiber hk) fun j hj => by simp [next, around, hj]
    have hw : (next f s (.concurrent (.startFiber arg k))).concurrentWeight f =
        upstreamWeight f s.upstream + 6 +
          (next f s (.concurrent (.startFiber arg k))).fibersWeight +
          5 * s.concurrent.values.length + egressWeight s.concurrent.egress +
          waitForDoneWeight s.concurrent.waitForDone + doneWeight s.concurrent.done := rfl
    have hrest : (Adaptor.begin arg.1 (f arg.2)).rest = tranche f arg.1 arg.2 := rfl
    simp only [hself, hk, fiberWeight, hrest] at hstep
    rw [hw, State.concurrentWeight, hg, ingressWeight]
    omega
  | ingressEpilogue o =>
    have hg : s.concurrent.ingress = .epilogue o := hr
    obtain ⟨e, w, c, he, hw, hx⟩ := Concurrent.ingressEpilogue_shape s.concurrent o
    have hs : (next f s (.concurrent (.ingressEpilogue o))).concurrent = _ := hx
    have hu : (next f s (.concurrent (.ingressEpilogue o))).upstream = s.upstream := rfl
    have hfibers : (next f s (.concurrent (.ingressEpilogue o))).fibersWeight =
      s.fibersWeight := fibersWeight_congr fun j => by rw [hs]; rfl
    have he' : egressWeight e ≤ egressWeight s.concurrent.egress + 1 := by
      rcases he with rfl | rfl
      · omega
      · exact egressWeight_notified _
    have hw' : waitForDoneWeight w ≤ waitForDoneWeight s.concurrent.waitForDone + 2 := by
      rcases hw with rfl | rfl
      · omega
      · exact waitForDoneWeight_notified _
    simp only [State.concurrentWeight, hs, hu, hfibers, hg, ingressWeight, Concurrent.State.record]
    omega
  | waitForDone =>
    have hw : s.concurrent.waitForDone = .acquiring := hr
    have hu : (next f s (.concurrent .waitForDone)).upstream = s.upstream := rfl
    have hlt : ∀ w, (next f s (.concurrent .waitForDone)).concurrent =
        { s.concurrent with waitForDone := w } → waitForDoneWeight w < 2 →
        (next f s (.concurrent .waitForDone)).concurrentWeight f < s.concurrentWeight f := by
      intro w hs hlt
      have hfibers : (next f s (.concurrent .waitForDone)).fibersWeight = s.fibersWeight :=
        fibersWeight_congr fun j => by rw [hs]; rfl
      simp only [State.concurrentWeight, hs, hu, hfibers, hw, waitForDoneWeight] at hlt ⊢
      omega
    by_cases hx : (!s.concurrent.downstreamDone || !s.concurrent.upstreamDone ||
        !s.concurrent.fibersDone) = true
    · exact hlt .waiting (if_pos hx) (by simp [waitForDoneWeight])
    · exact hlt .ending (if_neg hx) (by simp [waitForDoneWeight])
  | done =>
    have hd : s.concurrent.done = .acquiring := hr
    obtain ⟨w, c, hw, hx⟩ := Concurrent.doneSection_shape s.concurrent
    have hs : (next f s (.concurrent .done)).concurrent = _ := hx
    have hu : (next f s (.concurrent .done)).upstream = s.upstream := rfl
    have hcontrol : ∀ j, (next f s (.concurrent .done)).concurrent.control j =
      s.concurrent.control j := (Concurrent.unmoved_next hc.inv hr rfl).control
    have hfibers : (next f s (.concurrent .done)).fibersWeight = s.fibersWeight :=
      fibersWeight_congr fun j => by rw [hcontrol]; rfl
    have hw' : waitForDoneWeight w ≤ waitForDoneWeight s.concurrent.waitForDone + 2 := by
      rcases hw with rfl | rfl
      · omega
      · exact waitForDoneWeight_notified _
    simp only [State.concurrentWeight, hs, hu, hfibers, hd, doneWeight,
      Concurrent.State.interruptFibers]
    omega
  | interrupt =>
    obtain ⟨ahead, hx⟩ := hr
    exact absurd (hc.inv.triggered (by simp [hx])).1 hc.not_triggered
  | push k p =>
    have hk : s.concurrent.control k = some (.pushing p) := hr
    obtain ⟨e, c, he, hx⟩ := Concurrent.push_shape s.concurrent k p
    have hs : (next f s (.concurrent (.push k p))).concurrent = _ := hx
    have hu : (next f s (.concurrent (.push k p))).upstream = s.upstream := rfl
    have hself : (next f s (.concurrent (.push k p))).adaptor k = s.adaptor k := rfl
    have hstep := fibersWeight_step (s := s) (t := next f s (.concurrent (.push k p))) (k := k)
      (fun j => by
        rw [hs]
        exact Concurrent.control_setControl hk .running j) fun j hj => rfl
    have he' : egressWeight e ≤ egressWeight s.concurrent.egress + 1 := by
      rcases he with rfl | rfl
      · omega
      · exact egressWeight_notified _
    simp only [hk, hself, fiberWeight] at hstep
    simp only [State.concurrentWeight, hs, hu, List.length_append, List.length_singleton,
      Concurrent.State.setControl]
    omega
  | fiberEpilogue k o =>
    have hk : s.concurrent.control k = some (.epilogue o) := hr
    obtain rfl := hc.calm.fiberOutcome_eq hk
    obtain ⟨e, w, c, he, hw, hx⟩ := Concurrent.fiberEpilogue_shape s.concurrent k none
    have hs : (next f s (.concurrent (.fiberEpilogue k none))).concurrent = _ := hx
    have hu : (next f s (.concurrent (.fiberEpilogue k none))).upstream = s.upstream := rfl
    have hstep := fibersWeight_step (s := s)
      (t := next f s (.concurrent (.fiberEpilogue k none))) (k := k) (c := .finished)
      (fun j => by
        rw [hs]
        exact Concurrent.control_finishFiber hk j) fun j hj => rfl
    have he' : egressWeight e ≤ egressWeight s.concurrent.egress + 1 := by
      rcases he with rfl | rfl
      · omega
      · exact egressWeight_notified _
    have hw' : waitForDoneWeight w ≤ waitForDoneWeight s.concurrent.waitForDone + 2 := by
      rcases hw with rfl | rfl
      · omega
      · exact waitForDoneWeight_notified _
    simp only [hk, fiberWeight] at hstep
    simp only [State.concurrentWeight, hs, hu, Option.isSome_none, Bool.false_eq_true, if_false,
      Concurrent.State.record, Concurrent.State.finishFiber]
    omega

theorem weight_begin (he : s.concurrent.egress = .notBegun) (hl : Linked f upstream s) :
    (next f s (.concurrent .begin)).weight f upstream < s.weight f upstream := by
  have hc : s.reorder.control = .notBegun := by
    have ha := hl.agrees
    cases hx : s.reorder.control <;> simp_all [Agrees]
  have hw : (next f s (.concurrent .begin)).weight f upstream =
      (if s.failed = none then 1 else 0) + (upstreamWeight f s.upstream +
        ingressWeight f s.concurrent.ingress + s.fibersWeight +
        5 * s.concurrent.values.length + 1 + 0 + doneWeight s.concurrent.done) +
        (3 + 2 * ((upstream.flatMap f).length - s.reorder.out.length) +
          (upstream.length - s.reorder.passed)) := rfl
  rw [hw, State.weight, State.concurrentWeight, Reorder.weight, he, hc, egressWeight, controlWeight]
  omega

theorem weight_request (he : s.concurrent.egress = .idle) (hc : s.reorder.control = .asking) :
    (next f s (.concurrent .next)).weight f upstream < s.weight f upstream := by
  have hw : (next f s (.concurrent .next)).weight f upstream =
      (if s.failed = none then 1 else 0) + (upstreamWeight f s.upstream +
        ingressWeight f s.concurrent.ingress + s.fibersWeight +
        5 * s.concurrent.values.length + 1 + waitForDoneWeight s.concurrent.waitForDone +
        doneWeight s.concurrent.done) +
        (0 + 2 * ((upstream.flatMap f).length - s.reorder.out.length) +
          (upstream.length - s.reorder.passed)) := rfl
  rw [hw, State.weight, State.concurrentWeight, Reorder.weight, he, hc, egressWeight, controlWeight]
  omega

theorem weight_egress (hl : Linked f upstream s) (hc : Composed f upstream s)
    (he : s.concurrent.egress = .acquiring) :
    (next f s (.concurrent .egress)).weight f upstream < s.weight f upstream := by
  have hx := hl.awaiting (Or.inl he)
  have hs : s.concurrent.stoppedOrError = none := by
    rw [hc.history.recorded hc.calm.bypassed, hc.calm.recorded]
    rfl
  have hd := hc.inv.done_idle (by simp [he]) (by simp [he])
  -- The sections leave upstream, the ingress, the fibers and `WaitForDone()` alone.
  have weigh : ∀ (c : Concurrent.State (ℤ × A) (Item W) E) (r : Reorder W),
      c.fibers = s.concurrent.fibers → c.ingress = s.concurrent.ingress →
      c.waitForDone = s.concurrent.waitForDone → r.out = s.reorder.out →
      r.passed = s.reorder.passed →
      5 * c.values.length + egressWeight c.egress + doneWeight c.done + controlWeight r.control <
        5 * s.concurrent.values.length + 1 + 3 →
      State.weight f upstream { s with concurrent := c, reorder := r } < s.weight f upstream := by
    intro c r hf hg hw ho hp hlt
    have hfibers : State.fibersWeight { s with concurrent := c, reorder := r } = s.fibersWeight :=
      fibersWeight_congr fun j => by simp only [Concurrent.State.control, hf]
    have hacquiring : egressWeight .acquiring = 1 := rfl
    have hidle : doneWeight .idle = 3 := rfl
    have hawaiting : controlWeight (.awaiting : Control W) = 0 := rfl
    simp only [State.weight, State.concurrentWeight, Reorder.weight, hfibers, hg, hw, ho, hp, he,
      hx, hd, hacquiring, hidle, hawaiting]
    omega
  change State.weight f upstream { around f s .egress with
    concurrent := s.concurrent.egressSection } < _
  rcases Concurrent.egress_cases s.concurrent with ⟨hv, -, hr⟩ | ⟨hr, -⟩ |
    ⟨value, values, hv, -, hr⟩ | ⟨hv, -, -, -, hr⟩
  · have ha : around f s .egress = s := by simp [around, hv]
    rw [ha, hr]
    refine weigh _ s.reorder rfl rfl rfl rfl rfl ?_
    simp [hx, hd, egressWeight, doneWeight, controlWeight]
  · exact absurd hs hr
  · have ha : around f s .egress = s.setControl (.body value.2) := by simp [around, hv, hr]
    rw [ha, hr]
    refine weigh _ { s.reorder with control := .body value.2 } rfl rfl rfl rfl rfl ?_
    simp only [hv, hd, egressWeight, doneWeight, controlWeight, List.length_cons]
    omega
  · have ha : around f s .egress = s := by simp [around, hv]
    have hcall : Concurrent.State.callDone
        { s.concurrent with egressSaved := true, egress := .awaitingEnded } =
          { s.concurrent with
            egressSaved := true, egress := .awaitingEnded, done := .acquiring } := by
      simp [Concurrent.State.callDone, hd]
    rw [ha, hr, hcall]
    refine weigh _ s.reorder rfl rfl rfl rfl rfl ?_
    simp [hx, egressWeight, doneWeight, controlWeight]

theorem weight_ended (hc : Composed f upstream s) (hw : s.concurrent.waitForDone = .ending) :
    (next f s (.concurrent .ended)).weight f upstream < s.weight f upstream := by
  have hs : (next f s (.concurrent .ended)).concurrent = _ :=
    Concurrent.ended_eq hc.inv.toBase hw
  have hu : (next f s (.concurrent .ended)).upstream = s.upstream := rfl
  have hfibers : (next f s (.concurrent .ended)).fibersWeight = s.fibersWeight :=
    fibersWeight_congr fun j => by rw [hs]; rfl
  refine weight_lt rfl rfl ?_
  simp only [State.concurrentWeight, hs, hu, hfibers, hw, waitForDoneWeight, egressWeight]
  omega

/-- Every value handed out, and every tranche passed, is one of finitely many. -/
theorem weight_reorder {r r' : Reorder W}
    (hout : r'.out.length ≤ (upstream.flatMap f).length) (hpassed : r'.passed ≤ upstream.length)
    (h : r'.out = r.out ∧ r'.passed = r.passed ∧
        controlWeight r'.control < controlWeight r.control ∨
      r'.out.length = r.out.length + 1 ∧ r'.passed = r.passed ∧
        controlWeight r'.control < controlWeight r.control + 2 ∨
      r'.out = r.out ∧ r'.passed = r.passed + 1 ∧ r'.control = r.control) :
    r'.weight f upstream < r.weight f upstream := by
  simp only [Reorder.weight]
  rcases h with ⟨ho, hp, hc⟩ | ⟨ho, hp, hc⟩ | ⟨ho, hp, hc⟩
  · rw [ho, hp]
    omega
  · omega
  · rw [ho, hc]
    omega

theorem next_progress {r : Reorder W} (hc : r.control = .next) :
    r.next.out = r.out ∧ r.next.passed = r.passed ∧
        controlWeight r.next.control < controlWeight r.control ∨
      r.next.out.length = r.out.length + 1 ∧ r.next.passed = r.passed ∧
        controlWeight r.next.control < controlWeight r.control + 2 ∨
      r.next.out = r.out ∧ r.next.passed = r.passed + 1 ∧ r.next.control = r.control := by
  unfold Reorder.next
  split
  · simp [Reorder.emit, hc, controlWeight]
  · split
    · simp [hc]
    · simp [hc, controlWeight]

theorem body_progress {r : Reorder W} {p : Item W} (hc : r.control = .body p)
    (hf : (r.body p).failed = none) :
    ((r.body p).out = r.out ∨ (r.body p).out.length = r.out.length + 1) ∧
      (r.body p).passed = r.passed ∧
        controlWeight (r.body p).control < controlWeight r.control := by
  have hcontrol := (body_control r p).resolve_left (by simp [hf])
  refine ⟨?_, ?_, ?_⟩
  · unfold Reorder.body
    split
    · exact Or.inl rfl
    split
    · exact Or.inl rfl
    split
    · split
      · exact Or.inl rfl
      · split
        · exact Or.inr (by simp [Reorder.emit])
        · exact Or.inl rfl
    split
    · split <;> exact Or.inl rfl
    · exact Or.inl rfl
  · unfold Reorder.body
    split
    · rfl
    split
    · rfl
    split
    · split
      · rfl
      · split <;> rfl
    split
    · split <;> rfl
    · rfl
  · rw [hc]
    rcases hcontrol with hx | hx | hx <;> simp [hx, controlWeight]

theorem weight_next {l : Label A W E} (hc : Composed f upstream s) (hl : Linked f upstream s)
    (hn : upstream.length < 2 ^ 31) (he : Enabled s l) :
    (next f s l).weight f upstream < s.weight f upstream := by
  have hc' := composed_next hc hn he
  have hl' := linked_step hl hc hn he
  cases l with
  | check k =>
    obtain ⟨-, c, hx⟩ := he.2.2.2
    have hs : next f s (.check k) = { s with failed := some c } := by simp [next, hx]
    have hw : State.weight f upstream { s with failed := some c } =
        0 + s.concurrentWeight f + s.reorder.weight f upstream := rfl
    rw [hs, hw, State.weight, if_pos he.1]
    omega
  | next =>
    have hx : s.reorder.control = .idle := he.2.2.2
    have hw : (next f s .next).weight f upstream =
        (if s.failed = none then 1 else 0) + s.concurrentWeight f +
          (2 + 2 * ((upstream.flatMap f).length - s.reorder.out.length) +
            (upstream.length - s.reorder.passed)) := rfl
    rw [hw, State.weight, Reorder.weight, hx, controlWeight]
    omega
  | reorder =>
    obtain ⟨l', hd, hi⟩ := hl'.items
    have hint : Interleaved f upstream l' := by
      have := hc'.interleaved hn
      rw [hd] at this
      exact this.append_left
    have hout : s.reorder.step.out.length ≤ (upstream.flatMap f).length :=
      (hi.out_prefix hint).length_le
    have hlt : s.reorder.step.weight f upstream < s.reorder.weight f upstream := by
      refine weight_reorder hout hi.passed_le ?_
      rcases he.2.2.2 with hx | ⟨p, hx⟩
      · have hstep : s.reorder.step = s.reorder.next := by simp [Reorder.step, hx]
        rw [hstep]
        exact next_progress hx
      · have hstep : s.reorder.step = s.reorder.body p := by simp [Reorder.step, hx]
        have hf : s.reorder.step.failed = none := hi.failed
        rw [hstep] at hf ⊢
        obtain ⟨ho | ho, hp, hw⟩ := body_progress hx hf
        · exact Or.inl ⟨ho, hp, hw⟩
        · exact Or.inr (Or.inl ⟨ho, hp, by omega⟩)
    change (if s.failed = none then 1 else 0) + s.concurrentWeight f +
      s.reorder.step.weight f upstream < _
    rw [State.weight]
    omega
  | concurrent l =>
    obtain ⟨hr, ha⟩ := he.2.2.2
    cases hs : l.outward with
    | false =>
      have hlt := concurrentWeight_inward hc hn hr.2 ha hs
      exact weight_lt around_failed (around_reorder hs) hlt
    | true =>
      cases l <;> simp only [Concurrent.Label.outward, Bool.false_eq_true] at hs
      case begin => exact weight_begin hr.2 hl
      case next => exact weight_request hr.2 ha
      case downstreamDone => exact ha.elim
      case egress => exact weight_egress hl hc hr.2
      case ended => exact weight_ended hc hr.2

end Measure

section Ordered

/-- What downstream has seen in a state: nothing but a prefix of what `f` makes of the upstream
values, in upstream order, and all of it once it has been told that it is over. -/
structure Ordered (f : A → List W) (upstream : List A) (s : State A W E) : Prop where
  checks : s.failed = none ∧ s.reorder.failed = none ∧ s.concurrent.failed = none
  inOrder : s.reorder.out <+: upstream.flatMap f
  complete : s.concurrent.terminals ≠ [] →
    s.concurrent.terminals = [none] ∧ s.reorder.out = upstream.flatMap f

/-- Every run comes to an end, and there downstream has been told that it is over. -/
structure Correct (E : Type*) (f : A → List W) (upstream : List A) : Prop where
  ordered : ∀ s, (machine E f upstream).Reachable s → Ordered f upstream s
  ends : ∀ s, (machine E f upstream).Reachable s → (∀ l, ¬ (machine E f upstream).Enabled s l) →
    s.concurrent.terminals ≠ []
  bounded : ∃ n, ∀ s xs t, (machine E f upstream).Initial s → (machine E f upstream).Run s xs t →
    xs.length ≤ n

theorem weight_falls (hn : upstream.length < 2 ^ 31) (s : State A W E) (l : Label A W E)
    (h : (machine E f upstream).Reachable s) (he : (machine E f upstream).Enabled s l) :
    ((machine E f upstream).next s l).weight f upstream < s.weight f upstream := by
  obtain ⟨hc, hl⟩ := linked_reachable hn h
  exact weight_next hc hl hn he

/-- Without an empty tranche no adaptor fails its `CHECK`. -/
theorem not_failed (hn : upstream.length < 2 ^ 31) (hf : ∀ a ∈ upstream, f a ≠ [])
    (h : (machine E f upstream).Reachable s) : s.failed = none := by
  induction h with
  | initial h0 =>
    obtain ⟨registered, rfl⟩ := h0
    rfl
  | @step s t l h hs ih =>
    obtain ⟨he, rfl⟩ := hs
    obtain ⟨hc, -⟩ := linked_reachable hn h
    cases l with
    | check k =>
      obtain ⟨hk, c, hx⟩ := he.2.2.2
      obtain ⟨t, ht⟩ := hc.serves hk
      rcases ht.next_cases hn with hy | ⟨p, d', hy, -⟩ | ⟨-, -, a, ha, hnil⟩
      · simp [hy.2] at hx
      · simp [hy] at hx
      · exact absurd hnil (hf a ha)
    | next => exact ih
    | reorder => exact ih
    | concurrent l => exact (around_failed (f := f) (l := l)).trans ih

theorem correct_iff (hn : upstream.length < 2 ^ 31) :
    Correct E f upstream ↔ ∀ a ∈ upstream, f a ≠ [] := by
  constructor
  · intro h
    obtain ⟨s, hs, hq⟩ := Machine.exists_final (weight_falls (E := E) hn)
      (.initial ⟨true, rfl⟩ : (machine E f upstream).Reachable _)
    obtain ⟨hc, hl⟩ := linked_reachable hn hs
    have ht := terminated_of_final hc hl hn (h.ordered s hs).checks.1 hq
    exact (all_of_terminated hc hl hn ht).2.2
  · intro hf
    refine ⟨?_, ?_, ?_⟩
    · intro s hs
      obtain ⟨hc, hl⟩ := linked_reachable hn hs
      refine ⟨⟨not_failed hn hf hs, hl.reorder_failed, hc.not_failed⟩, ?_, ?_⟩
      · obtain ⟨l, hd, hi⟩ := hl.items
        have hint := hc.interleaved hn
        rw [hd] at hint
        exact hi.out_prefix hint.append_left
      · intro ht
        have hall := all_of_terminated hc hl hn (hc.history.terminals_eq ht).1
        exact ⟨hall.1, hall.2.1⟩
    · intro s hs hq
      obtain ⟨hc, hl⟩ := linked_reachable hn hs
      have ht := terminated_of_final hc hl hn (not_failed hn hf hs) hq
      simp [(all_of_terminated hc hl hn ht).1]
    · refine ⟨(State.init upstream true : State A W E).weight f upstream, ?_⟩
      rintro s xs t ⟨registered, rfl⟩ hr
      have hle := hr.length_le (weight_falls hn) (.initial ⟨registered, rfl⟩)
      exact hle

theorem twoEach_correct : Correct ℕ (fun a : ℕ => [a, a + 10]) [1, 2] :=
  (correct_iff (by decide)).mpr (by decide)

/-- `ConcurrentOrdered()` of a `Filter()` that lets nothing through, up to the end of the first
tranche. -/
def rejectFirst : List (Label ℕ ℕ ℕ) :=
  [.concurrent .begin, .next, .reorder, .concurrent .next, .concurrent .egress,
    .concurrent .ingressBegin, .concurrent (.upstreamValue (1, 1)),
    .concurrent (.createOrReuseFiber (1, 1) Concurrent.free), .concurrent (.startFiber (1, 1) 0),
    .concurrent (.fiberStart 0), .check 0]

/-- `Ended()` checks that the tranche has an index, and only a value brings one. -/
theorem rejectFirst_fails : ¬ Correct ℕ (fun a : ℕ => [a].filter fun _ => false) [1] := by
  intro h
  obtain ⟨s, hs, hp⟩ := Machine.exists_reachable_of_exec
    (M := machine ℕ (fun a : ℕ => [a].filter fun _ => false) [1]) rejectFirst
    (fun s => decide (s.failed = some .index)) ⟨true, rfl⟩ (by decide)
  have hf := (h.ordered s hs).checks.1
  rw [of_decide_eq_true hp] at hf
  simp at hf

end Ordered

end Eventuals.ConcurrentOrdered
