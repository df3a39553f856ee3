import Eventuals.ConcurrentOrderedRefinement

/-! What comes out of `ConcurrentOrdered(f)`, and when it ends. -/
namespace Eventuals.Concurrent

variable {X V E : Type*} {s : State X V E} {l : Label X V E}

/-- The steps that hand something downstream, and those that downstream takes. -/
def Label.outward : Label X V E → Bool
  | .begin | .next | .downstreamDone | .egress | .ended => true
  | _ => false

/-- Elsewhere the egress is at most woken. -/
theorem egress_next (h : Calm s) (hi : Inv s) (hh : History s) (ht : s.installed ≠ .triggered)
    (hr : Ready s l) (hc : Undisturbed s l) (hl : l.outward = false) :
    (next s l).delivered = s.delivered ∧
      ((next s l).egress = s.egress ∨ (next s l).egress = s.egress.notified) := by
  cases l with
  | begin | next | downstreamDone | egress | ended => simp [Label.outward] at hl
  | upstreamInstall | trigger => exact hc.elim
  | fiberValue | fiberOutcome | ingressBegin | startFiber | fiberStart => exact ⟨rfl, Or.inl rfl⟩
  | upstreamValue arg =>
    rcases body_cases (s := s) arg with hb | ⟨_, _, _, hb, -⟩
    · simp [next, hb, State.fail]
    · simp [next, hb]
  | upstreamOutcome o =>
    obtain rfl : o = none := hc
    simp [next, (upstreamOutcome_eq hi hr).1]
  | createOrReuseFiber arg contexts =>
    obtain ⟨i, fibers, hx, -⟩ := h.create hi hh ht contexts hr.1
    simp [next, hx]
  | ingressEpilogue o =>
    obtain ⟨e, w, c, he, -, hx⟩ := ingressEpilogue_shape s o
    simp only [next, hx]
    exact ⟨rfl, he⟩
  | waitForDone =>
    simp only [next, State.waitForDoneSection]
    split <;> exact ⟨rfl, Or.inl rfl⟩
  | done =>
    obtain ⟨w, c, -, hx⟩ := doneSection_shape s
    simp only [next, hx]
    exact ⟨rfl, Or.inl rfl⟩
  | interrupt =>
    obtain ⟨ahead, ha⟩ := hr
    exact absurd (hi.triggered (by simp [ha])).1 ht
  | push i value =>
    obtain ⟨e, c, he, hx⟩ := push_shape s i value
    simp only [next, hx]
    exact ⟨rfl, he⟩
  | fiberEpilogue i o =>
    obtain rfl := h.fiberOutcome_eq hr
    obtain ⟨e, w, c, he, -, hx⟩ := fiberEpilogue_shape s i none
    simp only [next, hx]
    exact ⟨rfl, he⟩

end Eventuals.Concurrent

namespace Eventuals.ConcurrentOrdered

open Transition (Machine)

variable {A W E : Type*} {f : A → List W} {upstream : List A} {l : List (Item W)} {r : Reorder W}

section Reordered

theorem Reorder.Inv.out_prefix (h : Reorder.Inv f upstream l r) (hl : Interleaved f upstream l) :
    r.out <+: upstream.flatMap f := by
  obtain ⟨ws, hout, hws⟩ := h.out
  rw [hout]
  by_cases hlt : r.passed < upstream.length
  · have ha : upstream[r.passed]? = some upstream[r.passed] := List.getElem?_eq_getElem hlt
    have hpre : ws <+: f upstream[r.passed] := by
      have hv : valuesOf r.passed l <+: f upstream[r.passed] := by
        have hp := (hl.tranche r.passed).filterMap Prod.snd
        rwa [filterMap_items ha] at hp
      exact (hws ▸ List.prefix_append ..).trans hv
    have hsplit : upstream.flatMap f = (upstream.take r.passed).flatMap f ++
        (f upstream[r.passed] ++ (upstream.drop (r.passed + 1)).flatMap f) := by
      conv_lhs => rw [← List.take_append_drop r.passed upstream, List.drop_eq_getElem_cons hlt]
      rw [List.flatMap_append, List.flatMap_cons]
    rw [hsplit]
    exact (List.prefix_append_right_inj _).mpr (hpre.trans (List.prefix_append ..))
  · have hle := h.passed_le
    rw [valuesOf_eq_nil hl (by omega)] at hws
    have hnil : ws = [] := (List.append_eq_nil_iff.mp hws.symm).1
    have htake : upstream.take r.passed = upstream := List.take_of_length_le (by omega)
    exact (show (upstream.take r.passed).flatMap f ++ ws = upstream.flatMap f by
      rw [hnil, htake, List.append_nil]) ▸ List.prefix_rfl

theorem Reorder.Inv.le_passed (h : Reorder.Inv f upstream l r) (hn : upstream.length < 2 ^ 31)
    (hall : ∀ t, ofTranche t l = items f upstream t) (hc : r.control = .awaiting) :
    upstream.length ≤ r.passed := by
  by_contra hlt
  have hlt : r.passed < upstream.length := by omega
  have hm : (-tag r.passed, none) ∈ l := by
    have hmem : (-tag r.passed, none) ∈ ofTranche r.passed l := by
      rw [hall, items_eq (List.getElem?_eq_getElem hlt)]
      simp
    exact List.mem_of_mem_filter hmem
  have hended := (h.ended _ hlt).mpr hm
  have hquiet := (h.quiet (Or.inr (Or.inl hc))).2
  rw [h.index_eq hn hlt] at hquiet
  simp [hended] at hquiet

/-- Once everything has come in, nothing stays in the buffer. -/
theorem Reorder.Inv.out_all (h : Reorder.Inv f upstream l r) (hn : upstream.length < 2 ^ 31)
    (hl : Interleaved f upstream l) (hall : ∀ t, ofTranche t l = items f upstream t)
    (hc : r.control = .awaiting) : r.out = upstream.flatMap f := by
  have hp := h.le_passed hn hall hc
  obtain ⟨ws, hout, hws⟩ := h.out
  rw [valuesOf_eq_nil hl hp] at hws
  rw [hout, (List.append_eq_nil_iff.mp hws.symm).1, List.append_nil, List.take_of_length_le hp]

theorem body_control (r : Reorder W) (p : Item W) :
    (r.body p).failed ≠ none ∨
      (r.body p).control = .idle ∨ (r.body p).control = .next ∨ (r.body p).control = .asking := by
  unfold Reorder.body
  split
  · simp [Reorder.fail]
  split
  · simp
  split
  · split
    · simp [Reorder.fail]
    · split
      · simp [Reorder.emit]
      · simp [Reorder.fail]
  split
  · split
    · simp
    · simp [Reorder.fail]
  · simp [Reorder.fail]

theorem next_control : r.next.control = .idle ∨ r.next.control = .next ∨
    r.next.control = .asking := by
  unfold Reorder.next
  split
  · simp [Reorder.emit]
  · split <;> simp

end Reordered

section Linked

/-- Either it is the turn of `ReorderAdaptor()`'s side or that of `Concurrent()`. -/
def Agrees : Control W → Concurrent.Egress → Prop
  | .notBegun, e => e = .notBegun
  | .awaiting, e => e = .acquiring ∨ e = .waiting ∨ e = .awaitingEnded ∨ e = .terminated
  | _, e => e = .idle

theorem Agrees.notified {c : Control W} {e : Concurrent.Egress} (h : Agrees c e) :
    Agrees c e.notified := by
  cases c <;> cases e <;> simp_all [Agrees, Concurrent.Egress.notified]

/-- The item in hand. -/
def Control.pending : Control W → List (Item W)
  | .body p => [p]
  | _ => []

structure Linked (f : A → List W) (upstream : List A) (s : State A W E) : Prop where
  agrees : Agrees s.reorder.control s.concurrent.egress
  items : ∃ l, s.concurrent.delivered.map Prod.snd = l ++ s.reorder.control.pending ∧
    Reorder.Inv f upstream l s.reorder

variable {s : State A W E} {l : Concurrent.Label (ℤ × A) (Item W) E}

theorem linked_init (registered : Bool) :
    Linked f upstream (State.init upstream registered : State A W E) :=
  ⟨rfl, [], rfl, Reorder.inv_init⟩

theorem Composed.interleaved (h : Composed f upstream s) (hn : upstream.length < 2 ^ 31) :
    Interleaved f upstream (s.concurrent.delivered.map Prod.snd) := by
  obtain ⟨n, hl⟩ := Tranches.ledger_reachable hn h.view
  have hi : Interleaved f upstream (s.concurrent.pushed.map Prod.snd) := hl.interleaved
  rw [← h.history.delivered, List.map_append] at hi
  exact hi.append_left

theorem around_reorder (hl : l.outward = false) : (around f s l).reorder = s.reorder := by
  cases l <;> first | rfl | simp [Concurrent.Label.outward] at hl

theorem around_failed : (around f s l).failed = s.failed := by
  cases l <;> first | rfl | skip
  simp only [around]
  split <;> rfl

theorem linked_inward (h : Linked f upstream s) (hc : Composed f upstream s)
    (hr : Concurrent.Ready s.concurrent l) (ha : Allowed s l) (hl : l.outward = false) :
    Linked f upstream (next f s (.concurrent l)) := by
  obtain ⟨hd, he⟩ := Concurrent.egress_next hc.calm hc.inv hc.history hc.not_triggered hr
    ha.undisturbed hl
  have hreorder : (next f s (.concurrent l)).reorder = s.reorder := around_reorder hl
  refine ⟨?_, ?_⟩
  · rw [hreorder]
    rcases he with he | he
    · exact he ▸ h.agrees
    · exact he ▸ h.agrees.notified
  · rw [hreorder]
    exact hd ▸ h.items

theorem linked_begin (h : Linked f upstream s) (he : s.concurrent.egress = .notBegun) :
    Linked f upstream (next f s (.concurrent .begin)) := by
  have hc : s.reorder.control = .notBegun := by
    have ha := h.agrees
    cases hx : s.reorder.control <;> simp_all [Agrees]
  obtain ⟨l, hd, hi⟩ := h.items
  refine ⟨rfl, l, ?_, hi.setControl (by simp)⟩
  rw [hc] at hd
  exact hd

theorem linked_next (h : Linked f upstream s) (hc : s.reorder.control = .asking) :
    Linked f upstream (next f s (.concurrent .next)) := by
  obtain ⟨l, hd, hi⟩ := h.items
  refine ⟨Or.inl rfl, l, ?_, hi.setControl fun _ => hi.quiet (Or.inl hc)⟩
  rw [hc] at hd
  exact hd

theorem Linked.awaiting (h : Linked f upstream s)
    (he : s.concurrent.egress = .acquiring ∨ s.concurrent.egress = .awaitingEnded ∨
      s.concurrent.egress = .terminated) : s.reorder.control = .awaiting := by
  have ha := h.agrees
  cases hx : s.reorder.control <;> simp_all [Agrees]

theorem linked_egress (h : Linked f upstream s) (hc : Composed f upstream s)
    (he : s.concurrent.egress = .acquiring) :
    Linked f upstream (next f s (.concurrent .egress)) := by
  have hw := h.awaiting (Or.inl he)
  obtain ⟨l, hd, hi⟩ := h.items
  have hquiet := hi.quiet (Or.inr (Or.inl hw))
  rw [hw] at hd
  replace hd := hd.trans (List.append_nil l)
  have hs : s.concurrent.stoppedOrError = none := by
    rw [hc.history.recorded hc.calm.bypassed, hc.calm.recorded]
    rfl
  change Linked f upstream { around f s .egress with concurrent := s.concurrent.egressSection }
  rcases Concurrent.egress_cases s.concurrent with ⟨hv, -, hx⟩ | ⟨hx, -⟩ |
    ⟨value, values, hv, -, hx⟩ | ⟨hv, -, -, -, hx⟩
  · have ha : around f s .egress = s := by simp [around, hv]
    rw [ha, hx]
    exact ⟨by simp [hw, Agrees], l, by simpa [hw, Control.pending] using hd, hi⟩
  · exact absurd hs hx
  · have ha : around f s .egress = s.setControl (.body value.2) := by simp [around, hv, hx]
    rw [ha, hx]
    refine ⟨rfl, l, ?_, hi.setControl fun _ => hquiet⟩
    simp [State.setControl, Control.pending, hd]
  · have ha : around f s .egress = s := by simp [around, hv]
    obtain ⟨d, c, hy⟩ := Concurrent.callDone_shape
      { s.concurrent with egressSaved := true, egress := .awaitingEnded }
    rw [ha, hx, hy]
    exact ⟨by simp [hw, Agrees], l, by simpa [hw, Control.pending] using hd, hi⟩

theorem linked_ended (h : Linked f upstream s) (hc : Composed f upstream s)
    (hw : s.concurrent.waitForDone = .ending) :
    Linked f upstream (next f s (.concurrent .ended)) := by
  have hx := h.awaiting (Or.inr (Or.inl (hc.inv.awaiting_of_ending hw)))
  change Linked f upstream { s with concurrent := s.concurrent.endedSection }
  rw [Concurrent.ended_eq hc.inv.toBase hw]
  exact ⟨by simp [hx, Agrees], h.items⟩

theorem linked_reorder (h : Linked f upstream s) (hc : Composed f upstream s)
    (hn : upstream.length < 2 ^ 31)
    (hr : s.reorder.control = .next ∨ ∃ item, s.reorder.control = .body item) :
    Linked f upstream (next f s .reorder) := by
  have hl := hc.interleaved hn
  obtain ⟨l, hd, hi⟩ := h.items
  have hidle : s.concurrent.egress = .idle := by
    have ha := h.agrees
    rcases hr with hx | ⟨p, hx⟩
    · rwa [hx] at ha
    · rwa [hx] at ha
  have done : ∀ (r : Reorder W) (l : List (Item W)),
      r.control = .idle ∨ r.control = .next ∨ r.control = .asking → Reorder.Inv f upstream l r →
      s.concurrent.delivered.map Prod.snd = l → Linked f upstream { s with reorder := r } := by
    intro r l hcontrol hinv hdel
    refine ⟨?_, l, ?_, hinv⟩
    · rcases hcontrol with hx | hx | hx <;> simp [hx, Agrees, hidle]
    · rcases hcontrol with hx | hx | hx <;> simp [hx, Control.pending, hdel]
  rcases hr with hx | ⟨p, hx⟩
  · rw [hx] at hd
    replace hd := hd.trans (List.append_nil l)
    have hstep : s.reorder.step = s.reorder.next := by simp [Reorder.step, hx]
    change Linked f upstream { s with reorder := s.reorder.step }
    rw [hstep]
    exact done _ l next_control (Reorder.inv_next hi hn (hd ▸ hl)) hd
  · rw [hx, Control.pending] at hd
    have hstep : s.reorder.step = s.reorder.body p := by simp [Reorder.step, hx]
    have hinv := Reorder.inv_body hi hn hx (hd ▸ hl)
    change Linked f upstream { s with reorder := s.reorder.step }
    rw [hstep]
    have hb := (body_control s.reorder p).resolve_left (by simp [hinv.failed])
    exact done _ (l ++ [p]) hb hinv hd

theorem linked_step {l : Label A W E} (h : Linked f upstream s) (hc : Composed f upstream s)
    (hn : upstream.length < 2 ^ 31) (he : Enabled s l) : Linked f upstream (next f s l) := by
  cases l with
  | check k =>
    simp only [next]
    split
    · exact ⟨h.agrees, h.items⟩
    · exact h
  | next =>
    have hx : s.reorder.control = .idle := he.2.2.2
    obtain ⟨l, hd, hi⟩ := h.items
    have ha := h.agrees
    rw [hx] at hd ha
    exact ⟨ha, l, hd, hi.setControl (by simp)⟩
  | reorder => exact linked_reorder h hc hn he.2.2.2
  | concurrent l =>
    obtain ⟨hl, ha⟩ := he.2.2.2
    cases hs : l.outward with
    | false => exact linked_inward h hc hl.2 ha hs
    | true =>
      cases l <;> simp only [Concurrent.Label.outward, Bool.false_eq_true] at hs
      case begin => exact linked_begin h hl.2
      case next => exact linked_next h ha
      case downstreamDone => exact ha.elim
      case egress => exact linked_egress h hc hl.2
      case ended => exact linked_ended h hc hl.2

theorem linked_reachable (hn : upstream.length < 2 ^ 31)
    (h : (machine E f upstream).Reachable s) : Composed f upstream s ∧ Linked f upstream s := by
  refine h.invariant (P := fun s => Composed f upstream s ∧ Linked f upstream s) ?_ ?_
  · rintro s ⟨registered, rfl⟩
    exact ⟨composed_init registered, linked_init registered⟩
  · rintro s l ⟨hc, hl⟩ he
    exact ⟨composed_next hc hn he, linked_step hl hc hn he⟩

end Linked

end Eventuals.ConcurrentOrdered
