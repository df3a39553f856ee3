import Eventuals.ConcurrentOrderedProgress
import Eventuals.Library.Iteration

/-! `ReorderAdaptor()` between any stream of tagged items and a downstream that asks for all of it
(`concurrent-ordered.h`). -/
namespace Eventuals.ConcurrentOrdered

open Function (update)
open Iteration (Leads)

variable {A W : Type*} {f : A → List W} {upstream : List A} {n t : ℕ} {l l' : List (Item W)}
  {p : Item W} {r : Reorder W}

section Tranched

/-- The items are those of the tranches up to `n`, in any order but for each marker, which is the
last item of its tranche. -/
structure Tranched (n : ℕ) (l : List (Item W)) : Prop where
  item : ∀ p ∈ l, ∃ t < n, (∃ w, p = (tag t, some w)) ∨ p = (-tag t, none)
  marker : ∀ t < n, ∃ before after, l = before ++ (-tag t, none) :: after ∧
    (-tag t, none) ∉ before ∧ ∀ p ∈ after, p.1 ≠ tag t ∧ p.1 ≠ -tag t

/-- The values of each tranche. -/
def tranches (n : ℕ) (l : List (Item W)) : List (List W) :=
  (List.range n).map fun t => valuesOf t l

theorem length_tranches (n : ℕ) (l : List (Item W)) : (tranches n l).length = n := by
  rw [tranches, List.length_map, List.length_range]

theorem tranches_getElem? (ht : t < n) : (tranches n l)[t]? = some (valuesOf t l) := by
  rw [tranches, List.getElem?_map, List.getElem?_range ht]
  rfl

theorem natAbs_eq_iff {z : ℤ} : z.natAbs = t + 1 ↔ z = tag t ∨ z = -tag t := by
  unfold tag
  omega

theorem map_filterMap_eq (h : ∀ p ∈ l, ∃ w, p = (tag t, some w)) :
    (l.filterMap Prod.snd).map (fun w => (tag t, some w)) = l := by
  induction l with
  | nil => rfl
  | cons p l ih =>
    obtain ⟨⟨w, rfl⟩, hrest⟩ := List.forall_mem_cons.mp h
    have hsnd : Prod.snd ((tag t, some w) : Item W) = some w := rfl
    rw [List.filterMap_cons_some hsnd, List.map_cons, ih hrest]

/-- What a tranche has in `l` is what its fiber would produce. -/
theorem Tranched.ofTranche_eq (h : Tranched n l) (t : ℕ) :
    ofTranche t l = items id (tranches n l) t := by
  by_cases ht : t < n
  · obtain ⟨before, after, hl, hbefore, hafter⟩ := h.marker t ht
    have hnil : ofTranche t after = [] := by
      refine List.filter_eq_nil_iff.mpr fun p hp => ?_
      rw [decide_eq_true_iff, natAbs_eq_iff, not_or]
      exact hafter p hp
    have hmarker : ofTranche t [((-tag t, none) : Item W)] = [(-tag t, none)] := by
      rw [ofTranche_singleton, if_pos (natAbs_eq_iff.mpr (.inr rfl))]
    have hofTranche : ofTranche t l = ofTranche t before ++ [(-tag t, none)] := by
      rw [hl, ← List.singleton_append, ofTranche_append, ofTranche_append, hmarker, hnil,
        List.append_nil]
    have hvalues : valuesOf t l = (ofTranche t before).filterMap Prod.snd := by
      rw [valuesOf, hofTranche, List.filterMap_append]
      exact List.append_nil _
    have hall : ∀ p ∈ ofTranche t before, ∃ w, p = (tag t, some w) := by
      intro p hp
      obtain ⟨hmem, habs⟩ := List.mem_filter.mp hp
      rw [decide_eq_true_iff, natAbs_eq_iff] at habs
      obtain ⟨u, -, ⟨w, rfl⟩ | rfl⟩ := h.item p (hl ▸ List.mem_append_left _ hmem)
      · have hu := tag_pos u
        have ht := tag_pos t
        rcases habs with habs | habs
        · exact ⟨w, by rw [← habs]⟩
        · dsimp only at habs
          omega
      · have hu := tag_pos u
        have ht := tag_pos t
        rcases habs with habs | habs
        · dsimp only at habs
          omega
        · rw [← habs] at hbefore
          exact absurd hmem hbefore
    rw [hofTranche, items_eq (tranches_getElem? ht), hvalues, id_eq, map_filterMap_eq hall]
  · rw [items, List.getElem?_eq_none (by rw [length_tranches]; omega)]
    refine List.filter_eq_nil_iff.mpr fun p hp => ?_
    rw [decide_eq_true_iff, natAbs_eq_iff]
    obtain ⟨u, hu, ⟨w, rfl⟩ | rfl⟩ := h.item p hp <;> unfold tag <;> dsimp only <;> omega

theorem Tranched.interleaved (h : Tranched n l) : Interleaved id (tranches n l) l := by
  refine ⟨fun t => ?_, fun p hp => ?_⟩
  · rw [h.ofTranche_eq]
  · obtain ⟨u, -, ⟨w, rfl⟩ | rfl⟩ := h.item p hp <;> unfold tag <;> dsimp only <;> omega

end Tranched

section Drained

/-- Nothing is kept of the tranches before `index_`. -/
def Reorder.Drained (r : Reorder W) : Prop := ∀ t < r.passed, r.buffer (tag t) = []

theorem drained_next (hd : r.Drained) (h : Reorder.Inv f upstream l r)
    (hn : upstream.length < 2 ^ 31) : r.next.Drained := by
  unfold Reorder.next
  split
  case h_1 value buffer hb =>
    have hi := h.index_eq hn (h.passed_lt hn (.inl (by rw [hb]; exact List.cons_ne_nil _ _)))
    intro t ht
    have hne : tag t ≠ r.index := by
      rw [hi, Ne, tag_inj]
      exact Nat.ne_of_lt ht
    change update r.buffer r.index buffer (tag t) = []
    rw [Function.update_of_ne hne]
    exact hd t ht
  case h_2 hb =>
    split
    case isTrue he =>
      have hi := h.index_eq hn (h.passed_lt hn (.inr he))
      intro t ht
      rcases Nat.lt_succ_iff_lt_or_eq.mp ht with ht | rfl
      · exact hd t ht
      · exact hi ▸ hb
    case isFalse => exact hd

theorem Reorder.Inv.passed_le_of_item (h : Reorder.Inv f upstream l r)
    (hl : Interleaved f upstream (l ++ [p])) : r.passed < upstream.length := by
  obtain ⟨t, hlt, -, hopen, -⟩ := hl.concat
  refine Nat.lt_of_le_of_lt ?_ hlt
  by_contra hle
  exact hopen (h.passedAll t (Nat.lt_of_not_le hle))

theorem drained_body (hd : r.Drained) (h : Reorder.Inv f upstream l r)
    (hn : upstream.length < 2 ^ 31) (hl : Interleaved f upstream (l ++ [p])) :
    (r.body p).Drained := by
  have hi := h.index_eq hn (h.passed_le_of_item hl)
  unfold Reorder.body
  split
  · exact hd
  split
  · exact hd
  split
  · split
    · exact hd
    · split <;> exact hd
  split
  case isTrue hless =>
    split
    case h_1 value _ =>
      intro t ht
      have hne : tag t ≠ p.1 := by
        change t < r.passed at ht
        rw [hi] at hless
        unfold tag at hless ⊢
        omega
      change update r.buffer p.1 _ (tag t) = []
      rw [Function.update_of_ne hne]
      exact hd t ht
    case h_2 => exact hd
  case isFalse => exact hd

end Drained

section Returns

/-- `Next()` calls itself as long as it passes a tranche that has ended. -/
theorem next_returns {r : Reorder W} (h : Reorder.Inv f upstream l r)
    (hn : upstream.length < 2 ^ 31) (hl : Interleaved f upstream l) (hc : r.control = .next) :
    ∃ k, (Reorder.next^[k] r).control ≠ .next := by
  induction hw : r.weight f upstream using Nat.strong_induction_on generalizing r with
  | _ w ih =>
    have hinv := Reorder.inv_next h hn hl
    have hlt := weight_reorder (hinv.out_prefix hl).length_le hinv.passed_le (next_progress hc)
    by_cases hnext : r.next.control = .next
    · obtain ⟨k, hk⟩ := ih _ (hw ▸ hlt) hinv hnext rfl
      exact ⟨k + 1, hk⟩
    · exact ⟨1, hnext⟩

end Returns

section Feeding

/-- Upstream of `ReorderAdaptor()` emits one item each time it is asked. -/
structure Feed (W : Type*) where
  reorder : Reorder W
  /-- What upstream has yet to emit. -/
  rest : List (Item W)
  /-- `Ended()` was called. -/
  ended : Bool

namespace Feed

def setControl (s : Feed W) (c : Control W) : Feed W :=
  { s with reorder := { s.reorder with control := c } }

/-- Downstream calls `Next()` whenever it is its turn. -/
def step (s : Feed W) : Feed W :=
  match s.reorder.control with
  | .idle => s.setControl .next
  | .next | .body _ => { s with reorder := s.reorder.step }
  | .asking =>
    match s.rest with
    | p :: rest => { s.setControl (.body p) with rest := rest }
    | [] => { s.setControl .awaiting with ended := true }
  | .notBegun | .awaiting => s

/-- Downstream has got `Begin()`. -/
def start (items : List (Item W)) : Feed W where
  reorder := { Reorder.init with control := .idle }
  rest := items
  ended := false

/-- All items were handed over, are pending, or are still to come. -/
structure Inv (f : A → List W) (upstream : List A) (items : List (Item W)) (s : Feed W) : Prop where
  fed : ∃ l, items = l ++ (s.reorder.control.pending ++ s.rest) ∧
    Reorder.Inv f upstream l s.reorder
  drained : s.reorder.Drained
  begun : s.reorder.control ≠ .notBegun
  ended : s.ended = true ↔ s.reorder.control = .awaiting
  rest : s.ended = true → s.rest = []

variable {items : List (Item W)} {s t : Feed W}

theorem inv_start (items : List (Item W)) : Inv f upstream items (start items) where
  fed := ⟨[], rfl, Reorder.inv_init.setControl (by simp)⟩
  drained := nofun
  begun := nofun
  ended := iff_of_false nofun nofun
  rest := nofun

section Step

theorem step_idle (hc : s.reorder.control = .idle) : s.step = s.setControl .next := by
  rw [step, hc]

theorem step_next (hc : s.reorder.control = .next) :
    s.step = { s with reorder := s.reorder.next } := by
  rw [step, hc]
  simp only [Reorder.step, hc]

theorem step_body (hc : s.reorder.control = .body p) :
    s.step = { s with reorder := s.reorder.body p } := by
  rw [step, hc]
  simp only [Reorder.step, hc]

theorem step_asking_nil (hc : s.reorder.control = .asking) (hr : s.rest = []) :
    s.step = { s.setControl .awaiting with ended := true } := by
  rw [step, hc, hr]

theorem step_asking_cons {rest : List (Item W)} (hc : s.reorder.control = .asking)
    (hr : s.rest = p :: rest) : s.step = { s.setControl (.body p) with rest := rest } := by
  rw [step, hc, hr]

theorem step_awaiting (hc : s.reorder.control = .awaiting) : s.step = s := by
  rw [step, hc]

end Step

section Steps

variable (h : Inv f upstream items s)
include h

theorem Inv.not_ended (hc : s.reorder.control ≠ .awaiting) : s.ended ≠ true :=
  fun he => hc (h.ended.mp he)

theorem Inv.reordered {r : Reorder W} (hc : s.reorder.control ≠ .awaiting)
    (hl : items = l ++ s.rest) (hinv : Reorder.Inv f upstream l r) (hd : r.Drained)
    (hr : r.control = .idle ∨ r.control = .next ∨ r.control = .asking) :
    Inv f upstream items { s with reorder := r } := by
  have hended := h.not_ended hc
  refine ⟨⟨l, ?_, hinv⟩, hd, ?_, iff_of_false hended ?_, fun he => absurd he hended⟩
  · rcases hr with hr | hr | hr <;> (change items = l ++ (r.control.pending ++ s.rest); rw [hr]) <;>
      exact hl
  · rcases hr with hr | hr | hr <;> (change r.control ≠ _; rw [hr]; nofun)
  · rcases hr with hr | hr | hr <;> (change r.control ≠ _; rw [hr]; nofun)

theorem inv_idle (hc : s.reorder.control = .idle) : Inv f upstream items s.step := by
  obtain ⟨l, hl, hinv⟩ := h.fed
  rw [hc] at hl
  rw [step_idle hc]
  exact h.reordered (by simp [hc]) hl (hinv.setControl (by simp)) h.drained (.inr (.inl rfl))

theorem inv_asking (hc : s.reorder.control = .asking) : Inv f upstream items s.step := by
  obtain ⟨l, hl, hinv⟩ := h.fed
  rw [hc] at hl
  have hquiet := hinv.quiet (.inl hc)
  cases hr : s.rest with
  | nil =>
    rw [step_asking_nil hc hr]
    exact ⟨⟨l, hl, hinv.setControl fun _ => hquiet⟩, h.drained, nofun, iff_of_true rfl rfl,
      fun _ => hr⟩
  | cons p rest =>
    have hended := h.not_ended (by simp [hc])
    rw [hr] at hl
    rw [step_asking_cons hc hr]
    exact ⟨⟨l, hl, hinv.setControl fun _ => hquiet⟩, h.drained, nofun, iff_of_false hended nofun,
      fun he => absurd he hended⟩

variable (hn : upstream.length < 2 ^ 31) (hi : Interleaved f upstream items)
include hn hi

theorem inv_nextControl (hc : s.reorder.control = .next) : Inv f upstream items s.step := by
  obtain ⟨l, hl, hinv⟩ := h.fed
  rw [hc] at hl
  have hlater : Interleaved f upstream l := (hl ▸ hi).append_left
  rw [step_next hc]
  exact h.reordered (by simp [hc]) hl (Reorder.inv_next hinv hn hlater)
    (drained_next h.drained hinv hn) next_control

theorem inv_body (hc : s.reorder.control = .body p) : Inv f upstream items s.step := by
  obtain ⟨l, hl, hinv⟩ := h.fed
  rw [hc] at hl
  have hl : items = (l ++ [p]) ++ s.rest := hl.trans (List.append_assoc ..).symm
  have hlater : Interleaved f upstream (l ++ [p]) := (hl ▸ hi).append_left
  have hbody := Reorder.inv_body hinv hn hc hlater
  have hfailed : (s.reorder.body p).failed = none := hbody.failed
  rw [step_body hc]
  exact h.reordered (by simp [hc]) hl hbody (drained_body h.drained hinv hn hlater)
    ((body_control s.reorder p).resolve_left fun hf => hf hfailed)

theorem inv_step : Inv f upstream items s.step := by
  cases hc : s.reorder.control with
  | notBegun => exact absurd hc h.begun
  | idle => exact inv_idle h hc
  | next => exact inv_nextControl h hn hi hc
  | body p => exact inv_body h hn hi hc
  | asking => exact inv_asking h hc
  | awaiting =>
    rw [step_awaiting hc]
    exact h

omit hn in
theorem Inv.interleaved : ∃ l, Reorder.Inv f upstream l s.reorder ∧ Interleaved f upstream l := by
  obtain ⟨l, hl, hinv⟩ := h.fed
  exact ⟨l, hinv, (hl ▸ hi).append_left⟩

omit hn in
theorem Inv.bounds : s.reorder.out.length ≤ (upstream.flatMap f).length ∧
    s.reorder.passed ≤ upstream.length := by
  obtain ⟨l, hinv, hl⟩ := h.interleaved hi
  exact ⟨(hinv.out_prefix hl).length_le, hinv.passed_le⟩

/-- Until the end every step leaves less to do. -/
theorem weight_step (he : s.ended ≠ true) :
    5 * s.step.rest.length + s.step.reorder.weight f upstream <
      5 * s.rest.length + s.reorder.weight f upstream := by
  obtain ⟨hout, hpassed⟩ := (inv_step h hn hi).bounds hi
  cases hc : s.reorder.control with
  | notBegun => exact absurd hc h.begun
  | idle =>
    rw [step_idle hc] at hout hpassed ⊢
    refine Nat.add_lt_add_left (weight_reorder (r := s.reorder) hout hpassed
      (.inl ⟨rfl, rfl, ?_⟩)) _
    rw [hc]
    exact Nat.lt_succ_self 2
  | next =>
    rw [step_next hc] at hout hpassed ⊢
    exact Nat.add_lt_add_left (weight_reorder hout hpassed (next_progress hc)) _
  | body p =>
    obtain ⟨l, hl, hinv⟩ := (inv_step h hn hi).fed
    rw [step_body hc] at hout hpassed hinv ⊢
    obtain ⟨hbody, hsame, hless⟩ := body_progress hc hinv.failed
    refine Nat.add_lt_add_left (weight_reorder hout hpassed ?_) _
    rcases hbody with hbody | hbody
    · exact .inl ⟨hbody, hsame, hless⟩
    · exact .inr (.inl ⟨hbody, hsame, Nat.lt_add_right _ hless⟩)
  | asking =>
    cases hr : s.rest with
    | nil =>
      rw [step_asking_nil hc hr] at hout hpassed ⊢
      rw [← hr]
      refine Nat.add_lt_add_left (weight_reorder (r := s.reorder) hout hpassed
        (.inl ⟨rfl, rfl, ?_⟩)) _
      rw [hc]
      exact Nat.lt_succ_self 0
    | cons p rest =>
      rw [step_asking_cons hc hr]
      simp only [Reorder.weight, setControl, hc, controlWeight, List.length_cons]
      omega
  | awaiting => exact absurd (h.ended.mpr hc) he

end Steps

theorem inv_run (hn : upstream.length < 2 ^ 31) (hi : Interleaved f upstream items)
    (h : Leads step (start items) t) : Inv f upstream items t :=
  h.invariant (inv_start items) fun _ hs => inv_step hs hn hi

/-- Where not all positive `int`s are indices, `index_` does not overflow. -/
theorem index_run (hn : upstream.length + 1 < 2 ^ 31) (hi : Interleaved f upstream items)
    (h : Leads step (start items) t) :
    t.reorder.index = tag t.reorder.passed ∧ t.reorder.passed ≤ upstream.length := by
  obtain ⟨l, -, hinv⟩ := (inv_run (Nat.lt_of_succ_lt hn) hi h).fed
  refine ⟨?_, hinv.passed_le⟩
  rw [hinv.index]
  exact int_tag (Nat.lt_succ_of_le hinv.passed_le) hn

theorem leads_ended (hn : upstream.length < 2 ^ 31) (hi : Interleaved f upstream items)
    (h : Inv f upstream items s) : ∃ t, Leads step s t ∧ t.ended = true := by
  induction hw : 5 * s.rest.length + s.reorder.weight f upstream using
    Nat.strong_induction_on generalizing s with
  | _ w ih =>
    by_cases he : s.ended = true
    · exact ⟨s, .refl, he⟩
    · obtain ⟨t, ht, hended⟩ := ih _ (hw ▸ weight_step h hn hi he) (inv_step h hn hi) rfl
      exact ⟨t, Iteration.leads_step.trans ht, hended⟩

end Feed

/-- What `ReorderAdaptor()` makes of the items of `n` tranches. -/
structure Reorders (n : ℕ) (items : List (Item W)) : Prop where
  unfailed : ∀ s, Leads Feed.step (.start items) s → s.reorder.failed = none
  returns : ∀ s, Leads Feed.step (.start items) s → s.reorder.control = .next →
    ∃ k, (Reorder.next^[k] s.reorder).control ≠ .next
  ends : ∃ s, Leads Feed.step (.start items) s ∧ s.ended = true
  ended : ∀ s, Leads Feed.step (.start items) s → s.ended = true →
    s.reorder.out = (List.range n).flatMap (fun t => valuesOf t items) ∧
      ∀ i, s.reorder.buffer i = []

/-- Whatever the order in which the tranches come in, they go out one after the other. -/
theorem reorderAdaptor_reorders (hn : n < 2 ^ 31) (h : Tranched n l) : Reorders n l := by
  have hlength : (tranches n l).length < 2 ^ 31 := by rwa [length_tranches]
  have hi := h.interleaved
  refine ⟨fun s hs => ?_, fun s hs hc => ?_, Feed.leads_ended hlength hi (Feed.inv_start l),
    fun s hs he => ?_⟩
  · obtain ⟨l', -, hinv⟩ := (Feed.inv_run hlength hi hs).fed
    exact hinv.failed
  · obtain ⟨l', hinv, hl⟩ := (Feed.inv_run hlength hi hs).interleaved hi
    exact next_returns hinv hlength hl hc
  · have hfeed := Feed.inv_run hlength hi hs
    obtain ⟨l', hl, hinv⟩ := hfeed.fed
    have hc := hfeed.ended.mp he
    rw [hc, hfeed.rest he] at hl
    obtain rfl : l = l' := hl.trans (List.append_nil _)
    have hpassed := hinv.le_passed hlength h.ofTranche_eq hc
    refine ⟨?_, fun i => ?_⟩
    · rw [hinv.out_all hlength hi h.ofTranche_eq hc, tranches, List.flatMap_map]
      rfl
    · by_cases hkey : ∃ t < n, i = tag t
      · obtain ⟨t, ht, rfl⟩ := hkey
        rw [length_tranches] at hpassed
        exact hfeed.drained t (Nat.lt_of_lt_of_le ht hpassed)
      · refine (hinv.keys i fun t ht heq => hkey ⟨t, ?_, heq⟩).1
        rwa [length_tranches] at ht

/-- The second tranche starts first and the third has no values. -/
theorem reorderAdaptor_three :
    Reorders 3 [(2, some 20), (1, some 10), (-3, none), (-2, none), (1, some 11), (-1, none)] := by
  refine reorderAdaptor_reorders (by decide) ⟨fun p hp => ?_, fun t ht => ?_⟩
  · simp only [List.mem_cons, List.not_mem_nil, or_false] at hp
    rcases hp with rfl | rfl | rfl | rfl | rfl | rfl
    · exact ⟨1, by decide, .inl ⟨20, rfl⟩⟩
    · exact ⟨0, by decide, .inl ⟨10, rfl⟩⟩
    · exact ⟨2, by decide, .inr rfl⟩
    · exact ⟨1, by decide, .inr rfl⟩
    · exact ⟨0, by decide, .inl ⟨11, rfl⟩⟩
    · exact ⟨0, by decide, .inr rfl⟩
  · match t, ht with
    | 0, _ =>
      exact ⟨[(2, some 20), (1, some 10), (-3, none), (-2, none), (1, some 11)], [], rfl, by decide,
        by decide⟩
    | 1, _ =>
      exact ⟨[(2, some 20), (1, some 10), (-3, none)], [(1, some 11), (-1, none)], rfl, by decide,
        by decide⟩
    | 2, _ =>
      exact ⟨[(2, some 20), (1, some 10)], [(-2, none), (1, some 11), (-1, none)], rfl, by decide,
        by decide⟩

end Feeding

end Eventuals.ConcurrentOrdered
