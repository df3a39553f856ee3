import Eventuals.ConcurrentOrdered

/-! Items of several tranches come in, those of one tranche in order; `ReorderAdaptor()` hands out
the values of one tranche after the other. -/
namespace Eventuals.ConcurrentOrdered

open Function (update)

variable {A W E : Type*}

theorem int_eq {z : ℤ} (hl : -2 ^ 31 ≤ z) (hu : z < 2 ^ 31) : int z = z := by
  rw [int, Int.bmod_def]
  split <;> omega

/-- The index of tranche number `t`. -/
def tag (t : ℕ) : ℤ :=
  t + 1

theorem tag_pos (t : ℕ) : 0 < tag t := by
  unfold tag
  omega

theorem tag_inj {t u : ℕ} : tag t = tag u ↔ t = u := by
  unfold tag
  omega

theorem int_tag {t n : ℕ} (ht : t < n) (hn : n < 2 ^ 31) : int (tag t) = tag t := by
  refine int_eq ?_ ?_ <;> unfold tag <;> omega

theorem int_marker {t n : ℕ} (ht : t < n) (hn : n < 2 ^ 31) : int (tag t * -1) = -tag t := by
  rw [int_eq] <;> unfold tag <;> omega

/-- Past the last tranche the index wraps around at worst. -/
theorem int_tag_ne {t n : ℕ} (ht : t < n) (hn : n < 2 ^ 31) : int (tag n) ≠ tag t := by
  rw [int, Int.bmod_def, tag, tag]
  split <;> omega

section Tranches

/-- What the fiber of tranche number `t` produces. -/
def items (f : A → List W) (upstream : List A) (t : ℕ) : List (Item W) :=
  match upstream[t]? with
  | some a => (f a).map (fun w => (tag t, some w)) ++ [(-tag t, none)]
  | none => []

def ofTranche (t : ℕ) (l : List (Item W)) : List (Item W) :=
  l.filter fun p => p.1.natAbs = t + 1

def valuesOf (t : ℕ) (l : List (Item W)) : List W :=
  (ofTranche t l).filterMap Prod.snd

variable {f : A → List W} {upstream : List A} {t u : ℕ} {l l' : List (Item W)} {p : Item W}

theorem items_eq {a : A} (ha : upstream[t]? = some a) :
    items f upstream t = (f a).map (fun w => (tag t, some w)) ++ [(-tag t, none)] := by
  simp [items, ha]

theorem natAbs_of_mem_items (hp : p ∈ items f upstream t) :
    p.1.natAbs = t + 1 ∧ t < upstream.length := by
  unfold items at hp
  cases ha : upstream[t]? with
  | none => simp [ha] at hp
  | some a =>
    refine ⟨?_, (List.getElem?_eq_some_iff.mp ha).1⟩
    simp only [ha, List.mem_append, List.mem_map, List.mem_singleton] at hp
    rcases hp with ⟨w, -, rfl⟩ | rfl <;> simp only [tag] <;> omega

theorem ofTranche_append (t : ℕ) (l l' : List (Item W)) :
    ofTranche t (l ++ l') = ofTranche t l ++ ofTranche t l' :=
  List.filter_append ..

theorem ofTranche_singleton (t : ℕ) (p : Item W) :
    ofTranche t [p] = if p.1.natAbs = t + 1 then [p] else [] := by
  by_cases hp : p.1.natAbs = t + 1 <;> simp [ofTranche, hp]

theorem valuesOf_append (t : ℕ) (l l' : List (Item W)) :
    valuesOf t (l ++ l') = valuesOf t l ++ valuesOf t l' := by
  simp [valuesOf, ofTranche_append]

theorem marker_not_mem {a : A} : (-tag t, none) ∉ (f a).map fun w => (tag t, some w) := by
  simp

/-- The end marker is the last item of its tranche. -/
theorem eq_items_of_marker (hp : l <+: items f upstream t) (hm : (-tag t, none) ∈ l) :
    l = items f upstream t := by
  unfold items at hp ⊢
  cases ha : upstream[t]? with
  | none =>
    rw [ha] at hp
    simp only [List.prefix_nil] at hp
    simp [hp] at hm
  | some a =>
    rw [ha] at hp
    rcases List.prefix_concat_iff.mp hp with hl | hl
    · exact hl
    · exact absurd (hl.subset hm) marker_not_mem

theorem filterMap_items {a : A} (ha : upstream[t]? = some a) :
    (items f upstream t).filterMap Prod.snd = f a := by
  simp [items_eq ha, List.filterMap_append, List.filterMap_map]

/-- Each tranche has come in up to some item, and there are no other items. -/
structure Interleaved (f : A → List W) (upstream : List A) (l : List (Item W)) : Prop where
  tranche : ∀ t, ofTranche t l <+: items f upstream t
  index : ∀ p ∈ l, p.1 ≠ 0

theorem Interleaved.append_left (h : Interleaved f upstream (l ++ l')) :
    Interleaved f upstream l := by
  refine ⟨fun t => ?_, fun p hp => h.index p (List.mem_append_left _ hp)⟩
  have ht := h.tranche t
  rw [ofTranche_append] at ht
  exact (List.prefix_append ..).trans ht

theorem Interleaved.mem (h : Interleaved f upstream l) (hp : p ∈ l) :
    ∃ t, p ∈ items f upstream t := by
  have h0 := h.index p hp
  refine ⟨p.1.natAbs - 1, (h.tranche (p.1.natAbs - 1)).subset ?_⟩
  simp only [ofTranche, List.mem_filter, decide_eq_true_eq]
  exact ⟨hp, by omega⟩

/-- A new item belongs to a tranche that has not come in to its end. -/
theorem Interleaved.concat (h : Interleaved f upstream (l ++ [p])) :
    ∃ t, t < upstream.length ∧ p ∈ items f upstream t ∧
      ofTranche t l ≠ items f upstream t ∧
      ∀ u, u ≠ t → ofTranche u (l ++ [p]) = ofTranche u l := by
  obtain ⟨t, ht⟩ := h.mem (p := p) (by simp)
  obtain ⟨ha, hlt⟩ := natAbs_of_mem_items ht
  refine ⟨t, hlt, ht, ?_, ?_⟩
  · intro he
    have hp := h.tranche t
    rw [ofTranche_append, ofTranche_singleton, if_pos ha, he] at hp
    have := hp.length_le
    simp only [List.length_append, List.length_singleton] at this
    omega
  · intro u hu
    rw [ofTranche_append, ofTranche_singleton, if_neg (by omega), List.append_nil]

end Tranches

section Reordering

variable {f : A → List W} {upstream : List A} {l : List (Item W)} {p : Item W} {r : Reorder W}

/-- `ReorderAdaptor()` after the items of `l`: it has handed out the tranches before `index_` and
the start of the one at `index_`, and keeps what came early. -/
structure Reorder.Inv (f : A → List W) (upstream : List A) (l : List (Item W)) (r : Reorder W) :
    Prop where
  passed_le : r.passed ≤ upstream.length
  index : r.index = int (tag r.passed)
  out : ∃ ws, r.out = (upstream.take r.passed).flatMap f ++ ws ∧
    valuesOf r.passed l = ws ++ r.buffer r.index
  later : ∀ t, r.passed < t → t < upstream.length → r.buffer (tag t) = valuesOf t l
  keys : ∀ z, (∀ t < upstream.length, z ≠ tag t) → r.buffer z = [] ∧ r.ended z = false
  ended : ∀ t < upstream.length, (r.ended (tag t) = true ↔ (-tag t, none) ∈ l)
  passedAll : ∀ t < r.passed, ofTranche t l = items f upstream t
  quiet : r.control = .asking ∨ r.control = .awaiting ∨ (∃ p, r.control = .body p) →
    r.buffer r.index = [] ∧ r.ended r.index = false
  done : r.done = false
  failed : r.failed = none

theorem Reorder.inv_init : Reorder.Inv f upstream [] Reorder.init := by
  constructor <;> simp [Reorder.init, valuesOf, ofTranche, int_eq, tag]

/-- The adaptor moves on without handing anything out. -/
theorem Reorder.Inv.setControl (h : Reorder.Inv f upstream l r) {c : Control W}
    (hc : c = .asking ∨ c = .awaiting ∨ (∃ p, c = .body p) →
      r.buffer r.index = [] ∧ r.ended r.index = false) :
    Reorder.Inv f upstream l { r with control := c } :=
  { h with quiet := hc }

theorem Reorder.Inv.passed_lt (h : Reorder.Inv f upstream l r) (hn : upstream.length < 2 ^ 31)
    (hb : r.buffer r.index ≠ [] ∨ r.ended r.index = true) : r.passed < upstream.length := by
  refine lt_of_le_of_ne h.passed_le fun he => ?_
  have hk := h.keys r.index fun t ht => by
    rw [h.index, he]
    exact int_tag_ne ht hn
  rcases hb with hb | hb
  · exact hb hk.1
  · simp [hk.2] at hb

theorem Reorder.Inv.index_eq (h : Reorder.Inv f upstream l r) (hn : upstream.length < 2 ^ 31)
    (hlt : r.passed < upstream.length) : r.index = tag r.passed :=
  h.index.trans (int_tag hlt hn)

theorem valuesOf_eq_nil (hl : Interleaved f upstream l) {t : ℕ} (ht : upstream.length ≤ t) :
    valuesOf t l = [] := by
  have hp := hl.tranche t
  rw [items, List.getElem?_eq_none ht, List.prefix_nil] at hp
  simp [valuesOf, hp]

theorem Reorder.inv_next (h : Reorder.Inv f upstream l r) (hn : upstream.length < 2 ^ 31)
    (hl : Interleaved f upstream l) : Reorder.Inv f upstream l r.next := by
  obtain ⟨ws, hout, hws⟩ := h.out
  unfold Reorder.next
  split
  · next value buffer hb =>
    have hlt := h.passed_lt hn (Or.inl (by simp [hb]))
    have hi := h.index_eq hn hlt
    exact { h with
      out := ⟨ws ++ [value], by simp [Reorder.emit, hout], by simp [Reorder.emit, hws, hb]⟩
      later := fun t ht hlt' => by
        change r.passed < t at ht
        have hne : tag t ≠ r.index := by
          rw [hi, Ne, tag_inj]
          omega
        simpa [Reorder.emit, update, hne] using h.later t ht hlt'
      keys := fun z hz => by
        have hne : z ≠ r.index := hi ▸ hz _ hlt
        simpa [Reorder.emit, update, hne] using h.keys z hz
      quiet := by simp [Reorder.emit] }
  · next hb =>
    split
    · next he =>
      have hlt := h.passed_lt hn (Or.inr he)
      have hi := h.index_eq hn hlt
      rw [hi] at he
      have hm := (h.ended _ hlt).mp he
      have hall : ofTranche r.passed l = items f upstream r.passed := by
        refine eq_items_of_marker (hl.tranche _) ?_
        simp only [ofTranche, List.mem_filter, decide_eq_true_eq]
        refine ⟨hm, ?_⟩
        simp only [tag]
        omega
      have ha : upstream[r.passed]? = some upstream[r.passed] := List.getElem?_eq_getElem hlt
      have hf : ws = f upstream[r.passed] := by
        rw [hb, List.append_nil] at hws
        rw [← hws, valuesOf, hall, filterMap_items ha]
      have htag : r.index + 1 = tag (r.passed + 1) := by
        rw [hi]
        simp [tag]
      exact { h with
        passed_le := hlt
        index := by rw [htag]
        out := by
          refine ⟨[], ?_, ?_⟩
          · change r.out = (upstream.take (r.passed + 1)).flatMap f ++ []
            rw [hout, hf, List.take_succ_eq_append_getElem hlt, List.flatMap_append,
              List.flatMap_singleton, List.append_nil]
          · simp only [List.nil_append]
            rw [htag]
            by_cases hlt' : r.passed + 1 < upstream.length
            · rw [int_tag hlt' hn]
              exact (h.later _ (by omega) hlt').symm
            · have heq : r.passed + 1 = upstream.length := by omega
              rw [valuesOf_eq_nil hl (by omega), heq]
              exact (h.keys _ fun t ht => int_tag_ne ht hn).1.symm
        later := fun t ht => h.later t (by simp only at ht; omega)
        passedAll := fun t ht => by
          have ht' : t < r.passed ∨ t = r.passed := by
            simp only at ht
            omega
          rcases ht' with ht' | rfl
          · exact h.passedAll t ht'
          · exact hall
        quiet := by simp }
    · next he =>
      exact h.setControl fun _ => ⟨hb, by simpa using he⟩

theorem valuesOf_marker (t u : ℕ) : valuesOf u [((-tag t, none) : Item W)] = [] := by
  rw [valuesOf, ofTranche_singleton]
  split <;> rfl

theorem valuesOf_value (t : ℕ) (w : W) : valuesOf t [(tag t, some w)] = [w] := by
  rw [valuesOf, ofTranche_singleton, if_pos (by simp only [tag]; omega)]
  rfl

theorem body_marker (hd : r.done = false) {t : ℕ} (ht : t < upstream.length)
    (hn : upstream.length < 2 ^ 31) :
    r.body (-tag t, none) =
      { r with ended := update r.ended (tag t) true, control := .next } := by
  have hpos := tag_pos t
  have hlt : -tag t < 0 := by omega
  have hkey : int (-tag t * -1) = tag t := by
    rw [Int.neg_mul_neg, Int.mul_one]
    exact int_tag ht hn
  simp only [Reorder.body, hd, Bool.false_eq_true, if_false, hlt, if_true, hkey]

theorem body_value (hd : r.done = false) {t : ℕ} {w : W} (hi : r.index = tag t)
    (hb : r.buffer r.index = []) : r.body (tag t, some w) = r.emit w := by
  have hpos := tag_pos t
  have hlt : ¬ tag t < 0 := by omega
  rw [hi] at hb
  simp only [Reorder.body, hd, Bool.false_eq_true, if_false, hlt, hi, if_true, hb, ne_eq,
    not_true_eq_false]

theorem body_early (hd : r.done = false) {t : ℕ} {w : W} (hi : r.index < tag t) :
    r.body (tag t, some w) =
      { r with
        buffer := update r.buffer (tag t) (r.buffer (tag t) ++ [w]), control := .asking } := by
  have hpos := tag_pos t
  have hlt : ¬ tag t < 0 := by omega
  have hne : r.index ≠ tag t := by omega
  simp only [Reorder.body, hd, Bool.false_eq_true, if_false, hlt, hne, hi, if_true]

theorem Reorder.inv_body (h : Reorder.Inv f upstream l r) (hn : upstream.length < 2 ^ 31)
    (hc : r.control = .body p) (hl : Interleaved f upstream (l ++ [p])) :
    Reorder.Inv f upstream (l ++ [p]) (r.body p) := by
  obtain ⟨t, hlt, hp, hopen, hother⟩ := hl.concat
  obtain ⟨ws, hout, hws⟩ := h.out
  obtain ⟨hb, he⟩ := h.quiet (Or.inr (Or.inr ⟨p, hc⟩))
  have hle : r.passed ≤ t := by
    by_contra hle
    exact hopen (h.passedAll t (by omega))
  have hall : ∀ u < r.passed, ofTranche u (l ++ [p]) = items f upstream u := by
    intro u hu
    rw [hother u (by omega)]
    exact h.passedAll u hu
  have hi := h.index_eq hn (by omega)
  have hd := h.done
  rw [items_eq (List.getElem?_eq_getElem hlt), List.mem_append, List.mem_map,
    List.mem_singleton] at hp
  rcases hp with ⟨w, -, rfl⟩ | rfl
  · have hmarker : ∀ u,
        ((-tag u, none) : Item W) ∈ l ++ [(tag t, some w)] ↔ (-tag u, none) ∈ l := by
      simp
    have hvalues : ∀ u, u ≠ t → valuesOf u (l ++ [(tag t, some w)]) = valuesOf u l := by
      intro u hu
      rw [valuesOf, hother u hu, valuesOf]
    have hvalue : valuesOf t (l ++ [(tag t, some w)]) = valuesOf t l ++ [w] := by
      rw [valuesOf_append, valuesOf_value]
    by_cases htp : r.passed = t
    · -- The value is the next one of the tranche at `index_`.
      subst htp
      rw [body_value hd hi hb]
      exact { h with
        out := by
          refine ⟨ws ++ [w], ?_, ?_⟩
          · simp [Reorder.emit, hout]
          · rw [show (r.emit w).passed = r.passed from rfl, hvalue, hws]
            simp [Reorder.emit, hb]
        later := fun u hu hu' => by
          change r.passed < u at hu
          rw [hvalues u (by omega)]
          exact h.later u hu hu'
        ended := fun u hu => (h.ended u hu).trans (hmarker u).symm
        passedAll := hall
        quiet := by simp [Reorder.emit] }
    · -- The value came early.
      have hne : r.index ≠ tag t := by
        rw [hi, Ne, tag_inj]
        exact htp
      have hless : r.index < tag t := by
        rw [hi]
        simp only [tag]
        omega
      rw [body_early hd hless]
      exact { h with
        out := by
          refine ⟨ws, hout, ?_⟩
          rw [hvalues _ htp]
          simpa [update, hne] using hws
        later := fun u hu hu' => by
          by_cases hut : u = t
          · subst hut
            rw [hvalue, ← h.later u hu hu']
            simp
          · have hne' : tag u ≠ tag t := fun hx => hut (tag_inj.mp hx)
            rw [hvalues u hut]
            simpa [update, hne'] using h.later u hu hu'
        keys := fun z hz => by
          simpa [update, hz t hlt] using h.keys z hz
        ended := fun u hu => (h.ended u hu).trans (hmarker u).symm
        passedAll := hall
        quiet := fun _ => ⟨by simpa [update, hne] using hb, he⟩ }
  · have hvalues : ∀ u, valuesOf u (l ++ [(-tag t, none)]) = valuesOf u l := by
      intro u
      rw [valuesOf_append, valuesOf_marker, List.append_nil]
    rw [body_marker hd hlt hn]
    exact { h with
      out := ⟨ws, hout, by rw [hvalues]; exact hws⟩
      later := fun u hu hu' => by
        rw [hvalues]
        exact h.later u hu hu'
      keys := fun z hz => by
        simpa [update, hz t hlt] using h.keys z hz
      ended := fun u hu => by
        by_cases hut : u = t
        · simp [hut]
        · have hne : tag u ≠ tag t := fun hx => hut (tag_inj.mp hx)
          simpa [update, hne] using h.ended u hu
      passedAll := hall
      quiet := by simp }

end Reordering

end Eventuals.ConcurrentOrdered
