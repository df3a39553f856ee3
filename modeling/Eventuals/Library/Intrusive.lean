import Mathlib.Data.List.Basic
import Mathlib.Data.List.Nodup
import Mathlib.Logic.Function.Basic

/-! Singly linked lists whose links are stored in the nodes themselves. -/
namespace Intrusive

variable {W : Type*} {next next' : W → Option W} {p r head : Option W} {l l' q : List W}
  {u v w : W}

/-- The nodes met from `p` up to `r` along the links. -/
def Segment (next : W → Option W) : Option W → List W → Option W → Prop
  | p, [], r => p = r
  | p, w :: l, r => p = some w ∧ Segment next (next w) l r

/-- The whole list met from `p`. -/
abbrev Chain (next : W → Option W) (p : Option W) (l : List W) : Prop :=
  Segment next p l none

@[simp] theorem segment_nil : Segment next p [] r ↔ p = r := Iff.rfl

@[simp] theorem segment_cons :
    Segment next p (w :: l) r ↔ p = some w ∧ Segment next (next w) l r := Iff.rfl

theorem segment_append :
    Segment next p (l ++ l') r ↔ ∃ m, Segment next p l m ∧ Segment next m l' r := by
  induction l generalizing p with
  | nil => simp
  | cons w l ih =>
    simp only [List.cons_append, segment_cons, ih]
    constructor
    · rintro ⟨hp, m, hl, hm⟩
      exact ⟨m, ⟨hp, hl⟩, hm⟩
    · rintro ⟨m, ⟨hp, hl⟩, hm⟩
      exact ⟨hp, m, hl, hm⟩

/-- Only the links of listed nodes matter. -/
theorem segment_congr (h : ∀ v ∈ l, next v = next' v) :
    Segment next p l r ↔ Segment next' p l r := by
  induction l generalizing p with
  | nil => exact Iff.rfl
  | cons w l ih =>
    have hw := h w List.mem_cons_self
    simp only [segment_cons, hw, ih fun v hv => h v (List.mem_cons_of_mem _ hv)]

theorem segment_update [DecidableEq W] {x : Option W} (h : w ∉ l) :
    Segment (Function.update next w x) p l r ↔ Segment next p l r := by
  apply segment_congr
  intro v hv
  have hne : v ≠ w := fun he => h (he ▸ hv)
  simp [hne]

theorem Chain.unique (h : Chain next p l) (h' : Chain next p l') : l = l' := by
  induction l generalizing p l' with
  | nil =>
    cases l' with
    | nil => rfl
    | cons w l' => simp_all
  | cons w l ih =>
    cases l' with
    | nil => simp_all
    | cons v l' =>
      obtain ⟨hp, hl⟩ := h
      obtain ⟨hp', hl'⟩ := h'
      have he : w = v := Option.some.inj (hp ▸ hp')
      subst he
      rw [ih hl hl']

theorem Chain.of_mem (h : Chain next p l) (hv : v ∈ l) :
    ∃ a b, l = a ++ v :: b ∧ Chain next (next v) b := by
  obtain ⟨a, b, rfl⟩ := List.append_of_mem hv
  obtain ⟨m, _, _, hb⟩ := segment_append.mp h
  exact ⟨a, b, rfl, hb⟩

/-- A list that ends cannot meet a node twice. -/
theorem Chain.nodup (h : Chain next p l) : l.Nodup := by
  induction l generalizing p with
  | nil => exact List.nodup_nil
  | cons w l ih =>
    refine List.nodup_cons.mpr ⟨?_, ih h.2⟩
    intro hw
    obtain ⟨a, b, he, hb⟩ := Chain.of_mem h.2 hw
    have hlen := congrArg List.length (Chain.unique h.2 hb)
    rw [he] at hlen
    simp only [List.length_append, List.length_cons] at hlen
    omega

theorem Chain.head_eq (h : Chain next p l) : p = l.head? := by
  cases l with
  | nil => exact h
  | cons w l => exact h.1

theorem Chain.next_last (h : Chain next p (l ++ [v])) : next v = none := by
  obtain ⟨m, _, _, hm⟩ := segment_append.mp h
  exact hm

/-- The link of a listed node leads to the rest of the list. -/
theorem Chain.next_eq_head {l' : List W} (h : Chain next p (l ++ v :: l')) :
    next v = l'.head? := by
  obtain ⟨m, _, hm⟩ := segment_append.mp h
  exact Chain.head_eq hm.2

theorem Chain.next_mem (h : Chain next p l) (hv : v ∈ l) (hu : next v = some u) : u ∈ l := by
  obtain ⟨a, b, rfl, hb⟩ := h.of_mem hv
  have hh := hb.head_eq
  rw [hu] at hh
  have hub := List.mem_of_head? hh.symm
  simp [hub]

theorem Chain.next_eq_none_iff (h : Chain next p l) (hv : v ∈ l) :
    next v = none ↔ l.getLast? = some v := by
  obtain ⟨a, b, rfl, hb⟩ := h.of_mem hv
  rw [hb.head_eq]
  cases b with
  | nil => simp
  | cons u b =>
    have hnd := h.nodup
    have hne : (u :: b).getLast? ≠ some v := by
      intro he
      have hmem := List.mem_of_getLast? he
      simp only [List.nodup_append, List.nodup_cons] at hnd
      exact hnd.2.1.1 hmem
    simpa [List.getLast?_append, List.getLast?_cons_cons] using hne

section Ends

variable [DecidableEq W]

/-- Linking a node behind the last one appends it. -/
theorem Chain.append (h : Chain next p (l ++ [v])) (hw : w ∉ l ++ [v]) (hn : next w = none) :
    Chain (Function.update next v (some w)) p (l ++ [v, w]) := by
  have hv : v ∉ l := by
    have hnd := h.nodup
    simp only [List.nodup_append, List.mem_singleton] at hnd
    exact fun hm => hnd.2.2 v hm v rfl rfl
  have hwv : w ≠ v := by
    rintro rfl
    simp at hw
  obtain ⟨m, hl, hm, _⟩ := segment_append.mp h
  refine segment_append.mpr ⟨m, (segment_update hv).mpr hl, ?_⟩
  simp [hm, hwv, hn]

/-- A listed node without a link is the last one: linking another node behind it appends that. -/
theorem Chain.link (h : Chain next p l) (hv : v ∈ l) (hn : next v = none) (hw : w ∉ l)
    (hnw : next w = none) : Chain (Function.update next v (some w)) p (l ++ [w]) := by
  obtain ⟨l, rfl⟩ := List.getLast?_eq_some_iff.mp ((h.next_eq_none_iff hv).mp hn)
  rw [List.append_assoc]
  exact h.append hw hnw

/-- Cutting the link of the last node but one drops the last. -/
theorem Chain.dropLast (h : Chain next p (l ++ [v, w])) :
    Chain (Function.update next v none) p (l ++ [v]) := by
  have hv : v ∉ l := by
    have hnd := h.nodup
    simp only [List.nodup_append, List.mem_cons] at hnd
    exact fun hm => hnd.2.2 v hm v (Or.inl rfl) rfl
  obtain ⟨m, hl, hm, _⟩ := segment_append.mp h
  refine segment_append.mpr ⟨m, (segment_update hv).mpr hl, ?_⟩
  simp [hm]

end Ends

/-! The same list read from its last node: `q` names the nodes oldest first. -/

section Oldest

theorem Chain.oldest_next (h : Chain next head (w :: q).reverse) : next w = none := by
  rw [List.reverse_cons] at h
  exact h.next_last

theorem Chain.second_next (h : Chain next head (w :: v :: q).reverse) : next v = some w := by
  simp only [List.reverse_cons, List.append_assoc, List.cons_append, List.nil_append] at h
  obtain ⟨m, _, hm⟩ := segment_append.mp h
  exact hm.2.1

theorem Chain.mem_of_head (h : Chain next head q.reverse) (hv : head = some v) : v ∈ q := by
  have hh := h.head_eq
  rw [hv] at hh
  exact List.mem_reverse.mp (List.mem_of_head? hh.symm)

theorem Chain.next_eq_none_iff_oldest (h : Chain next head q.reverse) (hv : v ∈ q) :
    next v = none ↔ q.head? = some v := by
  rw [h.next_eq_none_iff (List.mem_reverse.mpr hv), List.getLast?_reverse]

theorem Chain.eq_nil_iff (h : Chain next head q.reverse) : head = none ↔ q = [] := by
  rw [h.head_eq]
  simp

/-- A node with a link is behind another node of the list. -/
theorem Chain.next_mem_oldest (h : Chain next head q.reverse) (hv : v ∈ q)
    (hu : next v = some u) : u ∈ q :=
  List.mem_reverse.mp (h.next_mem (List.mem_reverse.mpr hv) hu)

/-- The node linked to the oldest one is the second oldest. -/
theorem Chain.eq_of_next_oldest (h : Chain next head q.reverse) (hv : v ∈ q)
    (hu : next v = some u) (hn : next u = none) : ∃ q', q = u :: v :: q' := by
  have hq := (h.next_eq_none_iff_oldest (h.next_mem_oldest hv hu)).mp hn
  cases q with
  | nil => simp at hq
  | cons w q =>
    simp only [List.head?_cons, Option.some.injEq] at hq
    subst hq
    obtain ⟨a, b, he, hb⟩ := h.of_mem (List.mem_reverse.mpr hv)
    have hh := hb.head_eq
    rw [hu] at hh
    cases b with
    | nil => simp at hh
    | cons z b =>
      simp only [List.head?_cons, Option.some.injEq] at hh
      subst hh
      have hb0 : b = [] := by
        have hc := hb.2
        rw [hn] at hc
        have := Chain.head_eq hc
        cases b with
        | nil => rfl
        | cons y b => simp at this
      subst hb0
      have hr := congrArg List.reverse he
      simp only [List.reverse_reverse, List.reverse_append, List.reverse_cons, List.reverse_nil,
        List.nil_append, List.cons_append, List.cons.injEq, true_and] at hr
      exact ⟨a.reverse, by rw [hr]⟩

theorem Chain.push (h : Chain next head q.reverse) (hn : next w = head) :
    Chain next (some w) (q ++ [w]).reverse := by
  simpa [hn] using h

theorem Chain.popOldest [DecidableEq W] (h : Chain next head (w :: v :: q).reverse) :
    Chain (Function.update next v none) head (v :: q).reverse := by
  simp only [List.reverse_cons, List.append_assoc, List.cons_append, List.nil_append] at h ⊢
  exact h.dropLast

end Oldest

end Intrusive
