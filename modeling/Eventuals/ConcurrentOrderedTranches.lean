import Eventuals.ConcurrentOrderedReorder

/-! The values on their way to `ReorderAdaptor()`: upstream gives each an index, a fiber makes a
tranche of it, and the fibers push the items of their tranches in any order. -/
namespace Eventuals.ConcurrentOrdered

open Function (update)
open Transition (Machine)

variable {A W : Type*}

@[ext]
structure Tranches (A W : Type*) where
  upstream : List A
  i : ℤ
  /-- A value without a fiber yet. -/
  held : Option (ℤ × A)
  /-- What each fiber has yet to push. -/
  left : ℕ → Option (ℤ × List (Item W))
  pushed : List (Item W)

def tranche (f : A → List W) (j : ℤ) (a : A) : List (Item W) :=
  (f a).map (fun w => (j, some w)) ++ [(-j, none)]

theorem tranche_eq_items {f : A → List W} {upstream : List A} {t : ℕ} {a : A}
    (ha : upstream[t]? = some a) : tranche f (tag t) a = items f upstream t :=
  (items_eq ha).symm

namespace Tranches

inductive Label (A W : Type*)
  | take (a : A)
  | start (k : ℕ) (j : ℤ) (a : A)
  | push (k : ℕ) (j : ℤ) (p : Item W) (ps : List (Item W))
  | finish (k : ℕ) (j : ℤ)

def Enabled (s : Tranches A W) : Label A W → Prop
  | .take a => s.held = none ∧ s.upstream.head? = some a
  | .start k j a => s.held = some (j, a) ∧ s.left k = none
  | .push k j p ps => s.left k = some (j, p :: ps)
  | .finish k j => s.left k = some (j, [])

def next (f : A → List W) (s : Tranches A W) : Label A W → Tranches A W
  | .take a => { s with upstream := s.upstream.tail, held := some (s.i, a), i := int (s.i + 1) }
  | .start k j a =>
    { s with held := none, left := update s.left k (some (j, tranche f j a)) }
  | .push k j p ps =>
    { s with left := update s.left k (some (j, ps)), pushed := s.pushed ++ [p] }
  | .finish k _ => { s with left := update s.left k none }

def init (upstream : List A) : Tranches A W where
  upstream := upstream
  i := 1
  held := none
  left _ := none
  pushed := []

def machine (f : A → List W) (upstream : List A) : Machine (Tranches A W) (Label A W) where
  Initial s := s = init upstream
  Enabled := Enabled
  next := next f

/-- Of the first `n` tranches, those that are not in hand or with a fiber have been pushed. -/
structure Ledger (f : A → List W) (upstream : List A) (n : ℕ) (s : Tranches A W) : Prop where
  rest : s.upstream = upstream.drop n
  le : n ≤ upstream.length
  i : s.i = int (tag n)
  held : ∀ j a, s.held = some (j, a) → ∃ t, n = t + 1 ∧ j = tag t ∧ upstream[t]? = some a
  fresh : ∀ t, (n ≤ t ∨ ∃ a, s.held = some (tag t, a)) → ofTranche t s.pushed = []
  working : ∀ k j ps, s.left k = some (j, ps) → ∃ t, t < n ∧ j = tag t ∧
    (∀ a, s.held ≠ some (j, a)) ∧ ofTranche t s.pushed ++ ps = items f upstream t
  distinct : ∀ k k' j ps ps', s.left k = some (j, ps) → s.left k' = some (j, ps') → k = k'
  complete : ∀ t < n, (∀ a, s.held ≠ some (tag t, a)) → (∀ k ps, s.left k ≠ some (tag t, ps)) →
    ofTranche t s.pushed = items f upstream t
  index : ∀ p ∈ s.pushed, p.1 ≠ 0

section Steps

variable {f : A → List W} {upstream : List A} {n : ℕ} {s : Tranches A W} {a : A} {j : ℤ} {k : ℕ}
  {p : Item W} {ps : List (Item W)}

theorem ledger_init : Ledger f upstream 0 (init upstream) := by
  constructor <;> simp [init, int_eq, tag, ofTranche]

theorem Ledger.take (h : Ledger f upstream n s) (hn : upstream.length < 2 ^ 31)
    (hheld : s.held = none) (ha : s.upstream.head? = some a) :
    Ledger f upstream (n + 1) (next f s (.take a)) := by
  have ha' : upstream[n]? = some a := by
    rwa [h.rest, List.head?_drop] at ha
  have hlt : n < upstream.length := (List.getElem?_eq_some_iff.mp ha').1
  have hi : s.i = tag n := h.i.trans (int_tag hlt hn)
  have hne : ∀ t < n, ∀ b, some (s.i, a) ≠ some (tag t, b) := by
    intro t ht b hx
    simp only [Option.some.injEq, Prod.mk.injEq] at hx
    have := tag_inj.mp (hi.symm.trans hx.1)
    omega
  refine ⟨?_, hlt, ?_, ?_, ?_, ?_, h.distinct, ?_, h.index⟩
  · simp [next, h.rest]
  · simp [next, hi, tag]
  · intro j b hb
    simp only [next, Option.some.injEq, Prod.mk.injEq] at hb
    exact ⟨n, rfl, hb.1.symm.trans hi, hb.2 ▸ ha'⟩
  · rintro t (ht | ⟨b, hb⟩)
    · exact h.fresh t (Or.inl (by omega))
    · simp only [next, Option.some.injEq, Prod.mk.injEq] at hb
      have := tag_inj.mp (hi.symm.trans hb.1)
      exact h.fresh t (Or.inl (by omega))
  · intro k j ps hk
    obtain ⟨t, ht, rfl, -, hp⟩ := h.working k j ps hk
    exact ⟨t, by omega, rfl, hne t ht, hp⟩
  · intro t ht hb hk
    have htn : t ≠ n := by
      rintro rfl
      exact hb a (by simp [next, hi])
    exact h.complete t (by omega) (by simp [hheld]) hk

theorem Ledger.start (h : Ledger f upstream n s) (hheld : s.held = some (j, a))
    (hk : s.left k = none) : Ledger f upstream n (next f s (.start k j a)) := by
  obtain ⟨t, rfl, rfl, ha⟩ := h.held j a hheld
  have hother : ∀ k' j' ps, k' ≠ k → (next f s (.start k (tag t) a)).left k' = some (j', ps) →
      s.left k' = some (j', ps) := by
    intro k' j' ps hne hx
    simpa [next, hne] using hx
  have hself : ∀ j' ps, (next f s (.start k (tag t) a)).left k = some (j', ps) →
      j' = tag t ∧ ps = items f upstream t := by
    intro j' ps hx
    simp only [next, Function.update_self, Option.some.injEq, Prod.mk.injEq] at hx
    exact ⟨hx.1.symm, hx.2.symm.trans (tranche_eq_items ha)⟩
  have hfree : ∀ k' ps, s.left k' ≠ some (tag t, ps) := by
    intro k' ps hx
    obtain ⟨-, -, -, hnot, -⟩ := h.working k' _ ps hx
    exact hnot a hheld
  refine ⟨h.rest, h.le, h.i, by simp [next], ?_, ?_, ?_, ?_, h.index⟩
  · rintro u (hu | ⟨b, hb⟩)
    · exact h.fresh u (Or.inl hu)
    · simp [next] at hb
  · intro k' j' ps hx
    by_cases hkk : k' = k
    · subst hkk
      obtain ⟨rfl, rfl⟩ := hself j' ps hx
      refine ⟨t, by omega, rfl, by simp [next], ?_⟩
      change ofTranche t s.pushed ++ _ = _
      rw [h.fresh t (Or.inr ⟨a, hheld⟩), List.nil_append]
    · obtain ⟨u, hu, rfl, -, hp⟩ := h.working k' j' ps (hother k' j' ps hkk hx)
      exact ⟨u, hu, rfl, by simp [next], hp⟩
  · intro k₁ k₂ j' ps ps' h₁ h₂
    by_cases e₁ : k₁ = k
    · by_cases e₂ : k₂ = k
      · exact e₁.trans e₂.symm
      · subst e₁
        obtain ⟨rfl, -⟩ := hself j' ps h₁
        exact absurd (hother k₂ _ ps' e₂ h₂) (hfree k₂ ps')
    · by_cases e₂ : k₂ = k
      · subst e₂
        obtain ⟨rfl, -⟩ := hself j' ps' h₂
        exact absurd (hother k₁ _ ps e₁ h₁) (hfree k₁ ps)
      · exact h.distinct k₁ k₂ j' ps ps' (hother k₁ j' ps e₁ h₁) (hother k₂ j' ps' e₂ h₂)
  · intro u hu _ hx
    have hut : u ≠ t := by
      rintro rfl
      exact hx k (tranche f (tag u) a) (by simp [next])
    refine h.complete u hu ?_ ?_
    · intro b hb
      rw [hheld] at hb
      simp only [Option.some.injEq, Prod.mk.injEq] at hb
      exact hut (tag_inj.mp hb.1).symm
    · intro k' ps hk'
      have hkk : k' ≠ k := by
        rintro rfl
        simp [hk] at hk'
      exact hx k' ps (by simpa [next, hkk] using hk')

theorem Ledger.push (h : Ledger f upstream n s) (hk : s.left k = some (j, p :: ps)) :
    Ledger f upstream n (next f s (.push k j p ps)) := by
  obtain ⟨t, ht, rfl, hnot, hp⟩ := h.working k j _ hk
  have hmem : p ∈ items f upstream t := hp ▸ by simp
  obtain ⟨habs, -⟩ := natAbs_of_mem_items hmem
  have hsame : ofTranche t (s.pushed ++ [p]) = ofTranche t s.pushed ++ [p] := by
    rw [ofTranche_append, ofTranche_singleton, if_pos habs]
  have hother : ∀ u, u ≠ t → ofTranche u (s.pushed ++ [p]) = ofTranche u s.pushed := by
    intro u hu
    rw [ofTranche_append, ofTranche_singleton, if_neg (by omega), List.append_nil]
  have hleft : ∀ k' j' ps', (next f s (.push k (tag t) p ps)).left k' = some (j', ps') →
      ∃ qs, s.left k' = some (j', qs) := by
    intro k' j' ps' hx
    by_cases hkk : k' = k
    · subst hkk
      simp only [next, Function.update_self, Option.some.injEq, Prod.mk.injEq] at hx
      exact ⟨p :: ps, hx.1 ▸ hk⟩
    · exact ⟨ps', by simpa [next, hkk] using hx⟩
  refine ⟨h.rest, h.le, h.i, h.held, ?_, ?_, ?_, ?_, ?_⟩
  · intro u hu
    have hut : u ≠ t := by
      rintro rfl
      rcases hu with hu | ⟨a, ha⟩
      · omega
      · exact hnot a ha
    exact (hother u hut).trans (h.fresh u hu)
  · intro k' j' ps' hx
    by_cases hkk : k' = k
    · subst hkk
      simp only [next, Function.update_self, Option.some.injEq, Prod.mk.injEq] at hx
      obtain ⟨rfl, rfl⟩ := hx
      refine ⟨t, ht, rfl, hnot, ?_⟩
      change ofTranche t (s.pushed ++ [p]) ++ _ = _
      rw [hsame, List.append_assoc]
      exact hp
    · have hk' : s.left k' = some (j', ps') := by simpa [next, hkk] using hx
      obtain ⟨u, hu, rfl, hnot', hp'⟩ := h.working k' j' ps' hk'
      have hut : u ≠ t := by
        rintro rfl
        exact hkk (h.distinct k' k _ _ _ hk' hk)
      refine ⟨u, hu, rfl, hnot', ?_⟩
      change ofTranche u (s.pushed ++ [p]) ++ _ = _
      rw [hother u hut]
      exact hp'
  · intro k₁ k₂ j' ps₁ ps₂ h₁ h₂
    obtain ⟨qs₁, h₁⟩ := hleft k₁ j' ps₁ h₁
    obtain ⟨qs₂, h₂⟩ := hleft k₂ j' ps₂ h₂
    exact h.distinct k₁ k₂ j' qs₁ qs₂ h₁ h₂
  · intro u hu hb hx
    have hut : u ≠ t := by
      rintro rfl
      exact hx k ps (by simp [next])
    refine (hother u hut).trans (h.complete u hu hb fun k' ps' hk' => ?_)
    have hkk : k' ≠ k := by
      rintro rfl
      rw [hk] at hk'
      simp only [Option.some.injEq, Prod.mk.injEq] at hk'
      exact hut (tag_inj.mp hk'.1).symm
    exact hx k' ps' (by simpa [next, hkk] using hk')
  · intro q hq
    rcases List.mem_append.mp hq with hq | hq
    · exact h.index q hq
    · obtain rfl := List.mem_singleton.mp hq
      omega

theorem Ledger.finish (h : Ledger f upstream n s) (hk : s.left k = some (j, [])) :
    Ledger f upstream n (next f s (.finish k j)) := by
  obtain ⟨t, ht, rfl, -, hp⟩ := h.working k j _ hk
  rw [List.append_nil] at hp
  have hleft : ∀ k' j' ps', (next f s (.finish k (tag t))).left k' = some (j', ps') →
      s.left k' = some (j', ps') := by
    intro k' j' ps' hx
    by_cases hkk : k' = k
    · simp [next, hkk] at hx
    · simpa [next, hkk] using hx
  refine ⟨h.rest, h.le, h.i, h.held, h.fresh, ?_, ?_, ?_, h.index⟩
  · exact fun k' j' ps' hx => h.working k' j' ps' (hleft k' j' ps' hx)
  · exact fun k₁ k₂ j' ps₁ ps₂ h₁ h₂ =>
      h.distinct k₁ k₂ j' ps₁ ps₂ (hleft k₁ j' ps₁ h₁) (hleft k₂ j' ps₂ h₂)
  · intro u hu hb hx
    by_cases hut : u = t
    · exact hut ▸ hp
    · refine h.complete u hu hb fun k' ps' hk' => ?_
      have hkk : k' ≠ k := by
        rintro rfl
        rw [hk] at hk'
        simp only [Option.some.injEq, Prod.mk.injEq] at hk'
        exact hut (tag_inj.mp hk'.1).symm
      exact hx k' ps' (by simpa [next, hkk] using hk')

theorem ledger_next {l : Label A W} (h : Ledger f upstream n s) (hn : upstream.length < 2 ^ 31)
    (he : Enabled s l) : ∃ n', Ledger f upstream n' (next f s l) := by
  cases l with
  | take a => exact ⟨n + 1, h.take hn he.1 he.2⟩
  | start k j a => exact ⟨n, h.start he.1 he.2⟩
  | push k j p ps => exact ⟨n, h.push he⟩
  | finish k j => exact ⟨n, h.finish he⟩

theorem ledger_reachable (hn : upstream.length < 2 ^ 31) (h : (machine f upstream).Reachable s) :
    ∃ n, Ledger f upstream n s := by
  refine h.invariant (P := fun s => ∃ n, Ledger f upstream n s) ?_ ?_
  · rintro s rfl
    exact ⟨0, ledger_init⟩
  · rintro s l ⟨n, hl⟩ he
    exact ledger_next hl hn he

theorem items_of_le {t : ℕ} (ht : upstream.length ≤ t) : items f upstream t = [] := by
  simp [items, List.getElem?_eq_none ht]

/-- However the fibers take turns, `ReorderAdaptor()` may receive what they push. -/
theorem Ledger.interleaved (h : Ledger f upstream n s) : Interleaved f upstream s.pushed := by
  refine ⟨fun t => ?_, h.index⟩
  by_cases hf : n ≤ t ∨ ∃ a, s.held = some (tag t, a)
  · rw [h.fresh t hf]
    exact List.nil_prefix
  · simp only [not_or, not_le, not_exists] at hf
    by_cases hk : ∃ k ps, s.left k = some (tag t, ps)
    · obtain ⟨k, ps, hk⟩ := hk
      obtain ⟨u, -, hu, -, hp⟩ := h.working k _ ps hk
      rw [tag_inj.mp hu, ← hp]
      exact List.prefix_append ..
    · simp only [not_exists] at hk
      exact (h.complete t hf.1 hf.2 hk).symm ▸ List.prefix_rfl

/-- In the end nothing is missing. -/
theorem Ledger.all (h : Ledger f upstream n s) (hu : s.upstream = []) (hheld : s.held = none)
    (hk : ∀ k, s.left k = none) (t : ℕ) : ofTranche t s.pushed = items f upstream t := by
  have hle : upstream.length ≤ n := by
    rw [h.rest] at hu
    exact List.drop_eq_nil_iff.mp hu
  by_cases ht : t < n
  · exact h.complete t ht (by simp [hheld]) (by simp [hk])
  · rw [h.fresh t (Or.inl (by omega)), items_of_le (by omega)]

end Steps

end Tranches

end Eventuals.ConcurrentOrdered
