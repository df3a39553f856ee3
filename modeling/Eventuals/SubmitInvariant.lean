import Mathlib.Data.Finset.Card
import Eventuals.Library.Intrusive
import Eventuals.Library.Tokens
import Eventuals.Submit

/-! Every submitted callback is run once, in the order of the list. -/
namespace Eventuals.Submit

open Function (update)
open Intrusive (Chain)
open Tokens (Kept)

variable {T W : Type*} {kind : Kind} {s : State T W} {q q' : List W} {A : Finset T} {t : T}
  {u v w : W} {c : Consumer W} {id : ℕ}

/-- The waiter that a `Submit()` has filled and not yet pushed. -/
def Submitter.held : Submitter W → Option W
  | .loading w | .swapping w => some w
  | .idle | .signalling => none

/-- The waiter that the consumer has taken off the list. -/
def Consumer.held : Consumer W → Option W
  | .taken w => some w
  | _ => none

/-- Who may use the fields of a waiter that is not on the list. -/
def State.place (s : State T W) : Option T → Option W
  | none => s.consumer.held
  | some t => (s.threads t).held

/-- The consumer has been woken and has not taken a waiter for it yet. -/
def Consumer.serving : Consumer W → ℕ
  | .loading | .testing _ | .swapping _ | .walking _ | .unlinking _ => 1
  | .idle | .taken _ | .executing _ => 0

/-- The callback that is being executed, or is about to be. -/
def State.current (s : State T W) : List ℕ :=
  match s.consumer with
  | .taken w => (s.callback w).toList
  | .executing id => [id]
  | _ => []

/-- The callbacks of the waiters in a list. -/
def State.queued (s : State T W) (q : List W) : List ℕ :=
  q.filterMap s.callback

/-- How often a callback is in the list, being executed, or executed. -/
def State.occurrences (s : State T W) (q : List W) (id : ℕ) : ℕ :=
  (s.queued q).count id + s.current.count id + s.executed.count id

/-- A `Submit()` has the callback in hand and has not pushed it yet. -/
def State.Submitting (s : State T W) (id : ℕ) : Prop :=
  ∃ t w, (s.threads t).held = some w ∧ s.callback w = some id

/-- What the consumer knows of the waiter it is looking at. -/
def Spot (s : State T W) (q : List W) : Consumer W → Prop
  | .testing w => w ∈ q
  | .swapping w => q.head? = some w
  | .walking w => w ∈ q ∧ s.next w ≠ none
  | .unlinking w => ∃ u q', q = u :: w :: q'
  | _ => True

/-- The list holds the waiters `q`, oldest first, and the threads in `A` are about to signal. -/
structure Inv (kind : Kind) (s : State T W) (q : List W) (A : Finset T) : Prop where
  chain : Chain s.next s.head q.reverse
  loose : ∀ w, w ∉ q → (∀ t, s.threads t ≠ .swapping w) → s.next w = none
  spot : Spot s q s.consumer
  listed : ∀ w ∈ q, s.blocked w = true
  kept : Kept s.place fun w => s.blocked w = true ∧ w ∉ q
  context : ∀ w, s.context w = s.blocked w
  callback : ∀ w, (s.callback w).isSome = s.blocked w
  number : ∀ w id, s.callback w = some id → id < s.submitted
  distinct : ∀ w v id, s.callback w = some id → s.callback v = some id → w = v
  unswapped : ∀ t w id, (s.threads t).held = some w → s.callback w = some id → id ∉ s.swaps
  swapped : ∀ id ∈ s.swaps, id < s.submitted
  nodup : s.swaps.Nodup
  found : ∀ id < s.submitted, id ∈ s.swaps ∨ s.Submitting id
  order : s.swaps = s.executed ++ s.current ++ s.queued q
  signalling : ∀ t, t ∈ A ↔ s.threads t = .signalling
  balance : kind = .threadPool → q.length = s.semaphore + A.card + s.consumer.serving
  check : ∀ c, s.failed = some c → c = .blocked ∨ c = .scheduler ∨ c = .pinned

theorem inv_init : Inv kind (init : State T W) [] ∅ := by
  have hp : (init : State T W).place = fun _ => none := by
    funext p
    cases p <;> rfl
  constructor <;> simp [init, Spot, State.current, State.queued, Consumer.serving]
  exact hp ▸ Tokens.kept_none (by simp)

section Place

variable {s' : State T W} {live : W → Prop} [DecidableEq T]

theorem place_update (ht : s'.threads = s.threads) :
    s'.place = update s.place none s'.consumer.held := by
  funext p
  cases p with
  | none => rfl
  | some p => simp [State.place, ht]

theorem kept_of_held (ht : s'.threads = s.threads) (hc : s'.consumer.held = s.consumer.held)
    (hk : Kept s.place live) : Kept s'.place live := by
  have hplace : s'.place = s.place := by
    rw [place_update ht, hc]
    exact Function.update_eq_self none s.place
  exact hplace ▸ hk

theorem kept_of_update (ht : s'.threads = s.threads)
    (hk : Kept (update s.place none s'.consumer.held) live) : Kept s'.place live :=
  place_update ht ▸ hk

@[simp] theorem place_goto (s : State T W) (t : T) (p : Submitter W) :
    (s.goto t p).place = update s.place (some t) p.held := by
  funext r
  cases r with
  | none => rfl
  | some r =>
    by_cases hr : r = t
    · subst hr
      simp [State.place, State.goto]
    · simp [State.place, State.goto, hr]

end Place

theorem Inv.not_listed (h : Inv kind s q A) (hw : (s.threads t).held = some w) : w ∉ q :=
  (h.kept.live (some t) w hw).2

theorem Inv.held_blocked (h : Inv kind s q A) (hw : (s.threads t).held = some w) :
    s.blocked w = true :=
  (h.kept.live (some t) w hw).1

theorem Inv.nodup_list (h : Inv kind s q A) : q.Nodup :=
  List.nodup_reverse.mp h.chain.nodup

/-- A waiter whose context is not blocked is in nobody's hands. -/
theorem Inv.fresh (h : Inv kind s q A) (hb : s.blocked w = false) :
    w ∉ q ∧ (∀ p, s.place p ≠ some w) ∧ s.callback w = none ∧ s.next w = none := by
  have hq : w ∉ q := by
    intro hw
    have := h.listed w hw
    simp_all
  have hp : ∀ p, s.place p ≠ some w := by
    intro p hp
    have := (h.kept.live p w hp).1
    simp_all
  have hc := h.callback w
  rw [hb] at hc
  refine ⟨hq, hp, by simpa using hc, h.loose w hq fun t ht => ?_⟩
  exact hp (some t) (by simp [State.place, ht, Submitter.held])

theorem Inv.fail (h : Inv kind s q A) {c : Check}
    (hc : c = .blocked ∨ c = .scheduler ∨ c = .pinned) : Inv kind (s.fail c) q A :=
  { h with
    check := by
      intro d hd
      cases hd
      exact hc }

section Threads

variable [DecidableEq T] {p : Submitter W}

theorem threads_goto (s : State T W) (t u : T) (p : Submitter W) :
    (s.goto t p).threads u = if u = t then p else s.threads u :=
  Function.update_apply ..

theorem Inv.loose_goto (h : Inv kind s q A) (ht : ∀ v, s.threads t ≠ .swapping v) (hv : v ∉ q)
    (hs : ∀ u, (s.goto t p).threads u ≠ .swapping v) : s.next v = none := by
  apply h.loose v hv
  intro u hu
  by_cases hut : u = t
  · exact ht v (hut ▸ hu)
  · exact hs u (by rw [threads_goto, if_neg hut, hu])

theorem Inv.signalling_goto (h : Inv kind s q A) (ht : s.threads t ≠ .signalling)
    (hp : p ≠ .signalling) (u : T) : u ∈ A ↔ (s.goto t p).threads u = .signalling := by
  rw [h.signalling u, threads_goto]
  split
  · next hu =>
    subst hu
    simp [ht, hp]
  · rfl

theorem held_goto {u : T} (hu : ((s.goto t p).threads u).held = some w) :
    u = t ∧ p.held = some w ∨ u ≠ t ∧ (s.threads u).held = some w := by
  rw [threads_goto] at hu
  split at hu
  · next hut => exact Or.inl ⟨hut, hu⟩
  · next hut => exact Or.inr ⟨hut, hu⟩

/-- A thread that moves on with the waiter that it has in hand, if any. -/
theorem Inv.goto (h : Inv kind s q A) {A' : Finset T} {n : ℕ}
    (hp : p.held = (s.threads t).held)
    (hl : ∀ v, v ∉ q → (∀ u, (s.goto t p).threads u ≠ .swapping v) → s.next v = none)
    (hs : ∀ u, u ∈ A' ↔ (s.goto t p).threads u = .signalling)
    (hb : s.semaphore + A.card = n + A'.card ∨ kind ≠ .threadPool) :
    Inv kind { s.goto t p with semaphore := n } q A' := by
  have hheld : ∀ u, ((s.goto t p).threads u).held = (s.threads u).held := by
    intro u
    rw [threads_goto]
    split
    · next hu => rw [hp, hu]
    · rfl
  refine { h with
    loose := hl
    signalling := hs
    kept := ?_, unswapped := ?_, found := ?_, balance := ?_ }
  · have hplace : (s.goto t p).place = s.place := by
      funext r
      cases r with
      | none => rfl
      | some r => exact hheld r
    change Kept (s.goto t p).place _
    rw [hplace]
    exact h.kept
  · intro u v id hu hv
    change ((s.goto t p).threads u).held = _ at hu
    rw [hheld] at hu
    exact h.unswapped u v id hu hv
  · intro id hid
    rcases h.found id hid with hs | ⟨u, v, hu, hv⟩
    · exact Or.inl hs
    · exact Or.inr ⟨u, v, (hheld u).trans hu, hv⟩
  · intro hk
    have := h.balance hk
    change q.length = n + A'.card + s.consumer.serving
    rcases hb with hb | hb
    · omega
    · exact absurd hk hb

theorem Inv.push (h : Inv kind s q A) (ht : s.threads t = .swapping w) (hn : s.next w = s.head) :
    Inv kind
      { s.goto t .signalling with head := some w, swaps := s.swaps ++ (s.callback w).toList }
      (q ++ [w]) (insert t A) := by
  have hheld : (s.threads t).held = some w := by rw [ht]; rfl
  have hq : w ∉ q := h.not_listed hheld
  have hb : s.blocked w = true := h.held_blocked hheld
  obtain ⟨id, hid⟩ := Option.isSome_iff_exists.mp ((h.callback w).trans hb)
  have hnot : id ∉ s.swaps := h.unswapped t w id hheld hid
  refine { h with
    chain := h.chain.push hn
    loose := ?_, spot := ?_, listed := ?_, kept := ?_, unswapped := ?_, swapped := ?_,
    nodup := ?_, found := ?_, order := ?_, signalling := ?_, balance := ?_ }
  · intro v hv hs
    have hvw : v ≠ w := by
      rintro rfl
      simp at hv
    refine h.loose v (fun hvq => hv (List.mem_append_left _ hvq)) fun u hu => ?_
    by_cases hut : u = t
    · subst hut
      rw [ht] at hu
      cases hu
      exact hvw rfl
    · exact hs u (by simpa [State.goto, hut] using hu)
  · have hspot := h.spot
    change Spot _ (q ++ [w]) s.consumer
    cases hc : s.consumer with
    | testing v =>
      rw [hc] at hspot
      exact List.mem_append_left _ hspot
    | swapping v =>
      rw [hc] at hspot
      cases q with
      | nil => cases hspot
      | cons x q => exact hspot
    | walking v =>
      rw [hc] at hspot
      exact ⟨List.mem_append_left _ hspot.1, hspot.2⟩
    | unlinking v =>
      rw [hc] at hspot
      obtain ⟨x, q', rfl⟩ := hspot
      exact ⟨x, q' ++ [w], rfl⟩
    | _ => trivial
  · intro v hv
    rcases List.mem_append.mp hv with hv | hv
    · exact h.listed v hv
    · cases List.mem_singleton.mp hv
      exact hb
  · have hdrop := h.kept.drop (p := some t) (k := w) hheld
    change Kept (s.goto t .signalling).place _
    rw [place_goto]
    apply hdrop.congr
    intro v
    change s.blocked v = true ∧ v ∉ q ++ [w] ↔ _
    simp only [List.mem_append, List.mem_singleton, not_or, and_assoc]
  · intro u v j hu hv
    rcases held_goto hu with ⟨-, hu'⟩ | ⟨hut, hu'⟩
    · cases hu'
    · have hvw : v ≠ w := by
        rintro rfl
        cases h.kept.unique (some u) (some t) v hu' hheld
        exact hut rfl
      have hj : j ≠ id := by
        rintro rfl
        exact hvw (h.distinct v w j hv hid)
      simpa [hid, hj] using h.unswapped u v j hu' hv
  · intro j hj
    change j ∈ s.swaps ++ (s.callback w).toList at hj
    rw [hid] at hj
    rcases List.mem_append.mp hj with hj | hj
    · exact h.swapped j hj
    · cases List.mem_singleton.mp hj
      exact h.number w id hid
  · change (s.swaps ++ (s.callback w).toList).Nodup
    rw [hid]
    apply List.nodup_append.mpr ⟨h.nodup, List.nodup_singleton _, _⟩
    rintro a ha b hb rfl
    cases List.mem_singleton.mp hb
    exact hnot ha
  · intro j hj
    change j ∈ s.swaps ++ (s.callback w).toList ∨ _
    rw [hid]
    rcases h.found j hj with hs | ⟨u, v, hu, hv⟩
    · exact Or.inl (List.mem_append_left _ hs)
    · by_cases hut : u = t
      · subst hut
        rw [hheld] at hu
        cases hu
        rw [hid] at hv
        cases hv
        exact Or.inl (by simp)
      · refine Or.inr ⟨u, v, ?_, hv⟩
        change ((s.goto t _).threads u).held = _
        rw [threads_goto, if_neg hut]
        exact hu
  · change s.swaps ++ (s.callback w).toList =
      s.executed ++ s.current ++ (q ++ [w]).filterMap s.callback
    rw [h.order, List.filterMap_append, ← List.append_assoc]
    simp [State.queued, hid]
  · intro u
    change u ∈ insert t A ↔ (s.goto t _).threads u = _
    rw [Finset.mem_insert, threads_goto, h.signalling u]
    split
    · next hut => simp [hut]
    · next hut => simp [hut]
  · intro hk
    have hA : t ∉ A := by
      rw [h.signalling t, ht]
      simp
    have := h.balance hk
    change (q ++ [w]).length = s.semaphore + _ + s.consumer.serving
    rw [Finset.card_insert_of_notMem hA, List.length_append, List.length_singleton]
    omega

theorem Inv.signal (h : Inv kind s q A) (ht : s.threads t = .signalling) :
    Inv kind
      { s.goto t .idle with
        semaphore := if kind = .threadPool then s.semaphore + 1 else s.semaphore }
      q (A.erase t) := by
  refine h.goto (by rw [ht]; rfl) (fun v hv hs => h.loose_goto (by simp [ht]) hv hs) ?_ ?_
  · intro u
    rw [Finset.mem_erase, threads_goto, h.signalling u]
    split
    · next hut => simp [hut]
    · next hut => simp [hut]
  · split
    · left
      have := Finset.card_erase_add_one ((h.signalling t).mpr ht)
      omega
    · next hk => exact Or.inr hk

variable [DecidableEq W]

theorem filterMap_update {f : W → Option ℕ} {x : Option ℕ} (hw : w ∉ q) :
    q.filterMap (update f w x) = q.filterMap f := by
  apply List.filterMap_congr
  intro v hv
  rw [Function.update_of_ne]
  rintro rfl
  exact hw hv

theorem Inv.fill (h : Inv kind s q A) (ht : s.threads t = .idle) (hb : s.blocked w = false) :
    Inv kind ((s.fill w).goto t (.loading w)) q A := by
  obtain ⟨hq, hp, hc, hn⟩ := h.fresh hb
  have hcurrent : ((s.fill w).goto t (.loading w)).current = s.current := by
    cases hs : s.consumer with
    | taken v =>
      have hne : v ≠ w := by
        rintro rfl
        exact hp none (by simp [State.place, hs, Consumer.held])
      simp [State.current, State.goto, State.fill, hs, hne]
    | _ => simp [State.current, State.goto, State.fill, hs]
  have hnot : s.submitted ∉ s.swaps := fun hm => by
    have := h.swapped _ hm
    omega
  have hcallback : ∀ v id, update s.callback w (some s.submitted) v = some id →
      v = w ∧ id = s.submitted ∨ v ≠ w ∧ s.callback v = some id := by
    intro v id hv
    rw [Function.update_apply] at hv
    split at hv
    · next hvw => exact Or.inl ⟨hvw, (Option.some.inj hv).symm⟩
    · next hvw => exact Or.inr ⟨hvw, hv⟩
  refine { h with
    loose := fun v hv hs => h.loose_goto (by simp [ht]) hv hs
    signalling := h.signalling_goto (by simp [ht]) (by simp)
    listed := ?_, kept := ?_, context := ?_, callback := ?_, number := ?_, distinct := ?_,
    unswapped := ?_, swapped := ?_, found := ?_, order := ?_ }
  · intro v hv
    have hvw : v ≠ w := fun he => hq (he ▸ hv)
    simpa [State.goto, State.fill, hvw] using h.listed v hv
  · rw [place_goto]
    have hgain := h.kept.gain (p := some t) (k := w) (by simp [State.place, ht, Submitter.held])
      (by simp [hb])
    apply hgain.congr
    intro v
    by_cases hvw : v = w
    · subst hvw
      simp [State.goto, State.fill, hq]
    · simp [State.goto, State.fill, hvw]
  · intro v
    by_cases hvw : v = w
    · simp [State.goto, State.fill, hvw]
    · simpa [State.goto, State.fill, hvw] using h.context v
  · intro v
    by_cases hvw : v = w
    · simp [State.goto, State.fill, hvw]
    · simpa [State.goto, State.fill, hvw] using h.callback v
  · intro v id hv
    change id < s.submitted + 1
    rcases hcallback v id hv with ⟨-, rfl⟩ | ⟨-, hv⟩
    · omega
    · have := h.number v id hv
      omega
  · intro v z id hv hz
    rcases hcallback v id hv with ⟨rfl, rfl⟩ | ⟨-, hv'⟩ <;>
      rcases hcallback z _ hz with ⟨rfl, hid⟩ | ⟨-, hz'⟩
    · rfl
    · have := h.number z _ hz'
      omega
    · have := h.number v _ hv'
      omega
    · exact h.distinct v z id hv' hz'
  · intro u v id hu hv
    rcases hcallback v id hv with ⟨rfl, rfl⟩ | ⟨hvw, hv⟩
    · exact hnot
    · rcases held_goto hu with ⟨-, hu⟩ | ⟨-, hu⟩
      · cases hu
        exact absurd rfl hvw
      · exact h.unswapped u v id hu hv
  · intro id hid
    have := h.swapped id hid
    change id < s.submitted + 1
    omega
  · intro id hid
    change id < s.submitted + 1 at hid
    by_cases he : id = s.submitted
    · exact Or.inr
        ⟨t, w, by simp [State.goto, Submitter.held], by simp [State.goto, State.fill, he]⟩
    · rcases h.found id (by omega) with hs | ⟨u, v, hu, hv⟩
      · exact Or.inl hs
      · have hut : u ≠ t := by
          rintro rfl
          simp [ht, Submitter.held] at hu
        have hvw : v ≠ w := by
          rintro rfl
          simp [hc] at hv
        refine Or.inr ⟨u, v, ?_, ?_⟩
        · rw [threads_goto, if_neg hut]
          exact hu
        · simpa [State.goto, State.fill, hvw] using hv
  · rw [hcurrent]
    change s.swaps = s.executed ++ s.current ++ q.filterMap (update s.callback w _)
    rw [filterMap_update hq]
    exact h.order

omit [DecidableEq T] in
/-- `waiter->next` is set to what the head was found to be. -/
theorem Inv.setNext (h : Inv kind s q A) (ht : s.threads t = .swapping w) :
    Inv kind { s with next := update s.next w s.head } q A := by
  have hq : w ∉ q := h.not_listed (by rw [ht]; rfl)
  refine { h with chain := ?_, loose := ?_, spot := ?_ }
  · exact (Intrusive.segment_update (by simpa using hq)).mpr h.chain
  · intro v hv hs
    have hvw : v ≠ w := by
      rintro rfl
      exact hs t ht
    change update s.next w s.head v = none
    rw [Function.update_of_ne hvw]
    exact h.loose v hv hs
  · have hspot := h.spot
    change Spot _ q s.consumer
    cases hc : s.consumer with
    | walking v =>
      rw [hc] at hspot
      have hvw : v ≠ w := fun he => hq (he ▸ hspot.1)
      exact ⟨hspot.1, by simpa [hvw] using hspot.2⟩
    | _ =>
      rw [hc] at hspot
      exact hspot

theorem Inv.load (h : Inv kind s q A) (ht : s.threads t = .loading w) :
    Inv kind { s.goto t (.swapping w) with next := update s.next w s.head } q A := by
  have hgoto : Inv kind (s.goto t (.swapping w)) q A :=
    h.goto (by rw [ht]; rfl) (fun v hv hs => h.loose_goto (by simp [ht]) hv hs)
      (h.signalling_goto (by simp [ht]) (by simp)) (Or.inl rfl)
  exact hgoto.setNext (t := t) (by simp [State.goto])

theorem Inv.threadStep (h : Inv kind s q A) (spurious : Bool) (ht : s.threads t ≠ .idle) :
    ∃ q' A', Inv kind (s.threadStep kind t spurious (s.threads t)) q' A' := by
  cases hp : s.threads t with
  | idle => exact absurd hp ht
  | loading w => exact ⟨q, A, h.load hp⟩
  | swapping w =>
    simp only [State.threadStep]
    split
    · next hs =>
      simp only [State.swaps?, Bool.and_eq_true, Bool.not_eq_true', decide_eq_true_eq] at hs
      exact ⟨q ++ [w], insert t A, h.push hp hs.2.symm⟩
    · exact ⟨q, A, h.setNext hp⟩
  | signalling => exact ⟨q, A.erase t, h.signal hp⟩

theorem Inv.submit (h : Inv kind s q A) (w : W) (scheduler pinned : Bool)
    (ht : s.threads t = .idle) : Inv kind (s.submit kind t w scheduler pinned) q A := by
  unfold State.submit
  split
  · exact h.fail (Or.inl rfl)
  · next hb =>
    rw [Bool.not_eq_true] at hb
    split
    · exact h.fail (Or.inr (Or.inl rfl))
    · split
      · exact h.fail (Or.inr (Or.inr rfl))
      · split
        · next hn => exact absurd (h.fresh hb).2.2.2 hn
        · exact h.fill ht hb

end Threads

section Consumer

variable [DecidableEq T]

/-- The consumer moves on and takes nothing. -/
theorem Inv.consume (h : Inv kind s q A) {n : ℕ} (hc : c.held = s.consumer.held)
    (hp : Spot s q c) (hs : { s with consumer := c }.current = s.current)
    (hb : s.semaphore + s.consumer.serving = n + c.serving ∨ kind ≠ .threadPool) :
    Inv kind { s.consume c with semaphore := n } q A := by
  refine { h with spot := ?_, kept := ?_, order := ?_, balance := ?_ }
  · change Spot { s with consumer := c, semaphore := n } q c
    cases c <;> exact hp
  · exact kept_of_held (s := s) rfl hc h.kept
  · exact h.order.trans (by rw [← hs]; rfl)
  · intro hk
    have := h.balance hk
    change q.length = n + A.card + c.serving
    rcases hb with hb | hb
    · omega
    · exact absurd hk hb

/-- The consumer takes the oldest waiter, and `n` and `p` are what is left of the list. -/
theorem Inv.take (h : Inv kind s (u :: q) A) {n : W → Option W} {p : Option W}
    (hs : s.consumer.serving = 1) (hc : Chain n p q.reverse)
    (hn : ∀ v, v ∉ q → n v = none ∨ n v = s.next v ∧ v ≠ u) :
    Inv kind { s.consume (.taken u) with head := p, next := n } q A := by
  have hnd := List.nodup_cons.mp h.nodup_list
  have hnone : s.consumer.held = none ∧ s.current = [] := by
    cases hc : s.consumer <;> simp_all [Consumer.serving, Consumer.held, State.current]
  have hb : s.blocked u = true := h.listed u List.mem_cons_self
  obtain ⟨id, hid⟩ := Option.isSome_iff_exists.mp ((h.callback u).trans hb)
  refine { h with
    chain := hc
    spot := trivial
    listed := fun v hv => h.listed v (List.mem_cons_of_mem _ hv)
    loose := ?_, kept := ?_, order := ?_, balance := ?_ }
  · intro v hv ht
    rcases hn v hv with hn | ⟨hn, hvu⟩
    · exact hn
    · refine hn.trans (h.loose v ?_ ht)
      simp [hvu, hv]
  · refine kept_of_update (s := s) rfl ?_
    have hlive : ¬ (s.blocked u = true ∧ u ∉ u :: q) := by simp
    apply (h.kept.gain (p := none) hnone.1 hlive).congr
    intro v
    change s.blocked v = true ∧ v ∉ q ↔ _
    by_cases hvu : v = u
    · subst hvu
      simp [hb, hnd.1]
    · simp [hvu]
  · change s.swaps = s.executed ++ (s.callback u).toList ++ q.filterMap s.callback
    rw [h.order, hnone.2, State.queued, List.filterMap_cons, hid]
    simp
  · intro hk
    have := h.balance hk
    change q.length = s.semaphore + A.card + 0
    rw [hs, List.length_cons] at this
    omega

theorem Inv.returned (h : Inv kind s q A) (hc : s.consumer = .executing id)
    (hs : c = .idle ∨ c = .loading ∧ kind = .eventLoop) :
    Inv kind { s.consume c with executed := s.executed ++ [id] } q A := by
  have hcurrent : s.current = [id] := by simp [State.current, hc]
  refine { h with spot := ?_, kept := ?_, order := ?_, balance := ?_ }
  · rcases hs with rfl | ⟨rfl, -⟩ <;> trivial
  · refine kept_of_held (s := s) rfl ?_ h.kept
    rw [hc]
    rcases hs with rfl | ⟨rfl, -⟩ <;> rfl
  · change s.swaps = s.executed ++ [id] ++ _ ++ s.queued q
    rw [h.order, hcurrent]
    rcases hs with rfl | ⟨rfl, -⟩ <;> simp [State.current, State.consume]
  · intro hk
    have := h.balance hk
    rw [hc] at this
    rcases hs with rfl | ⟨-, hk'⟩
    · exact this
    · simp [hk] at hk'

theorem Inv.wake (h : Inv kind s q A) (hc : s.consumer = .idle)
    (hs : kind = .threadPool → 0 < s.semaphore) : Inv kind (s.wake kind) q A := by
  refine h.consume (c := Consumer.loading) (by rw [hc]; rfl) trivial
    (by simp [State.current, hc]) ?_
  rw [hc]
  split
  · next hk =>
    have := hs hk
    simp only [Consumer.serving]
    omega
  · next hk => exact Or.inr hk

variable [DecidableEq W]

/-- The compare and exchange finds a list of one waiter. -/
theorem Inv.takeOnly (h : Inv kind s q A) (hc : s.consumer = .swapping w)
    (hh : s.head = some w) :
    Inv kind { s.consume (.taken w) with head := none } [] A := by
  have hspot := h.spot
  rw [hc] at hspot
  have hw : w ∈ q := List.mem_of_head? hspot
  have hn : s.next w = none := (h.chain.next_eq_none_iff_oldest hw).mpr hspot
  have hq : q.reverse = [w] := h.chain.unique ⟨hh, hn⟩
  have hq' : q = [w] := by simpa using congrArg List.reverse hq
  subst hq'
  refine h.take (by rw [hc]; rfl) rfl fun v _ => ?_
  by_cases hv : v = w
  · exact Or.inl (hv ▸ hn)
  · exact Or.inr ⟨rfl, hv⟩

theorem Inv.unlink (h : Inv kind s q A) (hc : s.consumer = .unlinking w) :
    ∃ u q', s.next w = some u ∧
      Inv kind { s.consume (.taken u) with next := update s.next w none } q' A := by
  have hspot := h.spot
  rw [hc] at hspot
  obtain ⟨u, q', rfl⟩ := hspot
  refine ⟨u, w :: q', h.chain.second_next, ?_⟩
  refine h.take (by rw [hc]; rfl) h.chain.popOldest fun v hv => ?_
  have hvw : v ≠ w := fun he => hv (he ▸ List.mem_cons_self)
  rw [Function.update_of_ne hvw]
  by_cases hvu : v = u
  · exact Or.inl (hvu ▸ h.chain.oldest_next)
  · exact Or.inr ⟨rfl, hvu⟩

theorem Inv.resume (h : Inv kind s q A) (hc : s.consumer = .taken w) :
    s.next w = none ∧ s.context w = true ∧ Inv kind (s.resume w) q A := by
  have hheld : s.place none = some w := by simp [State.place, hc, Consumer.held]
  obtain ⟨hb, hq⟩ := h.kept.live none w hheld
  have hloose : ∀ t, (s.threads t).held ≠ some w := fun t ht => by
    cases h.kept.unique none (some t) w hheld ht
  have hn : s.next w = none := by
    refine h.loose w hq fun t ht => hloose t ?_
    rw [ht]
    rfl
  refine ⟨hn, (h.context w).trans hb, ?_⟩
  obtain ⟨id, hid⟩ := Option.isSome_iff_exists.mp ((h.callback w).trans hb)
  simp only [State.resume, hid]
  have hcallback : ∀ v j, update s.callback w none v = some j → v ≠ w ∧ s.callback v = some j := by
    intro v j hv
    rw [Function.update_apply] at hv
    split at hv
    · cases hv
    · next hvw => exact ⟨hvw, hv⟩
  refine { h with
    spot := trivial
    number := fun v j hv => h.number v j (hcallback v j hv).2
    distinct := fun v z j hv hz => h.distinct v z j (hcallback v j hv).2 (hcallback z j hz).2
    unswapped := fun t v j ht hv => h.unswapped t v j ht (hcallback v j hv).2
    listed := ?_, kept := ?_, context := ?_, callback := ?_, found := ?_, order := ?_,
    balance := ?_ }
  · intro v hv
    have hvw : v ≠ w := fun he => hq (he ▸ hv)
    change update s.blocked w false v = true
    rw [Function.update_of_ne hvw]
    exact h.listed v hv
  · refine kept_of_update (s := s) rfl ?_
    apply (h.kept.drop hheld).congr
    intro v
    change update s.blocked w false v = true ∧ v ∉ q ↔ _
    by_cases hvw : v = w <;> simp [hvw]
  · intro v
    change update s.context w false v = update s.blocked w false v
    by_cases hvw : v = w
    · simp [hvw]
    · simpa [hvw] using h.context v
  · intro v
    change (update s.callback w none v).isSome = update s.blocked w false v
    by_cases hvw : v = w
    · simp [hvw]
    · simpa [hvw] using h.callback v
  · intro j hj
    rcases h.found j hj with hs | ⟨t, v, ht, hv⟩
    · exact Or.inl hs
    · have hvw : v ≠ w := fun he => hloose t (he ▸ ht)
      exact Or.inr ⟨t, v, ht, by simpa [hvw] using hv⟩
  · change s.swaps = s.executed ++ [id] ++ q.filterMap (update s.callback w none)
    have hcurrent : s.current = [id] := by simp [State.current, hc, hid]
    rw [filterMap_update hq, ← hcurrent]
    exact h.order
  · intro hk
    have := h.balance hk
    rw [hc] at this
    exact this

theorem Inv.consumerStep (h : Inv kind s q A) (spurious : Bool) (hi : s.consumer ≠ .idle) :
    ∃ q', Inv kind (s.consumerStep kind spurious s.consumer) q' A := by
  have hspot := h.spot
  have hmove : ∀ c, c.held = none → s.consumer.held = none → s.current = [] → Spot s q c →
      s.consumer.serving = 1 → c.serving = 1 → Inv kind (s.consume c) q A := by
    intro c hc hn hs hp h1 h1'
    refine h.consume (n := s.semaphore) (hc.trans hn.symm) hp ?_ (by omega)
    rw [hs]
    cases c <;> simp_all [State.current, Consumer.serving]
  cases hc : s.consumer with
  | idle => exact absurd hc hi
  | loading =>
    simp only [State.consumerStep]
    rw [hc] at hmove
    cases hh : s.head with
    | none =>
      have hq : q = [] := h.chain.eq_nil_iff.mp hh
      refine ⟨q, h.consume (c := Consumer.idle) (n := s.semaphore) (by rw [hc]; rfl) trivial ?_
        (Or.inr ?_)⟩
      · simp [State.current, hc]
      · intro hk
        have := h.balance hk
        rw [hc, hq] at this
        simp [Consumer.serving] at this
    | some w =>
      have hw : w ∈ q := h.chain.mem_of_head hh
      exact ⟨q, hmove _ rfl rfl (by simp [State.current, hc]) hw rfl rfl⟩
  | testing w =>
    simp only [State.consumerStep]
    rw [hc] at hmove hspot
    split
    · next hn =>
      have hw := (h.chain.next_eq_none_iff_oldest hspot).mp hn
      exact ⟨q, hmove _ rfl rfl (by simp [State.current, hc]) hw rfl rfl⟩
    · next hn => exact ⟨q, hmove _ rfl rfl (by simp [State.current, hc]) ⟨hspot, hn⟩ rfl rfl⟩
  | swapping w =>
    simp only [State.consumerStep]
    rw [hc] at hmove
    split
    · next hs =>
      simp only [State.swaps?, Bool.and_eq_true, Bool.not_eq_true', decide_eq_true_eq] at hs
      exact ⟨[], h.takeOnly hc hs.2⟩
    · exact ⟨q, hmove _ rfl rfl (by simp [State.current, hc]) trivial rfl rfl⟩
  | walking w =>
    simp only [State.consumerStep]
    rw [hc] at hmove hspot
    cases hn : s.next w with
    | none => exact absurd hn hspot.2
    | some u =>
      have hu : u ∈ q := h.chain.next_mem_oldest hspot.1 hn
      dsimp only
      split
      · next hu' => exact ⟨q, hmove _ rfl rfl (by simp [State.current, hc]) ⟨hu, hu'⟩ rfl rfl⟩
      · next hu' =>
        obtain ⟨q', hq⟩ := h.chain.eq_of_next_oldest hspot.1 hn (not_not.mp hu')
        exact ⟨q, hmove _ rfl rfl (by simp [State.current, hc]) ⟨u, q', hq⟩ rfl rfl⟩
  | unlinking w =>
    obtain ⟨u, q', hn, hq⟩ := h.unlink hc
    simp only [State.consumerStep, hn]
    exact ⟨q', hq⟩
  | taken w =>
    obtain ⟨hn, hx, hr⟩ := h.resume hc
    simp only [State.consumerStep, hn, hx]
    exact ⟨q, by simpa using hr⟩
  | executing id =>
    refine ⟨q, h.returned hc ?_⟩
    cases kind with
    | eventLoop => exact Or.inr ⟨rfl, rfl⟩
    | threadPool => exact Or.inl rfl

end Consumer

variable [DecidableEq T] [DecidableEq W]

theorem inv_reachable (h : (machine T W kind).Reachable s) : ∃ q A, Inv kind s q A := by
  induction h with
  | initial h0 => exact ⟨[], ∅, h0 ▸ inv_init⟩
  | @step s _ l _ hst ih =>
    obtain ⟨q, A, h⟩ := ih
    obtain ⟨he, rfl⟩ := hst
    cases l with
    | submit t w scheduler pinned => exact ⟨q, A, h.submit w scheduler pinned he.2⟩
    | thread t spurious => exact h.threadStep spurious he.2
    | wake => exact ⟨q, A, h.wake he.2.1 he.2.2⟩
    | consumer spurious =>
      obtain ⟨q', hq⟩ := h.consumerStep spurious he.2
      exact ⟨q', A, hq⟩

/-- The checks of the consumer do not fail. -/
theorem check_reachable (h : (machine T W kind).Reachable s) {c : Check}
    (hc : s.failed = some c) : c = .blocked ∨ c = .scheduler ∨ c = .pinned := by
  obtain ⟨q, A, hq⟩ := inv_reachable h
  exact hq.check c hc

omit [DecidableEq T] [DecidableEq W] in
theorem Inv.occurrences_eq (h : Inv kind s q A) (id : ℕ) :
    s.occurrences q id = s.swaps.count id := by
  rw [h.order, List.count_append, List.count_append, State.occurrences]
  omega

omit [DecidableEq T] [DecidableEq W] in
theorem Inv.occurs_once (h : Inv kind s q A) (hid : id < s.submitted) :
    s.occurrences q id = 1 ∧ ¬ s.Submitting id ∨ s.occurrences q id = 0 ∧ s.Submitting id := by
  rw [h.occurrences_eq]
  by_cases hs : id ∈ s.swaps
  · refine Or.inl ⟨List.count_eq_one_of_mem h.nodup hs, ?_⟩
    rintro ⟨t, w, ht, hw⟩
    exact h.unswapped t w id ht hw hs
  · exact Or.inr ⟨List.count_eq_zero_of_not_mem hs, (h.found id hid).resolve_left hs⟩

omit [DecidableEq T] [DecidableEq W] in
/-- A waiter in the list of a sleeping worker has a wake-up under way. -/
theorem Inv.not_stranded (h : Inv .threadPool s q A) (hc : s.consumer = .idle) (hq : q ≠ []) :
    0 < s.semaphore ∨ ∃ t, s.threads t = .signalling := by
  have hb := h.balance rfl
  rw [hc] at hb
  have hpos : 0 < q.length := List.length_pos_of_ne_nil hq
  by_cases hs : 0 < s.semaphore
  · exact Or.inl hs
  · have hA : 0 < A.card := by
      simp only [Consumer.serving] at hb
      omega
    obtain ⟨t, ht⟩ := Finset.card_pos.mp hA
    exact Or.inr ⟨t, (h.signalling t).mp ht⟩

/-- Every submitted callback is at one place, callbacks are executed in the order of their
compare and exchange, and no waiter is left behind by a worker that sleeps. -/
theorem submitted_once (h : (machine T W kind).Reachable s) :
    ∃ (q : List W) (A : Finset T), Chain s.next s.head q.reverse ∧
      (∀ t, t ∈ A ↔ s.threads t = .signalling) ∧
      (∀ id < s.submitted, s.occurrences q id = 1 ∧ ¬ s.Submitting id ∨
        s.occurrences q id = 0 ∧ s.Submitting id) ∧
      s.swaps = s.executed ++ s.current ++ s.queued q ∧
      (kind = .threadPool →
        q.length ≤ s.semaphore + A.card + s.consumer.serving ∧
        (s.consumer = .idle → q ≠ [] →
          0 < s.semaphore ∨ ∃ t, s.threads t = .signalling)) := by
  obtain ⟨q, A, hq⟩ := inv_reachable h
  refine ⟨q, A, hq.chain, hq.signalling, fun id hid => hq.occurs_once hid, hq.order, ?_⟩
  rintro rfl
  exact ⟨(hq.balance rfl).le, hq.not_stranded⟩

/-- Two waiters in the list when the worker takes the older one. -/
def taking : List (Label Bool Bool) :=
  [.submit false false true true, .thread false false, .thread false false,
    .submit true true true true, .thread true false, .thread true false, .thread true false,
    .wake, .consumer false, .consumer false, .consumer false, .consumer false, .consumer false]

theorem taking_once : ∃ s : State Bool Bool, s.consumer = .executing 0 ∧
    ∃ (q : List Bool) (A : Finset Bool), Chain s.next s.head q.reverse ∧
      (∀ t, t ∈ A ↔ s.threads t = .signalling) ∧
      (∀ id < s.submitted, s.occurrences q id = 1 ∧ ¬ s.Submitting id ∨
        s.occurrences q id = 0 ∧ s.Submitting id) ∧
      s.swaps = s.executed ++ s.current ++ s.queued q ∧
      (Kind.threadPool = .threadPool →
        q.length ≤ s.semaphore + A.card + s.consumer.serving ∧
        (s.consumer = .idle → q ≠ [] →
          0 < s.semaphore ∨ ∃ t, s.threads t = .signalling)) := by
  obtain ⟨s, hs, hc⟩ := Transition.Machine.exists_reachable_of_exec
    (M := machine Bool Bool .threadPool) taking (fun s => decide (s.consumer = .executing 0)) rfl
    (by decide)
  exact ⟨s, by simpa using hc, submitted_once hs⟩

end Eventuals.Submit
