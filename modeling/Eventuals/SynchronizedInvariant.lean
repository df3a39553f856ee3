import Mathlib.Data.List.Nodup
import Mathlib.Tactic.Tauto
import Eventuals.SynchronizedPlaced

/-! Which streams hold the lock exactly while control is inside them. -/
namespace Eventuals.Synchronized

open Transformer (Event Demand Kind Stage Result)
open Transition (Machine)

variable {V E : Type*}

/-- The items are as they should be for who is to make the next call. -/
def Awaits (is : List (Item V)) : Turn V E → Prop
  | .begin | .acquire .begin => ∀ i ∈ is, i.Fresh
  | .upstream | .acquire (.body _) | .acquire .ended => ∀ i ∈ is, i.Idle
  | .downstream => ∀ i ∈ is, i.Past
  | .eventual j => Rests is .eventual j
  | .inner j begun => Rests is (.inner begun) j
  | .wait j | .notified j => Rests is .wait j
  | .releasing _ event => goesOn event = true → ∀ i ∈ is, i.Past
  | .acquire (.fail _) | .acquire .stop | .over => True

/-- The waiter that `Release()` resets before control leaves. -/
def Turn.resets : Turn V E → Option Waiter
  | .releasing w _ => w
  | _ => none

/-- That one, or the waiter that is to acquire the lock. -/
def Turn.uses : Turn V E → Option Waiter
  | .releasing w _ => w
  | .acquire _ => some .acquire
  | .notified j => some (.wait j)
  | _ => none

/-- `acquired` is set of whoever holds the lock, and of whoever `Release()` has still to reset. -/
structure Marks (s : State V E) : Prop where
  marked : ∀ w, s.waiters w = true ↔
    s.owner = some (.us w) ∨ s.turn.resets = some w ∨ w ∈ s.clearing
  apart : ∀ w ∈ s.clearing, s.owner ≠ some (.us w) ∧ s.turn.uses ≠ some w
  nodup : s.clearing.Nodup

structure Inv (s : State V E) : Prop extends Held s where
  awaits : Awaits s.items s.turn
  marks : Marks s

/-- Control is at an item of the stream. -/
structure At (s : State V E) (pre : List (Item V)) (i : Item V) (post : List (Item V)) : Prop where
  items : s.items = pre ++ i :: post
  position : pre.length = s.position
  pre : ∀ a ∈ pre, a.Past
  post : ∀ a ∈ post, a.Idle

/-- An inner stream before the position is open, and gets what is turned back. -/
def State.catches (s : State V E) : Prop := ∃ a ∈ s.items.take s.position, a.isOpen = true

section Calls

variable {s : State V E} {i i' : Item V} {pre post : List (Item V)} {v : V} {spot : Spot}
  {f : Bool → Item V → Item V × Exit V E} {event : Event V E} {demand : Demand}

theorem Rests.at (hr : Rests s.items spot s.position) :
    ∃ pre i post, At s pre i post ∧ Here spot i := by
  obtain ⟨pre, i, post, hitems, hpos, hpre, hi, hpost⟩ := hr
  exact ⟨pre, i, post, ⟨hitems, hpos, hpre, hpost⟩, hi⟩

theorem At.turnsBack (h : At s pre i post) (conditions : ℕ → Bool) (v : V) :
    s.turnsBack conditions v =
      Synchronized.turnsBack (fun k => conditions (s.position + (k + 1))) post v := by
  have hdrop : s.items.drop (s.position + 1) = post := by
    rw [h.items, ← h.position, ← List.drop_drop, List.drop_left]
    rfl
  have hshift : (fun k => conditions (s.position + 1 + k)) =
      fun k => conditions (s.position + (k + 1)) := by
    funext k
    congr 1
    omega
  rw [State.turnsBack, hdrop, hshift]

theorem At.getElem? (h : At s pre i post) : s.items[s.position]? = some i := by
  rw [h.items, ← h.position, List.getElem?_append_right (Nat.le_refl _), Nat.sub_self]
  rfl

/-- What is called at the position leaves upward only past closed inner streams. -/
theorem At.placed (h : At s pre i post) (conditions : ℕ → Bool)
    (hp : let q := callAt s.available f (fun k => conditions (s.position + k)) 0 (i :: post)
      Placed q.1 q.2) :
    let p := callAt s.available f conditions s.position s.items
    let q := callAt s.available f (fun k => conditions (s.position + k)) 0 (i :: post)
    Placed p.1 p.2 ∧ (p.2.isUp = true ↔ q.2.isUp = true ∧ ¬ s.catches) := by
  have htake : s.items.take s.position = pre := by
    rw [h.items, ← h.position, List.take_left]
  rw [State.catches, htake]
  rw [← h.position] at hp ⊢
  rw [h.items]
  obtain ⟨hplaced, hup⟩ := placed_callAt h.pre conditions hp
  refine ⟨hplaced, hup.trans (and_congr_right fun _ => ?_)⟩
  simp

theorem At.placed_body (h : At s pre i post) (ha : s.available = false) (conditions : ℕ → Bool)
    (hf : f (conditions s.position) i = (i', .down (.body v))) (hi : i'.Past) :
    let p := callAt s.available f conditions s.position s.items
    Placed p.1 p.2 ∧ (p.2.isUp = true ↔
      (s.turnsBack conditions v = true ∧ i'.isOpen = false) ∧ ¬ s.catches) := by
  obtain ⟨hp, hup⟩ := placed_call_body ha (fun k => conditions (s.position + k)) hf hi h.post
  obtain ⟨hplaced, hq⟩ := h.placed conditions hp
  exact ⟨hplaced, by rw [hq, hup, h.turnsBack]⟩

theorem At.placed_up (h : At s pre i post) (conditions : ℕ → Bool)
    (hf : f (conditions s.position) i = (i', .up demand)) (hi : i'.Idle) :
    let p := callAt s.available f conditions s.position s.items
    Placed p.1 p.2 ∧ (p.2.isUp = true ↔ ¬ s.catches) := by
  obtain ⟨hp, hup⟩ := placed_call_up (fun k => conditions (s.position + k)) hf hi h.post
  obtain ⟨hplaced, hq⟩ := h.placed conditions hp
  exact ⟨hplaced, hq.trans (and_iff_right hup)⟩

theorem At.placed_spot (h : At s pre i post) (conditions : ℕ → Bool)
    (hf : f (conditions s.position) i = (i', spot.exit 0)) (hi : Here spot i') :
    let p := callAt s.available f conditions s.position s.items
    Placed p.1 p.2 ∧ p.2.isUp = false := by
  obtain ⟨hp, hup⟩ := placed_call_spot (fun k => conditions (s.position + k)) hf hi h.post
  obtain ⟨hplaced, hq⟩ := h.placed conditions hp
  exact ⟨hplaced, by simpa [hup] using hq⟩

theorem At.placed_final (h : At s pre i post) (conditions : ℕ → Bool)
    (hf : f (conditions s.position) i = (i', .down event)) (he : event.isFinal = true) :
    let p := callAt s.available f conditions s.position s.items
    Placed p.1 p.2 ∧ p.2.isUp = false := by
  obtain ⟨hp, hup⟩ := placed_call_final (fun k => conditions (s.position + k)) hf he
  obtain ⟨hplaced, hq⟩ := h.placed conditions hp
  exact ⟨hplaced, by simpa [hup] using hq⟩

/-- The eventual of a combinator ends. -/
theorem placed_complete (ha : s.available = false) (hr : Rests s.items .eventual s.position)
    (result : Result V E) (conditions : ℕ → Bool) :
    let p := callAt s.available (Item.complete result) conditions s.position s.items
    Placed p.1 p.2 ∧ (p.2.isUp = true ↔ ¬ Benign s (.eventual result conditions)) := by
  obtain ⟨pre, i, post, h, hi⟩ := hr.at
  cases i with
  | wait w => exact hi.elim
  | stage u =>
    obtain ⟨hidle, hkind⟩ := hi
    cases result with
    | fail error =>
      obtain ⟨hp, hup⟩ := h.placed_final (f := Item.complete (.fail error)) conditions rfl rfl
      exact ⟨hp, by simp [hup, Benign]⟩
    | stop =>
      obtain ⟨hp, hup⟩ := h.placed_final
        (f := Item.complete (.stop : Result V E)) conditions rfl rfl
      exact ⟨hp, by simp [hup, Benign]⟩
    | value v =>
      rcases hkind with hk | ⟨done, hk⟩
      · have hcompletes : s.completes v conditions = s.turnsBack conditions v := by
          simp only [State.completes, h.getElem?, hk]
        have hf : ∀ c, Item.complete (.value v : Result V E) c (.stage u) =
            (.stage u, .down (.body v)) := fun _ => by
          simp [Item.complete, Stage.complete, hk, Exit.of]
        obtain ⟨hp, hup⟩ := h.placed_body ha conditions (hf _) (.inl hidle)
        refine ⟨hp, hup.trans ?_⟩
        rw [and_iff_left hidle.isOpen, Benign, hcompletes, Classical.not_imp, State.catches]
      · have hcompletes : s.completes v conditions =
            (done v || s.turnsBack conditions (u.arg.getD v)) := by
          simp only [State.completes, h.getElem?, hk]
        cases hd : done v with
        | true =>
          have hstream : u.stream = true := by simpa [hk] using hidle.1
          have hf : ∀ c, Item.complete (.value v : Result V E) c (.stage u) =
              (.stage u, .up .done) := fun _ => by
            simp [Item.complete, Stage.complete, hk, hd, Stage.call, hstream, Exit.of]
          obtain ⟨hp, hup⟩ := h.placed_up conditions (hf _) hidle
          refine ⟨hp, hup.trans ?_⟩
          rw [Benign, hcompletes, State.catches]
          simp only [hd, Bool.true_or, forall_const]
        | false =>
          have hf : ∀ c, Item.complete (.value v : Result V E) c (.stage u) =
              (.stage u, .down (.body (u.arg.getD v))) := fun _ => by
            simp [Item.complete, Stage.complete, hk, hd, Exit.of]
          obtain ⟨hp, hup⟩ := h.placed_body ha conditions (hf _) (.inl hidle)
          refine ⟨hp, hup.trans ?_⟩
          rw [and_iff_left hidle.isOpen, Benign, hcompletes, Classical.not_imp, State.catches]
          simp only [hd, Bool.false_or]

/-- The inner stream of a `FlatMap` makes a call. -/
theorem placed_innerCalls {begun : Bool} {event : Event V E} (ha : s.available = false)
    (hr : Rests s.items (.inner begun) s.position)
    (he : if begun then event.isBegin = false else event.isBegin = true ∨ event.isFinal = true)
    (conditions : ℕ → Bool) :
    let p := callAt s.available (Item.innerCalls event) conditions s.position s.items
    Placed p.1 p.2 ∧ (p.2.isUp = true ↔ ¬ Benign s (.inner event conditions)) := by
  obtain ⟨pre, i, post, h, hi⟩ := hr.at
  cases i with
  | wait w => exact hi.elim
  | stage u =>
    obtain ⟨hk, hstream, hadapted, hinner⟩ := hi
    cases event with
    | begin =>
      have hbegun : begun = false := by simpa [Event.isBegin] using he
      have hf : ∀ c, Item.innerCalls (.begin : Event V E) c (.stage u) =
          (.stage { u with inner := true }, (Spot.inner true).exit 0) := fun _ => by
        simp [Item.innerCalls, Stage.innerCalls, hadapted, hinner, hbegun, Exit.of, Spot.exit]
      obtain ⟨hp, hup⟩ := h.placed_spot conditions (hf _) ⟨hk, hstream, hadapted, rfl⟩
      exact ⟨hp, by simp [hup, Benign]⟩
    | body v =>
      have hbegun : begun = true := by simpa [Event.isBegin, Event.isFinal] using he
      have hopen : (Item.stage u).Open := ⟨hk, hstream, hadapted, hinner.trans hbegun⟩
      have hf : ∀ c, Item.innerCalls (.body v : Event V E) c (.stage u) =
          (.stage u, .down (.body v)) := fun _ => rfl
      obtain ⟨hp, hup⟩ := h.placed_body ha conditions (hf _) (.inr hopen)
      exact ⟨hp, by simp [hup, Benign, hopen.isOpen]⟩
    | ended =>
      have hbegun : begun = true := by simpa [Event.isBegin, Event.isFinal] using he
      have hf : ∀ c, Item.innerCalls (.ended : Event V E) c (.stage u) =
          (.stage { u with adapted := false, inner := false },
            .up (if u.done then .done else .next)) := fun _ => by
        cases hd : u.done <;> simp [Item.innerCalls, Stage.innerCalls, hadapted, hinner, hbegun, hd,
          Stage.call, hstream, Exit.of]
      have hrange : InRange { u with adapted := false, inner := false } := fun b a hb => by
        rw [hk] at hb
        cases hb
      obtain ⟨hp, hup⟩ := h.placed_up conditions (hf _) ⟨.inr hstream, rfl, rfl, hrange⟩
      exact ⟨hp, hup⟩
    | fail error =>
      obtain ⟨hp, hup⟩ := h.placed_final (f := Item.innerCalls (.fail error)) conditions rfl rfl
      exact ⟨hp, by simp [hup, Benign]⟩
    | stop =>
      obtain ⟨hp, hup⟩ := h.placed_final
        (f := Item.innerCalls (.stop : Event V E)) conditions rfl rfl
      exact ⟨hp, by simp [hup, Benign]⟩

/-- A `Wait` has got the lock again. -/
theorem placed_resume (ha : s.available = false) (hr : Rests s.items .wait s.position)
    (conditions : ℕ → Bool) :
    let p : List (Item V) × Exit V E :=
      callAt s.available (Item.resume false) conditions s.position s.items
    Placed p.1 p.2 ∧ (p.2.isUp = true ↔ ¬ Benign s (.resume conditions)) := by
  obtain ⟨pre, i, post, h, hi⟩ := hr.at
  cases i with
  | stage u => exact hi.elim
  | wait w =>
    obtain ⟨-, v, harg⟩ := hi
    have hresumes : s.resumes conditions =
        (!conditions s.position && s.turnsBack conditions v) := by
      simp [State.resumes, h.getElem?, harg]
    cases hc : conditions s.position with
    | true =>
      have hf : Item.resume false (conditions s.position) (.wait w) =
          (.wait { w with notifiable := true, waiter := true, arg := some v },
            (Spot.wait.exit 0 : Exit V E)) := by
        simp [Item.resume, harg, Wait.body, hc, Spot.exit]
      obtain ⟨hp, hup⟩ := h.placed_spot conditions hf ⟨rfl, v, rfl⟩
      exact ⟨hp, by simp [hup, Benign, hresumes, hc]⟩
    | false =>
      have hf : Item.resume false (conditions s.position) (.wait w) =
          (.wait { w with notifiable := false, waiter := false },
            (.down (.body v) : Exit V E)) := by
        simp [Item.resume, harg, Wait.body, hc]
      have hidle : (Item.wait { w with notifiable := false, waiter := false }).Idle := rfl
      obtain ⟨hp, hup⟩ := h.placed_body ha conditions hf (.inl hidle)
      refine ⟨hp, hup.trans ?_⟩
      rw [and_iff_left hidle.isOpen, Benign, hresumes, hc, Classical.not_imp, Bool.not_false,
        Bool.true_and, State.catches]

end Calls

section Steps

variable {s : State V E} {is : List (Item V)} {event : Event V E} {j : ℕ} {w : Waiter}
  {p : List (Item V) × Exit V E} {l : Label V E}

theorem inv_initial (combinators : List (Combinator V)) : Inv (initial E combinators) where
  owner := by simp [initial, Turn.inside]
  acquired := rfl
  released := rfl
  unfailed := rfl
  awaits := by
    intro i hi
    obtain ⟨c, -, rfl⟩ := List.mem_map.mp hi
    cases c with
    | kind k => exact ⟨rfl, rfl, fun _ _ _ => Nat.zero_le _⟩
    | wait => rfl
  marks := ⟨by simp [initial, Turn.resets], by simp [initial], List.nodup_nil⟩

/-- The stream holds the lock with the waiter. -/
structure Holds (s : State V E) (w : Waiter) : Prop where
  owner : s.owner = some (.us w)
  marked : ∀ w', s.waiters w' = true ↔ w' = w ∨ w' ∈ s.clearing
  apart : w ∉ s.clearing
  nodup : s.clearing.Nodup

theorem Holds.available (h : Holds s w) : s.available = false := by
  rw [State.available, h.owner]
  rfl

theorem Holds.holder (h : Holds s w) : s.holder = some w := by
  simp only [State.holder, h.owner]

theorem Inv.holds (h : Inv s) (hin : s.turn.inside = true) : ∃ w, Holds s w := by
  obtain ⟨w, hw⟩ := h.owner.mpr hin
  have hresets : s.turn.resets = none := by
    cases ht : s.turn with
    | eventual | inner => rfl
    | begin | upstream | acquire | releasing | downstream | wait | notified | «over» =>
      rw [ht] at hin
      cases hin
  refine ⟨w, hw, fun w' => ?_, fun hm => (h.marks.apart w hm).1 hw, h.marks.nodup⟩
  rw [h.marks.marked w', hw, hresets]
  simp [eq_comm]

/-- Control does not hold the lock outside. -/
theorem Held.not_ours (h : Held s) (hin : s.turn.inside = false) (w : Waiter) :
    s.owner ≠ some (.us w) := by
  intro hw
  have htrue := h.owner.mp ⟨w, hw⟩
  rw [hin] at htrue
  cases htrue

theorem Inv.enter (h : Inv s) (ho : s.owner = none) (hr : s.turn.resets = none)
    (hu : s.turn.uses = some w) : Holds (s.enter w) w := by
  have hw : w ∉ s.clearing := fun hm => (h.marks.apart w hm).2 hu
  refine ⟨rfl, fun w' => ?_, hw, h.marks.nodup⟩
  have hmarked := h.marks.marked w'
  rw [ho, hr] at hmarked
  by_cases hw' : w' = w
  · subst hw'
    simp [State.enter]
  · simpa [State.enter, Function.update_of_ne hw', hw'] using hmarked

theorem exit_down (hh : Holds s w) (is : List (Item V)) (event : Event V E) :
    s.exit (is, .down event) =
      { s with
        items := is, owner := none, released := s.released + 1, left := s.left + 1
        turn := .releasing (some w) event } := by
  have havailable : ({ s with items := is } : State V E).available = false := hh.available
  have hholder : ({ s with items := is } : State V E).holder = some w := hh.holder
  simp only [State.exit, havailable, hholder]
  rfl

theorem exit_wait (hh : Holds s w) (is : List (Item V)) (j : ℕ) :
    s.exit (is, .wait j) =
      { s with
        items := is, owner := none, released := s.released + 1, left := s.left + 1
        clearing := s.clearing ++ [w], turn := .wait j } := by
  have hholder : ({ s with items := is } : State V E).holder = some w := hh.holder
  simp only [State.exit, hholder, Option.toList_some]

theorem inv_exit (hh : Holds s w) (ha : s.acquired = s.entered)
    (hr : s.released = s.left) (hf : s.failed = none) (hp : Placed p.1 p.2)
    (hup : p.2.isUp = false) : Inv (s.exit p) := by
  have hin : ∀ w', s.owner = some (.us w') ↔ w' = w := by
    intro w'
    simp [hh.owner, eq_comm]
  obtain ⟨is, exit⟩ := p
  cases exit with
  | up demand => simp [Exit.isUp] at hup
  | failed c => exact hp.elim
  | eventual j | inner j begun =>
    refine ⟨⟨by simp [State.exit, hh.owner, Turn.inside], ha, hr, hf⟩, hp, ⟨fun w' => ?_, ?_,
      hh.nodup⟩⟩
    · simpa [State.exit, Turn.resets, hin] using hh.marked w'
    · intro w' hm
      constructor
      · intro ho
        exact hh.apart ((hin w').mp ho ▸ hm)
      · intro hu
        cases hu
  | wait j =>
    rw [exit_wait hh]
    refine ⟨⟨by simp [Turn.inside], ha, congrArg (· + 1) hr, hf⟩, hp, ⟨fun w' => ?_, ?_, ?_⟩⟩
    · simp [hh.marked w', Turn.resets, or_comm]
    · intro w' _
      constructor
      · intro ho
        cases ho
      · intro hu
        cases hu
    · exact List.nodup_append_comm.mp (List.nodup_cons.mpr ⟨hh.apart, hh.nodup⟩)
  | down event =>
    rw [exit_down hh]
    refine ⟨⟨by simp [Turn.inside], ha, congrArg (· + 1) hr, hf⟩, hp, ⟨fun w' => ?_, ?_,
      hh.nodup⟩⟩
    · simp [hh.marked w', Turn.resets, eq_comm]
    · intro w' hm
      constructor
      · intro ho
        cases ho
      · intro hu
        obtain rfl : w = w' := Option.some.inj hu
        exact hh.apart hm

/-- Nothing releases the lock on the way up. -/
theorem not_held_exit (hh : Holds s w) (hup : p.2.isUp = true) : ¬ Held (s.exit p) := by
  obtain ⟨is, exit⟩ := p
  cases exit with
  | up demand =>
    intro h
    have hin := h.owner.mp ⟨w, hh.owner⟩
    simp [State.exit, Turn.inside] at hin
  | down | eventual | inner | wait | failed => simp [Exit.isUp] at hup

theorem exit_entered (p : List (Item V) × Exit V E) :
    (s.exit p).acquired = s.acquired ∧ (s.exit p).entered = s.entered := by
  obtain ⟨is, exit⟩ := p
  cases exit with
  | down event =>
    simp only [State.exit]
    split <;> exact ⟨rfl, rfl⟩
  | up | eventual | inner | wait | failed => exact ⟨rfl, rfl⟩

/-- What a step does that lets control go on, or leave, inside. -/
theorem sound_exit (hh : Holds s w) (ha : s.acquired = s.entered)
    (hr : s.released = s.left) (hf : s.failed = none) (hp : Placed p.1 p.2) {C : Prop}
    (hup : p.2.isUp = true ↔ ¬ C) : (C → Inv (s.exit p)) ∧ (¬ C → ¬ Held (s.exit p)) :=
  ⟨fun hc => inv_exit hh ha hr hf hp (by simpa [hc] using hup),
    fun hn => not_held_exit hh (hup.mpr hn)⟩

theorem resets_uses {t : Turn V E} (h : t.resets = some w) : t.uses = some w := by
  cases t with
  | releasing w' event => exact h
  | begin | upstream | acquire | downstream | eventual | inner | wait | notified | «over» =>
    cases h

/-- A step outside that neither acquires the lock nor releases it. -/
theorem inv_turn (h : Inv s) (hin : s.turn.inside = false) (hr : s.turn.resets = none)
    {t : Turn V E} (ht : t.inside = false) (hres : t.resets = none)
    (hu : ∀ w, t.uses = some w → w ∉ s.clearing) (hw : Awaits is t) :
    Inv { s with items := is, turn := t } := by
  refine ⟨⟨?_, h.acquired, h.released, h.unfailed⟩, hw, ⟨fun w => ?_, fun w hm => ?_, ?_⟩⟩
  · simpa [ht, hin] using h.owner
  · simpa [hres, hr] using h.marks.marked w
  · exact ⟨(h.marks.apart w hm).1, fun hw' => hu w hw' hm⟩
  · exact h.marks.nodup

/-- The waiter is reset before it is to acquire the lock again, or a `CHECK` fails. -/
theorem sound_await (h : Inv s) (hin : s.turn.inside = false) (hr : s.turn.resets = none)
    {t : Turn V E} (ht : t.inside = false) (hres : t.resets = none) (hu : t.uses = some w)
    (hw : Awaits is t) :
    (w ∉ s.clearing → Inv ({ s with items := is }.await w t)) ∧
      (¬ w ∉ s.clearing → ¬ Held ({ s with items := is }.await w t)) := by
  have hmarked : s.waiters w = true ↔ w ∈ s.clearing := by
    simp [h.marks.marked w, h.not_ours hin w, hr]
  constructor
  · intro hn
    have hset : s.waiters w = false := by
      rw [← Bool.not_eq_true, hmarked]
      exact hn
    simp only [State.await, hset, Bool.false_eq_true, if_false]
    refine inv_turn h hin hr ht hres (fun w' hw' => ?_) hw
    obtain rfl : w = w' := Option.some.inj (hu.symm.trans hw')
    exact hn
  · intro hn hheld
    have hset : s.waiters w = true := hmarked.mpr (not_not.mp hn)
    have hfailed := hheld.unfailed
    simp only [State.await, hset, if_true] at hfailed
    cases hfailed

/-- `Release()` has freed the lock, and returns. -/
theorem inv_released {w : Option Waiter} (h : Inv s) (ht : s.turn = .releasing w event) :
    Inv (next s .released) := by
  have hin : s.turn.inside = false := by rw [ht]; rfl
  have hawaits := h.awaits
  rw [ht] at hawaits
  have hmarks : ∀ t : Turn V E, t.resets = none → t.uses = none →
      Marks { (w.map s.reset).getD s with turn := t } := by
    intro t hres hu
    have hmarked := h.marks.marked
    have hapart := h.marks.apart
    rw [ht] at hmarked hapart
    cases w with
    | none =>
      refine ⟨fun w' => ?_, fun w' hm => ⟨(hapart w' hm).1, by simp [hu]⟩, h.marks.nodup⟩
      simp only [Turn.resets] at hmarked
      simpa [hres] using hmarked w'
    | some w =>
      refine ⟨fun w' => ?_, fun w' hm => ⟨(hapart w' hm).1, by simp [hu]⟩, h.marks.nodup⟩
      by_cases hw : w' = w
      · subst hw
        have hne := h.not_ours hin w'
        have hclear : w' ∉ s.clearing := fun hm => (hapart w' hm).2 rfl
        simp [State.reset, hres, hne, hclear]
      · simp only [Turn.resets] at hmarked
        simpa [State.reset, Function.update_of_ne hw, hres, Ne.symm hw] using hmarked w'
  have hheld : ∀ t : Turn V E, t.inside = false → t.resets = none → t.uses = none →
      Awaits s.items t → Inv { (w.map s.reset).getD s with turn := t } := by
    intro t htin hres hu hw
    have howner := h.owner
    rw [hin] at howner
    refine ⟨⟨?_, ?_, ?_, ?_⟩, ?_, hmarks t hres hu⟩
    · cases w <;> simpa [State.reset, htin] using howner
    · cases w <;> exact h.acquired
    · cases w <;> exact h.released
    · cases w <;> exact h.unfailed
    · cases w <;> exact hw
  simp only [next, ht]
  cases event with
  | begin | body => exact hheld .downstream rfl rfl rfl (hawaits rfl)
  | ended | fail | stop => exact hheld .over rfl rfl rfl trivial

theorem inv_reset (h : Inv s) (hm : w ∈ s.clearing) : Inv (next s (.reset w)) := by
  refine ⟨⟨h.owner, h.acquired, h.released, h.unfailed⟩, h.awaits, ⟨fun w' => ?_, fun w' hm' => ?_,
    h.marks.nodup.erase w⟩⟩
  · have hmarked := h.marks.marked w'
    by_cases hw : w' = w
    · subst hw
      obtain ⟨hne, huses⟩ := h.marks.apart w' hm
      have hresets : s.turn.resets ≠ some w' := fun hr => huses (resets_uses hr)
      simp [next, State.reset, hne, hresets, h.marks.nodup.mem_erase_iff]
    · simpa [next, State.reset, Function.update_of_ne hw, h.marks.nodup.mem_erase_iff, hw]
        using hmarked
  · exact h.marks.apart w' (List.mem_of_mem_erase hm')

theorem rests_notify (h : Rests is .wait j) : Rests (is.modify j Item.notify) .wait j := by
  obtain ⟨pre, i, post, rfl, rfl, hpre, hi, hpost⟩ := h
  have hmodify : (pre ++ i :: post).modify pre.length Item.notify = pre ++ i.notify :: post := by
    clear hpre
    induction pre with
    | nil => rfl
    | cons a pre ih => exact congrArg (a :: ·) ih
  refine ⟨pre, i.notify, post, hmodify, rfl, hpre, ?_, hpost⟩
  cases i with
  | stage u => exact hi.elim
  | wait w => exact hi

theorem sound_acquire (h : Inv s) (ht : s.turn = .acquire event) (ho : s.owner = none)
    (conditions : ℕ → Bool) :
    (Benign s (.acquire conditions) → Inv (next s (.acquire conditions))) ∧
      (¬ Benign s (.acquire conditions) → ¬ Held (next s (.acquire conditions))) := by
  have hawaits := h.awaits
  rw [ht] at hawaits
  have hnext : next s (.acquire conditions) =
      (s.enter .acquire).exit (passDown false conditions s.items event) := by
    simp only [next, ht]
  rw [hnext]
  have hh : Holds (s.enter .acquire) .acquire := h.enter ho (by rw [ht]; rfl) (by rw [ht]; rfl)
  have hentered : (s.enter .acquire).acquired = (s.enter .acquire).entered :=
    congrArg (· + 1) h.acquired
  cases event with
  | body v =>
    obtain ⟨hp, hup⟩ := placed_body (E := E) hawaits conditions v
    refine sound_exit hh hentered h.released h.unfailed hp (hup.trans ?_)
    simp [Benign, ht, Turn.arriving]
  | begin =>
    obtain ⟨is, hpass, his⟩ := passDown_begin (E := E) hawaits false conditions
    rw [hpass]
    have hp : Placed is (.down .begin : Exit V E) := fun _ i hi => .inl (his i hi)
    refine ⟨fun _ => inv_exit hh hentered h.released h.unfailed hp rfl, fun hn => absurd ?_ hn⟩
    simp [Benign, ht, Turn.arriving]
  | ended =>
    obtain ⟨is, hpass⟩ := passDown_ended (E := E) hawaits conditions
    rw [hpass]
    refine ⟨fun _ => inv_exit hh hentered h.released h.unfailed (fun hg => nomatch hg) rfl,
      fun hn => absurd ?_ hn⟩
    simp [Benign, ht, Turn.arriving]
  | fail error =>
    obtain ⟨is, hpass⟩ := passDown_final
      (show (Event.fail error : Event V E).isFinal = true from rfl) s.items false conditions
    rw [hpass]
    refine ⟨fun _ => inv_exit hh hentered h.released h.unfailed (fun hg => nomatch hg) rfl,
      fun hn => absurd ?_ hn⟩
    simp [Benign, ht, Turn.arriving]
  | stop =>
    obtain ⟨is, hpass⟩ := passDown_final
      (show (Event.stop : Event V E).isFinal = true from rfl) s.items false conditions
    rw [hpass]
    refine ⟨fun _ => inv_exit hh hentered h.released h.unfailed (fun hg => nomatch hg) rfl,
      fun hn => absurd ?_ hn⟩
    simp [Benign, ht, Turn.arriving]

/-- Downstream does not acquire the lock for an inner stream. -/
theorem sound_demand (h : Inv s) (ht : s.turn = .downstream) (demand : Demand) :
    (Benign s (.downstream demand) → Inv (s.demand demand)) ∧
      (¬ Benign s (.downstream demand) → ¬ Held (s.demand demand)) := by
  have hawaits := h.awaits
  rw [ht] at hawaits
  obtain ⟨hp, hup⟩ := placed_passUp (E := E) hawaits demand
  unfold State.demand
  generalize (passUp s.items demand : List (Item V) × Exit V E) = p at hp hup
  obtain ⟨is, exit⟩ := p
  cases exit with
  | up asked =>
    have hclosed : ∀ i ∈ s.items, i.isOpen = false := hup.mp rfl
    refine ⟨fun _ => ?_, fun hn => absurd hclosed hn⟩
    exact inv_turn h (by rw [ht]; rfl) (by rw [ht]; rfl) rfl rfl (fun _ hu => nomatch hu) hp
  | down | eventual | inner | wait | failed =>
    refine ⟨fun hb => absurd (hup.mpr hb) (by simp [Exit.isUp]), fun _ hheld => ?_⟩
    have hacquired := hheld.acquired
    rw [(exit_entered _).1, (exit_entered _).2] at hacquired
    have hbefore := h.acquired
    dsimp only at hacquired
    omega

/-- Whose turn it is for a call. -/
def Due (t : Turn V E) : Label V E → Prop
  | .upstream event =>
    t = .begin ∧ (event.isBegin = true ∨ event.isFinal = true) ∨
      t = .upstream ∧ event.isBegin = false
  | .acquire _ => ∃ event, t = .acquire event
  | .released => ∃ w event, t = .releasing w event
  | .downstream _ => t = .downstream
  | .eventual .. => ∃ j, t = .eventual j
  | .inner event _ => ∃ j begun, t = .inner j begun ∧
      if begun then event.isBegin = false else event.isBegin = true ∨ event.isFinal = true
  | .notify => ∃ j, t = .wait j
  | .resume _ => ∃ j, t = .notified j
  | .reset _ | .lock | .unlock => True

theorem due_of_enabled (he : Enabled s l) : Due s.turn l := by
  obtain ⟨hallows, -⟩ := he
  generalize s.turn = t at hallows ⊢
  cases l with
  | reset | lock | unlock => trivial
  | inner event conditions =>
    cases t with
    | inner j begun => cases begun <;> simpa [Turn.allows, Due] using hallows
    | begin | upstream | acquire | releasing | downstream | eventual | wait | notified | «over» =>
      simp [Turn.allows] at hallows
  | upstream | acquire | released | downstream | eventual | notify | resume =>
    cases t <;> simp [Turn.allows, Due] at hallows ⊢ <;> exact hallows

/-- Somebody else acquires the lock, or releases it. -/
theorem inv_other {owner : Option Owner} (h : Inv s) (ho : ∀ w, s.owner ≠ some (.us w))
    (ho' : ∀ w, owner ≠ some (.us w)) : Inv { s with owner := owner } := by
  refine ⟨⟨?_, h.acquired, h.released, h.unfailed⟩, h.awaits, ⟨fun w => ?_, fun w hm => ?_,
    h.marks.nodup⟩⟩
  · simpa [ho, ho'] using h.owner
  · simpa [ho, ho'] using h.marks.marked w
  · exact ⟨ho' w, (h.marks.apart w hm).2⟩

theorem sound_upstream (h : Inv s) (hd : Due s.turn (.upstream event)) :
    (Benign s (.upstream event) → Inv (next s (.upstream event))) ∧
      (¬ Benign s (.upstream event) → ¬ Held (next s (.upstream event))) := by
  have hawaits := h.awaits
  rcases hd with ⟨ht, he⟩ | ⟨ht, he⟩ <;> rw [ht] at hawaits
  · refine sound_await h (by rw [ht]; rfl) (by rw [ht]; rfl) rfl rfl rfl ?_
    cases event with
    | begin => exact hawaits
    | fail | stop => trivial
    | body | ended => simp [Event.isBegin, Event.isFinal] at he
  · refine sound_await h (by rw [ht]; rfl) (by rw [ht]; rfl) rfl rfl rfl ?_
    cases event with
    | begin => simp [Event.isBegin] at he
    | body | ended => exact hawaits
    | fail | stop => trivial

theorem sound_notify (h : Inv s) (ht : s.turn = .wait j) :
    (Benign s .notify → Inv (next s (.notify : Label V E))) ∧
      (¬ Benign s .notify → ¬ Held (next s (.notify : Label V E))) := by
  have hawaits := h.awaits
  have hposition : s.position = j := by rw [State.position, ht]
  rw [ht, ← hposition] at hawaits
  exact sound_await h (by rw [ht]; rfl) (by rw [ht]; rfl) rfl rfl rfl (rests_notify hawaits)

/-- A step leaves the lock as it should be, if and only if it is benign. -/
theorem sound_next (h : Inv s) (he : Enabled s l) :
    (Benign s l → Inv (next s l)) ∧ (¬ Benign s l → ¬ Held (next s l)) := by
  have hawaits := h.awaits
  have hdue := due_of_enabled he
  cases l with
  | upstream event => exact sound_upstream h hdue
  | acquire conditions =>
    obtain ⟨event, ht⟩ := hdue
    exact sound_acquire h ht (he.2.1 none rfl) conditions
  | released =>
    obtain ⟨w, event, ht⟩ := hdue
    exact ⟨fun _ => inv_released h ht, fun hn => absurd trivial hn⟩
  | downstream demand => exact sound_demand h hdue demand
  | eventual result conditions =>
    obtain ⟨j, ht⟩ := hdue
    have hin : s.turn.inside = true := by rw [ht]; rfl
    have hposition : s.position = j := by rw [State.position, ht]
    rw [ht, ← hposition] at hawaits
    obtain ⟨w, hh⟩ := h.holds hin
    obtain ⟨hp, hup⟩ := placed_complete hh.available hawaits result conditions
    exact sound_exit hh h.acquired h.released h.unfailed hp hup
  | inner event conditions =>
    obtain ⟨j, begun, ht, hcall⟩ := hdue
    have hin : s.turn.inside = true := by rw [ht]; rfl
    have hposition : s.position = j := by rw [State.position, ht]
    rw [ht, ← hposition] at hawaits
    obtain ⟨w, hh⟩ := h.holds hin
    obtain ⟨hp, hup⟩ := placed_innerCalls hh.available hawaits hcall conditions
    exact sound_exit hh h.acquired h.released h.unfailed hp hup
  | notify =>
    obtain ⟨j, ht⟩ := hdue
    exact sound_notify h ht
  | resume conditions =>
    obtain ⟨j, ht⟩ := hdue
    have hposition : s.position = j := by rw [State.position, ht]
    have hh : Holds (s.enter (.wait s.position)) (.wait s.position) :=
      h.enter (he.2.1 none rfl) (by rw [ht]; rfl) (by rw [ht, hposition]; rfl)
    rw [ht, ← hposition] at hawaits
    obtain ⟨hp, hup⟩ := placed_resume (E := E) (s := s.enter (.wait s.position)) hh.available
      hawaits conditions
    exact sound_exit hh (congrArg (· + 1) h.acquired) h.released h.unfailed hp hup
  | reset w => exact ⟨fun _ => inv_reset h (he.2.2 w rfl), fun hn => absurd trivial hn⟩
  | lock =>
    have howner : s.owner = none := he.2.1 none rfl
    exact ⟨fun _ => inv_other h (by simp [howner]) (by simp), fun hn => absurd trivial hn⟩
  | unlock =>
    have howner : s.owner = some .other := he.2.1 (some .other) rfl
    exact ⟨fun _ => inv_other h (by simp [howner]) (by simp), fun hn => absurd trivial hn⟩

end Steps

section Runs

variable {combinators : List (Combinator V)} {s t : State V E} {xs : List (State V E × Label V E)}

/-- The lock is held exactly while control is inside, at every point of a run, if and only if every
step is benign. -/
theorem held_iff_benign (h0 : (machine combinators).Initial s)
    (hr : (machine combinators).Run s xs t) :
    (∀ j ≤ xs.length, Held (Machine.stateAt t xs j)) ↔ ∀ p ∈ xs, Benign p.1 p.2 := by
  have hi : Inv s := (show s = initial E combinators from h0) ▸ inv_initial combinators
  have hkeep : ∀ (s : State V E) l, Inv s → (machine combinators).Enabled s l → Benign s l →
      Inv (next s l) := fun _ _ hi he => (sound_next hi he).1
  have hbreak : ∀ (s : State V E) l, Inv s → (machine combinators).Enabled s l → ¬ Benign s l →
      ¬ Held (next s l) := fun _ _ hi he => (sound_next hi he).2
  exact hr.forall_stateAt_iff (fun _ hi => hi.toHeld) hkeep hbreak hi

/-- A `Wait` before a `Filter` of the even numbers. -/
def waiting : List (Combinator ℕ) := [.wait, .kind (.filter (· % 2 == 0))]

/-- A value waits twice, and passes. -/
def passing : List (Label ℕ Unit) :=
  [.upstream .begin, .acquire fun _ => false, .released, .downstream .next, .upstream (.body 2),
    .acquire fun _ => true, .lock, .notify, .reset .acquire, .unlock, .resume fun _ => true,
    .reset (.wait 0), .lock, .notify, .unlock, .resume fun _ => false, .released,
    .downstream .next, .upstream .ended, .acquire fun _ => false, .released]

theorem exists_run_held : ∃ xs t, (machine waiting).Run (initial Unit waiting) xs t ∧
    xs.map Prod.snd = passing ∧ t.acquired = 5 ∧ t.released = 5 ∧
      ∀ j ≤ xs.length, Held (Machine.stateAt t xs j) := by
  have he : ((machine waiting).restrict Benign).exec (initial Unit waiting) passing = some _ := rfl
  obtain ⟨xs, hrun, hl⟩ := Machine.exec_run he
  obtain ⟨hr, hb⟩ := hrun.of_restrict
  exact ⟨xs, _, hr, hl, rfl, rfl, (held_iff_benign rfl hr).mpr hb⟩

/-- A `Filter` that rejects a value calls upstream with the lock held: `AcquireFast()` fails its
`CHECK` whatever upstream calls next. -/
theorem exists_not_held : ∃ s : State ℕ Unit, (machine waiting).Reachable s ∧
    s.turn = .upstream ∧ s.owner = some (.us .acquire) ∧ s.left = s.released + 1 ∧ ¬ Held s ∧
      ∀ event, (next s (.upstream event)).failed = some .recursive := by
  have he : (machine waiting).exec (initial Unit waiting) [.upstream .begin,
      .acquire fun _ => false, .released, .downstream .next, .upstream (.body 1),
      .acquire fun _ => false] = some _ := rfl
  refine ⟨_, Machine.exec_reachable (.initial rfl) he, rfl, rfl, rfl, fun h => ?_, fun _ => rfl⟩
  exact absurd (h.owner.mp ⟨_, rfl⟩) (by decide)

end Runs

end Eventuals.Synchronized
