import Eventuals.Synchronized

/-! Where control is in a stream: the combinators before it have been passed, and those behind it
are idle. -/
namespace Eventuals.Synchronized

open Transformer (Event Demand Kind Stage Result)

variable {V E : Type*}

/-- What a `TakeRange` has counted. -/
def InRange (s : Stage V) : Prop :=
  ∀ begin amount, s.kind = .takeRange begin amount → s.i ≤ begin + amount

namespace Item

/-- Nothing of the stream has come to the item but perhaps its beginning. -/
def Fresh : Item V → Prop
  | .stage s => s.adapted = false ∧ s.inner = false ∧ InRange s
  | .wait w => w.waiter = false

/-- The item has begun, and nothing is under way in it. -/
def Idle : Item V → Prop
  | .stage s => (s.kind = .map ∨ s.stream = true) ∧ (Item.stage s).Fresh
  | .wait w => w.waiter = false

/-- A value of the inner stream is under way behind the item. -/
def Open : Item V → Prop
  | .stage s => s.kind = .flatMap ∧ s.stream = true ∧ s.adapted = true ∧ s.inner = true
  | .wait _ => False

def Past (i : Item V) : Prop := i.Idle ∨ i.Open

end Item

/-- Something is under way in an item. -/
inductive Spot
  | eventual
  | inner (begun : Bool)
  | wait

def Spot.exit (j : ℕ) : Spot → Exit V E
  | .eventual => .eventual j
  | .inner begun => .inner j begun
  | .wait => .wait j

def Here : Spot → Item V → Prop
  | .eventual, .stage s =>
    (Item.stage s).Idle ∧ (s.kind = .map ∨ ∃ done, s.kind = .untilEventual done)
  | .inner begun, .stage s =>
    s.kind = .flatMap ∧ s.stream = true ∧ s.adapted = true ∧ s.inner = begun
  | .wait, .wait w => w.waiter = true ∧ ∃ v, w.arg = some v
  | _, _ => False

/-- Control is at a position. -/
def Rests (is : List (Item V)) (spot : Spot) (j : ℕ) : Prop :=
  ∃ pre i post, is = pre ++ i :: post ∧ pre.length = j ∧ (∀ a ∈ pre, a.Past) ∧ Here spot i ∧
    ∀ a ∈ post, a.Idle

def goesOn : Event V E → Bool
  | .begin | .body _ => true
  | .ended | .fail _ | .stop => false

/-- The items are as they should be for what a call has come to. -/
def Placed (is : List (Item V)) : Exit V E → Prop
  | .down event => goesOn event = true → ∀ i ∈ is, i.Past
  | .up _ => ∀ i ∈ is, i.Idle
  | .eventual j => Rests is .eventual j
  | .inner j begun => Rests is (.inner begun) j
  | .wait j => Rests is .wait j
  | .failed _ => False

def Exit.isUp : Exit V E → Bool
  | .up _ => true
  | _ => false

section Items

variable {i : Item V} {is pre post : List (Item V)} {s : Stage V} {w : Wait V} {v : V}
  {event : Event V E} {demand : Demand} {spot : Spot} {j : ℕ} {conditions : ℕ → Bool}

theorem Item.Idle.fresh (h : i.Idle) : i.Fresh := by
  cases i with
  | stage s => exact h.2
  | wait w => exact h

theorem Item.Idle.isOpen (h : i.Idle) : i.isOpen = false := by
  cases i with
  | stage s => rw [Item.isOpen, h.2.1, Bool.false_and]
  | wait w => rfl

theorem Item.Open.isOpen (h : i.Open) : i.isOpen = true := by
  cases i with
  | stage s => rw [Item.isOpen, h.2.2.1, h.2.2.2, Bool.true_and]
  | wait w => exact h.elim

theorem Item.Past.idle (h : i.Past) (ho : i.isOpen = false) : i.Idle := by
  rcases h with h | h
  · exact h
  · rw [h.isOpen] at ho
    cases ho

theorem up_stage {s' : Stage V} {asked : Demand} (h : s.up demand = (s', .up asked)) :
    (Item.stage s).up demand = (.stage s', .up asked) := by
  rw [Item.up, h]

/-- What is idle hands a demand on, if perhaps another one. -/
theorem Item.Idle.up (h : i.Idle) (demand : Demand) :
    ∃ i' asked, i.up demand = (i', .up asked) ∧ i'.Idle := by
  cases i with
  | wait w => exact ⟨.wait w, demand, rfl, h⟩
  | stage s =>
    obtain ⟨hs, ha, hi, hr⟩ := h
    cases hk : s.kind with
    | map | filter f | «until» f | untilEventual f =>
      exact ⟨.stage s, demand, up_stage (by cases demand <;> simp [Stage.up, hk]), hs, ha, hi, hr⟩
    | takeRange begin amount =>
      have hstream : s.stream = true := by simpa [hk] using hs
      have hle := hr begin amount hk
      cases demand with
      | done =>
        exact ⟨.stage s, .done, up_stage (by simp [Stage.up, hk, Stage.reply, hstream]),
          hs, ha, hi, hr⟩
      | next =>
        rcases Nat.lt_or_eq_of_le hle with hlt | heq
        · exact ⟨.stage s, .next, up_stage (by simp [Stage.up, hk, hlt, Stage.reply, hstream]),
            hs, ha, hi, hr⟩
        · exact ⟨.stage s, .done, up_stage (by simp [Stage.up, hk, heq, Stage.reply, hstream]),
            hs, ha, hi, hr⟩
    | flatMap =>
      have hstream : s.stream = true := by simpa [hk] using hs
      cases demand with
      | next =>
        exact ⟨.stage s, .next, up_stage (by simp [Stage.up, hk, ha, Stage.reply, hstream]),
          hs, ha, hi, hr⟩
      | done =>
        exact ⟨.stage { s with done := true }, .done,
          up_stage (by simp [Stage.up, hk, ha, Stage.reply, hstream]), hs, ha, hi, hr⟩

/-- An open inner stream gets the demand. -/
theorem Item.Open.up (h : i.Open) (demand : Demand) :
    ∃ i', i.up demand = (i', .inner) ∧ Here (.inner true) i' := by
  cases i with
  | wait w => exact h.elim
  | stage s =>
    obtain ⟨hk, hs, ha, hi⟩ := h
    cases demand with
    | next => exact ⟨.stage s, by simp [Item.up, Stage.up, hk, ha, hi], hk, hs, ha, hi⟩
    | done =>
      exact ⟨.stage { s with done := true }, by simp [Item.up, Stage.up, hk, ha, hi],
        hk, hs, ha, hi⟩

theorem Rests.cons (hi : i.Past) (h : Rests is spot j) : Rests (i :: is) spot (j + 1) := by
  obtain ⟨pre, a, post, rfl, rfl, hpre, ha, hpost⟩ := h
  exact ⟨i :: pre, a, post, rfl, rfl, List.forall_mem_cons.mpr ⟨hi, hpre⟩, ha, hpost⟩

theorem rests_zero (hi : Here spot i) (his : ∀ a ∈ is, a.Idle) : Rests (i :: is) spot 0 :=
  ⟨[], i, is, rfl, rfl, fun _ h => (List.not_mem_nil h).elim, hi, his⟩

/-- A demand of what comes next goes to the nearest open inner stream, or past the item. -/
theorem placed_resolve {p : List (Item V) × Exit V E} (hi : i.Past) (h : Placed p.1 p.2) :
    Placed (resolve i p).1 (resolve i p).2 ∧
      ((resolve i p).2.isUp = true ↔ p.2.isUp = true ∧ i.isOpen = false) := by
  obtain ⟨is, exit⟩ := p
  cases exit with
  | down event =>
    refine ⟨fun hg => List.forall_mem_cons.mpr ⟨hi, h hg⟩, ?_⟩
    simp [resolve, Exit.isUp]
  | up demand =>
    rcases hi with hi | hi
    · obtain ⟨i', asked, hup, hi'⟩ := hi.up demand
      have hres : resolve i ((is, .up demand) : List (Item V) × Exit V E) =
          (i' :: is, .up asked) := by
        simp only [resolve, hup]
      rw [hres]
      exact ⟨List.forall_mem_cons.mpr ⟨hi', h⟩, by simp [Exit.isUp, hi.isOpen]⟩
    · obtain ⟨i', hup, hi'⟩ := hi.up demand
      have hres : resolve i ((is, .up demand) : List (Item V) × Exit V E) =
          (i' :: is, .inner 0 true) := by
        simp only [resolve, hup]
      rw [hres]
      exact ⟨rests_zero hi' h, by simp [Exit.isUp, hi.isOpen]⟩
  | eventual j => exact ⟨Rests.cons hi h, by simp [resolve, Exit.isUp]⟩
  | inner j begun => exact ⟨Rests.cons hi h, by simp [resolve, Exit.isUp]⟩
  | wait j => exact ⟨Rests.cons hi h, by simp [resolve, Exit.isUp]⟩
  | failed c => exact h.elim

theorem placed_spot : Placed is (spot.exit j : Exit V E) ↔ Rests is spot j := by
  cases spot <;> rfl

theorem isUp_spot : (spot.exit j : Exit V E).isUp = false := by
  cases spot <;> rfl

/-- A value passes what is idle, is turned back by it, or stays with it. -/
theorem Item.Idle.body (h : i.Idle) (conditions : ℕ → Bool) (is : List (Item V)) (v : V) :
    ∃ i',
      (i.down false (conditions 0) (.body v : Event V E) = (i', .down (.body v)) ∧ i'.Idle ∧
        turnsBack conditions (i :: is) v = turnsBack (fun k => conditions (k + 1)) is v) ∨
      (∃ asked, i.down false (conditions 0) (.body v : Event V E) = (i', .up asked) ∧ i'.Idle ∧
        turnsBack conditions (i :: is) v = true) ∨
      ∃ spot : Spot, i.down false (conditions 0) (.body v : Event V E) = (i', spot.exit 0) ∧
        Here spot i' ∧ turnsBack conditions (i :: is) v = false := by
  cases i with
  | wait w =>
    cases hc : conditions 0 with
    | true =>
      refine ⟨.wait { w with notifiable := true, waiter := true, arg := some v },
        .inr (.inr ⟨.wait, ?_, ⟨rfl, v, rfl⟩, ?_⟩)⟩
      · simp [Item.down, Wait.down, Wait.body, Spot.exit]
      · simp [turnsBack, hc]
    | false =>
      refine ⟨.wait { w with notifiable := false }, .inl ⟨?_, h, ?_⟩⟩
      · simp [Item.down, Wait.down, Wait.body]
      · simp [turnsBack, hc]
  | stage s =>
    obtain ⟨hs, ha, hi, hr⟩ := h
    cases hk : s.kind with
    | map =>
      refine ⟨.stage s, .inr (.inr ⟨.eventual, ?_, ⟨⟨hs, ha, hi, hr⟩, .inl hk⟩, ?_⟩)⟩
      · simp [Item.down, Stage.down, Stage.body, hk, Exit.of, Spot.exit]
      · simp [turnsBack, hk]
    | filter f =>
      have hstream : s.stream = true := by simpa [hk] using hs
      cases hf : f v with
      | true =>
        refine ⟨.stage s, .inl ⟨?_, ⟨hs, ha, hi, hr⟩, ?_⟩⟩
        · simp [Item.down, Stage.down, Stage.body, hk, hf, Exit.of]
        · simp [turnsBack, hk, hf]
      | false =>
        refine ⟨.stage s, .inr (.inl ⟨.next, ?_, ⟨hs, ha, hi, hr⟩, ?_⟩)⟩
        · simp [Item.down, Stage.down, Stage.body, hk, hf, Stage.call, hstream, Exit.of]
        · simp [turnsBack, hk, hf]
    | «until» f =>
      have hstream : s.stream = true := by simpa [hk] using hs
      cases hf : f v with
      | false =>
        refine ⟨.stage s, .inl ⟨?_, ⟨hs, ha, hi, hr⟩, ?_⟩⟩
        · simp [Item.down, Stage.down, Stage.body, hk, hf, Exit.of]
        · simp [turnsBack, hk, hf]
      | true =>
        refine ⟨.stage s, .inr (.inl ⟨.done, ?_, ⟨hs, ha, hi, hr⟩, ?_⟩)⟩
        · simp [Item.down, Stage.down, Stage.body, hk, hf, Stage.call, hstream, Exit.of]
        · simp [turnsBack, hk, hf]
    | untilEventual done =>
      have hstream : s.stream = true := by simpa [hk] using hs
      refine ⟨.stage { s with arg := some v },
        .inr (.inr ⟨.eventual, ?_, ⟨⟨hs, ha, hi, hr⟩, .inr ⟨done, hk⟩⟩, ?_⟩)⟩
      · simp [Item.down, Stage.down, Stage.body, hk, hstream, Exit.of, Spot.exit]
      · simp [turnsBack, hk]
    | takeRange begin amount =>
      have hstream : s.stream = true := by simpa [hk] using hs
      have hle := hr begin amount hk
      by_cases hin : begin ≤ s.i ∧ s.i < begin + amount
      · refine ⟨.stage { s with i := s.i + 1 }, .inl ⟨?_, ⟨hs, ha, hi, ?_⟩, ?_⟩⟩
        · simp [Item.down, Stage.down, Stage.body, hk, hin, Exit.of]
        · intro b a hb
          have hsame : Kind.takeRange begin amount = .takeRange b a := hk.symm.trans hb
          cases hsame
          exact hin.2
        · simp [turnsBack, hk, hin]
      · by_cases hbefore : s.i < begin
        · refine ⟨.stage { s with i := s.i + 1 }, .inr (.inl ⟨.next, ?_, ⟨hs, ha, hi, ?_⟩, ?_⟩)⟩
          · simp [Item.down, Stage.down, Stage.body, hk, hin, hbefore, Stage.call, hstream, Exit.of]
          · intro b a hb
            have hsame : Kind.takeRange begin amount = .takeRange b a := hk.symm.trans hb
            cases hsame
            show s.i + 1 ≤ begin + amount
            omega
          · simp [turnsBack, hk, hin]
        · have hend : s.i = begin + amount := by omega
          refine ⟨.stage s, .inr (.inl ⟨.done, ?_, ⟨hs, ha, hi, hr⟩, ?_⟩)⟩
          · have hnot : ¬ begin + amount < begin := by omega
            simp [Item.down, Stage.down, Stage.body, hk, hend, hnot, Stage.call, hstream, Exit.of]
          · simp [turnsBack, hk, hin]
    | flatMap =>
      have hstream : s.stream = true := by simpa [hk] using hs
      refine ⟨.stage { s with adapted := true },
        .inr (.inr ⟨.inner false, ?_, ⟨hk, hstream, rfl, hi⟩, ?_⟩)⟩
      · simp [Item.down, Stage.down, Stage.body, hk, ha, Exit.of, Spot.exit]
      · simp [turnsBack, hk]

/-- What an event comes to that an item has let pass. -/
theorem placed_down {i' : Item V} {available : Bool} {event : Event V E}
    (hd : i.down available (conditions 0) event = (i', .down event))
    (hi : i'.Past)
    (h : let p := passDown available (fun k => conditions (k + 1)) is event; Placed p.1 p.2) :
    let p : List (Item V) × Exit V E := passDown available conditions (i :: is) event
    let q := passDown available (fun k => conditions (k + 1)) is event
    Placed p.1 p.2 ∧ (p.2.isUp = true ↔ q.2.isUp = true ∧ i'.isOpen = false) := by
  simp only [passDown, hd]
  exact placed_resolve hi h

/-- A value leaves idle items, is turned back by one, or stays with one. -/
theorem placed_body (his : ∀ i ∈ is, i.Idle) (conditions : ℕ → Bool) (v : V) :
    let p : List (Item V) × Exit V E := passDown false conditions is (.body v)
    Placed p.1 p.2 ∧ (p.2.isUp = true ↔ turnsBack conditions is v = true) := by
  induction is generalizing conditions with
  | nil =>
    exact ⟨fun _ i hi => (List.not_mem_nil hi).elim, by simp [passDown, Exit.isUp, turnsBack]⟩
  | cons i is ih =>
    obtain ⟨hi, his⟩ := List.forall_mem_cons.mp his
    obtain ⟨hplaced, hup⟩ := ih his (fun k => conditions (k + 1))
    obtain ⟨i', ⟨hd, hi', ht⟩ | ⟨asked, hd, hi', ht⟩ | ⟨spot, hd, hi', ht⟩⟩ :=
      hi.body (E := E) conditions is v
    · obtain ⟨hp, hq⟩ := placed_down hd (.inl hi') hplaced
      refine ⟨hp, hq.trans ?_⟩
      rw [hup, ht, and_iff_left hi'.isOpen]
    · simp only [passDown, hd]
      exact ⟨List.forall_mem_cons.mpr ⟨hi', his⟩, by simp [Exit.isUp, ht]⟩
    · have hpass : passDown false conditions (i :: is) (.body v : Event V E) =
          (i' :: is, spot.exit 0) := by
        cases spot <;> simp only [passDown, hd, Spot.exit]
      rw [hpass]
      exact ⟨placed_spot.mpr (rests_zero hi' his), by simp [isUp_spot, ht]⟩

theorem passDown_begin (his : ∀ i ∈ is, i.Fresh) (available : Bool) (conditions : ℕ → Bool) :
    ∃ is', passDown available conditions is (.begin : Event V E) = (is', .down .begin) ∧
      ∀ i ∈ is', i.Idle := by
  induction is generalizing conditions with
  | nil => exact ⟨[], rfl, fun _ hi => (List.not_mem_nil hi).elim⟩
  | cons i is ih =>
    obtain ⟨hi, his⟩ := List.forall_mem_cons.mp his
    obtain ⟨is', hpass, his'⟩ := ih his (fun k => conditions (k + 1))
    have hdown : ∃ i', i.down available (conditions 0) (.begin : Event V E) = (i', .down .begin) ∧
        i'.Idle := by
      cases i with
      | wait w => exact ⟨.wait w, rfl, hi⟩
      | stage s =>
        cases hk : s.kind with
        | map => exact ⟨.stage s, by simp [Item.down, Stage.down, hk, Exit.of], .inl hk, hi⟩
        | filter | «until» | untilEventual | takeRange | flatMap =>
          exact ⟨.stage { s with stream := true }, by simp [Item.down, Stage.down, hk, Exit.of],
            .inr rfl, hi⟩
    obtain ⟨i', hd, hi'⟩ := hdown
    exact ⟨i' :: is', by simp only [passDown, hd, hpass, resolve],
      List.forall_mem_cons.mpr ⟨hi', his'⟩⟩

theorem passDown_ended (his : ∀ i ∈ is, i.Idle) (conditions : ℕ → Bool) :
    ∃ is', passDown false conditions is (.ended : Event V E) = (is', .down .ended) := by
  induction is generalizing conditions with
  | nil => exact ⟨[], rfl⟩
  | cons i is ih =>
    obtain ⟨hi, his⟩ := List.forall_mem_cons.mp his
    obtain ⟨is', hpass⟩ := ih his (fun k => conditions (k + 1))
    have hdown : i.down false (conditions 0) (.ended : Event V E) = (i, .down .ended) := by
      cases i with
      | wait w =>
        have hw : w.waiter = false := hi
        simp [Item.down, Wait.down, hw]
      | stage s =>
        obtain ⟨-, ha, -⟩ := hi
        cases hk : s.kind <;> simp [Item.down, Stage.down, hk, ha, Exit.of]
    exact ⟨i :: is', by simp only [passDown, hdown, hpass, resolve]⟩

theorem passDown_final (hf : event.isFinal = true) (is : List (Item V)) (available : Bool)
    (conditions : ℕ → Bool) :
    ∃ is', passDown available conditions is event = (is', .down event) := by
  induction is generalizing conditions with
  | nil => exact ⟨[], rfl⟩
  | cons i is ih =>
    obtain ⟨is', hpass⟩ := ih (fun k => conditions (k + 1))
    have hdown : ∃ i', i.down available (conditions 0) event = (i', .down event) := by
      cases i with
      | wait w => cases event <;> simp_all [Item.down, Wait.down, Event.isFinal]
      | stage s =>
        cases event with
        | begin | body | ended => simp [Event.isFinal] at hf
        | fail error => exact ⟨.stage s, rfl⟩
        | stop => cases hk : s.kind <;> simp [Item.down, Stage.down, hk, Exit.of]
    obtain ⟨i', hd⟩ := hdown
    exact ⟨i' :: is', by simp only [passDown, hd, hpass, resolve]⟩

/-- A demand comes to the nearest open inner stream, or leaves. -/
theorem placed_passUp (his : ∀ i ∈ is, i.Past) (demand : Demand) :
    let p : List (Item V) × Exit V E := passUp is demand
    Placed p.1 p.2 ∧ (p.2.isUp = true ↔ ∀ i ∈ is, i.isOpen = false) := by
  induction is with
  | nil => exact ⟨fun _ hi => (List.not_mem_nil hi).elim, by simp [passUp, Exit.isUp]⟩
  | cons i is ih =>
    obtain ⟨hi, his⟩ := List.forall_mem_cons.mp his
    obtain ⟨hplaced, hup⟩ := ih his
    obtain ⟨hp, hq⟩ := placed_resolve hi hplaced
    refine ⟨hp, hq.trans ?_⟩
    rw [hup, List.forall_mem_cons, and_comm]

/-- What an item calls behind others that have been passed. -/
theorem placed_callAt {available : Bool} {f : Bool → Item V → Item V × Exit V E}
    (hpre : ∀ a ∈ pre, a.Past) (conditions : ℕ → Bool)
    (h : let p := callAt available f (fun k => conditions (pre.length + k)) 0 (i :: post)
      Placed p.1 p.2) :
    let p := callAt available f conditions pre.length (pre ++ i :: post)
    let q := callAt available f (fun k => conditions (pre.length + k)) 0 (i :: post)
    Placed p.1 p.2 ∧ (p.2.isUp = true ↔ q.2.isUp = true ∧ ∀ a ∈ pre, a.isOpen = false) := by
  induction pre generalizing conditions with
  | nil =>
    simp only [List.length_nil, Nat.zero_add] at h ⊢
    exact ⟨h, by simp⟩
  | cons a pre ih =>
    obtain ⟨ha, hpre⟩ := List.forall_mem_cons.mp hpre
    have hshift : (fun k => conditions ((a :: pre).length + k)) =
        fun k => conditions (pre.length + k + 1) := by
      funext k
      congr 1
      simp only [List.length_cons]
      omega
    rw [hshift] at h ⊢
    obtain ⟨hplaced, hup⟩ := ih hpre (fun k => conditions (k + 1)) h
    obtain ⟨hp, hq⟩ := placed_resolve ha hplaced
    refine ⟨hp, hq.trans ?_⟩
    rw [hup, List.forall_mem_cons]
    tauto

/-- A value that goes on from an item is turned back behind it, if no open inner stream keeps it. -/
theorem placed_call_body {i' : Item V} {available : Bool} {f : Bool → Item V → Item V × Exit V E}
    (ha : available = false) (conditions : ℕ → Bool)
    (hf : f (conditions 0) i = (i', .down (.body v))) (hi : i'.Past) (hpost : ∀ a ∈ post, a.Idle) :
    let p := callAt available f conditions 0 (i :: post)
    Placed p.1 p.2 ∧ (p.2.isUp = true ↔
      turnsBack (fun k => conditions (k + 1)) post v = true ∧ i'.isOpen = false) := by
  subst ha
  obtain ⟨hplaced, hup⟩ := placed_body (E := E) hpost (fun k => conditions (k + 1)) v
  simp only [callAt, hf]
  obtain ⟨hp, hq⟩ := placed_resolve hi hplaced
  exact ⟨hp, hq.trans (and_congr_left' hup)⟩

theorem placed_call_final {i' : Item V} {available : Bool} {f : Bool → Item V → Item V × Exit V E}
    (conditions : ℕ → Bool) (hf : f (conditions 0) i = (i', .down event))
    (he : event.isFinal = true) :
    let p := callAt available f conditions 0 (i :: post)
    Placed p.1 p.2 ∧ p.2.isUp = false := by
  obtain ⟨is', hpass⟩ := passDown_final he post available (fun k => conditions (k + 1))
  simp only [callAt, hf, hpass, resolve]
  refine ⟨fun hg => ?_, rfl⟩
  cases event <;> simp [Event.isFinal, goesOn] at he hg

theorem placed_call_up {i' : Item V} {available : Bool} {f : Bool → Item V → Item V × Exit V E}
    (conditions : ℕ → Bool) (hf : f (conditions 0) i = (i', .up demand)) (hi : i'.Idle)
    (hpost : ∀ a ∈ post, a.Idle) :
    let p := callAt available f conditions 0 (i :: post)
    Placed p.1 p.2 ∧ p.2.isUp = true := by
  simp only [callAt, hf]
  exact ⟨List.forall_mem_cons.mpr ⟨hi, hpost⟩, rfl⟩

theorem placed_call_spot {i' : Item V} {available : Bool} {f : Bool → Item V → Item V × Exit V E}
    (conditions : ℕ → Bool) (hf : f (conditions 0) i = (i', spot.exit 0)) (hi : Here spot i')
    (hpost : ∀ a ∈ post, a.Idle) :
    let p := callAt available f conditions 0 (i :: post)
    Placed p.1 p.2 ∧ p.2.isUp = false := by
  have hcall : callAt available f conditions 0 (i :: post) = (i' :: post, spot.exit 0) := by
    cases spot <;> simp only [callAt, hf, Spot.exit]
  rw [hcall]
  exact ⟨placed_spot.mpr (rests_zero hi hpost), isUp_spot⟩

end Items

end Eventuals.Synchronized
