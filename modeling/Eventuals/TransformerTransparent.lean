import Eventuals.Transformer

/-! Where a `Transformer` makes the calls of the combinators that it hides. Its combinators never
begin, so that none of them may turn to its stream, and none may be asked for more. -/
namespace Eventuals.Transformer

open Transition (Machine)

variable {V E : Type*}

/-- The value comes through the combinators, or up to what a callable returns for it. -/
def passes : List (Stage V) → V → Bool
  | [], _ => true
  | s :: ss, v =>
    match s.kind with
    | .map => true
    | .filter f => f v && passes ss v
    | .until f => !f v && passes ss v
    | .untilEventual _ => false
    | .takeRange begin amount => decide (begin ≤ s.i ∧ s.i < begin + amount) && passes ss v
    | .flatMap => !s.adapted

/-- The stage hands a demand on as it is. -/
def Stage.lets (s : Stage V) (demand : Demand) : Bool :=
  match s.kind, demand with
  | .takeRange begin amount, .next => decide (s.i < begin + amount)
  | .flatMap, _ => !s.adapted
  | _, _ => true

def Event.dispatched (catches : E → Bool) : Event V E → Bool
  | .body _ | .stop => true
  | .fail error => catches error
  | .begin | .ended => false

/-- No stage asserts that it has not been registered, or none has been yet. -/
def Inline.Registers (catches : E → Bool) (t : Inline V E) : Prop :=
  (∀ s ∈ t.stages, s.keeps = false) ∨ ∀ event ∈ t.received, event.dispatched catches = false

/-- The next call is one that the combinators have no part in, or that they pass on. -/
def Benign (catches : E → Bool) (t : Inline V E) : Label V E → Prop
  | .upstream (.body v) => t.Registers catches ∧ passes t.stages v = true
  | .upstream event => event.dispatched catches = true → t.Registers catches
  | .downstream demand => ∀ s ∈ t.stages, s.lets demand = true
  | .eventual (.value v) => passes (t.stages.drop (t.calls.turn.position + 1)) v = true
  | .eventual _ => True
  | .inner (.body v) => passes (t.stages.drop (t.calls.turn.position + 1)) v = true
  | .inner .ended => False
  | .inner _ => True

/-- A stage that is composed in place of the transformer, and the one in the transformer. -/
structure Twin (registered begun : Bool) (s u : Stage V) : Prop where
  kind : u.kind = s.kind
  unbegun : u.stream = false
  begun : begun = true → s.kind = .map ∨ s.stream = true
  interrupt : u.interrupt = (registered && s.keeps)
  i : u.i = s.i
  adapted : u.adapted = s.adapted
  inner : u.inner = s.inner
  outer : s.adapted = false → s.inner = false
  flat : s.kind = .flatMap ∨ s.adapted = false

/-- Where a call of a stage may have come to if no check failed and no stream was called. -/
def Lands (p : List (Stage V) × Exit V E) : Prop :=
  match p.2 with
  | .down _ => True
  | .eventual j => ∃ s, p.1[j]? = some s ∧ s.kind = .map
  | .inner j begun => ∃ s, p.1[j]? = some s ∧ s.kind = .flatMap ∧ s.adapted = true ∧ s.inner = begun
  | .up _ | .failed _ => False

structure Matches (registered begun : Bool) (p q : List (Stage V) × Exit V E) : Prop where
  stages : List.Forall₂ (Twin registered begun) p.1 q.1
  exit : q.2 = p.2
  lands : Lands p

section Stages

variable {r b : Bool} {s u : Stage V} {ss us : List (Stage V)} {p q : List (Stage V) × Exit V E}
  {v : V} {event : Event V E} {demand : Demand}

theorem resolve_matches (hs : Twin r b s u) (h : Matches r b p q) :
    Matches r b (resolve s p) (resolve u q) := by
  obtain ⟨hst, he, hl⟩ := h
  obtain ⟨ss, exit⟩ := p
  obtain ⟨us, exit'⟩ := q
  cases he
  cases exit with
  | down event => exact ⟨.cons hs hst, rfl, trivial⟩
  | up demand => exact hl.elim
  | eventual j => exact ⟨.cons hs hst, rfl, hl⟩
  | inner j begun => exact ⟨.cons hs hst, rfl, hl⟩
  | failed c => exact hl.elim

theorem passDown_eq {s' : Stage V} {event' : Event V E} (h : s.down event = (s', .down event')) :
    passDown (s :: ss) event = resolve s' (passDown ss event') := by
  simp only [passDown, h]

section Passing

variable {f : V → Bool} {begin amount : ℕ}

theorem down_filter (hk : s.kind = .filter f) (hf : f v = true) :
    s.down (.body v : Event V E) = (s, .down (.body v)) := by
  simp [Stage.down, Stage.body, hk, hf]

theorem down_until (hk : s.kind = .until f) (hf : f v = false) :
    s.down (.body v : Event V E) = (s, .down (.body v)) := by
  simp [Stage.down, Stage.body, hk, hf]

theorem down_takeRange (hk : s.kind = .takeRange begin amount)
    (hi : begin ≤ s.i ∧ s.i < begin + amount) :
    s.down (.body v : Event V E) = ({ s with i := s.i + 1 }, .down (.body v)) := by
  simp [Stage.down, Stage.body, hk, hi]

end Passing

/-- A value passes both in the same way. -/
theorem passDown_body (h : List.Forall₂ (Twin r b) ss us) (hp : passes ss v = true) :
    Matches r b (passDown ss (.body v : Event V E)) (passDown us (.body v)) := by
  induction h with
  | nil => exact ⟨.nil, rfl, trivial⟩
  | @cons s u ss us hs h ih =>
    cases hk : s.kind with
    | map =>
      have hu : u.kind = .map := hs.kind.trans hk
      simp only [passDown, Stage.down, Stage.body, hk, hu]
      exact ⟨.cons hs h, rfl, s, rfl, hk⟩
    | filter f =>
      obtain ⟨hf, hp⟩ : f v = true ∧ passes ss v = true := by simpa [passes, hk] using hp
      have hu : u.kind = .filter f := hs.kind.trans hk
      rw [passDown_eq (down_filter hk hf), passDown_eq (down_filter hu hf)]
      exact resolve_matches hs (ih hp)
    | «until» f =>
      obtain ⟨hf, hp⟩ : f v = false ∧ passes ss v = true := by simpa [passes, hk] using hp
      have hu : u.kind = .until f := hs.kind.trans hk
      rw [passDown_eq (down_until hk hf), passDown_eq (down_until hu hf)]
      exact resolve_matches hs (ih hp)
    | untilEventual done => simp [passes, hk] at hp
    | takeRange begin amount =>
      obtain ⟨hi, hp⟩ : (begin ≤ s.i ∧ s.i < begin + amount) ∧ passes ss v = true := by
        simpa [passes, hk] using hp
      have hu : u.kind = .takeRange begin amount := hs.kind.trans hk
      have hui : begin ≤ u.i ∧ u.i < begin + amount := hs.i ▸ hi
      have hs' : Twin r b { s with i := s.i + 1 } { u with i := u.i + 1 } :=
        { hs with i := congrArg (· + 1) hs.i }
      rw [passDown_eq (down_takeRange hk hi), passDown_eq (down_takeRange hu hui)]
      exact resolve_matches hs' (ih hp)
    | flatMap =>
      have ha : s.adapted = false := by simpa [passes, hk] using hp
      have hua : u.adapted = false := hs.adapted.trans ha
      have hu : u.kind = .flatMap := hs.kind.trans hk
      have hs' : Twin r b { s with adapted := true } { u with adapted := true } :=
        { hs with adapted := rfl, outer := fun h => by simp at h, flat := .inl hk }
      have hss : passDown (s :: ss) (.body v : Event V E) =
          ({ s with adapted := true } :: ss, .inner 0 false) := by
        simp [passDown, Stage.down, Stage.body, hk, ha]
      have hus : passDown (u :: us) (.body v : Event V E) =
          ({ u with adapted := true } :: us, .inner 0 false) := by
        simp [passDown, Stage.down, Stage.body, hu, hua]
      rw [hss, hus]
      exact ⟨.cons hs' h, rfl, _, rfl, hk, rfl, hs.outer ha⟩

theorem failed_resolve {c : Check} (h : p.2 = .failed c) : (resolve s p).2 = .failed c := by
  simp [resolve, h]

/-- A combinator that does not pass a value turns to a stream that it does not have. -/
theorem passDown_body_failed (h : List.Forall₂ (Twin r b) ss us) (hp : passes ss v = false) :
    ∃ c, (passDown us (.body v : Event V E)).2 = .failed c := by
  induction h with
  | nil => simp [passes] at hp
  | @cons s u ss us hs h ih =>
    have hstream := hs.unbegun
    cases hk : s.kind with
    | map => simp [passes, hk] at hp
    | filter f =>
      have hu : u.kind = .filter f := hs.kind.trans hk
      cases hf : f v with
      | false =>
        refine ⟨.stream, ?_⟩
        simp [passDown, Stage.down, Stage.body, hu, hf, Stage.call, hstream]
      | true =>
        obtain ⟨c, hc⟩ := ih (by simpa [passes, hk, hf] using hp)
        exact ⟨c, by rw [passDown_eq (down_filter hu hf)]; exact failed_resolve hc⟩
    | «until» f =>
      have hu : u.kind = .until f := hs.kind.trans hk
      cases hf : f v with
      | true =>
        refine ⟨.stream, ?_⟩
        simp [passDown, Stage.down, Stage.body, hu, hf, Stage.call, hstream]
      | false =>
        obtain ⟨c, hc⟩ := ih (by simpa [passes, hk, hf] using hp)
        exact ⟨c, by rw [passDown_eq (down_until hu hf)]; exact failed_resolve hc⟩
    | untilEventual done =>
      have hu : u.kind = .untilEventual done := hs.kind.trans hk
      exact ⟨.stream, by simp [passDown, Stage.down, Stage.body, hu, hstream]⟩
    | takeRange begin amount =>
      have hu : u.kind = .takeRange begin amount := hs.kind.trans hk
      by_cases hi : begin ≤ s.i ∧ s.i < begin + amount
      · have hui : begin ≤ u.i ∧ u.i < begin + amount := hs.i ▸ hi
        obtain ⟨c, hc⟩ := ih (by simpa [passes, hk, hi] using hp)
        exact ⟨c, by rw [passDown_eq (down_takeRange hu hui)]; exact failed_resolve hc⟩
      · have hui : ¬ (begin ≤ u.i ∧ u.i < begin + amount) := hs.i ▸ hi
        simp only [passDown, Stage.down, Stage.body, hu, if_neg hui, Stage.call, hstream,
          Bool.false_eq_true, if_false]
        split_ifs <;> exact ⟨_, rfl⟩
    | flatMap =>
      have hu : u.kind = .flatMap := hs.kind.trans hk
      have ha : s.adapted = true := by simpa [passes, hk] using hp
      exact ⟨.adapted, by simp [passDown, Stage.down, Stage.body, hu, hs.adapted, ha]⟩

/-- An event that every stage passes on. -/
theorem passDown_through {g : Stage V → Stage V}
    (h : ∀ s ∈ ss, s.down event = (g s, .down event)) :
    passDown ss event = (ss.map g, .down event) := by
  induction ss with
  | nil => rfl
  | cons s ss ih =>
    rw [passDown_eq (h s List.mem_cons_self), ih fun s hs => h s (List.mem_cons_of_mem _ hs)]
    rfl

def Stage.begun (s : Stage V) : Stage V :=
  match s.kind with
  | .map => s
  | _ => { s with stream := true }

def Stage.stopped (s : Stage V) : Stage V :=
  match s.kind with
  | .flatMap => { s with done := true }
  | _ => s

theorem down_begin (s : Stage V) : s.down (.begin : Event V E) = (s.begun, .down .begin) := by
  cases hk : s.kind <;> simp [Stage.down, Stage.begun, hk]

theorem down_stop (s : Stage V) : s.down (.stop : Event V E) = (s.stopped, .down .stop) := by
  cases hk : s.kind <;> simp [Stage.down, Stage.stopped, hk]

theorem down_ended (h : s.adapted = false) : s.down (.ended : Event V E) = (s, .down .ended) := by
  simp only [Stage.down, h, Bool.false_eq_true, if_false]
  split <;> rfl

theorem passDown_fail (ss : List (Stage V)) (error : E) :
    passDown ss (.fail error) = (ss, .down (.fail error)) := by
  have h : passDown ss (.fail error) = (ss.map id, .down (.fail error)) :=
    passDown_through fun _ _ => rfl
  rwa [List.map_id] at h

theorem passDown_ended (h : ∀ s ∈ ss, s.adapted = false) :
    passDown ss (.ended : Event V E) = (ss, .down .ended) := by
  have hx : passDown ss (.ended : Event V E) = (ss.map id, .down .ended) :=
    passDown_through fun s hs => down_ended (h s hs)
  rwa [List.map_id] at hx

theorem Twin.weaken {b' : Bool} (h : Twin r b s u) (hb : b' = true → b = true) :
    Twin r b' s u :=
  { h with begun := fun hx => h.begun (hb hx) }

theorem Twin.stopped (h : Twin r b s u) : Twin r b s.stopped u := by
  unfold Stage.stopped
  split
  · exact { h with }
  · exact h

theorem Twin.stopped_right (h : Twin r b s u) : Twin r b s u.stopped := by
  unfold Stage.stopped
  split
  · exact { h with }
  · exact h

theorem Twin.begin (h : Twin r b s u) : Twin r true s.begun u := by
  unfold Stage.begun
  split
  · next hk => exact { h with begun := fun _ => .inl hk }
  · exact { h with begun := fun _ => .inr rfl }

theorem up_lets (h : Twin r true s u) (hl : s.lets demand = true) :
    ∃ s', s.up demand = (s', .up demand) ∧ Twin r true s' u := by
  have hstream := h.begun rfl
  cases hk : s.kind with
  | map | filter f | «until» f | untilEventual f =>
    exact ⟨s, by cases demand <;> simp [Stage.up, hk], h⟩
  | takeRange begin amount =>
    have hs : s.stream = true := by simpa [hk] using hstream
    cases demand with
    | next =>
      have hi : s.i < begin + amount := by simpa [Stage.lets, hk] using hl
      exact ⟨s, by simp [Stage.up, hk, hi, Stage.reply, hs], h⟩
    | done => exact ⟨s, by simp [Stage.up, hk, Stage.reply, hs], h⟩
  | flatMap =>
    have hs : s.stream = true := by simpa [hk] using hstream
    have ha : s.adapted = false := by simpa [Stage.lets, hk] using hl
    cases demand with
    | next => exact ⟨s, by simp [Stage.up, hk, ha, Stage.reply, hs], h⟩
    | done =>
      exact ⟨{ s with done := true }, by simp [Stage.up, hk, ha, Stage.reply, hs], { h with }⟩

theorem adapted_iff (h : List.Forall₂ (Twin r b) ss us) :
    (∀ s ∈ ss, s.adapted = false) ↔ ∀ u ∈ us, u.adapted = false := by
  induction h with
  | nil => simp
  | cons hs _ ih => simp [hs.adapted, ih]

theorem adapted_of_lets (h : List.Forall₂ (Twin r b) ss us)
    (hl : ∀ s ∈ ss, s.lets demand = true) : ∀ s ∈ ss, s.adapted = false := by
  induction h with
  | nil => simp
  | @cons s u ss us hs h ih =>
    have hfirst : s.adapted = false := by
      rcases hs.flat with hk | ha
      · simpa [Stage.lets, hk] using hl s List.mem_cons_self
      · exact ha
    simpa [hfirst] using ih fun s hs => hl s (List.mem_cons_of_mem _ hs)

/-- A demand goes up to upstream as it is where every stage lets it. -/
theorem passUp_lets (h : List.Forall₂ (Twin r true) ss us) (hl : ∀ s ∈ ss, s.lets demand = true) :
    (passUp ss demand : List (Stage V) × Exit V E).2 = .up demand ∧
      List.Forall₂ (Twin r true) (passUp ss demand : List (Stage V) × Exit V E).1 us := by
  induction h with
  | nil => exact ⟨rfl, .nil⟩
  | @cons s u ss us hs h ih =>
    obtain ⟨hexit, hrest⟩ := ih fun s' hs' => hl s' (List.mem_cons_of_mem _ hs')
    obtain ⟨s', hup, hs'⟩ := up_lets hs (hl s List.mem_cons_self)
    have hp : (passUp (s :: ss) demand : List (Stage V) × Exit V E) =
        (s' :: (passUp ss demand : List (Stage V) × Exit V E).1, .up demand) := by
      simp only [passUp, resolve, hexit, hup]
    rw [hp]
    exact ⟨rfl, .cons hs' hrest⟩

theorem reply_up {asked : Demand} (h : s.reply demand = .up asked) : asked = demand := by
  unfold Stage.reply at h
  split_ifs at h
  simpa using h.symm

/-- What a stage asks for when it is asked. -/
theorem up_of_up {s' : Stage V} {asked : Demand} (h : s.up demand = (s', .up asked)) :
    (demand = .done → asked = .done) ∧ (asked = demand → s.lets demand = true) := by
  have hr : (s.up demand).2 = .up asked := congrArg Prod.snd h
  cases hk : s.kind with
  | map | filter f | «until» f | untilEventual f =>
    cases demand <;> simp_all [Stage.up, Stage.lets]
  | takeRange begin amount =>
    cases demand with
    | done =>
      have ha : asked = .done := reply_up (by simpa [Stage.up, hk] using hr)
      simp [ha, Stage.lets, hk]
    | next =>
      refine ⟨fun hd => by simp at hd, ?_⟩
      rintro rfl
      by_cases hi : s.i < begin + amount
      · simp [Stage.lets, hk, hi]
      · exfalso
        simp only [Stage.up, hk, if_neg hi] at hr
        split_ifs at hr
        have hd := reply_up hr
        simp at hd
  | flatMap =>
    cases ha : s.adapted with
    | false =>
      refine ⟨?_, fun _ => by simp [Stage.lets, hk, ha]⟩
      rintro rfl
      exact reply_up (by simpa [Stage.up, hk, ha] using hr)
    | true =>
      exfalso
      cases demand <;> simp only [Stage.up, hk, ha, if_true] at hr <;> split_ifs at hr

/-- A demand that comes up to upstream as it is was let by every stage. -/
theorem lets_of_passUp {asked : Demand}
    (h : (passUp ss demand : List (Stage V) × Exit V E).2 = .up asked) :
    (demand = .done → asked = .done) ∧ (asked = demand → ∀ s ∈ ss, s.lets demand = true) := by
  induction ss generalizing asked with
  | nil =>
    cases h
    exact ⟨id, fun _ s hs => by simp at hs⟩
  | cons s ss ih =>
    -- The stages after `s` have asked for something, and `s` for `asked` then.
    obtain ⟨middle, s', hm, hs⟩ : ∃ middle s', (passUp ss demand : List (Stage V) × Exit V E).2 =
        .up middle ∧ s.up middle = (s', .up asked) := by
      simp only [passUp, resolve] at h
      split at h <;> try simp at h
      next middle hm =>
        refine ⟨middle, ?_⟩
        split at h <;> simp at h
        next s' asked' hs => exact ⟨s', hm, h ▸ hs⟩
    obtain ⟨hdone, hlets⟩ := ih hm
    obtain ⟨hdone', hlets'⟩ := up_of_up hs
    refine ⟨fun hd => hdone' (hdone hd), ?_⟩
    rintro rfl
    have hmid : middle = asked := by
      cases middle with
      | next =>
        cases asked with
        | next => rfl
        | done => exact hdone rfl
      | done => exact (hdone' rfl).symm
    subst hmid
    intro s'' hs''
    rcases List.mem_cons.mp hs'' with rfl | hs''
    · exact hlets' rfl
    · exact hlets rfl s'' hs''

section Positions

variable {f : Stage V → Stage V × Exit V E} {j : ℕ}

/-- A call of the stage at `j` is one of the first stage of those from `j` on. -/
theorem callAt_matches (h : List.Forall₂ (Twin r b) ss us) (hj : ss[j]? = some s)
    (hf : ∀ u us', Twin r b s u → List.Forall₂ (Twin r b) (ss.drop (j + 1)) us' →
      Matches r b (callAt f 0 (s :: ss.drop (j + 1))) (callAt f 0 (u :: us'))) :
    Matches r b (callAt f j ss) (callAt f j us) := by
  induction h generalizing j with
  | nil => simp at hj
  | @cons s₀ u ss us hs h ih =>
    cases j with
    | zero =>
      obtain rfl : s₀ = s := by simpa using hj
      exact hf u us hs h
    | succ j => exact resolve_matches hs (ih (by simpa using hj) hf)

theorem callAt_failed (h : List.Forall₂ (Twin r b) ss us) (hj : ss[j]? = some s)
    (hf : ∀ u us', Twin r b s u → List.Forall₂ (Twin r b) (ss.drop (j + 1)) us' →
      ∃ c, (callAt f 0 (u :: us')).2 = .failed c) :
    ∃ c, (callAt f j us).2 = .failed c := by
  induction h generalizing j with
  | nil => simp at hj
  | @cons s₀ u ss us hs h ih =>
    cases j with
    | zero =>
      obtain rfl : s₀ = s := by simpa using hj
      exact hf u us hs h
    | succ j =>
      obtain ⟨c, hc⟩ := ih (by simpa using hj) hf
      exact ⟨c, failed_resolve hc⟩

theorem callAt_zero {s' : Stage V} (hs : f s = (s', .down event)) :
    callAt f 0 (s :: ss) = resolve s' (passDown ss event) := by
  simp only [callAt, hs]

/-- The stage hands an event on. -/
theorem callAt_down (h : List.Forall₂ (Twin r b) ss us) (hj : ss[j]? = some s)
    (hf : ∀ u, Twin r b s u → ∃ s' u', f s = (s', .down event) ∧ f u = (u', .down event) ∧
      Twin r b s' u')
    (hd : ∀ us', List.Forall₂ (Twin r b) (ss.drop (j + 1)) us' →
      Matches r b (passDown (ss.drop (j + 1)) event) (passDown us' event)) :
    Matches r b (callAt f j ss) (callAt f j us) := by
  refine callAt_matches h hj fun u us' hu hus => ?_
  obtain ⟨s', u', hs', hu', ht⟩ := hf u hu
  rw [callAt_zero hs', callAt_zero hu']
  exact resolve_matches ht (hd us' hus)

end Positions

theorem passDown_final_matches (h : List.Forall₂ (Twin r b) ss us) (hf : event.isFinal = true) :
    Matches r b (passDown ss event) (passDown us event) := by
  cases event with
  | fail error =>
    rw [passDown_fail, passDown_fail]
    exact ⟨h, rfl, trivial⟩
  | stop =>
    rw [passDown_through fun s _ => down_stop s, passDown_through fun s _ => down_stop s]
    refine ⟨?_, rfl, trivial⟩
    simp only [List.forall₂_map_left_iff, List.forall₂_map_right_iff]
    exact h.imp fun s u hs => hs.stopped.stopped_right
  | begin | ended | body v => simp [Event.isFinal] at hf

section Register

theorem register_twin (h : Twin false b s u) :
    ∃ u', u.register = some u' ∧ Twin true b s u' := by
  have hk : u.keeps = s.keeps := by simp [Stage.keeps, h.kind]
  have hi := h.interrupt
  unfold Stage.register
  cases hs : s.keeps with
  | true => exact ⟨{ u with interrupt := true }, by simp_all, { h with interrupt := by simp [hs] }⟩
  | false => exact ⟨u, by simp_all, { h with interrupt := by simp_all }⟩

theorem mapM_register (h : List.Forall₂ (Twin false b) ss us) :
    ∃ us', us.mapM Stage.register = some us' ∧ List.Forall₂ (Twin true b) ss us' := by
  induction h with
  | nil => exact ⟨[], rfl, .nil⟩
  | @cons s u ss us hs h ih =>
    obtain ⟨u', hu, hu'⟩ := register_twin hs
    obtain ⟨us', hus, hus'⟩ := ih
    exact ⟨u' :: us', by simp [hu, hus], .cons hu' hus'⟩

theorem mapM_register_again (h : List.Forall₂ (Twin true b) ss us)
    (hk : ∀ s ∈ ss, s.keeps = false) : us.mapM Stage.register = some us := by
  induction h with
  | nil => rfl
  | @cons s u ss us hs h ih =>
    have hu : u.keeps = false := by
      have hs' := hk s List.mem_cons_self
      simpa [Stage.keeps, hs.kind] using hs'
    have hrest := ih fun s hs => hk s (List.mem_cons_of_mem _ hs)
    simp [Stage.register, hu, hrest]

theorem mapM_register_fails (h : List.Forall₂ (Twin true b) ss us) (hs : s ∈ ss)
    (hk : s.keeps = true) : us.mapM Stage.register = none := by
  induction h with
  | nil => simp at hs
  | @cons s₀ u ss us hs₀ h ih =>
    rcases List.mem_cons.mp hs with rfl | hs
    · have hu : u.keeps = true := by simpa [Stage.keeps, hs₀.kind] using hk
      have hi : u.interrupt = true := by simp [hs₀.interrupt, hk]
      simp [Stage.register, hu, hi]
    · have hrest := ih hs
      cases hu : u.register <;> simp [hu, hrest]

end Register

end Stages

/-- The continuation and upstream have received the same calls, and no check has failed. -/
def Same (s : State V E) (t : Inline V E) : Prop :=
  s.calls.down = t.calls.down ∧ s.calls.up = t.calls.up ∧ s.calls.failed = []

/-- Where the call under way is. -/
def Inline.Placed (t : Inline V E) : Prop :=
  match t.calls.turn with
  | .begin | .upstream => ∀ s ∈ t.stages, s.adapted = false
  | .downstream | .over => True
  | .eventual j => ∃ s, t.stages[j]? = some s ∧ s.kind = .map
  | .inner j begun =>
    ∃ s, t.stages[j]? = some s ∧ s.kind = .flatMap ∧ s.adapted = true ∧ s.inner = begun

/-- The stages have begun, and may be called again. -/
def Turn.begun : Turn → Bool
  | .begin | .over => false
  | _ => true

/-- A call of `e_` or of what it has called is under way. -/
def Turn.inside : Turn → Bool
  | .eventual _ | .inner .. => true
  | _ => false

/-- The combinators, and those of the transformer, which it makes when it first needs them. -/
structure Paired (kinds : List (Kind V)) (catches : E → Bool) (s : State V E) (t : Inline V E) :
    Prop where
  calls : s.calls = t.calls
  failed : t.calls.failed = []
  stages : List.Forall₂ (Twin s.e.isSome t.calls.turn.begun) t.stages
    (s.e.getD (kinds.map Kind.stage))
  dispatched : s.e.isSome = t.received.any (Event.dispatched catches)
  inside : t.calls.turn.inside = true → s.e.isSome = true
  placed : t.Placed

section Steps

variable {kinds : List (Kind V)} {catches : E → Bool} {s : State V E} {t : Inline V E}
  {l : Label V E} {event : Event V E} {result : Result V E} {p q : List (Stage V) × Exit V E}
  {v : V}

theorem Paired.same (h : Paired kinds catches s t) : Same s t :=
  ⟨congrArg Calls.down h.calls, congrArg Calls.up h.calls,
    (congrArg Calls.failed h.calls).trans h.failed⟩

theorem paired_init : Paired kinds catches (.init V E) (.init E kinds) := by
  have hstage (kind : Kind V) :
      Twin false false { kind.stage with interrupt := kind.stage.keeps } kind.stage :=
    ⟨rfl, rfl, fun h => by simp at h, rfl, rfl, rfl, rfl, fun _ => rfl, .inr rfl⟩
  refine ⟨rfl, rfl, ?_, rfl, fun h => by simp [Inline.init, Calls.init, Turn.inside] at h, ?_⟩
  · simp only [Inline.init, State.init, Option.getD_none, List.forall₂_map_left_iff,
      List.forall₂_map_right_iff]
    exact List.forall₂_same.mpr fun kind _ => hstage kind
  · intro s hs
    obtain ⟨kind, -, rfl⟩ := List.mem_map.mp hs
    rfl

/-- Both have called the combinators in the same way. -/
theorem paired_exit {b : Bool} {received : List (Event V E)} (h : Paired kinds catches s t)
    (hm : Matches true b p q) (hb : (t.calls.exit p.2).turn.begun = true → b = true)
    (hd : received.any (Event.dispatched catches) = true) :
    Paired kinds catches ⟨some q.1, s.calls.exit q.2⟩ ⟨p.1, t.calls.exit p.2, received⟩ := by
  obtain ⟨hst, he, hl⟩ := hm
  have hcalls : s.calls.exit q.2 = t.calls.exit p.2 := by rw [h.calls, he]
  refine ⟨hcalls, ?_, hst.imp fun s u hs => hs.weaken hb, hd.symm, fun _ => rfl, ?_⟩
  · cases hx : p.2 with
    | failed c => simp [Lands, hx] at hl
    | _ => exact h.failed
  · unfold Lands at hl
    cases hx : p.2 with
    | failed c | up demand => simp [hx] at hl
    | down event => cases event <;> simp [Inline.Placed, Calls.exit, Event.turn]
    | eventual j | inner j begun => simpa [Inline.Placed, Calls.exit, hx] using hl

/-- An event that goes around the transformer, and that each stage passes on. -/
theorem paired_around {b : Bool} {ss : List (Stage V)} {received : List (Event V E)}
    (h : Paired kinds catches s t)
    (hs : List.Forall₂ (Twin s.e.isSome b) ss (s.e.getD (kinds.map Kind.stage)))
    (hb : event.turn.begun = true → b = true)
    (hd : received.any (Event.dispatched catches) = t.received.any (Event.dispatched catches)) :
    Paired kinds catches { s with calls := s.calls.exit (.down event) }
      ⟨ss, t.calls.exit (.down event), received⟩ where
  calls := congrArg (Calls.exit · (.down event)) h.calls
  failed := h.failed
  stages := hs.imp fun s u hs => hs.weaken hb
  dispatched := h.dispatched.trans hd.symm
  inside hi := by cases event <;> simp [Calls.exit, Event.turn, Turn.inside] at hi
  placed := by cases event <;> simp [Inline.Placed, Calls.exit, Event.turn]

/-- Registering once more does no harm. -/
theorem mapM_register_registers (h : Paired kinds catches s t) (hr : t.Registers catches) :
    ∃ us, (s.e.getD (kinds.map Kind.stage)).mapM Stage.register = some us ∧
      List.Forall₂ (Twin true t.calls.turn.begun) t.stages us := by
  have hst := h.stages
  cases he : s.e with
  | none =>
    simp only [he, Option.isSome_none] at hst
    exact mapM_register hst
  | some us =>
    simp only [he, Option.isSome_some, Option.getD_some] at hst
    rcases hr with hk | hd
    · exact ⟨us, mapM_register_again hst hk, hst⟩
    · have hany : t.received.any (Event.dispatched catches) = false := by simpa using hd
      have hdisp := h.dispatched
      simp [he, hany] at hdisp

theorem passDown_final {ss : List (Stage V)} (hf : event.isFinal = true) :
    (passDown ss event).2 = .down event := by
  cases event with
  | fail error => rw [passDown_fail]
  | stop => rw [passDown_through fun s _ => down_stop s]
  | begin | ended | body v => simp [Event.isFinal] at hf

theorem begun_final {c : Calls V E} {x : Exit V E} (hx : x = .down event)
    (hf : event.isFinal = true) : (c.exit x).turn.begun = false := by
  subst hx
  cases event <;> simp_all [Event.isFinal, Calls.exit, Event.turn, Turn.begun]

theorem paired_dispatch (h : Paired kinds catches s t) (hr : t.Registers catches)
    (hd : event.dispatched catches = true) (ha : t.calls.turn.allows (.upstream event : Label V E))
    (hp : ∀ v, event = .body v → passes t.stages v = true) :
    Paired kinds catches (s.dispatch kinds event) (t.next (.upstream event)) := by
  obtain ⟨us, hus, hst⟩ := mapM_register_registers h hr
  simp only [State.dispatch, hus]
  have hany : (t.received ++ [event]).any (Event.dispatched catches) = true := by simp [hd]
  cases event with
  | body v =>
    have hturn : t.calls.turn.begun = true := by
      cases ht : t.calls.turn <;> simp_all [Turn.allows, Turn.begun, Event.isBegin, Event.isFinal]
    exact paired_exit h (passDown_body hst (hp v rfl)) (fun _ => hturn) hany
  | fail error =>
    have hx : (passDown t.stages (.fail error : Event V E)).2 = .down (.fail error) :=
      passDown_final rfl
    have hn := begun_final (c := t.calls) hx rfl
    refine paired_exit h (passDown_final_matches hst rfl) (fun hb => ?_) hany
    exact absurd (hb.symm.trans hn) (by simp)
  | stop =>
    have hx : (passDown t.stages (.stop : Event V E)).2 = .down .stop := passDown_final rfl
    have hn := begun_final (c := t.calls) hx rfl
    refine paired_exit h (passDown_final_matches hst rfl) (fun hb => ?_) hany
    exact absurd (hb.symm.trans hn) (by simp)
  | begin | ended => simp [Event.dispatched] at hd

theorem paired_upstream (h : Paired kinds catches s t) (hb : Benign catches t (.upstream event))
    (ha : t.calls.turn.allows (.upstream event : Label V E)) :
    Paired kinds catches (s.next kinds catches (.upstream event)) (t.next (.upstream event)) := by
  cases event with
  | begin =>
    have hp : passDown t.stages (.begin : Event V E) = (t.stages.map Stage.begun, .down .begin) :=
      passDown_through fun s _ => down_begin s
    have hst : List.Forall₂ (Twin s.e.isSome true) (t.stages.map Stage.begun)
        (s.e.getD (kinds.map Kind.stage)) := by
      rw [List.forall₂_map_left_iff]
      exact h.stages.imp fun s u hs => hs.begin
    simp only [State.next, State.upstream, Inline.next, called, hp]
    exact paired_around h hst (fun _ => rfl) (by simp [Event.dispatched])
  | ended =>
    have hadapted : ∀ s ∈ t.stages, s.adapted = false := by
      have hplaced := h.placed
      cases ht : t.calls.turn <;>
        simp_all [Inline.Placed, Turn.allows, Event.isBegin, Event.isFinal]
    simp only [State.next, State.upstream, Inline.next, called, passDown_ended hadapted]
    exact paired_around h h.stages (fun hb => by simp [Event.turn, Turn.begun] at hb)
      (by simp [Event.dispatched])
  | fail error =>
    by_cases hc : catches error = true
    · have hd : (Event.fail error : Event V E).dispatched catches = true := hc
      have hx := paired_dispatch h (hb hd) hd ha fun v hv => by simp at hv
      simpa only [State.next, State.upstream, if_pos hc] using hx
    · simp only [State.next, State.upstream, if_neg hc, Inline.next, called, passDown_fail]
      exact paired_around h h.stages (fun hb => by simp [Event.turn, Turn.begun] at hb)
        (by simp [Event.dispatched, hc])
  | body v => exact paired_dispatch h hb.1 rfl ha (fun v' hv => by cases hv; exact hb.2)
  | stop => exact paired_dispatch h (hb rfl) rfl ha (fun v hv => by simp at hv)

theorem paired_downstream {demand : Demand} (h : Paired kinds catches s t)
    (hb : Benign catches t (.downstream demand))
    (ha : t.calls.turn.allows (.downstream demand : Label V E)) :
    Paired kinds catches (s.next kinds catches (.downstream demand))
      (t.next (.downstream demand)) := by
  have hturn : t.calls.turn.begun = true := by
    cases ht : t.calls.turn <;> simp_all [Turn.allows, Turn.begun]
  have hst := h.stages
  rw [hturn] at hst
  obtain ⟨hexit, hst'⟩ := passUp_lets (E := E) hst hb
  have hadapted := adapted_of_lets hst hb
  refine ⟨?_, ?_, ?_, h.dispatched, ?_, ?_⟩
  · simp only [State.next, Inline.next, called, hexit, h.calls]
  · simpa only [Inline.next, called, hexit, Calls.exit] using h.failed
  · simpa only [State.next, Inline.next, called, hexit, Calls.exit, Turn.begun] using hst'
  · simp [Inline.next, called, hexit, Calls.exit, Turn.inside]
  · have hplaced : ∀ s ∈ (passUp t.stages demand : List (Stage V) × Exit V E).1,
        s.adapted = false :=
      (adapted_iff hst').mpr ((adapted_iff hst).mp hadapted)
    simpa only [Inline.Placed, Inline.next, called, hexit, Calls.exit] using hplaced

/-- Once the transformer is inside, the stages that it has built stand beside those inline. -/
theorem Paired.exists_stages (h : Paired kinds catches s t) (hi : t.calls.turn.inside = true) :
    ∃ us, s.e = some us ∧ List.Forall₂ (Twin true true) t.stages us := by
  obtain ⟨us, he⟩ := Option.isSome_iff_exists.mp (h.inside hi)
  have hturn : t.calls.turn.begun = true := by
    cases ht : t.calls.turn <;> simp_all [Turn.inside, Turn.begun]
  have hst := h.stages
  simp only [he, Option.isSome_some, Option.getD_some, hturn] at hst
  exact ⟨us, he, hst⟩

/-- The calls of what the transformer has called. -/
theorem paired_inside (h : Paired kinds catches s t) (hi : t.calls.turn.inside = true)
    (hl : (∃ result, l = .eventual result) ∨ ∃ event, l = .inner event)
    (hm : ∀ us, List.Forall₂ (Twin true true) t.stages us →
      Matches true true (called t.calls.turn.position t.stages l)
        (called t.calls.turn.position us l)) :
    Paired kinds catches (s.next kinds catches l) (t.next l) := by
  obtain ⟨us, he, hst⟩ := h.exists_stages hi
  have hd : t.received.any (Event.dispatched catches) = true := by
    have hd := h.dispatched
    rwa [he, Option.isSome_some, eq_comm] at hd
  have hx := paired_exit h (hm us hst) (fun _ => rfl) hd
  rcases hl with ⟨result, rfl⟩ | ⟨event, rfl⟩
  · simpa only [State.next, Inline.next, he, Option.getD_some, h.calls] using hx
  · simpa only [State.next, Inline.next, he, Option.getD_some, h.calls] using hx

/-- The eventual that makes a call is that of a `Map`. -/
theorem Paired.eventual_at (h : Paired kinds catches s t)
    (ha : t.calls.turn.allows (.eventual result : Label V E)) :
    ∃ j s₀, t.calls.turn = .eventual j ∧ t.stages[j]? = some s₀ ∧ s₀.kind = .map := by
  obtain ⟨j, ht⟩ : ∃ j, t.calls.turn = .eventual j := by
    cases ht : t.calls.turn <;> simp_all [Turn.allows]
  obtain ⟨s₀, hj, hk⟩ : ∃ s, t.stages[j]? = some s ∧ s.kind = .map := by
    simpa only [Inline.Placed, ht] using h.placed
  exact ⟨j, s₀, ht, hj, hk⟩

/-- The stream that makes a call is the inner one of a `FlatMap`. -/
theorem Paired.inner_at (h : Paired kinds catches s t)
    (ha : t.calls.turn.allows (.inner event : Label V E)) :
    ∃ j begun s₀, t.calls.turn = .inner j begun ∧ t.stages[j]? = some s₀ ∧ s₀.kind = .flatMap ∧
      s₀.adapted = true ∧ s₀.inner = begun := by
  obtain ⟨j, begun, ht⟩ : ∃ j begun, t.calls.turn = .inner j begun := by
    cases ht : t.calls.turn <;> simp_all [Turn.allows]
  obtain ⟨s₀, hj, hk, had, hinner⟩ : ∃ s, t.stages[j]? = some s ∧ s.kind = .flatMap ∧
      s.adapted = true ∧ s.inner = begun := by
    simpa only [Inline.Placed, ht] using h.placed
  exact ⟨j, begun, s₀, ht, hj, hk, had, hinner⟩

theorem complete_map {s : Stage V} (hk : s.kind = .map) (v : V) :
    s.complete (.value v) = (s, .down (.body v : Event V E)) := by
  simp [Stage.complete, hk]

theorem paired_eventual {result : Result V E} (h : Paired kinds catches s t)
    (hb : Benign catches t (.eventual result))
    (ha : t.calls.turn.allows (.eventual result : Label V E)) :
    Paired kinds catches (s.next kinds catches (.eventual result)) (t.next (.eventual result)) := by
  obtain ⟨j, s₀, ht, hj, hk⟩ := h.eventual_at ha
  refine paired_inside h (by simp [ht, Turn.inside]) (.inl ⟨_, rfl⟩) fun us hus => ?_
  simp only [ht, Turn.position, called]
  cases result with
  | value v =>
    have hp : passes (t.stages.drop (j + 1)) v = true := by
      simpa only [Benign, ht, Turn.position] using hb
    exact callAt_down hus hj
      (fun u hu => ⟨s₀, u, complete_map hk v, complete_map (hu.kind.trans hk) v, hu⟩)
      fun us' hus' => passDown_body hus' hp
  | fail error =>
    exact callAt_down hus hj (fun u hu => ⟨s₀, u, rfl, rfl, hu⟩)
      fun us' hus' => passDown_final_matches hus' rfl
  | stop =>
    exact callAt_down hus hj (fun u hu => ⟨s₀, u, rfl, rfl, hu⟩)
      fun us' hus' => passDown_final_matches hus' rfl

theorem paired_inner (h : Paired kinds catches s t) (hb : Benign catches t (.inner event))
    (ha : t.calls.turn.allows (.inner event : Label V E)) :
    Paired kinds catches (s.next kinds catches (.inner event)) (t.next (.inner event)) := by
  obtain ⟨j, begun, s₀, ht, hj, hk, had, hinner⟩ := h.inner_at ha
  refine paired_inside h (by simp [ht, Turn.inside]) (.inr ⟨_, rfl⟩) fun us hus => ?_
  simp only [ht, Turn.position, called]
  cases event with
  | begin =>
    have hn : begun = false := by
      cases begun
      · rfl
      · simp [ht, Turn.allows, Event.isBegin] at ha
    subst hn
    refine callAt_matches hus hj fun u us' hu hus' => ?_
    have hs' : Twin true true { s₀ with inner := true } { u with inner := true } :=
      { hu with inner := rfl, outer := fun hx => by simp [had] at hx }
    have hs₀ : s₀.innerCalls (.begin : Event V E) = ({ s₀ with inner := true }, .inner 0 true) := by
      simp [Stage.innerCalls, had, hinner]
    have hu₀ : u.innerCalls (.begin : Event V E) = ({ u with inner := true }, .inner 0 true) := by
      simp [Stage.innerCalls, hu.adapted, hu.inner, had, hinner]
    simp only [callAt, hs₀, hu₀]
    exact ⟨.cons hs' hus', rfl, _, rfl, hk, had, rfl⟩
  | body v =>
    have hp : passes (t.stages.drop (j + 1)) v = true := by
      simpa only [Benign, ht, Turn.position] using hb
    exact callAt_down hus hj (fun u hu => ⟨s₀, u, rfl, rfl, hu⟩)
      fun us' hus' => passDown_body hus' hp
  | ended => exact hb.elim
  | fail error =>
    exact callAt_down hus hj (fun u hu => ⟨s₀, u, rfl, rfl, hu⟩)
      fun us' hus' => passDown_final_matches hus' rfl
  | stop =>
    exact callAt_down hus hj
      (fun u hu => ⟨{ s₀ with done := true }, { u with done := true }, rfl, rfl, { hu with }⟩)
      fun us' hus' => passDown_final_matches hus' rfl

theorem paired_next (h : Paired kinds catches s t) (hb : Benign catches t l)
    (ha : t.calls.turn.allows l = true) :
    Paired kinds catches (s.next kinds catches l) (t.next l) := by
  cases l with
  | upstream event => exact paired_upstream h hb ha
  | downstream demand => exact paired_downstream h hb ha
  | eventual result => exact paired_eventual h hb ha
  | inner event => exact paired_inner h hb ha

section Converse

theorem not_same_of_failed {s' : State V E} {t' : Inline V E} {c : Calls V E} {check : Check}
    (hs : s'.calls = c.exit (.failed check)) : ¬ Same s' t' := by
  rintro ⟨-, -, hf⟩
  simp [hs, Calls.exit] at hf

/-- Registering once more fails an assertion. -/
theorem not_same_dispatch {t' : Inline V E} (h : Paired kinds catches s t)
    (hr : ¬ t.Registers catches) : ¬ Same (s.dispatch kinds event) t' := by
  obtain ⟨hk, hd⟩ : (∃ s ∈ t.stages, s.keeps = true) ∧
      t.received.any (Event.dispatched catches) = true := by
    simpa [Inline.Registers, not_or] using hr
  obtain ⟨s₀, hs₀, hkeeps⟩ := hk
  obtain ⟨us, he⟩ := Option.isSome_iff_exists.mp (h.dispatched.trans hd)
  have hst := h.stages
  simp only [he, Option.isSome_some, Option.getD_some] at hst
  have hfails := mapM_register_fails hst hs₀ hkeeps
  have hf : (s.dispatch kinds event).calls = s.calls.exit (.failed .interrupt) := by
    simp only [State.dispatch, he, Option.getD_some, hfails]
  exact not_same_of_failed hf

theorem not_same_upstream (h : Paired kinds catches s t)
    (hb : ¬ Benign catches t (.upstream event)) :
    ¬ Same (s.next kinds catches (.upstream event)) (t.next (.upstream event)) := by
  by_cases hr : t.Registers catches
  · -- A value that does not pass.
    cases event with
    | body v =>
      have hp : passes t.stages v = false := by simpa [Benign, hr] using hb
      obtain ⟨us, hus, hst⟩ := mapM_register_registers h hr
      obtain ⟨c, hc⟩ := passDown_body_failed (E := E) hst hp
      have hf : (s.next kinds catches (.upstream (.body v))).calls =
          s.calls.exit (.failed c) := by
        simp only [State.next, State.upstream, State.dispatch, hus, hc]
      exact not_same_of_failed hf
    | begin | ended | fail error | stop => exact absurd (fun _ => hr) hb
  · cases event with
    | body v | stop => exact not_same_dispatch h hr
    | fail error =>
      have hc : catches error = true := by
        by_contra hn
        exact hb fun hd => absurd hd hn
      have hs : s.next kinds catches (.upstream (.fail error)) = s.dispatch kinds (.fail error) :=
        if_pos hc
      rw [hs]
      exact not_same_dispatch h hr
    | begin | ended => exact absurd (fun hd => by simp [Event.dispatched] at hd) hb

theorem not_same_downstream {demand : Demand} (h : Paired kinds catches s t)
    (hb : ¬ Benign catches t (.downstream demand)) :
    ¬ Same (s.next kinds catches (.downstream demand)) (t.next (.downstream demand)) := by
  rintro ⟨-, hup, -⟩
  have hs : s.calls.up ++ [demand] = (t.next (.downstream demand)).calls.up := hup
  rw [h.calls] at hs
  cases hx : (passUp t.stages demand : List (Stage V) × Exit V E).2 with
  | up asked =>
    have ha : demand = asked := by simpa [Inline.next, called, hx, Calls.exit] using hs
    exact hb ((lets_of_passUp hx).2 ha.symm)
  | down event | eventual j | inner j begun | failed c =>
    simp [Inline.next, called, hx, Calls.exit] at hs

/-- The transformer has called what fails. -/
theorem not_same_inside (h : Paired kinds catches s t) (hi : t.calls.turn.inside = true)
    (hl : (∃ result, l = .eventual result) ∨ ∃ event, l = .inner event)
    (hf : ∀ us, List.Forall₂ (Twin true true) t.stages us →
      ∃ c, (called t.calls.turn.position us l).2 = .failed c) :
    ¬ Same (s.next kinds catches l) (t.next l) := by
  obtain ⟨us, he, hst⟩ := h.exists_stages hi
  obtain ⟨c, hc⟩ := hf us hst
  have hf : (s.next kinds catches l).calls = s.calls.exit (.failed c) := by
    rcases hl with ⟨result, rfl⟩ | ⟨event, rfl⟩
    · simp only [State.next, he, Option.getD_some, h.calls, hc]
    · simp only [State.next, he, Option.getD_some, h.calls, hc]
  exact not_same_of_failed hf

theorem callAt_zero_failed {f : Stage V → Stage V × Exit V E} {u u' : Stage V}
    {us : List (Stage V)} {c : Check} (hu : f u = (u', .down event))
    (hd : (passDown us event).2 = .failed c) : (callAt f 0 (u :: us)).2 = .failed c := by
  rw [callAt_zero hu]
  exact failed_resolve hd

theorem not_same_eventual (h : Paired kinds catches s t)
    (hb : ¬ Benign catches t (.eventual result))
    (ha : t.calls.turn.allows (.eventual result : Label V E)) :
    ¬ Same (s.next kinds catches (.eventual result)) (t.next (.eventual result)) := by
  obtain ⟨j, s₀, ht, hj, hk⟩ := h.eventual_at ha
  refine not_same_inside h (by simp [ht, Turn.inside]) (.inl ⟨_, rfl⟩) fun us hus => ?_
  simp only [ht, Turn.position, called]
  cases result with
  | value v =>
    have hp : passes (t.stages.drop (j + 1)) v = false := by
      simpa [Benign, ht, Turn.position] using hb
    refine callAt_failed hus hj fun u us' hu hus' => ?_
    obtain ⟨c, hc⟩ := passDown_body_failed (E := E) hus' hp
    exact ⟨c, callAt_zero_failed (complete_map (hu.kind.trans hk) v) hc⟩
  | fail error | stop => exact absurd trivial hb

theorem not_same_inner (h : Paired kinds catches s t)
    (hb : ¬ Benign catches t (.inner event)) (ha : t.calls.turn.allows (.inner event : Label V E)) :
    ¬ Same (s.next kinds catches (.inner event)) (t.next (.inner event)) := by
  obtain ⟨j, begun, s₀, ht, hj, hk, had, hinner⟩ := h.inner_at ha
  refine not_same_inside h (by simp [ht, Turn.inside]) (.inr ⟨_, rfl⟩) fun us hus => ?_
  simp only [ht, Turn.position, called]
  refine callAt_failed hus hj fun u us' hu hus' => ?_
  cases event with
  | body v =>
    have hp : passes (t.stages.drop (j + 1)) v = false := by
      simpa [Benign, ht, Turn.position] using hb
    obtain ⟨c, hc⟩ := passDown_body_failed (E := E) hus' hp
    have hu₀ : u.innerCalls (.body v : Event V E) = (u, .down (.body v)) := rfl
    exact ⟨c, callAt_zero_failed hu₀ hc⟩
  | ended =>
    -- The inner stream of a combinator that has no outer one.
    have hn : begun = true := by
      cases begun
      · simp [ht, Turn.allows, Event.isBegin, Event.isFinal] at ha
      · rfl
    refine ⟨.stream, ?_⟩
    simp [callAt, Stage.innerCalls, hu.adapted, had, hu.inner, hinner, hn, Stage.call, hu.unbegun]
  | begin | fail error | stop => simp [Benign] at hb

theorem not_same_next (h : Paired kinds catches s t) (hb : ¬ Benign catches t l)
    (ha : t.calls.turn.allows l = true) :
    ¬ Same (s.next kinds catches l) (t.next l) := by
  cases l with
  | upstream event => exact not_same_upstream h hb
  | downstream demand => exact not_same_downstream h hb
  | eventual result => exact not_same_eventual h hb ha
  | inner event => exact not_same_inner h hb ha

end Converse

end Steps

section Runs

variable {kinds : List (Kind V)} {catches : E → Bool} {s : State V E} {t t' : Inline V E}
  {ls : List (Label V E)}

/-- Every step of the run is benign. -/
def BenignRun (catches : E → Bool) : Inline V E → List (Label V E) → Prop
  | _, [] => True
  | t, l :: ls => Benign catches t l ∧ BenignRun catches (t.next l) ls

instance (catches : E → Bool) (t : Inline V E) : Decidable (t.Registers catches) :=
  inferInstanceAs (Decidable ((∀ s ∈ t.stages, s.keeps = false) ∨
    ∀ event ∈ t.received, event.dispatched catches = false))

instance (catches : E → Bool) (t : Inline V E) : (l : Label V E) → Decidable (Benign catches t l)
  | .upstream (.body v) =>
    inferInstanceAs (Decidable (t.Registers catches ∧ passes t.stages v = true))
  | .upstream .begin | .upstream .ended | .upstream (.fail _) | .upstream .stop =>
    inferInstanceAs (Decidable (_ → t.Registers catches))
  | .downstream demand => inferInstanceAs (Decidable (∀ s ∈ t.stages, s.lets demand = true))
  | .eventual (.value v) | .inner (.body v) =>
    inferInstanceAs (Decidable (passes (t.stages.drop (t.calls.turn.position + 1)) v = true))
  | .inner .ended => .isFalse id
  | .eventual (.fail _) | .eventual .stop | .inner .begin | .inner (.fail _) | .inner .stop =>
    .isTrue trivial

instance decidableBenignRun (catches : E → Bool) :
    (t : Inline V E) → (ls : List (Label V E)) → Decidable (BenignRun catches t ls)
  | _, [] => .isTrue trivial
  | t, l :: ls =>
    have := decidableBenignRun catches (t.next l) ls
    inferInstanceAs (Decidable (Benign catches t l ∧ BenignRun catches (t.next l) ls))

/-- The same calls of the ends of both pipelines, if any. -/
def Alike (kinds : List (Kind V)) (catches : E → Bool) (s : State V E) (t : Inline V E)
    (ls : List (Label V E)) : Prop :=
  Option.Rel Same ((machine kinds catches).exec s ls) ((inline kinds).exec t ls)

theorem alike_iff (h : Paired kinds catches s t) (he : (inline kinds).exec t ls = some t') :
    (∀ p, p <+: ls → Alike kinds catches s t p) ↔ BenignRun catches t ls := by
  induction ls generalizing s t with
  | nil =>
    refine ⟨fun _ => trivial, fun _ p hp => ?_⟩
    obtain rfl := List.prefix_nil.mp hp
    exact .some h.same
  | cons l ls ih =>
    have ha : (inline kinds).Enabled t l := by
      by_contra hn
      simp [Machine.exec, hn] at he
    have ha' : (machine kinds catches).Enabled s l := by
      have ht : s.calls.turn = t.calls.turn := congrArg Calls.turn h.calls
      exact (congrArg (fun turn => Turn.allows turn l = true) ht).mpr ha
    have hcons (p : List (Label V E)) : Alike kinds catches s t (l :: p) ↔
        Alike kinds catches (s.next kinds catches l) (t.next l) p := by
      unfold Alike
      rw [Machine.exec_cons ha, Machine.exec_cons ha']
      rfl
    rw [Machine.exec_cons ha] at he
    constructor
    · intro hall
      have hone := (hcons []).mp (hall [l] (by simp))
      have hb : Benign catches t l := by
        by_contra hn
        cases hone with
        | some hs => exact not_same_next h hn ha hs
      refine ⟨hb, (ih (paired_next h hb ha) he).mp fun p hp => ?_⟩
      exact (hcons p).mp (hall (l :: p) (List.cons_prefix_cons.mpr ⟨rfl, hp⟩))
    · rintro ⟨hb, hrun⟩ p hp
      cases p with
      | nil => exact .some h.same
      | cons l' p =>
        obtain ⟨rfl, hrest⟩ := List.cons_prefix_cons.mp hp
        exact (hcons p).mpr ((ih (paired_next h hb ha) he).mpr hrun p hrest)

/-- A transformer makes the calls of its combinators, from the beginning of a run to its end,
exactly where every step of the run is benign. -/
theorem transformer_transparent_iff (kinds : List (Kind V)) (catches : E → Bool)
    (ls : List (Label V E)) {t : Inline V E}
    (h : (inline kinds).exec (.init E kinds) ls = some t) :
    (∀ p, p <+: ls → Alike kinds catches (.init V E) (.init E kinds) p) ↔
      BenignRun catches (.init E kinds) ls :=
  alike_iff paired_init h

/-- A map of one value. -/
def one : List (Label ℕ ℕ) :=
  [.upstream .begin, .downstream .next, .upstream (.body 1), .eventual (.value 2),
    .downstream .next]

theorem one_transparent : BenignRun (fun _ => false) (.init ℕ [.map]) one ∧
    ∀ p, p <+: one → Alike [.map] (fun _ => false) (.init ℕ ℕ) (.init ℕ [.map]) p := by
  have he : (inline [.map]).exec (.init ℕ [.map]) one = some
      ⟨[⟨.map, false, true, 0, none, false, false, false⟩],
        ⟨.upstream, [.begin, .body 2], [.next, .next], []⟩, [.begin, .body 1]⟩ := rfl
  have hb : BenignRun (fun _ => false) (.init ℕ [.map]) one := by decide
  exact ⟨hb, (transformer_transparent_iff [.map] (fun _ => false) one he).mpr hb⟩

/-- A second value is not mapped, and where the first one is filtered out the next is not asked
for. -/
theorem transformer_not_transparent :
    ¬ Alike [.map] (fun _ => false) (.init ℕ ℕ) (.init ℕ [.map])
      (one ++ [.upstream (.body 3)]) ∧
    ¬ Alike [.filter fun v => v = 3] (fun _ => false) (.init ℕ ℕ)
      (.init ℕ [.filter fun v => v = 3])
      [.upstream .begin, .downstream .next, .upstream (.body 1)] := by
  have hmap : (machine [.map] fun _ => false).exec (.init ℕ ℕ)
      (one ++ [.upstream (.body 3)]) = some
        ⟨some [⟨.map, false, true, 0, none, false, false, false⟩],
          ⟨.over, [.begin, .body 2], [.next, .next], [.interrupt]⟩⟩ := rfl
  have hfilter : (machine [.filter fun v => v = 3] fun _ => false).exec (.init ℕ ℕ)
      [.upstream .begin, .downstream .next, .upstream (.body 1)] = some
        ⟨some [⟨.filter fun v => v = 3, false, false, 0, none, false, false, false⟩],
          ⟨.over, [.begin], [.next], [.stream]⟩⟩ := rfl
  constructor
  · intro h
    rw [Alike, hmap] at h
    cases h with
    | some hs => simp [Same] at hs
  · intro h
    rw [Alike, hfilter] at h
    cases h with
    | some hs => simp [Same] at hs

end Runs

end Eventuals.Transformer
