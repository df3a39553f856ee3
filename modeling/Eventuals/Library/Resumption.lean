import Eventuals.Library.Transition
import Mathlib.Logic.Relation

/-! Programs that act on a state and ask the world around them, and what it means that a machine
performs one. -/
namespace Resumption

/-- `act` changes the state and goes on with what the state was; `ask` waits for an answer. -/
inductive Program (G O R α : Type*)
  | done (a : α)
  | act (f : G → G) (p : G → Program G O R α)
  | ask (o : O) (p : R → Program G O R α)

variable {G O R α β : Type*}

namespace Program

def bind : Program G O R α → (α → Program G O R β) → Program G O R β
  | .done a, q => q a
  | .act f p, q => .act f fun g => bind (p g) q
  | .ask o p, q => .ask o fun r => bind (p r) q

@[simp] theorem bind_done (p : Program G O R α) : p.bind .done = p := by
  induction p with
  | done a => rfl
  | act f p ih => simp only [bind, ih]
  | ask o p ih => simp only [bind, ih]

end Program

/-- A question with the state in which it is asked, its answer, and the state that the world has
left then. -/
structure Exchange (G O R : Type*) where
  question : O
  before : G
  answer : R
  after : G

/-- What the world is told and tells until a program is done with `a` and leaves the last state. -/
def Program.Plays : Program G O R α → G → List (Exchange G O R) → α → G → Prop
  | .done b, g, t, a, g' => t = [] ∧ a = b ∧ g' = g
  | .act f p, g, t, a, g' => Plays (p g) (f g) t a g'
  | .ask o p, g, t, a, g' => ∃ r g₁ t', t = ⟨o, g, r, g₁⟩ :: t' ∧ Plays (p r) g₁ t' a g'

/-- What is left of a program after some exchanges. -/
inductive Program.After : Program G O R α → G → List (Exchange G O R) → Program G O R α → G → Prop
  | refl {p : Program G O R α} {g : G} : After p g [] p g
  | act {f : G → G} {p : G → Program G O R α} {g g' : G} {t : List (Exchange G O R)}
      {q : Program G O R α} : After (p g) (f g) t q g' → After (.act f p) g t q g'
  | ask {o : O} {p : R → Program G O R α} {g g₁ g' : G} {r : R} {t : List (Exchange G O R)}
      {q : Program G O R α} : After (p r) g₁ t q g' →
      After (.ask o p) g (⟨o, g, r, g₁⟩ :: t) q g'

theorem Program.plays_bind {p : Program G O R α} {q : α → Program G O R β} {g g' : G}
    {t : List (Exchange G O R)} {b : β} :
    (p.bind q).Plays g t b g' ↔
      ∃ a g₁ t₁ t₂, t = t₁ ++ t₂ ∧ p.Plays g t₁ a g₁ ∧ (q a).Plays g₁ t₂ b g' := by
  induction p generalizing g t with
  | done a =>
    constructor
    · intro h
      exact ⟨a, g, [], t, rfl, ⟨rfl, rfl, rfl⟩, h⟩
    · rintro ⟨_, _, _, t₂, rfl, ⟨rfl, rfl, rfl⟩, h⟩
      exact h
  | act f p ih => exact ih g
  | ask o p ih =>
    constructor
    · rintro ⟨r, g₁, t', rfl, h⟩
      obtain ⟨a, g₂, t₁, t₂, rfl, hp, hq⟩ := (ih r).mp h
      exact ⟨a, g₂, ⟨o, g, r, g₁⟩ :: t₁, t₂, rfl, ⟨r, g₁, t₁, rfl, hp⟩, hq⟩
    · rintro ⟨a, g₂, _, t₂, rfl, ⟨r, g₁, t₁, rfl, hp⟩, hq⟩
      exact ⟨r, g₁, t₁ ++ t₂, rfl, (ih r).mpr ⟨a, g₂, t₁, t₂, rfl, hp, hq⟩⟩

/-- From these states on the programs come to the same questions and results, however they act in
between. -/
inductive Program.Sim : Program G O R α → G → Program G O R α → G → Prop
  | done {a : α} {g : G} : Sim (.done a) g (.done a) g
  | ask {o : O} {g : G} {p q : R → Program G O R α} (h : ∀ r g', Sim (p r) g' (q r) g') :
      Sim (.ask o p) g (.ask o q) g
  | actLeft {f : G → G} {p : G → Program G O R α} {q : Program G O R α} {g g' : G}
      (h : Sim (p g) (f g) q g') : Sim (.act f p) g q g'
  | actRight {f : G → G} {p : Program G O R α} {q : G → Program G O R α} {g g' : G}
      (h : Sim p g (q g') (f g')) : Sim p g (.act f q) g'

def Program.Same (p q : Program G O R α) : Prop :=
  ∀ g, p.Sim g q g

namespace Program

variable {p q : Program G O R α} {g g' : G}

@[refl] theorem Same.refl (p : Program G O R α) : p.Same p := by
  induction p with
  | done a => exact fun g => .done
  | act f p ih => exact fun g => .actLeft (.actRight (ih g (f g)))
  | ask o p ih => exact fun g => .ask fun r g' => ih r g'

theorem Sim.refl (p : Program G O R α) (g : G) : p.Sim g p g := Same.refl p g

/-- An act that leaves the state as it is is none. -/
theorem Same.of_act {p : G → Program G O R α} (h : ∀ g, (p g).Same q) :
    (Program.act (fun g => g) p).Same q :=
  fun g => .actLeft (h g g)

theorem Same.ask {o : O} {p q : R → Program G O R α} (h : ∀ r, (p r).Same (q r)) :
    (Program.ask o p).Same (.ask o q) :=
  fun _ => .ask fun r g' => h r g'

theorem Same.act {f : G → G} {p q : G → Program G O R α} (h : ∀ g, (p g).Same (q g)) :
    (Program.act f p).Same (.act f q) :=
  fun g => .actLeft (.actRight (h g (f g)))

theorem Sim.bind {p' : Program G O R α} {q q' : α → Program G O R β} (h : p.Sim g p' g')
    (hq : ∀ a, (q a).Same (q' a)) : (p.bind q).Sim g (p'.bind q') g' := by
  induction h with
  | done => exact hq _ _
  | ask _ ih => exact .ask ih
  | actLeft _ ih => exact .actLeft ih
  | actRight _ ih => exact .actRight ih

theorem Same.bind {p' : Program G O R α} {q q' : α → Program G O R β} (h : p.Same p')
    (hq : ∀ a, (q a).Same (q' a)) : (p.bind q).Same (p'.bind q') :=
  fun g => (h g).bind hq

theorem Sim.plays_iff (h : p.Sim g q g') {t : List (Exchange G O R)} {a : α} {g₁ : G} :
    p.Plays g t a g₁ ↔ q.Plays g' t a g₁ := by
  induction h generalizing t with
  | done => exact Iff.rfl
  | ask _ ih =>
    constructor
    · rintro ⟨r, g₂, t', rfl, hp⟩
      exact ⟨r, g₂, t', rfl, (ih r g₂).mp hp⟩
    · rintro ⟨r, g₂, t', rfl, hp⟩
      exact ⟨r, g₂, t', rfl, (ih r g₂).mpr hp⟩
  | actLeft _ ih => exact ih
  | actRight _ ih => exact ih

/-- The same programs play the same. -/
theorem Same.plays_iff (h : p.Same q) {t : List (Exchange G O R)} {a : α} :
    p.Plays g t a g' ↔ q.Plays g t a g' :=
  (h g).plays_iff

end Program

namespace Program

/-- Acts until it is done or asks. -/
def settle : Program G O R α → G → Program G O R α × G
  | .done a, g => (.done a, g)
  | .act f p, g => (p g).settle (f g)
  | .ask o p, g => (.ask o p, g)

theorem sim_settle (p : Program G O R α) (g : G) : p.Sim g (p.settle g).1 (p.settle g).2 := by
  induction p generalizing g with
  | done a => exact .done
  | act f p ih => exact .actLeft (ih g (f g))
  | ask o p _ => exact Same.refl _ g

theorem settle_cases (p : Program G O R α) (g : G) :
    (∃ a, (p.settle g).1 = .done a) ∨ ∃ o q, (p.settle g).1 = .ask o q := by
  induction p generalizing g with
  | done a => exact .inl ⟨a, rfl⟩
  | act f p ih => exact ih g (f g)
  | ask o p _ => exact .inr ⟨o, p, rfl⟩

/-- Whatever is asked is of the given kind. -/
def Asks (P : O → Prop) : Program G O R α → Prop
  | .done _ => True
  | .act _ p => ∀ g, (p g).Asks P
  | .ask o p => P o ∧ ∀ r, (p r).Asks P

/-- Whatever it is done with is of the given kind. -/
def Ends (P : α → Prop) : Program G O R α → Prop
  | .done a => P a
  | .act _ p => ∀ g, (p g).Ends P
  | .ask _ p => ∀ r, (p r).Ends P

theorem Ends.bind {P : α → Prop} {Q : β → Prop} {p : Program G O R α} {q : α → Program G O R β}
    (h : p.Ends P) (hq : ∀ a, P a → (q a).Ends Q) : (p.bind q).Ends Q := by
  induction p with
  | done a => exact hq a h
  | act f p ih => exact fun g => ih g (h g)
  | ask o p ih => exact fun r => ih r (h r)

theorem Ends.of_plays {P : α → Prop} {p : Program G O R α} {g g' : G} {t : List (Exchange G O R)}
    {a : α} (h : p.Ends P) (hp : p.Plays g t a g') : P a := by
  induction p generalizing g t with
  | done b =>
    obtain ⟨-, rfl, -⟩ := hp
    exact h
  | act f p ih => exact ih g (h g) hp
  | ask o p ih =>
    obtain ⟨r, g₁, t', -, hp⟩ := hp
    exact ih r (h r) hp

/-- Only what a program may be done with has to be gone on with in the same way. -/
theorem Ends.same_bind {P : α → Prop} {p : Program G O R α} {q q' : α → Program G O R β}
    (h : p.Ends P) (hq : ∀ a, P a → (q a).Same (q' a)) : (p.bind q).Same (p.bind q') := by
  induction p with
  | done a => exact hq a h
  | act f p ih => exact .act fun g => ih g (h g)
  | ask o p ih => exact .ask fun r => ih r (h r)

theorem After.asks {P : O → Prop} {p q : Program G O R α} {g g' : G} {t : List (Exchange G O R)}
    (h : p.After g t q g') (hp : p.Asks P) : q.Asks P := by
  induction h with
  | refl => exact hp
  | act _ ih => exact ih (hp _)
  | ask _ ih => exact ih (hp.2 _)

theorem After.settle {p q : Program G O R α} {g g' : G} {t : List (Exchange G O R)}
    (h : p.After g t q g') : p.After g t (q.settle g').1 (q.settle g').2 := by
  induction h with
  | act _ ih => exact .act ih
  | ask _ ih => exact .ask ih
  | @refl p g =>
    induction p generalizing g with
    | done a => exact .refl
    | act f p ih => exact .act (ih g)
    | ask o p _ => exact .refl

end Program

section Performing

open Transition (Machine)
open Relation (ReflTransGen)

/-- A deterministic machine that is moved by itself until it waits for the world. -/
structure Performer (S G O R : Type*) where
  tick : S → Option S
  waiting : S → Option (O × G)
  answer : S → R → G → S
  tick_of_waiting : ∀ s q, waiting s = some q → tick s = none

variable {S : Type*} (P : Performer S G O R)

namespace Performer

def Ticks : S → S → Prop := ReflTransGen fun s t => P.tick s = some t

/-- Every step is a tick of its own or an exchange with the world. -/
def machine (initial : S) : Machine S (Option (Exchange G O R)) where
  Initial s := s = initial
  Enabled s l :=
    match l with
    | none => (P.tick s).isSome
    | some x => P.waiting s = some (x.question, x.before)
  next s l :=
    match l with
    | none => (P.tick s).getD s
    | some x => P.answer s x.answer x.after

/-- Neither by itself nor with the world it goes on. -/
def Final (s : S) : Prop := P.tick s = none ∧ P.waiting s = none

/-- From `s` on the machine does what the program does from `g` on, and gets to `last a g'` where
the program is done with `a` and leaves `g'`. -/
def Performs (last : α → G → S) : Program G O R α → G → S → Prop
  | .done a, g, s => P.Ticks s (last a g)
  | .act f p, g, s => Performs last (p g) (f g) s
  | .ask o p, g, s => ∃ s', P.Ticks s s' ∧ P.waiting s' = some (o, g) ∧
      ∀ r g', Performs last (p r) g' (P.answer s' r g')

end Performer

/-- The exchanges of a run. -/
def exchanges (xs : List (S × Option (Exchange G O R))) : List (Exchange G O R) :=
  xs.filterMap Prod.snd

variable {P} {last : α → G → S} {p : Program G O R α} {g g' : G} {a : α} {s t u : S}
  {xs : List (S × Option (Exchange G O R))}

namespace Performer

theorem Ticks.single (h : P.tick s = some t) : P.Ticks s t := ReflTransGen.single h

theorem Performs.of_ticks (ht : P.Ticks s t) (h : P.Performs last p g t) :
    P.Performs last p g s := by
  induction p generalizing g with
  | done a => exact ReflTransGen.trans ht h
  | act f p ih => exact ih g h
  | ask o p ih =>
    obtain ⟨t', ht', hwait, hrest⟩ := h
    exact ⟨t', ReflTransGen.trans ht ht', hwait, hrest⟩

theorem Performs.bind {next : β → G → S} {q : α → Program G O R β}
    (h : P.Performs last p g s) (hq : ∀ a g, P.Performs next (q a) g (last a g)) :
    P.Performs next (p.bind q) g s := by
  induction p generalizing g s with
  | done a => exact (hq a g).of_ticks h
  | act f p ih => exact ih g h
  | ask o p ih =>
    obtain ⟨t, ht, hwait, hrest⟩ := h
    exact ⟨t, ht, hwait, fun r g' => ih r (hrest r g')⟩

theorem Performs.map_last {next : α → G → S} (h : P.Performs last p g s)
    (ht : ∀ a g, P.Ticks (last a g) (next a g)) : P.Performs next p g s := by
  rw [← p.bind_done]
  exact h.bind fun a g => ht a g

theorem Performs.sim {q : Program G O R α} (hsim : p.Sim g q g') (h : P.Performs last p g s) :
    P.Performs last q g' s := by
  induction hsim generalizing s with
  | done => exact h
  | ask _ ih =>
    obtain ⟨t, ht, hwait, hrest⟩ := h
    exact ⟨t, ht, hwait, fun r g' => ih r g' (hrest r g')⟩
  | actLeft _ ih => exact ih h
  | actRight _ ih => exact ih h

/-- A tick is the only step of a state that has one. -/
theorem ticks_cases (hs : P.tick s = some t) (h : P.Ticks s u) : s = u ∨ P.Ticks t u := by
  rcases ReflTransGen.cases_head h with h | ⟨t', ht', hrest⟩
  · exact .inl h
  · rw [hs, Option.some.injEq] at ht'
    exact .inr (ht' ▸ hrest)

/-- What a tick leaves to do is what there was to do. -/
theorem Performs.tick (hfinal : ∀ a g, P.Final (last a g)) (h : P.Performs last p g s)
    (hs : P.tick s = some t) : P.Performs last p g t := by
  induction p generalizing g with
  | done a =>
    rcases ticks_cases hs h with heq | hrest
    · have hnone := (hfinal a g).1
      rw [← heq, hs] at hnone
      cases hnone
    · exact hrest
  | act f p ih => exact ih g h
  | ask o p ih =>
    obtain ⟨s', hticks, hwait, hrest⟩ := h
    rcases ticks_cases hs hticks with heq | hticks
    · have hnone := P.tick_of_waiting s' _ hwait
      rw [← heq, hs] at hnone
      cases hnone
    · exact ⟨s', hticks, hwait, hrest⟩

theorem Ticks.eq_of_final (hs : P.tick s = none) (h : P.Ticks s t) : s = t := by
  rcases ReflTransGen.cases_head h with heq | ⟨u, hu, -⟩
  · exact heq
  · rw [hs] at hu
    cases hu

/-- What is asked is what the machine waits for. -/
theorem Performs.of_waiting_ask {o o' : O} {q : R → Program G O R α}
    (h : P.Performs last (.ask o q) g s) (hs : P.waiting s = some (o', g')) :
    o' = o ∧ g' = g ∧ ∀ r g₁, P.Performs last (q r) g₁ (P.answer s r g₁) := by
  obtain ⟨t, ht, hwait, hrest⟩ := h
  obtain rfl := Ticks.eq_of_final (P.tick_of_waiting s _ hs) ht
  rw [hwait, Option.some.injEq, Prod.mk.injEq] at hs
  exact ⟨hs.1.symm, hs.2.symm, hrest⟩

theorem Performs.not_waiting (hfinal : ∀ a g, P.Final (last a g))
    (h : P.Performs last (.done a) g s) : P.waiting s = none := by
  cases hs : P.waiting s with
  | none => rfl
  | some q =>
    obtain rfl := Ticks.eq_of_final (P.tick_of_waiting s _ hs) h
    rw [(hfinal a g).2] at hs
    cases hs

/-- Where the machine waits the program asks. -/
theorem Performs.waiting (hfinal : ∀ a g, P.Final (last a g)) (h : P.Performs last p g s)
    {o : O} {g₀ : G} (hs : P.waiting s = some (o, g₀)) (r : R) (g₁ : G) :
    ∃ q, p.After g [⟨o, g₀, r, g₁⟩] q g₁ ∧ P.Performs last q g₁ (P.answer s r g₁) := by
  induction p generalizing g with
  | done a =>
    rw [h.not_waiting hfinal] at hs
    cases hs
  | act f p ih =>
    obtain ⟨q, hq, hp⟩ := ih g h
    exact ⟨q, .act hq, hp⟩
  | ask o' p ih =>
    obtain ⟨rfl, rfl, hrest⟩ := h.of_waiting_ask hs
    exact ⟨p r, .ask .refl, hrest r g₁⟩

end Performer

theorem Program.After.trans {q r : Program G O R α} {g₁ g₂ : G} {t₁ t₂ : List (Exchange G O R)}
    (h : p.After g t₁ q g₁) (h' : q.After g₁ t₂ r g₂) : p.After g (t₁ ++ t₂) r g₂ := by
  induction h with
  | refl => exact h'
  | act _ ih => exact .act (ih h')
  | ask _ ih => exact .ask (ih h')

theorem Program.After.plays {q : Program G O R α} {g₁ : G} {t₁ t₂ : List (Exchange G O R)}
    (h : p.After g t₁ q g₁) (hq : q.Plays g₁ t₂ a g') : p.Plays g (t₁ ++ t₂) a g' := by
  induction h with
  | refl => exact hq
  | act _ ih => exact ih hq
  | ask _ ih => exact ⟨_, _, _, rfl, ih hq⟩

namespace Performer

/-- In every state of a run the machine performs what its exchanges have left of the program. -/
theorem Performs.run {initial : S} (hfinal : ∀ a g, P.Final (last a g))
    (h : P.Performs last p g s) (hr : (P.machine initial).Run s xs u) :
    ∃ q g', p.After g (exchanges xs) q g' ∧ P.Performs last q g' u := by
  induction hr generalizing p g with
  | refl => exact ⟨p, g, .refl, h⟩
  | @stepL s t u l xs hs hr ih =>
    obtain ⟨he, rfl⟩ := hs
    cases l with
    | none =>
      obtain ⟨t, ht⟩ := Option.isSome_iff_exists.mp he
      have hnext : (P.machine initial).next s none = t := by simp [machine, ht]
      rw [hnext] at ih
      exact ih (h.tick hfinal ht)
    | some x =>
      obtain ⟨q, hq, hp⟩ := h.waiting hfinal he x.answer x.after
      obtain ⟨q', g', hafter, hlast⟩ := ih hp
      exact ⟨q', g', hq.trans hafter, hlast⟩

theorem Ticks.run (initial : S) (h : P.Ticks s t) :
    ∃ xs, (P.machine initial).Run s xs t ∧ exchanges xs = [] := by
  induction h using ReflTransGen.head_induction_on with
  | refl => exact ⟨[], .refl, rfl⟩
  | @head s t' hs _ ih =>
    obtain ⟨xs, hr, hx⟩ := ih
    have henabled : (P.machine initial).Enabled s none := by simp [machine, hs]
    have hnext : (P.machine initial).next s none = t' := by simp [machine, hs]
    exact ⟨(s, none) :: xs, .stepL ⟨henabled, hnext.symm⟩ hr, hx⟩

/-- The machine can be taken along everything that the program may do. -/
theorem Performs.exists_run {initial : S} {x : List (Exchange G O R)}
    (h : P.Performs last p g s) (hp : p.Plays g x a g') :
    ∃ xs, (P.machine initial).Run s xs (last a g') ∧ exchanges xs = x := by
  induction p generalizing g s x with
  | done b =>
    obtain ⟨rfl, rfl, rfl⟩ := hp
    exact Ticks.run initial h
  | act f p ih => exact ih g h hp
  | ask o p ih =>
    obtain ⟨r, g₁, x', rfl, hp⟩ := hp
    obtain ⟨s', hticks, hwait, hrest⟩ := h
    obtain ⟨xs, hxs, hempty⟩ := Ticks.run initial hticks
    obtain ⟨ys, hys, hx⟩ := ih r (hrest r g₁) hp
    refine ⟨xs ++ (s', some ⟨o, g, r, g₁⟩) :: ys, hxs.append (.stepL ⟨hwait, rfl⟩ hys), ?_⟩
    simp only [exchanges, List.filterMap_append, List.filterMap_cons] at hempty hx ⊢
    rw [hempty, hx, List.nil_append]

theorem Performs.plays_of_last (hfinal : ∀ a g, P.Final (last a g))
    (hinj : ∀ {a b g g'}, last a g = last b g' → a = b ∧ g = g') {g₁ : G}
    (h : P.Performs last p g (last a g₁)) : p.Plays g [] a g₁ := by
  have hstay : ∀ {u}, P.Ticks (last a g₁) u → last a g₁ = u :=
    Ticks.eq_of_final (hfinal a g₁).1
  induction p generalizing g with
  | done b =>
    obtain ⟨rfl, rfl⟩ := hinj (hstay h)
    exact ⟨rfl, rfl, rfl⟩
  | act f p ih => exact ih g h
  | ask o p ih =>
    obtain ⟨s', hticks, hwait, -⟩ := h
    rw [← hstay hticks, (hfinal a g₁).2] at hwait
    cases hwait

/-- A machine that performs a program plays what the program plays and nothing else. -/
theorem Performs.run_iff {initial : S} {x : List (Exchange G O R)}
    (hfinal : ∀ a g, P.Final (last a g))
    (hinj : ∀ {a b g g'}, last a g = last b g' → a = b ∧ g = g') (h : P.Performs last p g s) :
    (∃ xs, (P.machine initial).Run s xs (last a g') ∧ exchanges xs = x) ↔ p.Plays g x a g' := by
  constructor
  · rintro ⟨xs, hr, rfl⟩
    obtain ⟨q, g₁, hafter, hq⟩ := h.run hfinal hr
    simpa using hafter.plays (hq.plays_of_last hfinal hinj)
  · exact h.exists_run

end Performer

end Performing

end Resumption
