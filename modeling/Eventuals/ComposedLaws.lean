import Eventuals.ComposedMeaning

/-! Where a composition drops a call, and what stands for what in every pipeline (`catch.h`,
`finally.h`, `expected.h`). -/
namespace Eventuals.Composed

open Resumption
open TypeTraits (Hierarchy)

variable {G O R T W V A B C D : Type}

section Moved

/-- An error that is called with is no lvalue. -/
def Signal.Moved : Signal T W A → Prop
  | .fail e => e.deduce.isReference = false
  | _ => True

def Stream.Moves : Stream G O R T W V → Prop
  | .act _ s => ∀ g, (s g).Moves
  | .ask _ s => ∀ r, (s r).Moves
  | .body _ s => s.Moves
  | .fail e => e.deduce.isReference = false
  | .ended | .stop => True

/-- The callables of an eventual call nothing with an lvalue of an error, unless they were called
with one. -/
def Eventual.Moves : ∀ {A B : Type}, Eventual G O R T W A B → Prop
  | _, _, .eventual start fail stop =>
    (∀ i a, (start i a).Ends Signal.Moved) ∧
    (∀ f ∈ fail, ∀ i e, e.deduce.isReference = false → (f i e).Ends Signal.Moved) ∧
    ∀ f ∈ stop, ∀ i, (f i).Ends Signal.Moved
  | _, _, .raise _ => True
  | _, _, .thenValue _ => True
  | _, _, .then_ _ f => ∀ a g, (f a g).Moves
  | _, _, .conditional _ _ thenF _ els3F => (∀ a g, (thenF a g).Moves) ∧ ∀ a g, (els3F a g).Moves
  | _, _, .if_ _ yes no => yes.Moves ∧ no.Moves
  | _, _, .catch_ _ _ handlers => ∀ i, (handlers i).Moves
  | _, _, .finally_ _ => True
  | _, _, .closure _ f => ∀ g, (f g).Moves
  | _, _, .composed left right => left.Moves ∧ right.Moves
  | _, _, .loop stream _ f => (∀ i a, (stream i a).Moves) ∧ ∀ v g, (f v g).Moves
  | _, _, .head stream _ => ∀ i a, (stream i a).Moves

theorem moved_start {a : A} : (Signal.start a : Signal T W A).Moved := trivial

theorem moved_of_whole {convert : T → W → T × W} {e : Error T W} (he : e.stored convert = e) :
    e.moved = e := by
  rw [← he]
  rfl

/-- Something is called, and not with an lvalue of an error. -/
def Kept (ending : Option (Signal T W B)) : Prop := ∃ signal, ending = some signal ∧ signal.Moved

theorem ends_calls {p : Program G O R (Signal T W B)} (h : p.Ends Signal.Moved) :
    (calls p).Ends Kept :=
  h.bind fun signal hs => ⟨signal, rfl, hs⟩

theorem ends_onStart {f : A → Program G O R (Option (Signal T W B))} (hf : ∀ a, (f a).Ends Kept)
    {signal : Signal T W A} (hs : signal.Moved) : (onStart f signal).Ends Kept := by
  cases signal with
  | start a => exact hf a
  | fail e => exact ⟨_, rfl, hs⟩
  | stop => exact ⟨_, rfl, trivial⟩

theorem ends_onCall {f : Signal T W A → Program G O R (Option (Signal T W B))}
    (hf : ∀ signal, signal.Moved → (f signal).Ends Kept) {ending : Option (Signal T W A)}
    (he : Kept ending) : (onCall f ending).Ends Kept := by
  obtain ⟨signal, rfl, hs⟩ := he
  exact hf signal hs

theorem Stream.ends_forEach {h : V → Program G O R (Option (Signal T W Unit))}
    (hh : ∀ v, (h v).Ends Kept) {s : Stream G O R T W V} (hs : s.Moves) :
    (s.forEach h).Ends Kept := by
  induction s with
  | act f s ih => exact fun g => ih g (hs g)
  | ask o s ih => exact fun r => ih r (hs r)
  | body v s ih =>
    exact (hh v).bind fun ending => ends_onCall fun signal => ends_onStart fun _ => ih hs
  | ended => exact ⟨_, rfl, trivial⟩
  | fail e => exact ⟨_, rfl, hs⟩
  | stop => exact ⟨_, rfl, trivial⟩

theorem Stream.ends_head {empty : Error T W} (hempty : empty.deduce.isReference = false)
    {s : Stream G O R T W V} (hs : s.Moves) (arg : Option V) :
    (s.head empty arg).Ends Signal.Moved := by
  induction s generalizing arg with
  | act f s ih => exact fun g => ih g (hs g) arg
  | ask o s ih => exact fun r => ih r (hs r) arg
  | body v s ih => exact ih hs (some v)
  | ended =>
    cases arg with
    | none => exact hempty
    | some v => trivial
  | fail e => exact hs
  | stop => trivial

end Moved

variable [DecidableEq T] {H : Hierarchy T} {interrupt : Bool}

/-- Where nobody makes an lvalue of an error none is dropped. The induction is on the eventual, and
all that `Catch()` could drop is an lvalue. -/
theorem ends_meaning {e : Eventual G O R T W A B} (he : e.Moves) {signal : Signal T W A}
    (hs : signal.Moved) : (e.meaning H interrupt signal).Ends Kept := by
  induction e with
  | eventual start fail stop =>
    obtain ⟨hstart, hfail, hstop⟩ := he
    cases signal with
    | start a => exact ends_calls (hstart interrupt a)
    | fail e =>
      cases fail with
      | none => exact ⟨_, rfl, hs⟩
      | some f => exact ends_calls (hfail f rfl interrupt e hs)
    | stop =>
      cases stop with
      | none => exact ⟨_, rfl, trivial⟩
      | some f => exact ends_calls (hstop f rfl interrupt)
  | raise t =>
    simp only [Eventual.meaning]
    refine ends_onStart ?_ hs
    exact fun _ => ⟨_, rfl, rfl⟩
  | thenValue f =>
    simp only [Eventual.meaning]
    refine ends_onStart ?_ hs
    exact fun a g => ⟨_, rfl, trivial⟩
  | then_ act f ih =>
    simp only [Eventual.meaning]
    refine ends_onStart ?_ hs
    exact fun a g => ih a g (he a g) moved_start
  | conditional condition thenAct thenF els3Act els3F ihthen ihels3 =>
    simp only [Eventual.meaning]
    refine ends_onStart ?_ hs
    intro a g
    cases hc : (condition a g).2 with
    | true =>
      simp only [hc, if_true]
      exact fun g' => ihthen a g' (he.1 a g') moved_start
    | false =>
      simp only [hc, Bool.false_eq_true, if_false]
      exact fun g' => ihels3 a g' (he.2 a g') moved_start
  | if_ condition yes no ihyes ihno =>
    simp only [Eventual.meaning]
    refine ends_onStart (fun _ => ?_) hs
    cases condition with
    | true => exact ihyes he.1 moved_start
    | false => exact ihno he.2 moved_start
  | catch_ raised hasAll handlers ih =>
    simp only [Eventual.meaning]
    cases signal with
    | start a => exact ⟨_, rfl, trivial⟩
    | stop => exact ⟨_, rfl, trivial⟩
    | fail e =>
      cases ho : (Catch.Continuation.mk raised hasAll interrupt).taken H e.deduce with
      | none => exact absurd ho (Catch.taken_ne_none hs)
      | some outcome =>
        cases outcome with
        | handled i argument =>
          simp only [ho]
          exact ih i (he i) moved_start
        | forwarded e' =>
          simp only [ho]
          exact ⟨_, rfl, hs⟩
  | finally_ convert => exact ⟨_, rfl, trivial⟩
  | closure act f ih => exact fun g => ih g (he g) hs
  | composed left right ihleft ihright =>
    exact (ihleft he.1 hs).bind fun ending => ends_onCall fun signal => ihright he.2
  | loop stream act f ih =>
    simp only [Eventual.meaning]
    refine ends_onStart (fun a => ?_) hs
    refine Stream.ends_forEach ?_ (he.1 interrupt a)
    exact fun v g => ih v g (he.2 v g) moved_start
  | head stream empty =>
    simp only [Eventual.meaning]
    exact ends_onStart (fun a => ends_calls (Stream.ends_head rfl (he interrupt a) none)) hs

/-- An eventual that stops. -/
def Stopping : Eventual G O R T W Unit B := .eventual (fun _ _ => .done .stop) none none

/-- `Catch().all(f)`, where `h` is the `Then()` around `f`. -/
def CatchAll (h : Eventual G O R T W (Catch.Argument T W) A) : Eventual G O R T W A A :=
  .catch_ [] true fun _ => h

/-- What `Finally()` has to be given to handle what `Catch().all()` handles. -/
def recover (h : Eventual G O R T W (Catch.Argument T W) A) :
    Expected T W A → Eventual G O R T W Unit A
  | .ok a => Just a
  | .error .stopped => Stopping
  | .error (.error e) => .composed (Just (.variant e.moved.deduce)) h

/-- An eventual that fails with what `Finally()` would have kept of an error. -/
def Converting (convert : T → W → T × W) : Eventual G O R T W A A :=
  .eventual (fun _ a => .done (.start a)) (some fun _ e => .done (.fail (e.stored convert))) none

/-- The runs of the two come to the same. -/
def Agree (H : Hierarchy T) (interrupt : Bool) (signal : Signal T W A)
    (e e' : Eventual G O R T W A B) : Prop :=
  ∀ g x g', (∀ b, Runs H interrupt e signal g x b g' ↔ Runs H interrupt e' signal g x b g') ∧
    (Drops H interrupt e signal g x g' ↔ Drops H interrupt e' signal g x g')

/-- In every pipeline one can stand for the other. -/
def Equivalent (H : Hierarchy T) (e e' : Eventual G O R T W A B) : Prop :=
  ∀ {C D : Type} (upstream : Eventual G O R T W C A) (downstream : Eventual G O R T W B D)
    (interrupt : Bool) (signal : Signal T W C),
    Agree H interrupt signal (.composed (.composed upstream e) downstream)
      (.composed (.composed upstream e') downstream)

/-- A failure is an rvalue of a class that `Finally()` has an alternative for. -/
def Whole (convert : T → W → T × W) : Option (Signal T W A) → Prop
  | some (.fail e) => e.stored convert = e
  | _ => True

section Laws

variable (convert : T → W → T × W) (h : Eventual G O R T W (Catch.Argument T W) A)

theorem agree_of_same {e e' : Eventual G O R T W A B} {signal : Signal T W A}
    (h : (e.meaning H interrupt signal).Same (e'.meaning H interrupt signal)) :
    Agree H interrupt signal e e' := by
  intro g x g'
  constructor
  · intro b
    rw [runs_iff_plays, runs_iff_plays]
    exact h.plays_iff
  · rw [drops_iff_plays, drops_iff_plays]
    exact h.plays_iff

theorem equivalent_of_same {e e' : Eventual G O R T W A B}
    (h : ∀ interrupt signal, (e.meaning H interrupt signal).Same (e'.meaning H interrupt signal)) :
    Equivalent H e e' := by
  intro C D upstream downstream interrupt signal
  apply agree_of_same
  simp only [Eventual.meaning]
  apply Program.Same.bind
  · exact same_onCall (.refl _) (h interrupt)
  · exact fun ending => .refl _

theorem same_converting (signal : Signal T W A) :
    ((Finally convert fun expected _ => ExpectedToEventual expected).meaning (G := G) (O := O)
      (R := R) H interrupt signal).Same ((Converting convert).meaning H interrupt signal) := by
  rw [meaning_finally]
  refine .of_act fun g => ?_
  cases signal <;> exact .refl _

/-- A handler of all errors runs where the eventual that `Finally()` is given for them does. -/
theorem same_recover (signal : Signal T W A) :
    ((Finally convert fun expected _ => recover h expected).meaning H interrupt signal).Same
      ((Eventual.composed (Converting convert) (CatchAll h)).meaning H interrupt signal) := by
  rw [meaning_finally]
  refine .of_act fun g => ?_
  cases signal with
  | start a =>
    simp only [CatchAll, Converting, Eventual.meaning, calls, Program.bind, onCall]
    exact .refl (.done _)
  | fail e =>
    simp only [CatchAll, Converting, Eventual.meaning, calls, Option.map_some, Option.getD_some,
      Program.bind, onCall, Catch.Continuation.taken, List.findIdx?_nil, if_true]
    exact .refl (h.meaning H interrupt _)
  | stop =>
    simp only [CatchAll, Converting, Eventual.meaning, calls, Option.map_none, Option.getD_none,
      Program.bind, onCall]
    exact .refl (.done _)

/-- Of what is whole nothing is converted. -/
theorem same_done {ending : Option (Signal T W A)} (hw : Whole convert ending) :
    (onCall ((Finally convert fun expected _ => ExpectedToEventual expected).meaning (G := G)
      (O := O) (R := R) H interrupt) ending).Same (.done ending) := by
  rcases ending with _ | (a | e | _)
  · exact .refl (.done _)
  · exact .of_act fun g => .refl (.done _)
  · have he : e.stored convert = e := hw
    simp only [onCall, meaning_finally, Signal.expected, he, ExpectedToEventual, Eventual.meaning,
      calls, Program.bind, moved_of_whole he]
    exact .of_act fun g => .refl (.done _)
  · exact .of_act fun g => .refl (.done _)

theorem same_catchAll {ending : Option (Signal T W A)} (hw : Whole convert ending) :
    (onCall ((Finally convert fun expected _ => recover h expected).meaning H interrupt)
      ending).Same (onCall ((CatchAll h).meaning H interrupt) ending) := by
  rcases ending with _ | (a | e | _)
  · exact .refl (.done _)
  · simp only [onCall, CatchAll, Eventual.meaning]
    exact .of_act fun g => .refl (.done _)
  · have he : e.stored convert = e := hw
    simp only [onCall, CatchAll, meaning_finally, Signal.expected, he, recover, Eventual.meaning,
      Catch.Continuation.taken, List.findIdx?_nil, if_true, moved_of_whole he]
    exact .of_act fun g => .refl (h.meaning H interrupt _)
  · simp only [onCall, CatchAll, Eventual.meaning]
    exact .of_act fun g => .refl (.done _)

end Laws

end Eventuals.Composed
