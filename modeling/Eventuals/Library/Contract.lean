import Eventuals.Library.Resumption
import Mathlib.Data.Multiset.AddSub

/-! What a program and the world that it asks promise each other, and weakest preconditions of the
programs that keep their part; contracts in which calls need, take and give what is owned. -/
namespace Resumption

variable {G O R α β : Type*}

/-- What may be asked in a state, and what may then be answered and left. -/
structure Contract (G O R : Type*) where
  Proper : O → G → Prop
  Answers : O → G → R → G → Prop

/-- The world keeps its part where the program has kept its own. -/
def Contract.Lawful (C : Contract G O R) (t : List (Exchange G O R)) : Prop :=
  ∀ x ∈ t, C.Proper x.question x.before → C.Answers x.question x.before x.answer x.after

namespace Program

variable {C : Contract G O R} {p : Program G O R α} {Q Q' : α → G → Prop} {g : G}

/-- While the world keeps the contract so does the program, and it ends in `Q`. -/
def Wp (C : Contract G O R) : Program G O R α → (α → G → Prop) → G → Prop
  | .done a, Q, g => Q a g
  | .act f p, Q, g => (p g).Wp C Q (f g)
  | .ask o p, Q, g => C.Proper o g ∧ ∀ r g', C.Answers o g r g' → (p r).Wp C Q g'

theorem Wp.mono (h : p.Wp C Q g) (hq : ∀ a g, Q a g → Q' a g) : p.Wp C Q' g := by
  induction p generalizing g with
  | done a => exact hq a g h
  | act f p ih => exact ih g h
  | ask o p ih => exact ⟨h.1, fun r g' hr => ih r (h.2 r g' hr)⟩

theorem Wp.bind {q : α → Program G O R β} {Q : β → G → Prop}
    (h : p.Wp C (fun a g => (q a).Wp C Q g) g) : (p.bind q).Wp C Q g := by
  induction p generalizing g with
  | done a => exact h
  | act f p ih => exact ih g h
  | ask o p ih => exact ⟨h.1, fun r g' hr => ih r (h.2 r g' hr)⟩

/-- What a program with a weakest precondition plays is as it says. -/
theorem Wp.plays {t : List (Exchange G O R)} {a : α} {g' : G} (h : p.Wp C Q g)
    (hp : p.Plays g t a g') (ht : C.Lawful t) :
    (∀ x ∈ t, C.Proper x.question x.before) ∧ Q a g' := by
  induction p generalizing g t with
  | done b =>
    obtain ⟨rfl, rfl, rfl⟩ := hp
    exact ⟨by simp, h⟩
  | act f p ih => exact ih g h hp ht
  | ask o p ih =>
    obtain ⟨r, g₁, t, rfl, hp⟩ := hp
    obtain ⟨hproper, hnext⟩ := h
    have hanswer := ht _ (List.mem_cons_self ..) hproper
    obtain ⟨hall, hq⟩ := ih r (hnext r g₁ hanswer) hp fun x hx => ht x (List.mem_cons_of_mem _ hx)
    refine ⟨fun x hx => ?_, hq⟩
    rcases List.mem_cons.mp hx with rfl | hx
    · exact hproper
    · exact hall x hx

/-- What a program and a world come to that answers whatever it is asked. -/
def play (world : O → G → R × G) : Program G O R α → G → List (Exchange G O R) × α × G
  | .done a, g => ([], a, g)
  | .act f p, g => (p g).play world (f g)
  | .ask o p, g =>
    let x := world o g
    let y := (p x.1).play world x.2
    (⟨o, g, x.1, x.2⟩ :: y.1, y.2)

variable {world : O → G → R × G}

theorem plays_play (p : Program G O R α) (g : G) :
    p.Plays g (p.play world g).1 (p.play world g).2.1 (p.play world g).2.2 := by
  induction p generalizing g with
  | done a => exact ⟨rfl, rfl, rfl⟩
  | act f p ih => exact ih g (f g)
  | ask o p ih => exact ⟨_, _, _, rfl, ih _ _⟩

/-- A world that keeps its part at every question keeps it all along. -/
theorem lawful_play (hw : ∀ o g, C.Proper o g → C.Answers o g (world o g).1 (world o g).2)
    (p : Program G O R α) (g : G) : C.Lawful (p.play world g).1 := by
  induction p generalizing g with
  | done a =>
    intro x hx
    cases hx
  | act f p ih => exact ih g (f g)
  | ask o p ih =>
    intro x hx
    rcases List.mem_cons.mp hx with rfl | hx
    · exact hw o g
    · exact ih _ _ x hx

end Program

/-- What a call needs to be owned, takes from its owner, and gives him; what is not `Valid` cannot
be owned. -/
structure Ownership (O R P : Type*) where
  Valid : P → Prop
  uses : O → List P
  takes : O → R → List P
  gives : O → R → List P

/-- What is owned, and what is in it. -/
structure Owned (P S : Type*) where
  owned : Multiset P
  store : S

namespace Ownership

variable {P S : Type*} {σ : Ownership O R P} {effect : O → Owned P S → R → S → Prop}

/-- Nothing is used that is not valid and owned. -/
def contract (σ : Ownership O R P) (effect : O → Owned P S → R → S → Prop) :
    Contract (Owned P S) O R where
  Proper o g := ∀ p ∈ σ.uses o, σ.Valid p ∧ p ∈ g.owned
  Answers o g r g' :=
    g'.owned + (σ.takes o r : Multiset P) = g.owned + (σ.gives o r : Multiset P) ∧
      effect o g r g'.store

variable {rest : Multiset P} {live live' : List P} {g g' : Owned P S} {o : O} {r : R}
  {p : R → Program (Owned P S) O R α} {Q : α → Owned P S → Prop}

theorem owned_of_answers (h : (σ.contract effect).Answers o g r g')
    (hg : g.owned = rest + (live : Multiset P))
    (hp : (live ++ σ.gives o r).Perm (live' ++ σ.takes o r)) :
    g'.owned = rest + (live' : Multiset P) := by
  have howned := h.1
  rw [hg, Multiset.add_assoc, Multiset.coe_add, Multiset.coe_eq_coe.mpr hp, ← Multiset.coe_add,
    ← Multiset.add_assoc] at howned
  exact Multiset.add_left_inj.mp howned

/-- A call of what is alive, that leaves other things alive: the rest is left as it is. -/
theorem wp_ask (hg : g.owned = rest + (live : Multiset P))
    (huses : ∀ p ∈ σ.uses o, σ.Valid p ∧ p ∈ rest + (live : Multiset P))
    (live' : R → List P) (hp : ∀ r, (live ++ σ.gives o r).Perm (live' r ++ σ.takes o r))
    (hnext : ∀ r g', effect o g r g'.store → g'.owned = rest + (live' r : Multiset P) →
      (p r).Wp (σ.contract effect) Q g') :
    (Program.ask o p).Wp (σ.contract effect) Q g := by
  refine ⟨?_, fun r g' h => hnext r g' h.2 (owned_of_answers h hg (hp r))⟩
  intro q hq
  rw [hg]
  exact huses q hq

end Ownership

end Resumption
