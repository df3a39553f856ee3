import Mathlib.Algebra.Group.Int.Defs
import Mathlib.Data.Int.Basic
import Mathlib.Tactic.ByContra
import Eventuals.Library.Iteration

/-! `Range` and a downstream that asks for values until it has enough (`range.h`). -/
namespace Eventuals.Range

open Iteration (Leads)

structure Continuation where
  from_ : Int32
  to_ : Int32
  step_ : Int32
  deriving DecidableEq

/-- The call that a method makes last. -/
inductive Call
  | body (value : Int32)
  | ended
  /-- `from_ += step_` is not defined. -/
  | overflow
  deriving DecidableEq

def Fits (n : ℤ) : Prop := -2 ^ 31 ≤ n ∧ n < 2 ^ 31

instance (n : ℤ) : Decidable (Fits n) := inferInstanceAs (Decidable (_ ∧ _))

/-- Signed addition has no value unless that is an `int`. -/
def add (a b : Int32) : Option Int32 :=
  if Fits (a.toInt + b.toInt) then some (a + b) else none

def next (r : Continuation) : Continuation × Call :=
  if r.from_ = r.to_ ∨ r.step_ = 0 ∨ (r.to_ < r.from_ ∧ 0 < r.step_) ∨
      (r.from_ < r.to_ ∧ r.step_ < 0) then
    (r, .ended)
  else
    match add r.from_ r.step_ with
    | none => (r, .overflow)
    | some sum => ({ r with from_ := sum }, .body r.from_)

def done (r : Continuation) : Continuation × Call :=
  (r, .ended)

inductive Demand
  | next
  | done
  deriving DecidableEq

inductive Control
  /-- Downstream has got `Begin()` or a value. -/
  | demand
  | ended
  | overflow
  deriving DecidableEq

structure State where
  control : Control
  range : Continuation
  received : List Int32
  deriving DecidableEq

def State.call (s : State) (p : Continuation × Call) : State :=
  let s := { s with range := p.1 }
  match p.2 with
  | .body value => { s with control := .demand, received := s.received ++ [value] }
  | .ended => { s with control := .ended }
  | .overflow => { s with control := .overflow }

/-- What downstream demands may depend on all that it has received. -/
def step (demand : List Int32 → Demand) (s : State) : State :=
  match s.control with
  | .demand =>
    match demand s.received with
    | .next => s.call (next s.range)
    | .done => s.call (done s.range)
  | .ended | .overflow => s

def start (r : Continuation) : State := ⟨.demand, r, []⟩

/-- `n` is strictly before `to_` in the direction of `step_`. -/
def Before (r : Continuation) (n : ℤ) : Prop :=
  0 < r.step_.toInt ∧ n < r.to_.toInt ∨ r.step_.toInt < 0 ∧ r.to_.toInt < n

instance (r : Continuation) (n : ℤ) : Decidable (Before r n) := inferInstanceAs (Decidable (_ ∨ _))

/-- The distance in steps, rounded up; none if the step leads away. -/
def count (r : Continuation) : ℕ :=
  if Before r r.from_.toInt then
    ((r.to_.toInt - r.from_.toInt).natAbs + r.step_.toInt.natAbs - 1) / r.step_.toInt.natAbs
  else 0

def term (r : Continuation) (k : ℕ) : ℤ := r.from_.toInt + k * r.step_.toInt

def progression (r : Continuation) : List ℤ := (List.range (count r)).map (term r)

/-- A downstream that asks for all gets all of the progression, and then the end. -/
structure Emits (r : Continuation) : Prop where
  ends : ∃ t, Leads (step fun _ => .next) (start r) t ∧ t.control = .ended ∧
    t.received.map Int32.toInt = progression r
  defined : ∀ t, Leads (step fun _ => .next) (start r) t → t.control ≠ .overflow

section Progression

variable {r : Continuation} {k : ℕ}

theorem lt_ceil_iff {d a : ℕ} (ha : 0 < a) (k : ℕ) : k < (d + a - 1) / a ↔ k * a < d := by
  rw [Nat.lt_iff_add_one_le, Nat.le_div_iff_mul_le ha, Nat.succ_mul]
  omega

/-- The terms before `to_` are the first ones. -/
theorem before_term_iff (r : Continuation) (k : ℕ) : Before r (term r k) ↔ k < count r := by
  unfold count term
  by_cases h : Before r r.from_.toInt
  · have ha : 0 < r.step_.toInt.natAbs := by
      unfold Before at h
      omega
    have hceil := lt_ceil_iff (d := (r.to_.toInt - r.from_.toInt).natAbs) ha k
    rw [if_pos h, hceil]
    unfold Before at h ⊢
    rcases h with ⟨hs, hf⟩ | ⟨hs, hf⟩
    · have habs : (r.step_.toInt.natAbs : ℤ) = r.step_.toInt := by omega
      rw [← Int.ofNat_lt, Int.natCast_mul, habs]
      omega
    · have habs : (r.step_.toInt.natAbs : ℤ) = -r.step_.toInt := by omega
      rw [← Int.ofNat_lt, Int.natCast_mul, habs, Int.mul_neg]
      omega
  · rw [if_neg h]
    refine iff_of_false ?_ (Nat.not_lt_zero k)
    unfold Before at h ⊢
    rcases Int.lt_trichotomy r.step_.toInt 0 with hs | hs | hs
    · have hk := Int.mul_nonpos_of_nonneg_of_nonpos (Int.natCast_nonneg k) (Int.le_of_lt hs)
      omega
    · rw [hs]
      omega
    · have hk := Int.mul_nonneg (Int.natCast_nonneg k) (Int.le_of_lt hs)
      omega

theorem mem_progression {n : ℤ} :
    n ∈ progression r ↔ ∃ k : ℕ, n = r.from_.toInt + k * r.step_.toInt ∧ Before r n := by
  unfold progression
  rw [List.mem_map]
  constructor
  · rintro ⟨k, hk, rfl⟩
    exact ⟨k, rfl, (before_term_iff r k).mpr (List.mem_range.mp hk)⟩
  · rintro ⟨k, rfl, hb⟩
    exact ⟨k, List.mem_range.mpr ((before_term_iff r k).mp hb), rfl⟩

end Progression

section Runs

variable {r : Continuation} {s t : State} {demand : List Int32 → Demand}

theorem next_eq (r : Continuation) : next r = if Before r r.from_.toInt then
    match add r.from_ r.step_ with
    | none => (r, .overflow)
    | some sum => ({ r with from_ := sum }, .body r.from_)
    else (r, .ended) := by
  have hguard : (r.from_ = r.to_ ∨ r.step_ = 0 ∨ (r.to_ < r.from_ ∧ 0 < r.step_) ∨
      (r.from_ < r.to_ ∧ r.step_ < 0)) ↔ ¬ Before r r.from_.toInt := by
    rw [← Int32.toInt_inj, ← Int32.toInt_inj]
    simp only [Int32.lt_iff_toInt_lt, Int32.toInt_zero]
    unfold Before
    omega
  unfold next
  by_cases h : Before r r.from_.toInt
  · rw [if_neg fun hg => hguard.mp hg h, if_pos h]
  · rw [if_pos (hguard.mpr h), if_neg h]

theorem add_eq_some {a b : Int32} (h : Fits (a.toInt + b.toInt)) :
    add a b = some (a + b) ∧ (a + b).toInt = a.toInt + b.toInt := by
  refine ⟨if_pos h, ?_⟩
  unfold Fits at h
  rw [Int32.toInt_add]
  exact Int.bmod_eq_of_le (by omega) (by omega)

theorem next_of_not_before (h : ¬ Before r r.from_.toInt) : next r = (r, .ended) := by
  rw [next_eq, if_neg h]

theorem next_of_fits (h : Before r r.from_.toInt) (hf : Fits (r.from_.toInt + r.step_.toInt)) :
    next r = ({ r with from_ := r.from_ + r.step_ }, .body r.from_) := by
  rw [next_eq, if_pos h, (add_eq_some hf).1]

theorem next_of_not_fits (h : Before r r.from_.toInt)
    (hf : ¬ Fits (r.from_.toInt + r.step_.toInt)) : next r = (r, .overflow) := by
  rw [next_eq, if_pos h, add, if_neg hf]

theorem step_demand (h : s.control = .demand) (hd : demand s.received = .next) :
    step demand s = s.call (next s.range) := by
  simp [step, h, hd]

theorem step_done (h : s.control = .demand) (hd : demand s.received = .done) :
    step demand s = { s with control := .ended } := by
  simp [step, h, hd, done, State.call]

theorem step_rest (h : s.control ≠ .demand) : step demand s = s := by
  unfold step
  split
  case h_1 hc => exact absurd hc h
  case h_2 => rfl
  case h_3 => rfl

/-- Downstream has the first terms, and `from_` is the one that follows them. -/
structure Inv (demand : List Int32 → Demand) (r : Continuation) (s : State) : Prop where
  range : s.range = { r with from_ := s.range.from_ }
  from_ : s.range.from_.toInt = term r s.received.length
  received : s.received.map Int32.toInt = (List.range s.received.length).map (term r)
  le : s.received.length ≤ count r
  ended : s.control = .ended → s.received.length = count r ∨ demand s.received = .done
  overflow : s.control = .overflow → s.received.length + 1 = count r ∧ ¬ Fits (term r (count r))

theorem inv_start (demand : List Int32 → Demand) (r : Continuation) : Inv demand r (start r) where
  range := rfl
  from_ := by simp [start, term]
  received := rfl
  le := Nat.zero_le _
  ended := nofun
  overflow := nofun

theorem term_succ (r : Continuation) (k : ℕ) : term r (k + 1) = term r k + r.step_.toInt := by
  unfold term
  rw [Int.natCast_succ, Int.add_mul, Int.one_mul, Int.add_assoc]

/-- A term before `to_` lies between two `int`s. -/
theorem fits_term (h : k < count r) : Fits (term r k) := by
  have hfrom := r.from_.le_toInt
  have hfrom' := r.from_.toInt_lt
  have hto := r.to_.le_toInt
  have hto' := r.to_.toInt_lt
  unfold Fits
  rcases (before_term_iff r k).mpr h with ⟨hs, hb⟩ | ⟨hs, hb⟩
  · have hk := Int.mul_nonneg (Int.natCast_nonneg k) (Int.le_of_lt hs)
    unfold term at hb ⊢
    omega
  · have hk := Int.mul_nonpos_of_nonneg_of_nonpos (Int.natCast_nonneg k) (Int.le_of_lt hs)
    unfold term at hb ⊢
    omega

theorem Inv.before_iff (h : Inv demand r s) :
    Before s.range s.range.from_.toInt ↔ s.received.length < count r := by
  rw [h.range, h.from_]
  exact before_term_iff r _

theorem Inv.step_eq (h : Inv demand r s) : s.range.step_ = r.step_ := by
  rw [h.range]

theorem Inv.sum (h : Inv demand r s) :
    s.range.from_.toInt + s.range.step_.toInt = term r (s.received.length + 1) := by
  rw [term_succ, h.step_eq, h.from_]

/-- The step that is taken when it is downstream's turn. -/
inductive Turn (demand : List Int32 → Demand) (r : Continuation) (s : State) : State → Prop
  | done (hd : demand s.received = .done) : Turn demand r s { s with control := .ended }
  | last (hd : s.received.length = count r) : Turn demand r s { s with control := .ended }
  | body (hlt : s.received.length < count r) (hf : Fits (term r (s.received.length + 1))) :
    Turn demand r s ⟨.demand, { r with from_ := s.range.from_ + r.step_ },
      s.received ++ [s.range.from_]⟩
  | overflow (hlast : s.received.length + 1 = count r) (hf : ¬ Fits (term r (count r))) :
    Turn demand r s { s with control := .overflow }

theorem Inv.turn (h : Inv demand r s) (hc : s.control = .demand) :
    Turn demand r s (step demand s) := by
  cases hd : demand s.received with
  | done =>
    rw [step_done hc hd]
    exact .done hd
  | next =>
    rw [step_demand hc hd]
    rcases Nat.lt_or_ge s.received.length (count r) with hlt | hge
    · have hbefore := h.before_iff.mpr hlt
      by_cases hf : Fits (term r (s.received.length + 1))
      · rw [next_of_fits hbefore (h.sum.symm ▸ hf), h.range]
        exact .body hlt hf
      · have hlast : s.received.length + 1 = count r := by
          by_contra hne
          apply hf
          apply fits_term
          omega
        rw [next_of_not_fits hbefore (h.sum.symm ▸ hf)]
        exact .overflow hlast (hlast ▸ hf)
    · have hlast := Nat.le_antisymm h.le hge
      rw [next_of_not_before (h.before_iff.not.mpr (Nat.not_lt_of_le hge))]
      exact .last hlast

/-- The next term is where `from_` is moved to. -/
theorem inv_body (h : Inv demand r s) (hlt : s.received.length < count r)
    (hf : Fits (term r (s.received.length + 1))) :
    Inv demand r ⟨.demand, { r with from_ := s.range.from_ + r.step_ },
      s.received ++ [s.range.from_]⟩ := by
  have hlength : (s.received ++ [s.range.from_]).length = s.received.length + 1 := by
    rw [List.length_append, List.length_singleton]
  have hsum := (add_eq_some (h.sum.symm ▸ hf)).2
  rw [h.sum, h.step_eq] at hsum
  refine ⟨rfl, ?_, ?_, ?_, nofun, nofun⟩
  · rw [hlength]
    exact hsum
  · rw [hlength, List.map_append, h.received, List.range_succ, List.map_append, List.map_singleton,
      List.map_singleton, h.from_]
  · rw [hlength]
    exact hlt

theorem inv_step (h : Inv demand r s) : Inv demand r (step demand s) := by
  by_cases hc : s.control = .demand
  · have hturn := h.turn hc
    generalize step demand s = t at hturn ⊢
    cases hturn with
    | done hd => exact { h with ended := fun _ => .inr hd, overflow := nofun }
    | last hd => exact { h with ended := fun _ => .inl hd, overflow := nofun }
    | body hlt hf => exact inv_body h hlt hf
    | overflow hlast hf => exact { h with ended := nofun, overflow := fun _ => ⟨hlast, hf⟩ }
  · rw [step_rest hc]
    exact h

/-- Whatever downstream demands, it gets the progression from its start. -/
theorem inv_run (h : Leads (step demand) (start r) t) : Inv demand r t :=
  h.invariant (inv_start demand r) fun _ => inv_step

theorem received_prefix (h : Leads (step demand) (start r) t) :
    t.received.map Int32.toInt <+: progression r := by
  have hinv := inv_run h
  have htake : List.range t.received.length = (List.range (count r)).take t.received.length := by
    rw [List.take_range, Nat.min_eq_left hinv.le]
  rw [hinv.received, progression, htake, List.map_take]
  exact List.take_prefix _ _

/-- Downstream does not go on asking for ever. -/
theorem leads_rest (h : Inv demand r s) :
    ∃ t, Leads (step demand) s t ∧ t.control ≠ .demand := by
  induction hn : count r - s.received.length using Nat.strong_induction_on generalizing s with
  | _ n ih =>
    by_cases hc : s.control = .demand
    · have hstep : Leads (step demand) s (step demand s) := Iteration.leads_step
      have hinv := inv_step h
      have hturn := h.turn hc
      generalize step demand s = t at hstep hinv hturn
      cases hturn with
      | done hd => exact ⟨_, hstep, nofun⟩
      | last hd => exact ⟨_, hstep, nofun⟩
      | body hlt hf =>
        have hless : count r - (s.received ++ [s.range.from_]).length < n := by
          rw [List.length_append, List.length_singleton]
          omega
        obtain ⟨t, ht, hr⟩ := ih _ hless hinv rfl
        exact ⟨t, hstep.trans ht, hr⟩
      | overflow hlast hf => exact ⟨_, hstep, nofun⟩
    · exact ⟨s, .refl, hc⟩

/-- `Range` emits its progression if and only if the first term that is not before `to_` is an
`int` too. -/
theorem range_emits_iff (r : Continuation) : Emits r ↔ Fits (term r (count r)) := by
  constructor
  · intro h
    obtain ⟨t, ht, -, hr⟩ := h.ends
    have hlength : t.received.length = count r := by
      have hlength := congrArg List.length hr
      rwa [progression, List.length_map, List.length_map, List.length_range] at hlength
    rw [← hlength, ← (inv_run ht).from_]
    exact ⟨Int32.le_toInt _, Int32.toInt_lt _⟩
  · intro hf
    have hdefined : ∀ t, Leads (step fun _ => .next) (start r) t → t.control ≠ .overflow :=
      fun t ht hc => ((inv_run ht).overflow hc).2 hf
    obtain ⟨t, ht, hr⟩ := leads_rest (inv_start (fun _ => .next) r)
    have hended : t.control = .ended := by
      cases hc : t.control with
      | demand => exact absurd hc hr
      | ended => rfl
      | overflow => exact absurd hc (hdefined t ht)
    have hinv := inv_run ht
    have hlength := (hinv.ended hended).resolve_right nofun
    refine ⟨⟨t, ht, hended, ?_⟩, hdefined⟩
    rw [hinv.received, hlength, progression]

/-- The sum is computed before the last value goes out, though nobody needs it. -/
theorem range_overflows : ¬ Emits ⟨2147483646, 2147483647, 2⟩ := by
  intro h
  exact h.defined _ Iteration.leads_step rfl

/-- The step may lead over `to_`, on either side of zero. -/
example : progression ⟨-5, 4, 3⟩ = [-5, -2, 1] ∧ progression ⟨4, -5, -4⟩ = [4, 0, -4] := by decide

end Runs

end Eventuals.Range
