import Mathlib.Algebra.Group.Int.Defs
import Mathlib.Algebra.Group.Nat.Defs
import Mathlib.Data.List.Basic
import Eventuals.Library.Iteration

/-! `TakeLast` and `TakeRange` between a stream that ends and a downstream that asks for as much as
it wants (`take.h`). -/
namespace Eventuals.Take

open Iteration (Leads)

inductive Demand
  | next
  | done
  deriving DecidableEq

inductive Check
  /-- `front()` or `pop_front()` of an empty deque. -/
  | empty
  /-- `CHECK_EQ(i_, begin_ + amount_)` -/
  | takeRange
  deriving DecidableEq

/-- The call that a method makes last. -/
inductive Call (V : Type*)
  | next
  | done
  | body (v : V)
  | ended
  | failed (check : Check)
  deriving DecidableEq

/-- The methods that the stream before a combinator and whatever follows it call. -/
structure Combinator (S V : Type*) where
  next : S → S × Call V
  done : S → S × Call V
  body : S → V → S × Call V
  ended : S → S × Call V

structure TakeLast (V : Type*) where
  n : ℕ
  data : List V
  /-- `ended_` -/
  hasEnded : Bool
  deriving DecidableEq

namespace TakeLast

variable {V : Type*} (s : TakeLast V)

def body (v : V) : TakeLast V × Call V :=
  if s.data.length = s.n then
    match s.data with
    | [] => (s, .failed .empty)
    | _ :: data => ({ s with data := data ++ [v] }, .next)
  else ({ s with data := s.data ++ [v] }, .next)

/-- The value in front is the next one. -/
def pop (s : TakeLast V) (empty : Call V) : TakeLast V × Call V :=
  match s.data with
  | [] => (s, empty)
  | v :: data => ({ s with data := data }, .body v)

def ended : TakeLast V × Call V :=
  pop { s with n := min s.n s.data.length, hasEnded := true } (.failed .empty)

def next : TakeLast V × Call V :=
  if s.hasEnded then s.pop .ended else (s, .next)

def done : TakeLast V × Call V :=
  (s, .ended)

def combinator (V : Type*) : Combinator (TakeLast V) V where
  next := next
  done := done
  body := body
  ended := ended

def initial (V : Type*) (n : ℕ) : TakeLast V := ⟨n, [], false⟩

end TakeLast

structure TakeRange where
  begin : UInt64
  amount : UInt64
  i : UInt64
  deriving DecidableEq

namespace TakeRange

variable {V : Type*} (s : TakeRange)

def body (v : V) : TakeRange × Call V :=
  if s.begin ≤ s.i ∧ s.i < s.begin + s.amount then ({ s with i := s.i + 1 }, .body v)
  else if s.i < s.begin then ({ s with i := s.i + 1 }, .next)
  else if s.i = s.begin + s.amount then (s, .done)
  else (s, .failed .takeRange)

def ended : TakeRange × Call V :=
  (s, .ended)

def next : TakeRange × Call V :=
  if s.i < s.begin + s.amount then (s, .next)
  else if s.i = s.begin + s.amount then (s, .done)
  else (s, .failed .takeRange)

def done : TakeRange × Call V :=
  (s, .done)

def combinator (V : Type*) : Combinator TakeRange V where
  next := next
  done := done
  body := body
  ended := ended

def initial (begin amount : UInt64) : TakeRange := ⟨begin, amount, 0⟩

end TakeRange

inductive Control
  /-- Downstream has got `Begin()` or a value. -/
  | demand
  | next
  | done
  | ended
  | failed (check : Check)
  deriving DecidableEq

structure State (S V : Type*) where
  control : Control
  combinator : S
  /-- What the stream has not delivered yet. -/
  rest : List V
  /-- How often the stream was asked for a value. -/
  asked : ℕ
  received : List V
  /-- How often downstream was told that this was all. -/
  ends : ℕ
  deriving DecidableEq

variable {S V : Type*}

def State.call (s : State S V) (p : S × Call V) : State S V :=
  let s := { s with combinator := p.1 }
  match p.2 with
  | .next => { s with control := .next }
  | .done => { s with control := .done }
  | .body v => { s with control := .demand, received := s.received ++ [v] }
  | .ended => { s with control := .ended, ends := s.ends + 1 }
  | .failed check => { s with control := .failed check }

/-- What downstream demands may depend on all that it has received. -/
def step (c : Combinator S V) (demand : List V → Demand) (s : State S V) : State S V :=
  match s.control with
  | .demand =>
    match demand s.received with
    | .next => s.call (c.next s.combinator)
    | .done => s.call (c.done s.combinator)
  | .next =>
    let s := { s with asked := s.asked + 1 }
    match s.rest with
    | [] => s.call (c.ended s.combinator)
    | v :: rest => { s with rest := rest }.call (c.body s.combinator v)
  | .done => s.call (c.ended s.combinator)
  | .ended | .failed _ => s

def start (combinator : S) (values : List V) : State S V where
  control := .demand
  combinator := combinator
  rest := values
  asked := 0
  received := []
  ends := 0

/-- What a downstream gets of the values when it asks until it has enough. -/
def wanted (demand : List V → Demand) (received : List V) : List V → List V
  | [] => received
  | v :: values =>
    match demand received with
    | .next => wanted demand (received ++ [v]) values
    | .done => received

/-- The run ends, once, and downstream has got as many of the values as it wanted; nothing has
failed at any time. -/
structure Emits (c : Combinator S V) (demand : List V → Demand) (combinator : S)
    (values expected : List V) : Prop where
  ends : ∃ t, Leads (step c demand) (start combinator values) t ∧ t.control = .ended ∧
    t.received = wanted demand [] expected
  once : ∀ t, Leads (step c demand) (start combinator values) t → t.ends ≤ 1
  unfailed : ∀ t, Leads (step c demand) (start combinator values) t →
    ∀ check, t.control ≠ .failed check

section Runs

variable {c : Combinator S V} {demand : List V → Demand} {combinator : S}
  {values expected received : List V} {s t : State S V}

theorem step_ended (h : s.control = .ended) : step c demand s = s := by
  simp [step, h]

theorem step_failed {check : Check} (h : s.control = .failed check) : step c demand s = s := by
  simp [step, h]

theorem le_ends_call {n : ℕ} (h : n ≤ s.ends) (p : S × Call V) : n ≤ (s.call p).ends := by
  obtain ⟨combinator, call⟩ := p
  cases call with
  | ended => exact Nat.le_succ_of_le h
  | next | done | body | failed => exact h

theorem ends_step (s : State S V) : s.ends ≤ (step c demand s).ends := by
  unfold step
  split
  · split <;> exact le_ends_call (Nat.le_refl _) _
  · dsimp only
    split <;> exact le_ends_call (by exact Nat.le_refl s.ends) _
  · exact le_ends_call (Nat.le_refl _) _
  · exact Nat.le_refl _
  · exact Nat.le_refl _

theorem emits_of_leads (h : Leads (step c demand) (start combinator values) t)
    (hc : t.control = .ended) (he : t.ends = 1) (hr : t.received = wanted demand [] expected) :
    Emits c demand combinator values expected where
  ends := ⟨t, h, hc, hr⟩
  once u hu := by
    rcases hu.total h with hut | htu
    · have hle := hut.invariant (P := fun t => u.ends ≤ t.ends) (Nat.le_refl _)
        fun s hs => Nat.le_trans hs (ends_step s)
      omega
    · exact Nat.le_of_eq ((htu.fixed (step_ended hc)).symm ▸ he)
  unfailed u hu check hf := by
    have ht := hu.unique h (step_failed hf) (step_ended hc)
    rw [ht, hc] at hf
    cases hf

theorem wanted_done (h : demand received = .done) : wanted demand received values = received := by
  cases values with
  | nil => rfl
  | cons v values => simp [wanted, h]

theorem wanted_next {v : V} (h : demand received = .next) :
    wanted demand received (v :: values) = wanted demand (received ++ [v]) values := by
  simp [wanted, h]

theorem prefix_wanted (demand : List V → Demand) (received values : List V) :
    received <+: wanted demand received values := by
  induction values generalizing received with
  | nil => exact List.prefix_refl _
  | cons v values ih =>
    cases h : demand received with
    | next =>
      rw [wanted_next h]
      exact (List.prefix_append _ _).trans (ih _)
    | done =>
      exact (wanted_done h).symm ▸ List.prefix_refl received

end Runs

section Last

variable {n asked ends : ℕ} {demand : List V → Demand} {values seen data received : List V} {v : V}

/-- The last `n` values, or all if there are fewer. -/
def lastN (n : ℕ) (values : List V) : List V := values.drop (values.length - n)

theorem length_lastN (n : ℕ) (values : List V) : (lastN n values).length = min n values.length := by
  rw [lastN, List.length_drop]
  omega

/-- The oldest value goes once there are enough. -/
theorem body_lastN (hn : 0 < n) : TakeLast.body ⟨n, lastN n seen, false⟩ v =
    (⟨n, lastN n (seen ++ [v]), false⟩, .next) := by
  have hlength := length_lastN n seen
  rcases Nat.lt_or_ge seen.length n with hlt | hge
  · have hne : (lastN n seen).length ≠ n := by omega
    have hold : lastN n seen = seen := by simp [lastN, Nat.le_of_lt hlt]
    have hnew : lastN n (seen ++ [v]) = seen ++ [v] := by
      simp [lastN, Nat.sub_eq_zero_of_le (Nat.succ_le_of_lt hlt)]
    rw [TakeLast.body, if_neg hne, hold, hnew]
  · have heq : (lastN n seen).length = n := by omega
    rw [TakeLast.body, if_pos heq]
    have hlt : seen.length - n < seen.length := by omega
    have hold : lastN n seen = seen[seen.length - n] :: seen.drop (seen.length - n + 1) :=
      List.drop_eq_getElem_cons hlt
    have hsub : (seen ++ [v]).length - n = seen.length - n + 1 := by
      rw [List.length_append, List.length_singleton]
      omega
    have hnew : lastN n (seen ++ [v]) = seen.drop (seen.length - n + 1) ++ [v] := by
      rw [lastN, hsub]
      exact List.drop_append_of_le_length (by omega)
    simp only [hold, hnew]

/-- The whole stream goes through the buffer. -/
theorem leads_keep (demand : List V → Demand) (hn : 0 < n) (values seen received : List V)
    (asked ends : ℕ) :
    Leads (step (TakeLast.combinator V) demand)
      ⟨.next, ⟨n, lastN n seen, false⟩, values, asked, received, ends⟩
      ⟨.next, ⟨n, lastN n (seen ++ values), false⟩, [], asked + values.length, received, ends⟩ := by
  induction values generalizing seen asked with
  | nil =>
    rw [List.append_nil]
    exact .refl
  | cons v values ih =>
    have hstep : step (TakeLast.combinator V) demand
        ⟨.next, ⟨n, lastN n seen, false⟩, v :: values, asked, received, ends⟩ =
        ⟨.next, ⟨n, lastN n (seen ++ [v]), false⟩, values, asked + 1, received, ends⟩ := by
      simp only [step, TakeLast.combinator, body_lastN hn, State.call]
    have hrest := ih (seen ++ [v]) (asked + 1)
    rw [List.append_assoc, List.singleton_append, Nat.add_assoc, Nat.add_comm 1] at hrest
    rw [← hstep] at hrest
    exact Iteration.leads_step.trans hrest

/-- What is in the buffer goes downstream, as far as downstream wants it. -/
theorem leads_drain (demand : List V → Demand) (n asked ends : ℕ) (data received : List V) :
    ∃ t, Leads (step (TakeLast.combinator V) demand)
      ⟨.demand, ⟨n, data, true⟩, [], asked, received, ends⟩ t ∧ t.control = .ended ∧
        t.ends = ends + 1 ∧ t.received = wanted demand received data := by
  cases hd : demand received with
  | done =>
    refine ⟨_, Iteration.leads_step, ?_⟩
    simp [step, hd, TakeLast.combinator, TakeLast.done, State.call, wanted_done hd]
  | next =>
    cases data with
    | nil =>
      refine ⟨_, Iteration.leads_step, ?_⟩
      simp [step, hd, TakeLast.combinator, TakeLast.next, TakeLast.pop, State.call, wanted]
    | cons v data =>
      obtain ⟨t, ht, hc, he, hr⟩ := leads_drain demand n asked ends data (received ++ [v])
      have hstep : step (TakeLast.combinator V) demand
          ⟨.demand, ⟨n, v :: data, true⟩, [], asked, received, ends⟩ =
          ⟨.demand, ⟨n, data, true⟩, [], asked, received ++ [v], ends⟩ := by
        simp [step, hd, TakeLast.combinator, TakeLast.next, TakeLast.pop, State.call]
      rw [← hstep] at ht
      exact ⟨t, Iteration.leads_step.trans ht, hc, he, hr.trans (wanted_next hd).symm⟩

theorem emits_of_done {c : Combinator S V} {combinator : S} {values expected : List V}
    (h : demand [] = .done) {t : State S V}
    (ht : Leads (step c demand) ((start combinator values).call (c.done combinator)) t)
    (hc : t.control = .ended) (he : t.ends = 1) (hr : t.received = []) :
    Emits c demand combinator values expected := by
  have hstep : step c demand (start combinator values) =
      (start combinator values).call (c.done combinator) := by
    simp [step, start, h]
  rw [← hstep] at ht
  exact emits_of_leads (Iteration.leads_step.trans ht) hc he (hr.trans (wanted_done h).symm)

/-- `TakeLast` fails if it has nothing to take: its buffer is empty when the first value would go
out, or to make room for the first one. -/
theorem leads_empty (n : ℕ) (values : List V) (hd : demand [] = .next) (h : n = 0 ∨ values = []) :
    ∃ t, Leads (step (TakeLast.combinator V) demand) (start (.initial V n) values) t ∧
      t.control = .failed .empty := by
  have hstep : step (TakeLast.combinator V) demand (start (.initial V n) values) =
      ⟨.next, .initial V n, values, 0, [], 0⟩ := by
    simp [step, start, hd, TakeLast.combinator, TakeLast.next, TakeLast.initial, State.call]
  have hfirst : Leads (step (TakeLast.combinator V) demand) (start (.initial V n) values)
      ⟨.next, .initial V n, values, 0, [], 0⟩ := hstep ▸ Iteration.leads_step
  refine ⟨_, hfirst.trans Iteration.leads_step, ?_⟩
  cases values with
  | nil =>
    simp [step, TakeLast.combinator, TakeLast.ended, TakeLast.pop, TakeLast.initial, State.call]
  | cons v values =>
    have hn : n = 0 := h.resolve_right (by simp)
    simp [step, TakeLast.combinator, TakeLast.body, TakeLast.initial, State.call, hn]

/-- `TakeLast` delivers the last values if and only if there is one to deliver, or nobody asks. -/
theorem takeLast_emits_iff (n : ℕ) (values : List V) (demand : List V → Demand) :
    Emits (TakeLast.combinator V) demand (.initial V n) values (lastN n values) ↔
      0 < n ∧ values ≠ [] ∨ demand [] = .done := by
  constructor
  · intro h
    cases hd : demand [] with
    | done => exact .inr rfl
    | next =>
      refine .inl ⟨Nat.pos_of_ne_zero fun hn => ?_, fun hv => ?_⟩
      · obtain ⟨t, ht, hf⟩ := leads_empty n values hd (.inl hn)
        exact h.unfailed t ht _ hf
      · obtain ⟨t, ht, hf⟩ := leads_empty n values hd (.inr hv)
        exact h.unfailed t ht _ hf
  · intro h
    cases hd : demand [] with
    | done => exact emits_of_done hd .refl rfl rfl rfl
    | next =>
      obtain ⟨hn, hv⟩ := h.resolve_right (by simp [hd])
      have hlast : lastN n values ≠ [] := by
        have hpos := List.length_pos_iff.mpr hv
        rw [ne_eq, ← List.length_eq_zero_iff, length_lastN]
        omega
      obtain ⟨v, data, hdata⟩ := List.exists_cons_of_ne_nil hlast
      have hfirst : step (TakeLast.combinator V) demand (start (.initial V n) values) =
          ⟨.next, ⟨n, lastN n [], false⟩, values, 0, [], 0⟩ := by
        simp [step, start, hd, TakeLast.combinator, TakeLast.next, TakeLast.initial, State.call,
          lastN]
      have hkeep := leads_keep demand hn values [] [] 0 0
      rw [List.nil_append, ← hfirst, hdata] at hkeep
      obtain ⟨t, ht, hc, he, hr⟩ := leads_drain demand (min n (data.length + 1))
        (0 + values.length + 1) 0 data [v]
      have hended : step (TakeLast.combinator V) demand
          ⟨.next, ⟨n, v :: data, false⟩, [], 0 + values.length, [], 0⟩ =
          ⟨.demand, ⟨min n (data.length + 1), data, true⟩, [], 0 + values.length + 1, [v], 0⟩ := by
        simp [step, TakeLast.combinator, TakeLast.ended, TakeLast.pop, State.call]
      rw [← hended] at ht
      have hrun := hkeep.trans (Iteration.leads_step.trans ht)
      refine emits_of_leads (Iteration.leads_step.trans hrun) hc he ?_
      rw [hr, hdata, wanted_next hd]
      rfl

/-- No value of an empty stream, and none of the values of another, can be taken. -/
theorem takeLast_fails :
    ¬ Emits (TakeLast.combinator ℕ) (fun _ => .next) (.initial ℕ 2) [] (lastN 2 []) ∧
      ¬ Emits (TakeLast.combinator ℕ) (fun _ => .next) (.initial ℕ 0) [5, 12]
        (lastN 0 [5, 12]) := by
  constructor
  · intro h
    exact h.unfailed _ ⟨2, rfl⟩ .empty rfl
  · intro h
    exact h.unfailed _ ⟨2, rfl⟩ .empty rfl

end Last

section Range

variable {begin amount i : UInt64} {demand : List V → Demand} {values rest received : List V}
  {asked : ℕ}

/-- The values with the indices from `begin` on, as many as `amount` says. -/
def range (begin amount : ℕ) (values : List V) : List V := (values.drop begin).take amount

/-- Besides what it emits, no more is asked of the stream than can be taken, and nothing if nothing
can be. -/
structure Takes (begin amount : UInt64) (demand : List V → Demand) (values : List V) : Prop where
  emits : Emits (TakeRange.combinator V) demand (.initial begin amount) values
    (range begin.toNat amount.toNat values)
  asks : ∀ t,
    Leads (step (TakeRange.combinator V) demand) (start (.initial begin amount) values) t →
      t.asked ≤ begin.toNat + amount.toNat ∧ (amount = 0 → t.asked = 0)

theorem toNat_succ (h : i < begin) : (i + 1).toNat = i.toNat + 1 := by
  have hlt := UInt64.lt_iff_toNat_lt.mp h
  have hmax := UInt64.toNat_lt begin
  rw [UInt64.toNat_add, UInt64.toNat_one]
  exact Nat.mod_eq_of_lt (by omega)

theorem asked_call (s : State S V) (p : S × Call V) : (s.call p).asked = s.asked := by
  obtain ⟨combinator, call⟩ := p
  cases call <;> rfl

theorem asked_step {c : Combinator S V} (s : State S V) : s.asked ≤ (step c demand s).asked := by
  unfold step
  split
  · split <;> exact Nat.le_of_eq (asked_call ..).symm
  · dsimp only
    split <;> rw [asked_call] <;> exact Nat.le_succ _
  · exact Nat.le_of_eq (asked_call ..).symm
  · exact Nat.le_refl _
  · exact Nat.le_refl _

/-- What a run has asked for in the end bounds what it has asked for before. -/
theorem takes_of_leads {t : State TakeRange V}
    (h : Leads (step (TakeRange.combinator V) demand) (start (.initial begin amount) values) t)
    (hc : t.control = .ended) (he : t.ends = 1)
    (hr : t.received = wanted demand [] (range begin.toNat amount.toNat values))
    (ha : t.asked ≤ begin.toNat + amount.toNat) (hz : amount = 0 → t.asked = 0) :
    Takes begin amount demand values where
  emits := emits_of_leads h hc he hr
  asks u hu := by
    have hle : u.asked ≤ t.asked := by
      rcases hu.total h with hut | htu
      · exact hut.invariant (P := fun t => u.asked ≤ t.asked) (Nat.le_refl _)
          fun s hs => Nat.le_trans hs (asked_step s)
      · exact Nat.le_of_eq (congrArg State.asked (htu.fixed (step_ended hc)))
    exact ⟨Nat.le_trans hle ha, fun h0 => Nat.eq_zero_of_le_zero (hz h0 ▸ hle)⟩

/-- What comes before the range is dropped, without a word to downstream. -/
theorem leads_skip (amount : UInt64) (demand : List V → Demand) (skipped rest received : List V)
    (asked : ℕ) (hi : i.toNat + skipped.length ≤ begin.toNat) :
    ∃ j : UInt64, j.toNat = i.toNat + skipped.length ∧
      Leads (step (TakeRange.combinator V) demand)
        ⟨.next, ⟨begin, amount, i⟩, skipped ++ rest, asked, received, 0⟩
        ⟨.next, ⟨begin, amount, j⟩, rest, asked + skipped.length, received, 0⟩ := by
  induction skipped generalizing i asked with
  | nil => exact ⟨i, rfl, .refl⟩
  | cons v skipped ih =>
    rw [List.length_cons] at hi
    have hlt : i < begin := UInt64.lt_iff_toNat_lt.mpr (by omega)
    have hnle : ¬ begin ≤ i := by
      rw [UInt64.le_iff_toNat_le]
      omega
    obtain ⟨j, hj, hrun⟩ := ih (i := i + 1) (asked + 1) (by rw [toNat_succ hlt]; omega)
    have hstep : step (TakeRange.combinator V) demand
        ⟨.next, ⟨begin, amount, i⟩, v :: skipped ++ rest, asked, received, 0⟩ =
        ⟨.next, ⟨begin, amount, i + 1⟩, skipped ++ rest, asked + 1, received, 0⟩ := by
      simp [step, TakeRange.combinator, TakeRange.body, State.call, hlt, hnle]
    rw [← hstep] at hrun
    refine ⟨j, ?_, ?_⟩
    · rw [hj, toNat_succ hlt, List.length_cons]
      omega
    · rw [List.length_cons, Nat.add_comm skipped.length, ← Nat.add_assoc]
      exact Iteration.leads_step.trans hrun

/-- From the beginning of the range on, downstream gets what it wants of it. -/
theorem leads_take (demand : List V → Demand) {i : UInt64} (rest received : List V) (asked : ℕ)
    (hsum : (begin + amount).toNat = begin.toNat + amount.toNat)
    (hb : begin.toNat ≤ i.toNat) (hi : i.toNat ≤ begin.toNat + amount.toNat) :
    ∃ t, Leads (step (TakeRange.combinator V) demand)
      ⟨.demand, ⟨begin, amount, i⟩, rest, asked, received, 0⟩ t ∧ t.control = .ended ∧
        t.ends = 1 ∧
        t.received = wanted demand received (rest.take (begin.toNat + amount.toNat - i.toNat)) ∧
        t.asked ≤ asked + (begin.toNat + amount.toNat - i.toNat) := by
  have hended : Leads (step (TakeRange.combinator V) demand)
      ⟨.done, ⟨begin, amount, i⟩, rest, asked, received, 0⟩
      ⟨.ended, ⟨begin, amount, i⟩, rest, asked, received, 1⟩ := Iteration.leads_step
  cases hd : demand received with
  | done =>
    have hstep : step (TakeRange.combinator V) demand
        ⟨.demand, ⟨begin, amount, i⟩, rest, asked, received, 0⟩ =
        ⟨.done, ⟨begin, amount, i⟩, rest, asked, received, 0⟩ := by
      simp [step, hd, TakeRange.combinator, TakeRange.done, State.call]
    rw [← hstep] at hended
    exact ⟨_, Iteration.leads_step.trans hended, rfl, rfl, (wanted_done hd).symm, by simp⟩
  | next =>
    rcases Nat.lt_or_eq_of_le hi with hlt | heq
    · have hin : i < begin + amount := UInt64.lt_iff_toNat_lt.mpr (by omega)
      have hge : begin ≤ i := UInt64.le_iff_toNat_le.mpr hb
      have hnext : step (TakeRange.combinator V) demand
          ⟨.demand, ⟨begin, amount, i⟩, rest, asked, received, 0⟩ =
          ⟨.next, ⟨begin, amount, i⟩, rest, asked, received, 0⟩ := by
        simp [step, hd, TakeRange.combinator, TakeRange.next, State.call, hin]
      have hfirst : Leads (step (TakeRange.combinator V) demand)
          ⟨.demand, ⟨begin, amount, i⟩, rest, asked, received, 0⟩
          ⟨.next, ⟨begin, amount, i⟩, rest, asked, received, 0⟩ := hnext ▸ Iteration.leads_step
      cases rest with
      | nil =>
        refine ⟨⟨.ended, ⟨begin, amount, i⟩, [], asked + 1, received, 1⟩,
          hfirst.trans Iteration.leads_step, rfl, rfl, ?_, ?_⟩
        · simp [wanted]
        · simp only
          omega
      | cons v rest =>
        obtain ⟨t, ht, hc, he, hr, ha⟩ := leads_take demand rest (received ++ [v])
          (asked + 1) hsum
          (by rw [toNat_succ hin]; omega) (by rw [toNat_succ hin]; omega)
        have hbody : step (TakeRange.combinator V) demand
            ⟨.next, ⟨begin, amount, i⟩, v :: rest, asked, received, 0⟩ =
            ⟨.demand, ⟨begin, amount, i + 1⟩, rest, asked + 1, received ++ [v], 0⟩ := by
          simp [step, TakeRange.combinator, TakeRange.body, State.call, hin, hge]
        rw [← hbody] at ht
        rw [toNat_succ hin] at hr ha
        obtain ⟨m, hm⟩ : ∃ m, begin.toNat + amount.toNat - i.toNat = m + 1 :=
          ⟨begin.toNat + amount.toNat - i.toNat - 1, by omega⟩
        have hm' : begin.toNat + amount.toNat - (i.toNat + 1) = m := by omega
        refine ⟨t, hfirst.trans (Iteration.leads_step.trans ht), hc, he, ?_, by omega⟩
        rw [hr, hm, hm', List.take_succ_cons, wanted_next hd]
    · have heq' : i = begin + amount := UInt64.toNat_inj.mp (heq.trans hsum.symm)
      have hnext : step (TakeRange.combinator V) demand
          ⟨.demand, ⟨begin, amount, i⟩, rest, asked, received, 0⟩ =
          ⟨.done, ⟨begin, amount, i⟩, rest, asked, received, 0⟩ := by
        simp [step, hd, TakeRange.combinator, TakeRange.next, State.call, heq']
      rw [← hnext] at hended
      refine ⟨_, Iteration.leads_step.trans hended, rfl, rfl, ?_, by simp⟩
      rw [heq, Nat.sub_self]
      rfl

theorem leads_first (hd : demand [] = .next) (hpos : 0 < begin + amount) :
    Leads (step (TakeRange.combinator V) demand) (start (.initial begin amount) values)
      ⟨.next, .initial begin amount, values, 0, [], 0⟩ := by
  have hstep : step (TakeRange.combinator V) demand (start (.initial begin amount) values) =
      ⟨.next, .initial begin amount, values, 0, [], 0⟩ := by
    simp [step, start, hd, TakeRange.combinator, TakeRange.next, TakeRange.initial, State.call,
      hpos]
  exact hstep ▸ Iteration.leads_step

/-- The stream is told at once that downstream needs nothing of it. -/
theorem leads_none (hd : demand [] = .next) (hzero : begin + amount = 0) :
    Leads (step (TakeRange.combinator V) demand) (start (.initial begin amount) values)
      ⟨.ended, .initial begin amount, values, 0, [], 1⟩ := by
  have hstep : step (TakeRange.combinator V) demand (start (.initial begin amount) values) =
      ⟨.done, .initial begin amount, values, 0, [], 0⟩ := by
    simp [step, start, hd, TakeRange.combinator, TakeRange.next, TakeRange.initial, State.call,
      hzero]
  have hfirst : Leads (step (TakeRange.combinator V) demand) (start (.initial begin amount) values)
      ⟨.done, .initial begin amount, values, 0, [], 0⟩ := hstep ▸ Iteration.leads_step
  exact hfirst.trans Iteration.leads_step

theorem range_of_length_le {begin amount : ℕ} (h : values.length ≤ begin) :
    range begin amount values = [] := by
  rw [range, List.drop_of_length_le h, List.take_nil]

theorem toNat_pos (h : 0 < amount) : 0 < amount.toNat :=
  UInt64.lt_iff_toNat_lt.mp h

theorem leads_begin (hd : demand [] = .next) (hpos : 0 < begin + amount) (skipped rest : List V)
    (hle : skipped.length ≤ begin.toNat) :
    ∃ j : UInt64, j.toNat = skipped.length ∧
      Leads (step (TakeRange.combinator V) demand) (start (.initial begin amount) (skipped ++ rest))
        ⟨.next, ⟨begin, amount, j⟩, rest, skipped.length, [], 0⟩ := by
  have hi : (0 : UInt64).toNat + skipped.length ≤ begin.toNat := by
    rw [UInt64.toNat_zero, Nat.zero_add]
    exact hle
  obtain ⟨j, hj, hskip⟩ := leads_skip amount demand skipped rest [] 0 hi
  rw [UInt64.toNat_zero, Nat.zero_add] at hj
  rw [Nat.zero_add] at hskip
  exact ⟨j, hj, (leads_first hd hpos).trans hskip⟩

/-- A stream that is too short has ended before the range begins. -/
theorem takes_of_length_le (hd : demand [] = .next) (hpos : 0 < begin + amount) (ha : 0 < amount)
    (hle : values.length ≤ begin.toNat) : Takes begin amount demand values := by
  obtain ⟨j, -, hskip⟩ := leads_begin hd hpos values [] hle
  rw [List.append_nil] at hskip
  have hnat := toNat_pos ha
  refine takes_of_leads (hskip.trans Iteration.leads_step) rfl rfl ?_ ?_
    fun h0 => absurd (h0 ▸ ha) (UInt64.lt_irrefl 0)
  · rw [range_of_length_le hle]
    rfl
  · change values.length + 1 ≤ begin.toNat + amount.toNat
    omega

/-- The range begins with the first value that is not skipped. -/
theorem leads_range (hd : demand [] = .next) (hpos : 0 < begin + amount)
    (hlt : begin.toNat < values.length) :
    ∃ v rest, values.drop begin.toNat = v :: rest ∧
      Leads (step (TakeRange.combinator V) demand) (start (.initial begin amount) values)
        ⟨.next, ⟨begin, amount, begin⟩, v :: rest, begin.toNat, [], 0⟩ := by
  have hlength : (values.take begin.toNat).length = begin.toNat := by
    rw [List.length_take]
    exact Nat.min_eq_left (Nat.le_of_lt hlt)
  obtain ⟨j, hj, hskip⟩ := leads_begin hd hpos (values.take begin.toNat) (values.drop begin.toNat)
    (Nat.le_of_eq hlength)
  rw [hlength, UInt64.toNat_inj] at hj
  rw [List.take_append_drop, hlength, hj] at hskip
  have hdrop : values.drop begin.toNat = values[begin.toNat] :: values.drop (begin.toNat + 1) :=
    List.drop_eq_getElem_cons hlt
  rw [hdrop] at hskip
  exact ⟨_, _, hdrop, hskip⟩

theorem takes_of_sum_lt (hd : demand [] = .next) (hsum : begin.toNat + amount.toNat < 2 ^ 64)
    (ha : 0 < amount) : Takes begin amount demand values := by
  have hnat := toNat_pos ha
  have hadd : (begin + amount).toNat = begin.toNat + amount.toNat := by
    rw [UInt64.toNat_add]
    exact Nat.mod_eq_of_lt hsum
  have hin : begin < begin + amount := by
    rw [UInt64.lt_iff_toNat_lt, hadd]
    exact Nat.lt_add_of_pos_right hnat
  have hpos : 0 < begin + amount := UInt64.lt_of_le_of_lt UInt64.zero_le hin
  rcases Nat.lt_or_ge begin.toNat values.length with hlt | hge
  · obtain ⟨v, rest, hdrop, hrun⟩ := leads_range hd hpos hlt
    obtain ⟨t, ht, hc, he, hr, hasked⟩ := leads_take demand rest [v] (begin.toNat + 1) hadd
      (by rw [toNat_succ hin]; omega) (by rw [toNat_succ hin]; omega)
    have hbody : step (TakeRange.combinator V) demand
        ⟨.next, ⟨begin, amount, begin⟩, v :: rest, begin.toNat, [], 0⟩ =
        ⟨.demand, ⟨begin, amount, begin + 1⟩, rest, begin.toNat + 1, [v], 0⟩ := by
      simp [step, TakeRange.combinator, TakeRange.body, State.call, hin]
    rw [← hbody] at ht
    rw [toNat_succ hin] at hr hasked
    obtain ⟨m, hm⟩ : ∃ m, amount.toNat = m + 1 := ⟨amount.toNat - 1, by omega⟩
    have hm' : begin.toNat + amount.toNat - (begin.toNat + 1) = m := by omega
    refine takes_of_leads (hrun.trans (Iteration.leads_step.trans ht)) hc he ?_ (by omega)
      fun h0 => absurd (h0 ▸ ha) (UInt64.lt_irrefl 0)
    rw [hr, hm', range, hdrop, hm, List.take_succ_cons, wanted_next hd]
    rfl
  · exact takes_of_length_le hd hpos ha hge

/-- A range that wraps around has no value in it, and the test after the range takes it for one that
has been passed. -/
theorem leads_wrapped (hd : demand [] = .next) (hpos : 0 < begin + amount)
    (hwrap : 2 ^ 64 ≤ begin.toNat + amount.toNat) (hlt : begin.toNat < values.length) :
    ∃ t, Leads (step (TakeRange.combinator V) demand) (start (.initial begin amount) values) t ∧
      t.control = .failed .takeRange := by
  have hadd : (begin + amount).toNat < begin.toNat := by
    have hmax := UInt64.toNat_lt amount
    have hmax' := UInt64.toNat_lt begin
    rw [UInt64.toNat_add, Nat.mod_eq_sub_mod hwrap, Nat.mod_eq_of_lt (by omega)]
    omega
  have hnlt : ¬ begin < begin + amount := by
    rw [UInt64.lt_iff_toNat_lt]
    omega
  have hne : ¬ begin = begin + amount := by
    intro h
    rw [← h] at hadd
    exact Nat.lt_irrefl _ hadd
  obtain ⟨v, rest, -, hrun⟩ := leads_range hd hpos hlt
  refine ⟨_, hrun.trans Iteration.leads_step, ?_⟩
  simp only [step, TakeRange.combinator, TakeRange.body, hnlt, hne, UInt64.lt_irrefl, and_false,
    if_false, State.call]

theorem range_ne_nil {begin amount : ℕ} (ha : 0 < amount) (hlt : begin < values.length) :
    range begin amount values ≠ [] := by
  intro h
  have hlength := congrArg List.length h
  rw [range, List.length_take, List.length_drop, List.length_nil] at hlength
  omega

theorem wanted_ne_nil (hd : demand [] = .next) (h : values ≠ []) :
    wanted demand [] values ≠ [] := by
  obtain ⟨v, values, rfl⟩ := List.exists_cons_of_ne_nil h
  rw [wanted_next hd]
  intro hnil
  have hprefix := prefix_wanted demand [v] values
  exact absurd (List.prefix_nil.mp (hnil ▸ hprefix)) (by simp)

theorem asked_next {c : Combinator S V} {s : State S V} (h : s.control = .next) :
    (step c demand s).asked = s.asked + 1 := by
  unfold step
  rw [h]
  dsimp only
  split <;> exact asked_call ..

theorem begin_eq_of_empty (hd : demand [] = .next) (h : Takes begin 0 demand values) :
    begin = 0 := by
  by_contra hb
  have hpos : 0 < begin + 0 := by
    rw [UInt64.add_zero]
    exact UInt64.pos_iff_ne_zero.mpr hb
  have hzero := (h.asks _ ((leads_first hd hpos).trans Iteration.leads_step)).2 rfl
  rw [asked_next rfl] at hzero
  cases hzero

theorem takes_of_done (hd : demand [] = .done) : Takes begin amount demand values := by
  have hstep : step (TakeRange.combinator V) demand (start (.initial begin amount) values) =
      ⟨.done, .initial begin amount, values, 0, [], 0⟩ := by
    simp [step, start, hd, TakeRange.combinator, TakeRange.done, State.call]
  have hfirst : Leads (step (TakeRange.combinator V) demand) (start (.initial begin amount) values)
      ⟨.done, .initial begin amount, values, 0, [], 0⟩ := hstep ▸ Iteration.leads_step
  exact takes_of_leads (hfirst.trans Iteration.leads_step) rfl rfl (wanted_done hd).symm
    (Nat.zero_le _) fun _ => rfl

/-- If downstream wants nothing of what there is, the first answer may be that this was all. -/
theorem takes_of_zero (hd : demand [] = .next) (hzero : begin + amount = 0)
    (hnil : range begin.toNat amount.toNat values = []) : Takes begin amount demand values :=
  takes_of_leads (leads_none hd hzero) rfl rfl (congrArg (wanted demand []) hnil).symm
    (Nat.zero_le _) fun _ => rfl

theorem length_le_of_wrapped (hd : demand [] = .next)
    (hwrap : 2 ^ 64 ≤ begin.toNat + amount.toNat) (h : Takes begin amount demand values) :
    values.length ≤ begin.toNat := by
  by_contra hlt
  rw [Nat.not_le] at hlt
  have ha : 0 < amount.toNat := by
    have hmax := UInt64.toNat_lt begin
    omega
  by_cases hzero : begin + amount = 0
  · obtain ⟨t, ht, hc, hr⟩ := h.emits.ends
    have heq := ht.unique (leads_none hd hzero) (step_ended hc) (step_ended rfl)
    rw [heq] at hr
    exact wanted_ne_nil hd (range_ne_nil ha hlt) hr.symm
  · obtain ⟨t, ht, hf⟩ := leads_wrapped hd (UInt64.pos_iff_ne_zero.mpr hzero) hwrap hlt
    exact h.emits.unfailed t ht _ hf

/-- `TakeRange` takes its range if and only if the range does not wrap around, or the stream ends
before it; an empty range has to begin with the stream. -/
theorem takeRange_takes_iff (begin amount : UInt64) (values : List V) (demand : List V → Demand) :
    Takes begin amount demand values ↔
      demand [] = .done ∨
        if begin.toNat + amount.toNat < 2 ^ 64 then 0 < amount ∨ begin = 0
        else values.length ≤ begin.toNat := by
  constructor
  · intro h
    cases hd : demand [] with
    | done => exact .inl rfl
    | next =>
      refine .inr ?_
      split
      · by_cases ha : amount = 0
        · subst ha
          exact .inr (begin_eq_of_empty hd h)
        · exact .inl (UInt64.pos_iff_ne_zero.mpr ha)
      · exact length_le_of_wrapped hd (Nat.le_of_not_lt ‹_›) h
  · intro h
    cases hd : demand [] with
    | done => exact takes_of_done hd
    | next =>
      have hcond := h.resolve_left (by simp [hd])
      split at hcond
      · by_cases ha : amount = 0
        · subst ha
          obtain rfl := hcond.resolve_left (UInt64.lt_irrefl 0)
          exact takes_of_zero hd (UInt64.add_zero 0) List.take_zero
        · exact takes_of_sum_lt hd ‹_› (UInt64.pos_iff_ne_zero.mpr ha)
      · by_cases hzero : begin + amount = 0
        · exact takes_of_zero hd hzero (range_of_length_le hcond)
        · refine takes_of_length_le hd (UInt64.pos_iff_ne_zero.mpr hzero) ?_ hcond
          have hmax := UInt64.toNat_lt begin
          rw [UInt64.lt_iff_toNat_lt, UInt64.toNat_zero]
          omega

/-- An empty range asks for the values before it, and a range that wraps around fails. -/
theorem takeRange_fails :
    ¬ Takes 3 0 (fun _ : List ℕ => .next) [5, 12] ∧
      ¬ Takes 2 0xFFFFFFFFFFFFFFFF (fun _ : List ℕ => .next) [5, 12, 20] := by
  constructor
  · intro h
    exact absurd ((h.asks _ ⟨2, rfl⟩).2 rfl) (by decide)
  · intro h
    exact h.emits.unfailed _ ⟨4, rfl⟩ .takeRange rfl

end Range

end Eventuals.Take
