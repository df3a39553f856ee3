import Eventuals.Library.Countdown
import Mathlib.Algebra.Group.Nat.Defs
import Mathlib.Algebra.Order.Group.Int

/-! `EventLoop::Clock`: what is submitted to a paused clock waits until the clock is advanced or
resumed (`event-loop.h`, `event-loop.cc`). A duration is a number of nanoseconds in a signed 64 bit
integer. -/
namespace Eventuals.EventLoop

/-- A value of `std::chrono::nanoseconds`. -/
def Representable (n : ℤ) : Prop := -2 ^ 63 ≤ n ∧ n < 2 ^ 63

instance (n : ℤ) : Decidable (Representable n) :=
  inferInstanceAs (Decidable (-2 ^ 63 ≤ n ∧ n < 2 ^ 63))

/-- What a sum, a difference or a product of durations is. It is not defined where it overflows;
`overflow` says what the program goes on with then. -/
def result (overflow : ℤ → ℤ) (n : ℤ) : ℤ := if Representable n then n else overflow n

/-- Two's complement. -/
def wrap (n : ℤ) : ℤ := Int.bmod n (2 ^ 64)

/-- The callback is due once the clock has advanced by `nanoseconds` since it was paused. -/
structure Pending (κ : Type*) where
  nanoseconds : ℤ
  callback : κ
  deriving DecidableEq

structure Clock (κ : Type*) where
  paused : Option ℤ
  advanced : ℤ
  pending : List (Pending κ)
  deriving DecidableEq

variable {κ : Type*} (overflow : ℤ → ℤ)

def Clock.initial : Clock κ := ⟨none, 0, []⟩

def Clock.isPaused (c : Clock κ) : Bool := c.paused.isSome

/-- `uvNow` is what `uv_now` returns, in milliseconds. -/
def Clock.now (c : Clock κ) (uvNow : ℕ) : ℤ :=
  match c.paused with
  | some paused => result overflow (paused + c.advanced)
  | none => result overflow (uvNow * 1000000)

/-- `timers` is the number of active `uv_timer_t` handles that `uv_walk` counts. A failed `CHECK` is
`none`, here and below. -/
def Clock.pause (c : Clock κ) (uvNow timers : ℕ) : Option (Clock κ) :=
  if c.isPaused then none
  else if timers ≠ 0 then none
  else some { c with paused := some (c.now overflow uvNow), advanced := 0 }

/-- The calls of a function are listed with the callback and the nanoseconds it is called with. -/
def Clock.resume (c : Clock κ) : Option (Clock κ × List (κ × ℤ)) :=
  if c.isPaused then
    some ({ c with pending := [], paused := none },
      c.pending.map fun p => (p.callback, result overflow (p.nanoseconds - c.advanced)))
  else none

/-- `std::remove_if`, with the calls that its predicate makes. -/
def expire (advanced : ℤ) : List (Pending κ) → List (Pending κ) × List (κ × ℤ)
  | [] => ([], [])
  | p :: ps =>
    let (kept, calls) := expire advanced ps
    if p.nanoseconds ≤ advanced then (kept, (p.callback, 0) :: calls) else (p :: kept, calls)

def Clock.advance (c : Clock κ) (nanoseconds : ℤ) : Option (Clock κ × List (κ × ℤ)) :=
  if c.isPaused then
    let advanced := result overflow (c.advanced + nanoseconds)
    let (pending, calls) := expire advanced c.pending
    some ({ c with advanced, pending }, calls)
  else none

def Clock.submit (c : Clock κ) (callback : κ) (nanoseconds : ℤ) : Clock κ × List (κ × ℤ) :=
  if c.isPaused then
    ({ c with pending := c.pending ++ [⟨result overflow (nanoseconds + c.advanced), callback⟩] },
      [])
  else (c, [(callback, nanoseconds)])

section Countdowns

/-- Every pending callback with the time the clock still has to advance. -/
def Clock.countdowns (c : Clock κ) : List (κ × ℤ) :=
  c.pending.map fun p => (p.callback, p.nanoseconds - c.advanced)

variable {overflow : ℤ → ℤ} {c c' : Clock κ} {calls : List (κ × ℤ)} {a b n : ℤ}

theorem result_of_representable (h : Representable n) : result overflow n = n := if_pos h

theorem expire_eq (b a : ℤ) (ps : List (Pending κ)) :
    let l := ps.map fun p => (p.callback, p.nanoseconds - b)
    ((expire (b + a) ps).1.map fun p => (p.callback, p.nanoseconds - (b + a))) =
        Countdown.remaining a l ∧
      (expire (b + a) ps).2 = (Countdown.expired a l).map fun k => (k, 0) := by
  induction ps with
  | nil => exact ⟨rfl, rfl⟩
  | cons p ps ih =>
    obtain ⟨hkept, hcalls⟩ := ih
    simp only [expire, List.map_cons]
    rcases le_or_gt (p.nanoseconds - b) a with hp | hp
    · have hle : p.nanoseconds ≤ b + a := by omega
      rw [Countdown.remaining_cons_of_le hp, Countdown.expired_cons_of_le hp, if_pos hle]
      exact ⟨hkept, by rw [hcalls, List.map_cons]⟩
    · have hlt : ¬ p.nanoseconds ≤ b + a := by omega
      rw [Countdown.remaining_cons_of_lt hp, Countdown.expired_cons_of_lt hp, if_neg hlt]
      refine ⟨?_, hcalls⟩
      rw [List.map_cons, hkept, sub_sub]

/-- The countdowns go down by what the clock has in fact been advanced. -/
theorem advance_countdowns (h : c.advance overflow a = some (c', calls)) :
    c'.advanced = result overflow (c.advanced + a) ∧
      c'.countdowns = Countdown.remaining (c'.advanced - c.advanced) c.countdowns ∧
      calls = (Countdown.expired (c'.advanced - c.advanced) c.countdowns).map fun k => (k, 0) := by
  simp only [Clock.advance] at h
  split at h
  · cases h
    have hexpire := expire_eq c.advanced (result overflow (c.advanced + a) - c.advanced) c.pending
    rw [add_sub_cancel] at hexpire
    exact ⟨rfl, hexpire⟩
  · cases h

theorem resume_countdowns (h : c.resume overflow = some (c', calls)) :
    c'.countdowns = [] ∧ calls = c.countdowns.map fun e => (e.1, result overflow e.2) := by
  simp only [Clock.resume] at h
  split at h
  · cases h
    exact ⟨rfl, by simp [Clock.countdowns]⟩
  · cases h

theorem submit_countdowns (overflow : ℤ → ℤ) (h : c.isPaused = true) (k : κ) (d : ℤ) :
    (c.submit overflow k d).1.countdowns =
        c.countdowns ++ [(k, result overflow (d + c.advanced) - c.advanced)] ∧
      (c.submit overflow k d).2 = [] := by
  simp [Clock.submit, Clock.countdowns, h]

theorem exists_advance (overflow : ℤ → ℤ) (h : c.isPaused = true) (a : ℤ) :
    ∃ c' calls, c.advance overflow a = some (c', calls) ∧ c'.paused = c.paused ∧
      c'.advanced = result overflow (c.advanced + a) := by
  refine ⟨{ c with
      advanced := result overflow (c.advanced + a)
      pending := (expire (result overflow (c.advanced + a)) c.pending).1 },
    (expire (result overflow (c.advanced + a)) c.pending).2, ?_, rfl, rfl⟩
  simp [Clock.advance, h]

/-- Unless a sum overflows, an advance is what it is called with. -/
theorem advance_of_representable (hn : Representable (c.advanced + a))
    (h : c.advance overflow a = some (c', calls)) :
    c'.advanced = c.advanced + a ∧ c'.countdowns = Countdown.remaining a c.countdowns ∧
      calls = (Countdown.expired a c.countdowns).map fun k => (k, 0) := by
  obtain ⟨ha, hc, hcalls⟩ := advance_countdowns h
  rw [result_of_representable hn] at ha
  rw [ha, add_sub_cancel_left] at hc hcalls
  exact ⟨ha, hc, hcalls⟩

theorem resume_of_representable (hn : ∀ e ∈ c.countdowns, Representable e.2)
    (h : c.resume overflow = some (c', calls)) : calls = c.countdowns := by
  rw [(resume_countdowns h).2]
  calc (c.countdowns.map fun e => (e.1, result overflow e.2)) = c.countdowns.map id :=
        List.map_congr_left fun e he => by rw [result_of_representable (hn e he)]; rfl
    _ = c.countdowns := List.map_id _

/-- The pending entries are the countdowns and the time advanced together. -/
theorem pending_ext (ha : c.advanced = c'.advanced) (hc : c.countdowns = c'.countdowns) :
    c.pending = c'.pending := by
  simp only [Clock.countdowns, ha] at hc
  refine List.map_injective_iff.mpr ?_ hc
  rintro ⟨n, k⟩ ⟨m, k'⟩ h
  simp only [Prod.mk.injEq, sub_left_inj] at h
  simp [h]

/-- A clock that is advanced in two parts stands as if it had been advanced at once. -/
theorem advance_advance (hp : c.isPaused = true) (ha : 0 ≤ a) (hb : 0 ≤ b)
    (hc : Representable c.advanced) (hn : Representable (c.advanced + (a + b))) :
    ∃ c₁ f₁ c₂ f₂ c₃ f₃, c.advance overflow a = some (c₁, f₁) ∧
      c₁.advance overflow b = some (c₂, f₂) ∧ c.advance overflow (a + b) = some (c₃, f₃) ∧
      c₂.pending = c₃.pending ∧ (∀ uvNow, c₂.now overflow uvNow = c₃.now overflow uvNow) ∧
      (f₁ ++ f₂).Perm f₃ := by
  obtain ⟨c₁, f₁, h₁, hp₁, -⟩ := exists_advance overflow hp a
  have hpaused : c₁.isPaused = true := by rwa [Clock.isPaused, hp₁]
  obtain ⟨c₂, f₂, h₂, hp₂, -⟩ := exists_advance overflow hpaused b
  obtain ⟨c₃, f₃, h₃, hp₃, -⟩ := exists_advance overflow hp (a + b)
  have hn₁ : Representable (c.advanced + a) := by
    unfold Representable at *
    omega
  obtain ⟨ha₁, hc₁, rfl⟩ := advance_of_representable hn₁ h₁
  have hn₂ : Representable (c₁.advanced + b) := by rwa [ha₁, add_assoc]
  obtain ⟨ha₂, hc₂, rfl⟩ := advance_of_representable hn₂ h₂
  obtain ⟨ha₃, hc₃, rfl⟩ := advance_of_representable hn h₃
  have ha : c₂.advanced = c₃.advanced := by omega
  have hpp : c₂.paused = c₃.paused := by rw [hp₂, hp₁, hp₃]
  refine ⟨c₁, _, c₂, _, c₃, _, h₁, h₂, h₃, pending_ext ha ?_, ?_, ?_⟩
  · rw [hc₂, hc₁, hc₃, Countdown.remaining_remaining hb]
  · intro uvNow
    rw [Clock.now, Clock.now, hpp, ha]
  · rw [hc₁, ← List.map_append]
    exact (Countdown.expired_append_perm hb c.countdowns).map _

end Countdowns

end Eventuals.EventLoop
