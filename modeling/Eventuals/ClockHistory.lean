import Eventuals.Library.Transition
import Eventuals.Clock
import Mathlib.Algebra.BigOperators.Group.List.Basic
import Mathlib.Algebra.Ring.Int.Defs

/-! Runs of a `Clock`: when each submitted callback is called, and with which delay. -/
namespace Eventuals.EventLoop

open Transition (Machine)
open Transition.Machine (stateAt)

variable {κ : Type*}

inductive Label
  | pause (uvNow timers : ℕ)
  | submit (nanoseconds : ℤ)
  | advance (nanoseconds : ℤ)
  | resume
  deriving DecidableEq

/-- A clock whose callbacks are known by how many were submitted before them. -/
structure Timeline where
  clock : Clock ℕ
  submitted : ℕ
  deriving DecidableEq

section Machine

variable (overflow : ℤ → ℤ)

def Timeline.perform (s : Timeline) : Label → Option (Timeline × List (ℕ × ℤ))
  | .pause uvNow timers =>
    (s.clock.pause overflow uvNow timers).map fun c => ({ s with clock := c }, [])
  | .submit nanoseconds =>
    let (clock, calls) := s.clock.submit overflow s.submitted nanoseconds
    some (⟨clock, s.submitted + 1⟩, calls)
  | .advance nanoseconds =>
    (s.clock.advance overflow nanoseconds).map fun r => ({ s with clock := r.1 }, r.2)
  | .resume => (s.clock.resume overflow).map fun r => ({ s with clock := r.1 }, r.2)

/-- The time by which the step advances the clock. -/
def Label.amount : Label → ℤ
  | .advance nanoseconds => nanoseconds
  | _ => 0

/-- The duration that the step is called with. -/
def Label.nanoseconds : Label → ℤ
  | .submit nanoseconds | .advance nanoseconds => nanoseconds
  | _ => 0

/-- Steps that pass every `CHECK`; the clock is never advanced backwards. -/
def machine : Machine Timeline Label where
  Initial s := s = ⟨.initial, 0⟩
  Enabled s l :=
    (s.perform overflow l).isSome = true ∧ 0 ≤ l.amount ∧ Representable l.nanoseconds
  next s l := ((s.perform overflow l).map Prod.fst).getD s

instance (s : Timeline) (l : Label) : Decidable ((machine overflow).Enabled s l) :=
  inferInstanceAs (Decidable
    ((s.perform overflow l).isSome = true ∧ 0 ≤ l.amount ∧ Representable l.nanoseconds))

/-- The delays that the callback named `k` is called with during the step. -/
def delays (k : ℕ) (p : Timeline × Label) : List ℤ :=
  ((((p.1.perform overflow p.2).map Prod.snd).getD []).filter fun e => e.1 = k).map Prod.snd

/-- The step adds no durations whose sum no `nanoseconds` holds. -/
def Fits (s : Timeline) : Label → Prop
  | .submit nanoseconds =>
    s.clock.isPaused = true → Representable (nanoseconds + s.clock.advanced)
  | .advance nanoseconds => Representable (s.clock.advanced + nanoseconds)
  | .pause .. | .resume => True

instance (s : Timeline) : (l : Label) → Decidable (Fits s l)
  | .submit nanoseconds => inferInstanceAs (Decidable
      (s.clock.isPaused = true → Representable (nanoseconds + s.clock.advanced)))
  | .advance nanoseconds =>
    inferInstanceAs (Decidable (Representable (s.clock.advanced + nanoseconds)))
  | .pause .. | .resume => isTrue trivial

/-- The machine as long as no sum overflows. -/
abbrev fitting : Machine Timeline Label := (machine overflow).restrict Fits

end Machine

variable {overflow : ℤ → ℤ} {s t u : Timeline} {l : Label} {xs : List (Timeline × Label)}
  {i j k : ℕ} {d r : ℤ}

/-- The time advanced by the first `k` steps. -/
def elapsed (xs : List (Timeline × Label)) (k : ℕ) : ℤ := ((xs.take k).map fun p => p.2.amount).sum

/-- The time advanced after step `i`, up to and including step `j`. -/
def total (xs : List (Timeline × Label)) (i j : ℕ) : ℤ := elapsed xs (j + 1) - elapsed xs (i + 1)

/-- Step `j` is an `Advance` that reaches `d` since step `i`, or a later `Resume`. -/
def Due (xs : List (Timeline × Label)) (i : ℕ) (d : ℤ) (j : ℕ) : Prop :=
  i < j ∧ ((∃ t a, xs[j]? = some (t, .advance a) ∧ d ≤ total xs i j) ∨
    ∃ t, xs[j]? = some (t, .resume))

def FirstDue (xs : List (Timeline × Label)) (i : ℕ) (d : ℤ) (j : ℕ) : Prop :=
  Due xs i d j ∧ ∀ n < j, ¬ Due xs i d n

/-- The callback `k`, submitted at step `i` for `d`, is called once, when it first is due. -/
structure Served (overflow : ℤ → ℤ) (xs : List (Timeline × Label)) (u : Timeline) (i k : ℕ)
    (d : ℤ) : Prop where
  advance : ∀ j t a, xs[j]? = some (t, .advance a) → FirstDue xs i d j →
    delays overflow k (t, .advance a) = [0]
  resume : ∀ j t, xs[j]? = some (t, .resume) → FirstDue xs i d j →
    delays overflow k (t, .resume) = [d - total xs i j]
  silent : ∀ j p, xs[j]? = some p → ¬ FirstDue xs i d j → delays overflow k p = []
  pending : (∃ e ∈ u.clock.pending, e.callback = k) ↔ ∀ j, ¬ Due xs i d j

section Steps

variable {calls : List (ℕ × ℤ)} {a : ℤ} {n m : ℕ}

theorem perform_pause (h : s.perform overflow (.pause n m) = some (t, calls)) :
    s.clock.isPaused = false ∧ t.clock.isPaused = true ∧ t.clock.pending = s.clock.pending ∧
      t.submitted = s.submitted ∧ calls = [] := by
  simp only [Timeline.perform, Option.map_eq_some_iff] at h
  obtain ⟨c, hc, h⟩ := h
  cases h
  simp only [Clock.pause] at hc
  split at hc
  · cases hc
  · next hp =>
    split at hc
    · cases hc
    · cases hc
      exact ⟨by simpa using hp, rfl, rfl, rfl, rfl⟩

theorem perform_submit (hf : Fits s (.submit d))
    (h : s.perform overflow (.submit d) = some (t, calls)) :
    t.submitted = s.submitted + 1 ∧ t.clock.isPaused = s.clock.isPaused ∧
      (s.clock.isPaused = true → t.clock.countdowns = s.clock.countdowns ++ [(s.submitted, d)] ∧
        calls = []) ∧
      (s.clock.isPaused = false → t.clock = s.clock ∧ calls = [(s.submitted, d)]) := by
  simp only [Timeline.perform, Option.some.injEq, Prod.mk.injEq] at h
  obtain ⟨rfl, rfl⟩ := h
  refine ⟨rfl, ?_, fun hp => ?_, fun hp => ?_⟩
  · simp only [Clock.submit]
    split <;> rfl
  · have hcount := submit_countdowns overflow hp s.submitted d
    rwa [result_of_representable (hf hp), add_sub_cancel_right] at hcount
  · simp [Clock.submit, hp]

theorem perform_advance (hf : Fits s (.advance a))
    (h : s.perform overflow (.advance a) = some (t, calls)) :
    s.clock.isPaused = true ∧ t.clock.isPaused = true ∧ t.submitted = s.submitted ∧
      t.clock.countdowns = Countdown.remaining a s.clock.countdowns ∧
      calls = (Countdown.expired a s.clock.countdowns).map fun k => (k, 0) := by
  simp only [Timeline.perform, Option.map_eq_some_iff] at h
  obtain ⟨⟨c, calls'⟩, hc, h⟩ := h
  cases h
  have hcount := (advance_of_representable hf hc).2
  simp only [Clock.advance] at hc
  split at hc
  · next hp =>
    cases hc
    exact ⟨hp, hp, rfl, hcount⟩
  · cases hc

theorem perform_resume (h : s.perform overflow .resume = some (t, calls)) :
    s.clock.isPaused = true ∧ t.clock.pending = [] ∧ t.submitted = s.submitted ∧
      ((∀ e ∈ s.clock.countdowns, Representable e.2) → calls = s.clock.countdowns) := by
  simp only [Timeline.perform, Option.map_eq_some_iff] at h
  obtain ⟨⟨c, calls'⟩, hc, h⟩ := h
  cases h
  have hcount := fun hn => resume_of_representable hn hc
  simp only [Clock.resume] at hc
  split at hc
  · next hp =>
    cases hc
    exact ⟨hp, rfl, rfl, hcount⟩
  · cases hc

/-- The names of the pending callbacks. -/
def Timeline.names (s : Timeline) : List ℕ := s.clock.countdowns.map Prod.fst

structure WellFormed (s : Timeline) : Prop where
  nodup : s.names.Nodup
  fresh : ∀ k ∈ s.names, k < s.submitted
  running : s.clock.isPaused = false → s.clock.pending = []
  representable : ∀ e ∈ s.clock.countdowns, Representable e.2
  advanced : Representable s.clock.advanced

theorem countdowns_of_pending_nil (h : s.clock.pending = []) : s.clock.countdowns = [] := by
  simp [Clock.countdowns, h]

theorem names_of_pending_nil (h : s.clock.pending = []) : s.names = [] := by
  simp [Timeline.names, countdowns_of_pending_nil h]

theorem wellFormed_of_nil (hp : s.clock.pending = []) (ha : Representable s.clock.advanced) :
    WellFormed s := by
  have hnames := names_of_pending_nil hp
  exact ⟨by simp [hnames], by simp [hnames], fun _ => hp,
    by simp [countdowns_of_pending_nil hp], ha⟩

theorem advanced_perform (ha : Representable s.clock.advanced) (hf : Fits s l)
    (h : s.perform overflow l = some (t, calls)) : Representable t.clock.advanced := by
  cases l with
  | pause n m =>
    simp only [Timeline.perform, Clock.pause, Option.map_eq_some_iff] at h
    obtain ⟨c, hc, h⟩ := h
    cases h
    split at hc
    · cases hc
    · split at hc
      · cases hc
      · cases hc
        exact (by decide : Representable 0)
  | submit d =>
    simp only [Timeline.perform, Clock.submit, Option.some.injEq, Prod.mk.injEq] at h
    obtain ⟨rfl, -⟩ := h
    dsimp only
    split <;> exact ha
  | advance a =>
    simp only [Timeline.perform, Option.map_eq_some_iff] at h
    obtain ⟨⟨c, calls'⟩, hc, h⟩ := h
    cases h
    simp only [Clock.advance, result_of_representable hf] at hc
    split at hc
    · cases hc
      exact hf
    · cases hc
  | resume =>
    simp only [Timeline.perform, Option.map_eq_some_iff] at h
    obtain ⟨⟨c, calls'⟩, hc, h⟩ := h
    cases h
    simp only [Clock.resume] at hc
    split at hc
    · cases hc
      exact ha
    · cases hc

theorem exists_perform (he : (fitting overflow).Enabled s l) :
    ∃ calls, s.perform overflow l = some ((fitting overflow).next s l, calls) := by
  obtain ⟨r, hr⟩ := Option.isSome_iff_exists.mp he.1.1
  exact ⟨r.2, by simp [fitting, Machine.restrict, machine, hr]⟩

theorem wellFormed_next (hs : WellFormed s) (he : (fitting overflow).Enabled s l) :
    WellFormed ((fitting overflow).next s l) := by
  obtain ⟨calls, h⟩ := exists_perform he
  have hadvanced := advanced_perform hs.advanced he.2 h
  obtain ⟨⟨-, hamount, hl⟩, hf⟩ := he
  cases l with
  | pause n m =>
    obtain ⟨hp, -, hpending, -⟩ := perform_pause h
    exact wellFormed_of_nil (hpending.trans (hs.running hp)) hadvanced
  | submit d =>
    obtain ⟨hsub, hp, hpaused, hrunning⟩ := perform_submit hf h
    cases hps : s.clock.isPaused with
    | false =>
      have hpending := congrArg Clock.pending (hrunning hps).1
      exact wellFormed_of_nil (hpending.trans (hs.running hps)) hadvanced
    | true =>
      obtain ⟨hc, -⟩ := hpaused hps
      have hnames : ((fitting overflow).next s (.submit d)).names = s.names ++ [s.submitted] := by
        simp [Timeline.names, hc]
      have hnew : s.submitted ∉ s.names := fun hm => absurd (hs.fresh _ hm) (by omega)
      refine ⟨?_, ?_, fun hf => ?_, ?_, hadvanced⟩
      · rw [hnames]
        exact List.nodup_append.mpr ⟨hs.nodup, by simp, by
          intro x hx y hy hxy
          rw [List.mem_singleton] at hy
          exact hnew (hy ▸ hxy ▸ hx)⟩
      · intro k hk
        rw [hnames, List.mem_append, List.mem_singleton] at hk
        rcases hk with hk | hk
        · have := hs.fresh k hk
          omega
        · omega
      · rw [hp, hps] at hf
        cases hf
      · intro e he
        rw [hc, List.mem_append, List.mem_singleton] at he
        rcases he with he | rfl
        · exact hs.representable e he
        · exact hl
  | advance a =>
    obtain ⟨-, hp, hsub, hc, -⟩ := perform_advance hf h
    have hsubl : ((fitting overflow).next s (.advance a)).names.Sublist s.names := by
      rw [Timeline.names, hc]
      exact Countdown.map_fst_remaining_sublist
    refine ⟨hsubl.nodup hs.nodup, fun k hk => ?_, fun hf => ?_, ?_, hadvanced⟩
    · rw [hsub]
      exact hs.fresh k (hsubl.subset hk)
    · rw [hp] at hf
      cases hf
    · rintro ⟨k, r⟩ he
      rw [hc, Countdown.mem_remaining] at he
      have hbefore : Representable (r + a) := hs.representable _ he.2
      have ha : 0 ≤ a := hamount
      have hpos := he.1
      unfold Representable at hbefore ⊢
      constructor <;> dsimp only <;> omega
  | resume => exact wellFormed_of_nil (perform_resume h).2.1 hadvanced

theorem reachable_wellFormed (h : (fitting overflow).Reachable s) : WellFormed s := by
  apply h.invariant
  · rintro s rfl
    exact wellFormed_of_nil rfl (by decide)
  · intro s l hs he
    exact wellFormed_next hs he

theorem delays_eq (h : s.perform overflow l = some (t, calls)) :
    delays overflow k (s, l) = (calls.filter fun e => e.1 = k).map Prod.snd := by
  simp [delays, h]

/-- Among entries of distinct names, one name picks at most its own entry. -/
theorem filter_eq_singleton {es : List (ℕ × ℤ)} (hn : (es.map Prod.fst).Nodup)
    (hm : (k, r) ∈ es) : (es.filter fun e => e.1 = k).map Prod.snd = [r] := by
  induction es with
  | nil => cases hm
  | cons e es ih =>
    simp only [List.map_cons, List.nodup_cons] at hn
    rcases List.mem_cons.mp hm with rfl | hm
    · have hnone : (es.filter fun e => e.1 = k) = [] := by
        rw [List.filter_eq_nil_iff]
        intro e he hk
        exact hn.1 (List.mem_map.mpr ⟨e, he, by simpa using hk⟩)
      simp [hnone]
    · have hne : e.1 ≠ k := fun hk => hn.1 (List.mem_map.mpr ⟨_, hm, hk.symm⟩)
      rw [List.filter_cons_of_neg (by simpa using hne)]
      exact ih hn.2 hm

theorem filter_eq_nil {es : List (ℕ × ℤ)} (hm : k ∉ es.map Prod.fst) :
    (es.filter fun e => e.1 = k).map Prod.snd = [] := by
  rw [List.map_eq_nil_iff, List.filter_eq_nil_iff]
  intro e he hk
  exact hm (List.mem_map.mpr ⟨e, he, by simpa using hk⟩)

theorem eq_of_mem_of_nodup {es : List (ℕ × ℤ)} {r' : ℤ} (hn : (es.map Prod.fst).Nodup)
    (hm : (k, r) ∈ es) (hm' : (k, r') ∈ es) : r = r' := by
  have h := filter_eq_singleton hn hm
  rw [filter_eq_singleton hn hm'] at h
  exact (List.singleton_inj.mp h).symm

/-- A callback that is not pending and not submitted by this step is not called by it. -/
theorem absent_step (hs : WellFormed s) (he : (fitting overflow).Enabled s l) (hk : k ∉ s.names)
    (hlt : k < s.submitted) : delays overflow k (s, l) = [] ∧
      k ∉ ((fitting overflow).next s l).names ∧ k < ((fitting overflow).next s l).submitted := by
  obtain ⟨calls, h⟩ := exists_perform he
  rw [delays_eq h]
  cases l with
  | pause n m =>
    obtain ⟨hp, -, hpending, hsub, rfl⟩ := perform_pause h
    rw [names_of_pending_nil (hpending.trans (hs.running hp)), hsub]
    exact ⟨rfl, by simp, hlt⟩
  | submit d =>
    obtain ⟨hsub, -, hpaused, hrunning⟩ := perform_submit he.2 h
    have hne : s.submitted ≠ k := by omega
    rw [hsub]
    cases hps : s.clock.isPaused with
    | false =>
      obtain ⟨hc, rfl⟩ := hrunning hps
      refine ⟨by simp [hne], ?_, by omega⟩
      rwa [Timeline.names, hc]
    | true =>
      obtain ⟨hc, rfl⟩ := hpaused hps
      refine ⟨rfl, ?_, by omega⟩
      simpa [Timeline.names, hc, hne.symm] using hk
  | advance a =>
    obtain ⟨-, -, hsub, hc, rfl⟩ := perform_advance he.2 h
    rw [hsub]
    refine ⟨filter_eq_nil ?_, ?_, hlt⟩
    · rw [List.map_map]
      simpa [Function.comp_def] using fun hm => hk (Countdown.expired_sublist.subset hm)
    · rw [Timeline.names, hc]
      exact fun hm => hk (Countdown.map_fst_remaining_sublist.subset hm)
  | resume =>
    obtain ⟨-, hnil, hsub, hcalls⟩ := perform_resume h
    obtain rfl := hcalls hs.representable
    rw [hsub, names_of_pending_nil hnil]
    exact ⟨filter_eq_nil hk, by simp, hlt⟩

/-- One step of a pending callback: whether it is called, and what is left otherwise. -/
theorem pending_step (hs : WellFormed s) (he : (fitting overflow).Enabled s l)
    (hm : (k, r) ∈ s.clock.countdowns) :
    match l with
    | .advance a =>
      (r ≤ a ∧ delays overflow k (s, l) = [0] ∧ k ∉ ((fitting overflow).next s l).names) ∨
        (a < r ∧ delays overflow k (s, l) = [] ∧
          (k, r - a) ∈ ((fitting overflow).next s l).clock.countdowns)
    | .resume => delays overflow k (s, l) = [r] ∧ k ∉ ((fitting overflow).next s l).names
    | _ => delays overflow k (s, l) = [] ∧
        (k, r) ∈ ((fitting overflow).next s l).clock.countdowns := by
  obtain ⟨calls, h⟩ := exists_perform he
  rw [delays_eq h]
  have hn : s.names.Nodup := hs.nodup
  have hk : k ∈ s.names := List.mem_map.mpr ⟨_, hm, rfl⟩
  have hps : s.clock.isPaused = true := by
    by_contra hf
    have hnil := hs.running (by simpa using hf)
    rw [names_of_pending_nil hnil] at hk
    cases hk
  cases l with
  | pause n m =>
    obtain ⟨hp, -⟩ := perform_pause h
    rw [hps] at hp
    cases hp
  | submit d =>
    obtain ⟨-, -, hpaused, -⟩ := perform_submit he.2 h
    obtain ⟨hc, rfl⟩ := hpaused hps
    exact ⟨rfl, by simp [hc, hm]⟩
  | advance a =>
    obtain ⟨-, -, -, hc, rfl⟩ := perform_advance he.2 h
    have hexp : ((Countdown.expired a s.clock.countdowns).map fun k => (k, (0 : ℤ))).map Prod.fst =
        Countdown.expired a s.clock.countdowns := by
      simp [Function.comp_def]
    rcases le_or_gt r a with hr | hr
    · left
      refine ⟨hr, filter_eq_singleton ?_ ?_, ?_⟩
      · rw [hexp]
        exact Countdown.expired_sublist.nodup hn
      · exact List.mem_map.mpr ⟨k, Countdown.mem_expired.mpr ⟨r, by omega, hm⟩, rfl⟩
      · simp only [Timeline.names, hc, List.mem_map, Prod.exists, not_exists, not_and]
        rintro k' r' hm' rfl
        obtain ⟨hpos, hm'⟩ := Countdown.mem_remaining.mp hm'
        have := eq_of_mem_of_nodup hn hm hm'
        omega
    · right
      refine ⟨hr, filter_eq_nil ?_, ?_⟩
      · rw [hexp, Countdown.mem_expired]
        rintro ⟨r', hr', hm'⟩
        have := eq_of_mem_of_nodup hn hm hm'
        omega
      · rw [hc, Countdown.mem_remaining]
        exact ⟨by omega, by simpa using hm⟩
  | resume =>
    obtain ⟨-, hnil, -, hcalls⟩ := perform_resume h
    obtain rfl := hcalls hs.representable
    refine ⟨filter_eq_singleton hn hm, ?_⟩
    rw [names_of_pending_nil hnil]
    simp

theorem submitted_step (he : (fitting overflow).Enabled s l) :
    s.submitted ≤ ((fitting overflow).next s l).submitted := by
  obtain ⟨calls, h⟩ := exists_perform he
  cases l with
  | pause n m => exact (perform_pause h).2.2.2.1.ge
  | submit d => exact (perform_submit he.2 h).1 ▸ Nat.le_succ _
  | advance a => exact (perform_advance he.2 h).2.2.1.ge
  | resume => exact (perform_resume h).2.2.1.ge

theorem unsubmitted_step (hs : WellFormed s) (he : (fitting overflow).Enabled s l)
    (hk : ((fitting overflow).next s l).submitted ≤ k) : delays overflow k (s, l) = [] := by
  obtain ⟨calls, h⟩ := exists_perform he
  have hle := submitted_step he
  have hnot : k ∉ s.names := fun hm => absurd (hs.fresh k hm) (by omega)
  rw [delays_eq h]
  cases l with
  | pause n m =>
    obtain ⟨-, -, -, -, rfl⟩ := perform_pause h
    rfl
  | submit d =>
    obtain ⟨hsub, -, hpaused, hrunning⟩ := perform_submit he.2 h
    cases hps : s.clock.isPaused with
    | false =>
      obtain ⟨-, rfl⟩ := hrunning hps
      have hne : s.submitted ≠ k := by omega
      simp [hne]
    | true => rw [(hpaused hps).2]; rfl
  | advance a =>
    obtain ⟨-, -, -, -, rfl⟩ := perform_advance he.2 h
    apply filter_eq_nil
    rw [List.map_map]
    simpa [Function.comp_def] using fun hm => hnot (Countdown.expired_sublist.subset hm)
  | resume =>
    obtain ⟨-, -, -, hcalls⟩ := perform_resume h
    obtain rfl := hcalls hs.representable
    exact filter_eq_nil hnot

end Steps

section Service

variable {p : Timeline × Label} {a : ℤ}

theorem elapsed_succ (h : xs[j]? = some p) : elapsed xs (j + 1) = elapsed xs j + p.2.amount := by
  simp [elapsed, List.take_add_one, h]

theorem total_eq (h : xs[j]? = some p) :
    total xs i j = elapsed xs j - elapsed xs (i + 1) + p.2.amount := by
  rw [total, elapsed_succ h]
  omega

/-- What a run has done by position `j` with the callback that was submitted at step `i`. -/
structure Awaits (xs : List (Timeline × Label)) (i k : ℕ) (d : ℤ) (j : ℕ) (t : Timeline) :
    Prop where
  known : k < t.submitted
  cases : ((∀ n < j, ¬ Due xs i d n) ∧
      (k, d - (elapsed xs j - elapsed xs (i + 1))) ∈ t.clock.countdowns) ∨
    ((∃ n < j, Due xs i d n) ∧ k ∉ t.names)

theorem due_advance (h : xs[j]? = some (t, .advance a)) :
    Due xs i d j ↔ i < j ∧ d - (elapsed xs j - elapsed xs (i + 1)) ≤ a := by
  have ht : total xs i j = elapsed xs j - elapsed xs (i + 1) + a := total_eq h
  constructor
  · rintro ⟨hij, ⟨t', a', h', hd⟩ | ⟨t', h'⟩⟩
    · exact ⟨hij, by omega⟩
    · rw [h] at h'
      cases h'
  · rintro ⟨hij, hr⟩
    exact ⟨hij, .inl ⟨t, a, h, by omega⟩⟩

theorem due_resume (h : xs[j]? = some (t, .resume)) : Due xs i d j ↔ i < j :=
  ⟨And.left, fun hij => ⟨hij, .inr ⟨t, h⟩⟩⟩

theorem not_due_pause {n m : ℕ} (h : xs[j]? = some (t, .pause n m)) : ¬ Due xs i d j := by
  rintro ⟨-, ⟨t', a', h', -⟩ | ⟨t', h'⟩⟩ <;> rw [h] at h' <;> cases h'

theorem not_due_submit {d' : ℤ} (h : xs[j]? = some (t, .submit d')) : ¬ Due xs i d j := by
  rintro ⟨-, ⟨t', a', h', -⟩ | ⟨t', h'⟩⟩ <;> rw [h] at h' <;> cases h'

theorem forall_lt_succ_not_due (hn : ∀ n < j, ¬ Due xs i d n) (hj : ¬ Due xs i d j) :
    ∀ n < j + 1, ¬ Due xs i d n := by
  intro n hlt
  rcases Nat.lt_succ_iff_lt_or_eq.mp hlt with hlt | rfl
  · exact hn n hlt
  · exact hj

/-- The step at position `j` calls the callback exactly if it is the first that is due. -/
theorem awaits_step (hs : WellFormed t) (hx : xs[j]? = some (t, l)) (hij : i < j)
    (he : (fitting overflow).Enabled t l) (hw : Awaits xs i k d j t) :
    Awaits xs i k d (j + 1) ((fitting overflow).next t l) ∧
      (FirstDue xs i d j → (∃ a, l = .advance a ∧ delays overflow k (t, l) = [0]) ∨
        l = .resume ∧ delays overflow k (t, l) = [d - total xs i j]) ∧
      (¬ FirstDue xs i d j → delays overflow k (t, l) = []) := by
  have hknown : k < ((fitting overflow).next t l).submitted := hw.known.trans_le (submitted_step he)
  have hel := elapsed_succ hx
  rcases hw.cases with ⟨hn, hm⟩ | ⟨⟨n, hlt, hn⟩, hm⟩
  · have hstep := pending_step hs he hm
    cases l with
    | pause n m =>
      have hnd : ¬ Due xs i d j := not_due_pause hx
      obtain ⟨hd, hm'⟩ := hstep
      refine ⟨⟨hknown, .inl ⟨forall_lt_succ_not_due hn hnd, ?_⟩⟩, fun h => absurd h.1 hnd,
        fun _ => hd⟩
      simpa [hel, Label.amount] using hm'
    | submit d' =>
      have hnd : ¬ Due xs i d j := not_due_submit hx
      obtain ⟨hd, hm'⟩ := hstep
      refine ⟨⟨hknown, .inl ⟨forall_lt_succ_not_due hn hnd, ?_⟩⟩, fun h => absurd h.1 hnd,
        fun _ => hd⟩
      simpa [hel, Label.amount] using hm'
    | advance a =>
      rcases hstep with ⟨hr, hd, hm'⟩ | ⟨hr, hd, hm'⟩
      · have hdue : Due xs i d j := (due_advance hx).mpr ⟨hij, hr⟩
        exact ⟨⟨hknown, .inr ⟨⟨j, Nat.lt_succ_self j, hdue⟩, hm'⟩⟩,
          fun _ => .inl ⟨a, rfl, hd⟩, fun h => absurd ⟨hdue, hn⟩ h⟩
      · have hnd : ¬ Due xs i d j := fun h => absurd ((due_advance hx).mp h).2 (by omega)
        refine ⟨⟨hknown, .inl ⟨forall_lt_succ_not_due hn hnd, ?_⟩⟩, fun h => absurd h.1 hnd,
          fun _ => hd⟩
        have hrest : d - (elapsed xs (j + 1) - elapsed xs (i + 1)) =
            d - (elapsed xs j - elapsed xs (i + 1)) - a := by
          rw [hel]
          simp only [Label.amount]
          omega
        rwa [hrest]
    | resume =>
      obtain ⟨hd, hm'⟩ := hstep
      have hdue : Due xs i d j := (due_resume hx).mpr hij
      have ht : total xs i j = elapsed xs j - elapsed xs (i + 1) := by
        rw [total_eq hx]
        simp [Label.amount]
      exact ⟨⟨hknown, .inr ⟨⟨j, Nat.lt_succ_self j, hdue⟩, hm'⟩⟩,
        fun _ => .inr ⟨rfl, ht ▸ hd⟩, fun h => absurd ⟨hdue, hn⟩ h⟩
  · obtain ⟨hd, hm', hlt'⟩ := absent_step hs he hm hw.known
    exact ⟨⟨hknown, .inr ⟨⟨n, by omega, hn⟩, hm'⟩⟩, fun h => absurd hn (h.2 n hlt), fun _ => hd⟩

theorem lt_length_of_due (h : Due xs i d j) : j < xs.length := by
  obtain ⟨-, ⟨t, a, hx, -⟩ | ⟨t, hx⟩⟩ := h <;> exact (List.getElem?_eq_some_iff.mp hx).1

/-- Nothing is due up to the submission, and then the callback is pending with all its time. -/
theorem awaits_submit (he : (fitting overflow).Enabled s (.submit d))
    (hp : s.clock.isPaused = true) :
    Awaits xs i s.submitted d (i + 1) ((fitting overflow).next s (.submit d)) := by
  obtain ⟨calls, h⟩ := exists_perform he
  obtain ⟨hsub, -, hpaused, -⟩ := perform_submit he.2 h
  refine ⟨by omega, .inl ⟨fun n hn hd => absurd hd.1 (by omega), ?_⟩⟩
  rw [(hpaused hp).1]
  simp

theorem awaits_run (hr : (fitting overflow).Run s xs u) (hs : (fitting overflow).Reachable s)
    (hx : xs[i]? = some (t, .submit d)) (hp : t.clock.isPaused = true) (hij : i + 1 ≤ j)
    (hj : j ≤ xs.length) : Awaits xs i t.submitted d j (stateAt u xs j) := by
  obtain ⟨he, hn⟩ := hr.step_at hx
  have h0 : Awaits xs i t.submitted d (i + 1) (stateAt u xs (i + 1)) := by
    rw [hn]
    exact awaits_submit he hp
  refine hr.induction_at h0 ?_ hij hj
  intro n t' l hin hxn hw he
  exact (awaits_step (reachable_wellFormed (hs.at hr hxn)) hxn hin he hw).1

theorem submitted_run (hr : (fitting overflow).Run s xs u) (hx : xs[i]? = some (t, l)) (hij : i ≤ j)
    (hj : j ≤ xs.length) : t.submitted ≤ (stateAt u xs j).submitted := by
  refine hr.induction_at (P := fun _ t' => t.submitted ≤ t'.submitted) ?_ ?_ hij hj
  · rw [Machine.stateAt_of_getElem hx]
  · intro n t' l' _ _ hle he
    exact hle.trans (submitted_step he)

theorem served (hr : (fitting overflow).Run s xs u) (hs : (fitting overflow).Reachable s)
    (hx : xs[i]? = some (t, .submit d)) (hp : t.clock.isPaused = true) :
    Served overflow xs u i t.submitted d := by
  have hstep : ∀ j t' l', xs[j]? = some (t', l') → i < j → _ := fun j t' l' hxj hij =>
    awaits_step (reachable_wellFormed (hs.at hr hxj)) hxj hij (hr.step_at hxj).1
      (Machine.stateAt_of_getElem hxj ▸
        awaits_run hr hs hx hp hij (List.getElem?_eq_some_iff.mp hxj).1.le)
  refine ⟨?_, ?_, ?_, ?_⟩
  · intro j t' a hxj hd
    rcases (hstep j t' _ hxj hd.1.1).2.1 hd with ⟨a', -, h⟩ | ⟨h, -⟩
    · exact h
    · cases h
  · intro j t' hxj hd
    rcases (hstep j t' _ hxj hd.1.1).2.1 hd with ⟨a', h, -⟩ | ⟨-, h⟩
    · cases h
    · exact h
  · rintro j ⟨t', l'⟩ hxj hd
    rcases lt_trichotomy i j with hij | rfl | hij
    · exact (hstep j t' l' hxj hij).2.2 hd
    · rw [hx] at hxj
      cases hxj
      have he := (hr.step_at hx).1
      obtain ⟨calls, h⟩ := exists_perform he
      rw [delays_eq h, ((perform_submit he.2 h).2.2.1 hp).2]
      rfl
    · obtain ⟨he, hn⟩ := hr.step_at hxj
      apply unsubmitted_step (reachable_wellFormed (hs.at hr hxj)) he
      have hle : j + 1 ≤ xs.length := (List.getElem?_eq_some_iff.mp hxj).1
      have hi : i < xs.length := (List.getElem?_eq_some_iff.mp hx).1
      rw [← hn]
      have hx' : xs[j + 1]? = some xs[j + 1] := List.getElem?_eq_getElem (by omega)
      have hm := submitted_run hr hx' (i := j + 1) (j := i) hij hi.le
      rw [Machine.stateAt_of_getElem hx] at hm
      rwa [Machine.stateAt_of_getElem hx']
  · have hi : i < xs.length := (List.getElem?_eq_some_iff.mp hx).1
    have hw := awaits_run hr hs hx hp hi le_rfl
    rw [Machine.stateAt_of_le le_rfl] at hw
    have hnames : (∃ e ∈ u.clock.pending, e.callback = t.submitted) ↔ t.submitted ∈ u.names := by
      simp [Timeline.names, Clock.countdowns]
    rw [hnames]
    constructor
    · intro hm j hd
      rcases hw.cases with ⟨hn, -⟩ | ⟨-, hn⟩
      · exact hn j (lt_length_of_due hd) hd
      · exact hn hm
    · intro hn
      rcases hw.cases with ⟨-, hm⟩ | ⟨⟨n, -, hd⟩, -⟩
      · exact List.mem_map.mpr ⟨_, hm, rfl⟩
      · exact absurd hd (hn n)

/-- What a paused clock does with each callback in a run. -/
structure Serves (overflow : ℤ → ℤ) (xs : List (Timeline × Label)) (u : Timeline) : Prop where
  served : ∀ i t d, xs[i]? = some (t, .submit d) → t.clock.isPaused = true →
    Served overflow xs u i t.submitted d
  /-- `Advance()` in two parts is as good as `Advance()` at once, in every state of the run. -/
  advances : ∀ j ≤ xs.length, ∀ a b, (stateAt u xs j).clock.isPaused = true → 0 ≤ a → 0 ≤ b →
    Representable ((stateAt u xs j).clock.advanced + (a + b)) →
    ∃ c₁ f₁ c₂ f₂ c₃ f₃, (stateAt u xs j).clock.advance overflow a = some (c₁, f₁) ∧
      c₁.advance overflow b = some (c₂, f₂) ∧
      (stateAt u xs j).clock.advance overflow (a + b) = some (c₃, f₃) ∧
      c₂.pending = c₃.pending ∧ (∀ uvNow, c₂.now overflow uvNow = c₃.now overflow uvNow) ∧
      (f₁ ++ f₂).Perm f₃
  running : u.clock.isPaused = false → u.clock.pending = []

/-- A run in which no sum of durations overflows serves every callback that is submitted to the
paused clock. -/
theorem clock_serves_every_callback (h0 : (machine overflow).Initial s)
    (hr : (machine overflow).Run s xs u) (hf : ∀ p ∈ xs, Fits p.1 p.2) :
    Serves overflow xs u := by
  have hr : (fitting overflow).Run s xs u := hr.restrict hf
  have hs : (fitting overflow).Reachable s := .initial h0
  refine ⟨?_, ?_, ?_⟩
  · intro i t d hx hp
    exact served hr hs hx hp
  · intro j hj a b hp ha hb hn
    have hwf := reachable_wellFormed (hs.stateAt hr hj)
    exact advance_advance hp ha hb hwf.advanced hn
  · exact (reachable_wellFormed (hs.run hr)).running

theorem clock_serves_every_callback_five :
    ∃ xs u, (machine wrap).Run ⟨.initial, 0⟩ xs u ∧
      xs.map Prod.snd = [.pause 7 0, .submit 5, .advance 2, .submit 9, .advance 3, .resume] ∧
      u.clock.pending = [] ∧ Serves wrap xs u := by
  have he : (fitting wrap).exec ⟨.initial, 0⟩
      [.pause 7 0, .submit 5, .advance 2, .submit 9, .advance 3, .resume] = some _ := rfl
  obtain ⟨xs, hr, hx⟩ := Machine.exec_run he
  obtain ⟨hr, hf⟩ := hr.of_restrict
  exact ⟨xs, _, hr, hx, rfl, clock_serves_every_callback rfl hr hf⟩

/-- The longest duration wraps around on a clock that has been advanced, and is over at once. -/
theorem clock_overflows : ∃ xs u, (machine wrap).Run ⟨.initial, 0⟩ xs u ∧
    xs.map Prod.snd = [.pause 7 0, .advance 1, .submit (2 ^ 63 - 1), .advance 0] ∧
      ¬ Serves wrap xs u := by
  refine ⟨[(_, .pause 7 0), (_, .advance 1), (_, .submit (2 ^ 63 - 1)), (_, .advance 0)], _,
    .stepL ⟨by decide, rfl⟩ (.stepL ⟨by decide, rfl⟩ (.stepL ⟨by decide, rfl⟩
      (.stepL ⟨by decide, rfl⟩ .refl))), rfl, fun h => ?_⟩
  have hs := h.served 2 _ _ rfl rfl
  have hdue := hs.silent 3 _ rfl fun hd => absurd ((due_advance rfl).mp hd.1).2 (by decide)
  exact absurd hdue (by decide)

end Service

end Eventuals.EventLoop
