import Mathlib.Tactic.ByContra
import Eventuals.StaticThreadPoolLifetime

/-! When a `StaticThreadPool` can be destroyed. -/
namespace Eventuals.StaticThreadPool.Lifetime

open Function (update)
open Transition (Machine)

/-- What the constructor waits for. -/
def Thread.publishing : Thread → Bool
  | .storingSemaphore | .storingHead | .signallingReady => true
  | _ => false

def Thread.active : Thread → Bool
  | .waiting | .loading | .running | .submitting | .checking => true
  | _ => false

/-- For how many CPUs the constructor has made a thread. -/
def Constructor.emplaced (concurrency : ℕ) : Constructor → ℕ
  | .emplacing cpu => cpu
  | .awaiting _ | .done => concurrency

variable {C : Type*} {n cpu : ℕ} {s t u : State C} {l : Label C} {p : Thread} {c : C}

/-- What is published before the pool is destroyed. -/
structure Published (n : ℕ) (s : State C) : Prop where
  failed : s.failed = none
  shutdown : s.shutdown = false
  emplaced : s.constructor.emplaced n ≤ n
  lengths : s.semaphores.length = s.constructor.emplaced n ∧
    s.heads.length = s.constructor.emplaced n ∧ s.ready.length = s.constructor.emplaced n ∧
    s.threads = s.constructor.emplaced n
  semaphores : ∀ cpu, cpu < s.constructor.emplaced n → s.thread cpu ≠ .storingSemaphore →
    s.semaphores[cpu]? = some (some cpu)
  heads : ∀ cpu, cpu < s.constructor.emplaced n → s.thread cpu ≠ .storingSemaphore →
    s.thread cpu ≠ .storingHead → s.heads[cpu]? = some (some cpu)
  absent : ∀ cpu, s.thread cpu = .absent ↔ s.constructor.emplaced n ≤ cpu
  alive : ∀ cpu, s.thread cpu ≠ .exited
  publishing : ∀ cpu, (s.thread cpu).publishing = true → s.ready[cpu]? = some 0 ∧
    s.constructor ≠ .done ∧ ∀ core, s.constructor = .awaiting core → core ≤ cpu
  early : s.constructor ≠ .done → s.submits = [] ∧ ∀ cpu, s.semaphore cpu = 0 ∧
    ((s.thread cpu).active = true → s.thread cpu = .waiting)

theorem published_init : Published n (init : State C) := by
  constructor <;> simp [init, Constructor.emplaced, Thread.publishing, Thread.active]

theorem Published.lt_of_ne_absent (h : Published n s) (hp : s.thread cpu ≠ .absent) :
    cpu < s.constructor.emplaced n := by
  rw [Ne, h.absent] at hp
  omega

theorem Published.emplaced_lt (h : Published n s) (hp : s.thread cpu ≠ .absent) : cpu < n :=
  Nat.lt_of_lt_of_le (h.lt_of_ne_absent hp) h.emplaced

/-- Once the constructor is done nothing is null and nothing dangles. -/
theorem Published.done (h : Published n s) (hc : s.constructor = .done) (hn : cpu < n) :
    s.semaphores[cpu]? = some (some cpu) ∧ s.heads[cpu]? = some (some cpu) := by
  have hlt : cpu < s.constructor.emplaced n := by simpa [hc, Constructor.emplaced] using hn
  have hp : (s.thread cpu).publishing = false := by
    rw [← Bool.not_eq_true]
    exact fun hp => (h.publishing cpu hp).2.1 hc
  have hsemaphore : s.thread cpu ≠ .storingSemaphore := by
    intro ht
    simp [ht, Thread.publishing] at hp
  have hhead : s.thread cpu ≠ .storingHead := by
    intro ht
    simp [ht, Thread.publishing] at hp
  exact ⟨h.semaphores cpu hlt hsemaphore, h.heads cpu hlt hsemaphore hhead⟩

/-- After the construction threads only go from one active place to another. -/
theorem Published.move (h : Published n s) (hc : s.constructor = .done)
    (hthread : ∀ v, t.thread v = s.thread v ∨
      (s.thread v).active = true ∧ (t.thread v).active = true)
    (hconstructor : t.constructor = s.constructor) (hsemaphores : t.semaphores = s.semaphores)
    (hheads : t.heads = s.heads) (hready : t.ready = s.ready) (hthreads : t.threads = s.threads)
    (hshutdown : t.shutdown = s.shutdown) (hfailed : t.failed = s.failed) : Published n t := by
  have hother : ∀ v q, q.active = false → (t.thread v = q ↔ s.thread v = q) := by
    intro v q hqa
    rcases hthread v with hv | ⟨hv, hv'⟩
    · rw [hv]
    · constructor
      · intro he
        rw [he, hqa] at hv'
        cases hv'
      · intro he
        rw [he, hqa] at hv
        cases hv
  constructor
  · rw [hfailed, h.failed]
  · rw [hshutdown, h.shutdown]
  · rw [hconstructor]
    exact h.emplaced
  · rw [hconstructor, hsemaphores, hheads, hready, hthreads]
    exact h.lengths
  · intro v hv hne
    rw [hsemaphores]
    rw [hconstructor] at hv
    exact h.semaphores v hv fun he => hne ((hother v .storingSemaphore rfl).mpr he)
  · intro v hv hne hne'
    rw [hheads]
    rw [hconstructor] at hv
    exact h.heads v hv (fun he => hne ((hother v .storingSemaphore rfl).mpr he))
      fun he => hne' ((hother v .storingHead rfl).mpr he)
  · intro v
    rw [hother v .absent rfl, hconstructor]
    exact h.absent v
  · intro v he
    exact h.alive v ((hother v .exited rfl).mp he)
  · intro v hv
    rw [hready, hconstructor]
    apply h.publishing v
    rcases hthread v with he | ⟨-, hv'⟩
    · rwa [← he]
    · revert hv hv'
      cases t.thread v <;> simp [Thread.publishing, Thread.active]
  · intro hne
    rw [hconstructor] at hne
    exact absurd hc hne

theorem thread_update (hp : (s.thread cpu).active = true) (hq : p.active = true) (v : ℕ) :
    update s.thread cpu p v = s.thread v ∨
      (s.thread v).active = true ∧ (update s.thread cpu p v).active = true := by
  by_cases hv : v = cpu
  · subst hv
    exact .inr ⟨hp, by simpa using hq⟩
  · exact .inl (by simp [hv])

theorem published_emplace (h : Published n s) (hc : s.constructor = .emplacing cpu)
    (hlt : cpu < n) : Published n (s.construct n (.emplacing cpu)) := by
  obtain ⟨hsemaphores, hheads, hready, hthreads⟩ := h.lengths
  obtain ⟨hsubmits, hearly⟩ := h.early (by simp [hc])
  simp only [hc, Constructor.emplaced] at hsemaphores hheads hready hthreads
  have habsent : ∀ v, s.thread v = .absent ↔ cpu ≤ v := by
    intro v
    rw [h.absent, hc]
    rfl
  have hold : ∀ v, v < cpu + 1 → update s.thread cpu .storingSemaphore v ≠ .storingSemaphore →
      v < cpu ∧ s.thread v ≠ .storingSemaphore := by
    intro v hv hne
    have hvc : v ≠ cpu := by
      rintro rfl
      simp at hne
    exact ⟨by omega, by simpa [hvc] using hne⟩
  simp only [State.construct, if_pos hlt]
  constructor
  · exact h.failed
  · exact h.shutdown
  · exact hlt
  · simp [hsemaphores, hheads, hready, hthreads, Constructor.emplaced]
  · intro v hv hne
    obtain ⟨hvc, hne⟩ := hold v hv hne
    rw [List.getElem?_append_left (by omega)]
    exact h.semaphores v (by simpa [hc, Constructor.emplaced] using hvc) hne
  · intro v hv hne hne'
    obtain ⟨hvc, hne⟩ := hold v hv hne
    rw [List.getElem?_append_left (by omega)]
    refine h.heads v (by simpa [hc, Constructor.emplaced] using hvc) hne ?_
    simpa [State.goto, Nat.ne_of_lt hvc] using hne'
  · intro v
    simp only [State.goto, Constructor.emplaced]
    by_cases hv : v = cpu
    · simp [hv]
    · rw [Function.update_of_ne hv, habsent]
      omega
  · intro v
    by_cases hv : v = cpu
    · simp [State.goto, hv]
    · simpa [State.goto, hv] using h.alive v
  · intro v hp
    refine ⟨?_, by simp, by simp⟩
    by_cases hv : v = cpu
    · subst hv
      rw [← hready, List.getElem?_concat_length]
    · have hp' : (s.thread v).publishing = true := by simpa [State.goto, hv] using hp
      have hzero := (h.publishing v hp').1
      obtain ⟨hlt', -⟩ := List.getElem?_eq_some_iff.mp hzero
      rw [List.getElem?_append_left hlt', hzero]
  · intro _
    refine ⟨hsubmits, fun v => ⟨(hearly v).1, ?_⟩⟩
    by_cases hv : v = cpu
    · simp [State.goto, hv, Thread.active]
    · simpa [State.goto, hv] using (hearly v).2

theorem published_await (h : Published n s) {core : ℕ} (hc : s.constructor = .awaiting core)
    (hg : s.constructor.Goes s.ready) : Published n (s.construct n (.awaiting core)) := by
  obtain ⟨hsemaphores, hheads, hready, hthreads⟩ := h.lengths
  have hle := h.publishing
  simp only [hc, Constructor.emplaced] at hsemaphores hheads hready hthreads
  simp only [hc, Constructor.Goes, hready] at hg
  simp only [State.construct]
  split
  · next hlt =>
    have hpos := hg hlt
    have hcore : ∀ v, (s.thread v).publishing = true → core < v := by
      intro v hp
      obtain ⟨hzero, -, hcore⟩ := h.publishing v hp
      have hne : core ≠ v := by
        rintro rfl
        simp [List.getD, hzero] at hpos
      have := hcore core hc
      omega
    refine ⟨h.failed, h.shutdown, Nat.le_refl n, ?_, ?_, ?_, ?_, h.alive, ?_, ?_⟩
    · simp [hsemaphores, hheads, hready, hthreads, Constructor.emplaced]
    · simpa [hc, Constructor.emplaced] using h.semaphores
    · simpa [hc, Constructor.emplaced] using h.heads
    · simpa [hc, Constructor.emplaced] using h.absent
    · intro v hp
      have hlt := hcore v hp
      refine ⟨?_, by simp, ?_⟩
      · simpa [List.getElem?_modify, Nat.ne_of_lt hlt] using (h.publishing v hp).1
      · rintro core' hcore'
        cases hcore'
        omega
    · exact fun _ => h.early (by simp [hc])
  · next hge =>
    have hnone : ∀ v, (s.thread v).publishing = false := by
      intro v
      rw [← Bool.not_eq_true]
      intro hp
      have hpresent : s.thread v ≠ .absent := fun ha => by simp [ha, Thread.publishing] at hp
      have hlt := h.emplaced_lt hpresent
      have := (h.publishing v hp).2.2 core hc
      omega
    refine ⟨h.failed, h.shutdown, Nat.le_refl n, ?_, ?_, ?_, ?_, h.alive, ?_, ?_⟩
    · simp [hsemaphores, hheads, hready, hthreads, Constructor.emplaced]
    · simpa [hc, Constructor.emplaced] using h.semaphores
    · simpa [hc, Constructor.emplaced] using h.heads
    · simpa [hc, Constructor.emplaced] using h.absent
    · intro v hp
      have hp' : (s.thread v).publishing = true := hp
      rw [hnone v] at hp'
      cases hp'
    · intro hne
      exact absurd rfl hne

theorem published_construct (h : Published n s) (hg : s.constructor.Goes s.ready) :
    Published n (s.construct n s.constructor) := by
  cases hc : s.constructor with
  | done =>
    rw [hc] at hg
    cases hg
  | awaiting core => exact published_await h hc hg
  | emplacing cpu =>
    by_cases hlt : cpu < n
    · exact published_emplace h hc hlt
    · have hle := h.emplaced
      simp only [hc, Constructor.emplaced] at hle
      obtain rfl : cpu = n := by omega
      have hlengths := h.lengths
      have hsemaphores := h.semaphores
      have hheads := h.heads
      have habsent := h.absent
      rw [hc] at hlengths hsemaphores hheads habsent
      simp only [State.construct, hlt, if_false]
      exact {
        failed := h.failed
        shutdown := h.shutdown
        emplaced := Nat.le_refl _
        lengths := hlengths
        semaphores := hsemaphores
        heads := hheads
        absent := habsent
        alive := h.alive
        publishing := fun v hp =>
          ⟨(h.publishing v hp).1, by simp, by
            rintro core hcore
            cases hcore
            exact Nat.zero_le v⟩
        early := fun _ => h.early (by simp [hc]) }

/-- A thread publishes what is on its stack, and then that it has done so. -/
theorem published_publish (h : Published n s) (hp : (s.thread cpu).publishing = true) :
    Published n (s.threadStep cpu (s.thread cpu)) := by
  obtain ⟨hsemaphores, hheads, hready, hthreads⟩ := h.lengths
  obtain ⟨hzero, hne, hcore⟩ := h.publishing cpu hp
  have hpresent : s.thread cpu ≠ .absent := fun ha => by simp [ha, Thread.publishing] at hp
  have hlt := h.lt_of_ne_absent hpresent
  have hother : ∀ q v, v ≠ cpu → (s.goto cpu q).thread v = s.thread v := by
    intro q v hv
    simp [State.goto, hv]
  have hself : ∀ q, (s.goto cpu q).thread cpu = q := by
    intro q
    simp [State.goto]
  have habsent : ∀ q, q ≠ .absent → ∀ v, (s.goto cpu q).thread v = .absent ↔
      s.constructor.emplaced n ≤ v := by
    intro q hq v
    by_cases hv : v = cpu
    · subst hv
      simp only [hself, hq, false_iff]
      omega
    · rw [hother q v hv, h.absent]
  have halive : ∀ q, q ≠ .exited → ∀ v, (s.goto cpu q).thread v ≠ .exited := by
    intro q hq v
    by_cases hv : v = cpu
    · rwa [hv, hself]
    · rw [hother q v hv]
      exact h.alive v
  have hearly : ∀ q, (q.active = true → q = .waiting) → s.submits = [] ∧
      ∀ v, s.semaphore v = 0 ∧
        (((s.goto cpu q).thread v).active = true → (s.goto cpu q).thread v = .waiting) := by
    intro q hq
    refine ⟨(h.early hne).1, fun v => ⟨((h.early hne).2 v).1, ?_⟩⟩
    by_cases hv : v = cpu
    · rwa [hv, hself]
    · rw [hother q v hv]
      exact ((h.early hne).2 v).2
  have hstill : ∀ q v, ((s.goto cpu q).thread v).publishing = true →
      s.ready[v]? = some 0 ∧ s.constructor ≠ .done ∧
        ∀ core, s.constructor = .awaiting core → core ≤ v := by
    intro q v hq
    by_cases hv : v = cpu
    · subst hv
      exact ⟨hzero, hne, hcore⟩
    · rw [hother q v hv] at hq
      exact h.publishing v hq
  cases hc : s.thread cpu with
  | absent | waiting | loading | running | submitting | checking | exited =>
    simp [hc, Thread.publishing] at hp
  | storingSemaphore =>
    simp only [State.threadStep, hsemaphores, hlt, if_true]
    refine ⟨h.failed, h.shutdown, h.emplaced, ?_, ?_, ?_, habsent _ (by simp), halive _ (by simp),
      hstill _, fun _ => hearly _ (by simp [Thread.active])⟩
    · exact ⟨List.length_set.trans hsemaphores, hheads, hready, hthreads⟩
    · intro v hv hq
      by_cases hvc : v = cpu
      · rw [hvc, List.getElem?_set_self (by omega)]
      · rw [List.getElem?_set_ne (Ne.symm hvc)]
        exact h.semaphores v hv (by rwa [← hother _ v hvc])
    · intro v hv hq hq'
      have hvc : v ≠ cpu := by
        rintro rfl
        exact hq' (hself _)
      refine h.heads v hv ?_ ?_
      · rwa [← hother .storingHead v hvc]
      · rwa [← hother .storingHead v hvc]
  | storingHead =>
    simp only [State.threadStep, hheads, hlt, if_true]
    refine ⟨h.failed, h.shutdown, h.emplaced, ?_, ?_, ?_, habsent _ (by simp), halive _ (by simp),
      hstill _, fun _ => hearly _ (by simp [Thread.active])⟩
    · exact ⟨hsemaphores, List.length_set.trans hheads, hready, hthreads⟩
    · intro v hv hq
      by_cases hvc : v = cpu
      · subst hvc
        exact h.semaphores v hv (by simp [hc])
      · exact h.semaphores v hv (by rwa [← hother .signallingReady v hvc])
    · intro v hv hq hq'
      by_cases hvc : v = cpu
      · rw [hvc, List.getElem?_set_self (by omega)]
      · rw [List.getElem?_set_ne (Ne.symm hvc)]
        refine h.heads v hv ?_ ?_
        · rwa [← hother .signallingReady v hvc]
        · rwa [← hother .signallingReady v hvc]
  | signallingReady =>
    simp only [State.threadStep, hready, hlt, if_true]
    refine ⟨h.failed, h.shutdown, h.emplaced, ?_, ?_, ?_, habsent _ (by simp), halive _ (by simp),
      ?_, fun _ => hearly _ (by simp)⟩
    · exact ⟨hsemaphores, hheads, (List.length_modify ..).trans hready, hthreads⟩
    · intro v hv hq
      by_cases hvc : v = cpu
      · subst hvc
        exact h.semaphores v hv (by simp [hc])
      · exact h.semaphores v hv (by rwa [← hother .waiting v hvc])
    · intro v hv hq hq'
      by_cases hvc : v = cpu
      · subst hvc
        exact h.heads v hv (by simp [hc]) (by simp [hc])
      · refine h.heads v hv ?_ ?_
        · rwa [← hother .waiting v hvc]
        · rwa [← hother .waiting v hvc]
    · intro v hq
      have hvc : v ≠ cpu := by
        rintro rfl
        rw [show ({ s.goto v .waiting with ready := s.ready.modify v (· + 1) } : State C).thread v
          = .waiting from hself _] at hq
        cases hq
      obtain ⟨hzero', hrest⟩ := hstill .waiting v hq
      exact ⟨by simpa [List.getElem?_modify, Ne.symm hvc] using hzero', hrest⟩

/-- Every waiter of a list has a `Signal()` that its thread has not used up. -/
structure Counted (n : ℕ) (s : State C) : Prop where
  signals : ∀ cpu, (s.waiters cpu).length ≤ s.semaphore cpu +
    (if s.thread cpu = .loading then 1 else 0) + s.submits.countP fun f => f.2 = cpu
  range : ∀ f ∈ s.submits, f.2 < n
  submitting : ∀ t, (s.submits.countP fun f => f.1 = some t) =
    if s.thread t = .submitting then 1 else 0
  started : ∀ cpu, s.submitted cpu = s.started cpu ++ s.waiters cpu

theorem counted_init : Counted n (init : State C) := by
  constructor <;> simp [init]

theorem Counted.goto (h : Counted n s) (hp : s.thread cpu ≠ .loading)
    (hp' : s.thread cpu ≠ .submitting) (hq : p ≠ .loading) (hq' : p ≠ .submitting)
    (ht : t.thread = update s.thread cpu p) (hsemaphore : t.semaphore = s.semaphore)
    (hwaiters : t.waiters = s.waiters) (hsubmits : t.submits = s.submits)
    (hsubmitted : t.submitted = s.submitted) (hstarted : t.started = s.started) : Counted n t := by
  have hthread : ∀ v q, (q = .loading ∨ q = .submitting) → (t.thread v = q ↔ s.thread v = q) := by
    intro v q hcases
    rw [ht]
    by_cases hv : v = cpu
    · subst hv
      rw [Function.update_self]
      rcases hcases with rfl | rfl
      · simp [hp, hq]
      · simp [hp', hq']
    · rw [Function.update_of_ne hv]
  constructor
  · intro v
    simp only [hwaiters, hsemaphore, hsubmits, hthread v .loading (.inl rfl)]
    exact h.signals v
  · rw [hsubmits]
    exact h.range
  · intro v
    simp only [hsubmits, hthread v .submitting (.inr rfl)]
    exact h.submitting v
  · rw [hsubmitted, hstarted, hwaiters]
    exact h.started

theorem counted_construct (hp : Published n s) (h : Counted n s) :
    Counted n (s.construct n s.constructor) := by
  cases hc : s.constructor with
  | done => exact h
  | awaiting core =>
    simp only [State.construct]
    split <;> exact ⟨h.signals, h.range, h.submitting, h.started⟩
  | emplacing cpu =>
    simp only [State.construct]
    split
    · have habsent : s.thread cpu = .absent := by
        rw [hp.absent, hc]
        exact Nat.le_refl cpu
      have hloading : s.thread cpu ≠ .loading := by simp [habsent]
      have hsubmitting : s.thread cpu ≠ .submitting := by simp [habsent]
      exact h.goto (p := .storingSemaphore) hloading hsubmitting (by simp) (by simp) rfl rfl rfl
        rfl rfl rfl
    · exact ⟨h.signals, h.range, h.submitting, h.started⟩

/-- What a thread does before it waits for the first time. -/
theorem counted_publish (h : Counted n s) (hp : (s.thread cpu).publishing = true) :
    Counted n (s.threadStep cpu (s.thread cpu)) := by
  have hne : s.thread cpu ≠ .loading ∧ s.thread cpu ≠ .submitting := by
    constructor <;> intro he <;> simp [he, Thread.publishing] at hp
  cases hc : s.thread cpu with
  | absent | waiting | loading | running | submitting | checking | exited =>
    simp [hc, Thread.publishing] at hp
  | storingSemaphore =>
    simp only [State.threadStep]
    split
    · exact h.goto (p := .storingHead) hne.1 hne.2 (by simp) (by simp) rfl rfl rfl rfl rfl rfl
    · exact ⟨h.signals, h.range, h.submitting, h.started⟩
  | storingHead =>
    simp only [State.threadStep]
    split
    · exact h.goto (p := .signallingReady) hne.1 hne.2 (by simp) (by simp) rfl rfl rfl rfl rfl rfl
    · exact ⟨h.signals, h.range, h.submitting, h.started⟩
  | signallingReady =>
    simp only [State.threadStep]
    split
    · exact h.goto (p := .waiting) hne.1 hne.2 (by simp) (by simp) rfl rfl rfl rfl rfl rfl
    · exact ⟨h.signals, h.range, h.submitting, h.started⟩

/-- A thread that has been signalled takes what there is and looks whether to go on. -/
theorem counted_thread (h : Counted n s) (hp : (s.thread cpu).active = true)
    (hg : (s.thread cpu).Goes (s.semaphore cpu)) :
    Counted n (s.threadStep cpu (s.thread cpu)) := by
  cases hc : s.thread cpu with
  | absent | storingSemaphore | storingHead | signallingReady | exited =>
    simp [hc, Thread.active] at hp
  | running | submitting =>
    rw [hc] at hg
    cases hg
  | checking =>
    simp only [State.threadStep]
    split
    · exact h.goto (p := .exited) (by simp [hc]) (by simp [hc]) (by simp) (by simp) rfl rfl rfl rfl
        rfl rfl
    · exact h.goto (p := .waiting) (by simp [hc]) (by simp [hc]) (by simp) (by simp) rfl rfl rfl
        rfl rfl rfl
  | waiting =>
    have hpos : 0 < s.semaphore cpu := by simpa [hc, Thread.Goes] using hg
    refine ⟨fun v => ?_, h.range, fun v => ?_, h.started⟩
    · have hv := h.signals v
      simp only [State.threadStep, State.goto]
      by_cases hvc : v = cpu
      · subst hvc
        simp only [hc, reduceCtorEq, if_false] at hv
        simp only [Function.update_self, if_true]
        omega
      · simpa [hvc] using hv
    · have hv := h.submitting v
      simp only [State.threadStep, State.goto]
      by_cases hvc : v = cpu
      · subst hvc
        simpa [hc] using hv
      · simpa [hvc] using hv
  | loading =>
    have hsubmitting : ∀ q, q ≠ .submitting → ∀ v, (s.submits.countP fun f => f.1 = some v) =
        if update s.thread cpu q v = .submitting then 1 else 0 := by
      intro q hq v
      by_cases hvc : v = cpu
      · subst hvc
        simpa [hc, hq] using h.submitting v
      · simpa [hvc] using h.submitting v
    simp only [State.threadStep]
    cases hw : s.waiters cpu with
    | nil =>
      refine ⟨fun v => ?_, h.range, hsubmitting _ (by simp), h.started⟩
      simp only [State.goto]
      by_cases hvc : v = cpu
      · subst hvc
        simp [hw]
      · simpa [hvc] using h.signals v
    | cons callback rest =>
      refine ⟨fun v => ?_, h.range, hsubmitting _ (by simp), fun v => ?_⟩
      · simp only [State.goto]
        by_cases hvc : v = cpu
        · subst hvc
          have hv := h.signals v
          simp only [hw, hc, if_true, List.length_cons] at hv
          simp only [Function.update_self, reduceCtorEq, if_false]
          omega
        · simpa [hvc] using h.signals v
      · simp only [State.goto]
        by_cases hvc : v = cpu
        · subst hvc
          simp [h.started, hw]
        · simpa [hvc] using h.started v

theorem deref_eq {ps : List Pointer} (hp : ps[cpu]? = some (some cpu))
    (halive : s.thread cpu ≠ .exited) (f : ℕ → State C) : s.deref ps[cpu]? f = f cpu := by
  simp [State.deref, hp, halive]

/-- Where the callback that submits stands. -/
def By (s : State C) (p : Thread) (by_ : Option ℕ) : Prop :=
  ∀ t, by_ = some t → s.thread t = p

theorem By.loading {by_ : Option ℕ} {q : Thread} (h : By s p by_) (hp : p ≠ .loading)
    (hq : q ≠ .loading) (v : ℕ) : s.by_ by_ q v = .loading ↔ s.thread v = .loading := by
  cases by_ with
  | none => rfl
  | some t =>
    by_cases hv : v = t
    · subst hv
      simp [State.by_, h v rfl, hp, hq]
    · simp [State.by_, hv]

theorem counted_submit (h : Counted n s) {by_ : Option ℕ} (hby : By s .running by_) (hn : cpu < n)
    (callback : C) (hsubmit : s.heads[cpu]? = some (some cpu)) (halive : s.thread cpu ≠ .exited) :
    Counted n (s.submit by_ cpu callback) := by
  simp only [State.submit, deref_eq hsubmit halive]
  refine ⟨fun v => ?_, ?_, fun v => ?_, fun v => ?_⟩
  · have hv := h.signals v
    simp only [hby.loading (by simp : Thread.running ≠ .loading)
      (by simp : Thread.submitting ≠ .loading)]
    by_cases hvc : v = cpu
    · subst hvc
      simp only [Function.update_self, List.length_append, List.length_singleton,
        List.countP_cons, decide_true, if_true]
      omega
    · have hne : decide (cpu = v) = false := by simpa using Ne.symm hvc
      simpa [hvc, List.countP_cons, hne] using hv
  · intro f hf
    rcases List.mem_cons.mp hf with rfl | hf
    · exact hn
    · exact h.range f hf
  · have hv := h.submitting v
    cases by_ with
    | none =>
      change _ = if s.thread v = .submitting then 1 else 0
      simpa [List.countP_cons] using hv
    | some t =>
      simp only [List.countP_cons]
      by_cases hvt : v = t
      · subst hvt
        simp only [hby v rfl, reduceCtorEq, if_false] at hv
        simp [hv, State.by_]
      · have hne : ¬ t = v := Ne.symm hvt
        simpa [State.by_, hvt, hne] using hv
  · by_cases hvc : v = cpu
    · subst hvc
      simp [h.started]
    · simpa [hvc] using h.started v

theorem counted_signal (h : Counted n s) {by_ : Option ℕ} (hf : (by_, cpu) ∈ s.submits)
    (hsignal : s.semaphores[cpu]? = some (some cpu)) (halive : s.thread cpu ≠ .exited) :
    Counted n (s.signal by_ cpu) := by
  have hsubmitting : By s .submitting by_ := by
    rintro t rfl
    have ht := h.submitting t
    have hpos : 0 < s.submits.countP fun f => f.1 = some t :=
      List.countP_pos_iff.mpr ⟨_, hf, by simp⟩
    by_contra hne
    rw [if_neg hne] at ht
    omega
  have herase : ∀ P : Option ℕ × ℕ → Bool, s.submits.countP P =
      (s.submits.erase (by_, cpu)).countP P + if P (by_, cpu) then 1 else 0 := by
    intro P
    have hperm := (List.perm_cons_erase hf).countP_eq P
    rw [hperm, List.countP_cons]
  simp only [State.signal, deref_eq hsignal halive]
  refine ⟨fun v => ?_, ?_, fun v => ?_, h.started⟩
  · have hv := h.signals v
    rw [herase] at hv
    simp only [By.loading hsubmitting (by simp : Thread.submitting ≠ .loading)
      (by simp : Thread.running ≠ .loading), State.post]
    by_cases hvc : v = cpu
    · subst hvc
      simp only [Function.update_self]
      simp only [decide_true, if_true] at hv
      omega
    · have hne : decide (cpu = v) = false := by simpa using Ne.symm hvc
      simpa [hvc, hne] using hv
  · exact fun f hf => h.range f (List.mem_of_mem_erase hf)
  · have hv := h.submitting v
    rw [herase] at hv
    cases by_ with
    | none =>
      change _ = if s.thread v = .submitting then 1 else 0
      simpa using hv
    | some t =>
      by_cases hvt : v = t
      · subst hvt
        simp only [hsubmitting v rfl, if_true, decide_true] at hv
        simp only [State.by_, Function.update_self, reduceCtorEq, if_false]
        omega
      · have hne : ¬ t = v := Ne.symm hvt
        simpa [State.by_, hvt, hne] using hv

theorem By.move {by_ : Option ℕ} {q : Thread} (h : By s p by_) (hp : p.active = true)
    (hq : q.active = true) (v : ℕ) : s.by_ by_ q v = s.thread v ∨
      (s.thread v).active = true ∧ (s.by_ by_ q v).active = true := by
  cases by_ with
  | none => exact .inl rfl
  | some t => exact thread_update (h t rfl ▸ hp) hq v

theorem Published.done_of_active (h : Published n s) (hp : (s.thread cpu).active = true)
    (hg : s.thread cpu = .waiting → 0 < s.semaphore cpu) : s.constructor = .done := by
  by_contra hc
  obtain ⟨-, hearly⟩ := h.early hc
  obtain ⟨hzero, hwaiting⟩ := hearly cpu
  have hpos := hg (hwaiting hp)
  omega

theorem published_submit (h : Published n s) {by_ : Option ℕ} (hby : By s .running by_)
    (hc : s.constructor = .done) (hn : cpu < n) (callback : C) :
    Published n (s.submit by_ cpu callback) := by
  simp only [State.submit, deref_eq (h.done hc hn).2 (h.alive cpu)]
  exact h.move hc (hby.move rfl rfl) rfl rfl rfl rfl rfl rfl rfl

theorem published_signal (h : Published n s) {by_ : Option ℕ} (hby : By s .submitting by_)
    (hc : s.constructor = .done) (hn : cpu < n) : Published n (s.signal by_ cpu) := by
  simp only [State.signal, deref_eq (h.done hc hn).1 (h.alive cpu)]
  exact h.move hc (hby.move rfl rfl) rfl rfl rfl rfl rfl rfl rfl

/-- Whoever is about to signal stands there. -/
theorem Counted.by_submitting (h : Counted n s) {by_ : Option ℕ} (hf : (by_, cpu) ∈ s.submits) :
    By s .submitting by_ := by
  rintro t rfl
  have ht := h.submitting t
  have hpos : 0 < s.submits.countP fun f => f.1 = some t :=
    List.countP_pos_iff.mpr ⟨_, hf, by simp⟩
  by_contra hne
  rw [if_neg hne] at ht
  omega

theorem published_thread (h : Published n s) (hp : (s.thread cpu).active = true)
    (hg : (s.thread cpu).Goes (s.semaphore cpu)) :
    Published n (s.threadStep cpu (s.thread cpu)) := by
  have hc : s.constructor = .done := by
    refine h.done_of_active hp fun hw => ?_
    rwa [hw] at hg
  have hmove : ∀ q, q.active = true → ∀ v, update s.thread cpu q v = s.thread v ∨
      (s.thread v).active = true ∧ (update s.thread cpu q v).active = true :=
    fun q hq => thread_update hp hq
  cases hw : s.thread cpu with
  | absent | storingSemaphore | storingHead | signallingReady | exited =>
    simp [hw, Thread.active] at hp
  | running | submitting =>
    rw [hw] at hg
    cases hg
  | waiting => exact h.move hc (hmove .loading rfl) rfl rfl rfl rfl rfl rfl rfl
  | loading =>
    simp only [State.threadStep]
    cases s.waiters cpu with
    | nil => exact h.move hc (hmove .checking rfl) rfl rfl rfl rfl rfl rfl rfl
    | cons callback rest => exact h.move hc (hmove .running rfl) rfl rfl rfl rfl rfl rfl rfl
  | checking =>
    simp only [State.threadStep, h.shutdown, Bool.false_eq_true, if_false]
    exact h.move hc (hmove .waiting rfl) rfl rfl rfl rfl rfl rfl rfl

theorem inv_next (h : Published n s) (hk : Counted n s) (hd : s.destructor = .idle)
    (hl : l ≠ .shutdown) (he : Enabled n s l) :
    Published n (next n s l) ∧ Counted n (next n s l) := by
  cases l with
  | shutdown => exact absurd rfl hl
  | destruct =>
    have hg := he.2
    rw [hd] at hg
    cases hg
  | construct => exact ⟨published_construct h he.2, counted_construct h hk⟩
  | thread cpu =>
    by_cases hp : (s.thread cpu).publishing = true
    · exact ⟨published_publish h hp, counted_publish hk hp⟩
    · have ha : (s.thread cpu).active = true := by
        have hg := he.2
        revert hg hp
        cases s.thread cpu <;> simp [Thread.Goes, Thread.active, Thread.publishing]
      exact ⟨published_thread h ha he.2, counted_thread hk ha he.2⟩
  | return_ cpu =>
    have hrun := he.2
    have hc : s.constructor = .done :=
      have hactive : (s.thread cpu).active = true := by simp [hrun, Thread.active]
      h.done_of_active hactive (by simp [hrun])
    constructor
    · exact h.move hc (thread_update (by simp [hrun, Thread.active]) rfl) rfl rfl rfl rfl rfl rfl
        rfl
    · exact hk.goto (p := .checking) (by simp [hrun]) (by simp [hrun]) (by simp) (by simp) rfl rfl
        rfl rfl rfl rfl
  | submit by_ cpu callback =>
    have hcase : s.constructor = .done ∧ cpu < n ∧ By s .running by_ := by
      cases by_ with
      | none => exact ⟨he.2.1, he.2.2.2, nofun⟩
      | some t =>
        obtain ⟨-, hrun, hn⟩ := he
        have hactive : (s.thread t).active = true := by simp [hrun, Thread.active]
        refine ⟨h.done_of_active hactive ?_, hn, ?_⟩
        · simp [hrun]
        · rintro v hv
          cases hv
          exact hrun
    obtain ⟨hc, hn, hby⟩ := hcase
    exact ⟨published_submit h hby hc hn callback,
      counted_submit hk hby hn callback (h.done hc hn).2 (h.alive cpu)⟩
  | signal by_ cpu =>
    have hn : cpu < n := hk.range _ he.2
    have hc : s.constructor = .done := by
      by_contra hc
      have hnil := (h.early hc).1
      have hm := he.2
      rw [hnil] at hm
      cases hm
    exact ⟨published_signal h (hk.by_submitting he.2) hc hn,
      counted_signal hk he.2 (h.done hc hn).1 (h.alive cpu)⟩

/-- Only the destructor leaves the place where it stands. -/
theorem destructor_of_next (hl : l ≠ .shutdown) (he : Enabled n s l)
    (hd : (next n s l).destructor = .idle) : s.destructor = .idle := by
  cases l with
  | shutdown => exact absurd rfl hl
  | destruct =>
    obtain ⟨-, hg⟩ := he
    cases hs : s.destructor with
    | idle => rfl
    | done =>
      rw [hs] at hg
      cases hg
    | joining => simp [next, State.destruct, hs] at hd
    | testing =>
      simp only [next, State.destruct, hs] at hd
      split at hd
      · cases hd
      · unfold State.deref at hd
        split at hd
        · simp [State.fail, hs] at hd
        · simp [State.fail, hs] at hd
        · split at hd
          · simp [State.fail, hs] at hd
          · cases hd
  | construct =>
    revert hd
    simp only [next]
    cases s.constructor with
    | done => exact id
    | emplacing cpu =>
      simp only [State.construct]
      split <;> exact id
    | awaiting core =>
      simp only [State.construct]
      split <;> exact id
  | thread cpu =>
    revert hd
    simp only [next]
    cases s.thread cpu with
    | absent | running | submitting | exited | waiting => exact id
    | storingSemaphore | storingHead | signallingReady | checking =>
      simp only [State.threadStep]
      split <;> exact id
    | loading =>
      simp only [State.threadStep]
      split <;> exact id
  | return_ cpu => exact hd
  | submit by_ cpu callback =>
    simp only [next, State.submit, State.deref] at hd
    split at hd
    · exact hd
    · exact hd
    · split at hd <;> exact hd
  | signal by_ cpu =>
    simp only [next, State.signal, State.deref] at hd
    split at hd
    · exact hd
    · exact hd
    · split at hd <;> exact hd

theorem inv_reachable (h : (machine C n).Reachable s) (hd : s.destructor = .idle) :
    Published n s ∧ Counted n s := by
  revert hd
  refine h.invariant (P := fun s => s.destructor = .idle → Published n s ∧ Counted n s) ?_ ?_
  · rintro s rfl -
    exact ⟨published_init, counted_init⟩
  · intro s l ih he hd
    by_cases hl : l = .shutdown
    · subst hl
      cases hd
    · have hs := destructor_of_next hl he hd
      obtain ⟨hp, hk⟩ := ih hs
      exact inv_next hp hk hs hl he

/-- Every thread waits and nobody is about to wake one. -/
structure Idle (n : ℕ) (s : State C) : Prop where
  submits : s.submits = []
  waiting : ∀ cpu, cpu < n → s.thread cpu = .waiting ∧ s.semaphore cpu = 0

theorem Idle.waiters (h : Idle n s) (hk : Counted n s) (hn : cpu < n) : s.waiters cpu = [] := by
  have hsignals := hk.signals cpu
  obtain ⟨hw, hz⟩ := h.waiting cpu hn
  simp only [hw, hz, h.submits, reduceCtorEq, if_false, List.countP_nil] at hsignals
  exact List.eq_nil_of_length_eq_zero (by omega)

/-- The first `k` threads have not been told to leave, and nobody has anything else to do. -/
structure Quiet (n k : ℕ) (s₀ s : State C) : Prop where
  failed : s.failed = none
  shutdown : s.shutdown = true
  constructor : s.constructor = .done
  submits : s.submits = []
  semaphores : s.semaphores = (List.range k).map some
  waiting : ∀ cpu, cpu < k → s.thread cpu = .waiting ∧ s.semaphore cpu = 0
  waiters : ∀ cpu, cpu < n → s.waiters cpu = []
  started : s.started = s₀.started

/-- Where the thread that the destructor joins stands. -/
def Leaving (semaphore : ℕ) : Thread → Prop
  | .waiting => semaphore = 1
  | .loading | .checking | .exited => True
  | _ => False

/-- The threads of these CPUs have been joined, or there are none. -/
def Gone (n k : ℕ) (s : State C) : Prop :=
  ∀ cpu, k ≤ cpu → s.thread cpu = .exited ∨ n ≤ cpu ∧ s.thread cpu = .absent

/-- The destructor of an idle pool sends one thread after the other away. -/
inductive Draining (n : ℕ) (s₀ s : State C) : Prop
  | testing {k : ℕ} (quiet : Quiet n k s₀ s) (destructor : s.destructor = .testing)
      (threads : s.threads = k) (hk : k ≤ n) (gone : Gone n k s)
  | joining {k : ℕ} (quiet : Quiet n k s₀ s) (destructor : s.destructor = .joining)
      (threads : s.threads = k + 1) (hk : k < n) (leaving : Leaving (s.semaphore k) (s.thread k))
      (gone : Gone n (k + 1) s)
  | done (quiet : Quiet n 0 s₀ s) (destructor : s.destructor = .done) (gone : Gone n 0 s)

theorem draining_shutdown (hp : Published n s) (hk : Counted n s) (hc : s.constructor = .done)
    (hi : Idle n s) : Draining n s (next n s .shutdown) := by
  refine .testing (k := n) ?_ rfl ?_ (Nat.le_refl n) ?_
  · refine ⟨hp.failed, rfl, hc, hi.submits, ?_, hi.waiting, fun cpu hn => hi.waiters hk hn, rfl⟩
    apply List.ext_getElem?
    intro cpu
    by_cases hn : cpu < n
    · simp [next, (hp.done hc hn).1, hn]
    · have hlen : s.semaphores.length = n := by simpa [hc, Constructor.emplaced] using hp.lengths.1
      simp [next, hn, List.getElem?_eq_none (by omega : s.semaphores.length ≤ cpu)]
  · have hthreads : s.threads = n := by simpa [hc, Constructor.emplaced] using hp.lengths.2.2.2
    exact hthreads
  · intro cpu hn
    exact .inr ⟨hn, (hp.absent cpu).mpr (by simpa [hc, Constructor.emplaced] using hn)⟩

/-- How many steps are left. -/
def State.left (s : State C) : ℕ :=
  match s.destructor with
  | .idle | .done => 0
  | .testing => 5 * s.threads + 1
  | .joining => 5 * (s.threads - 1) +
    match s.thread (s.threads - 1) with
    | .waiting => 5
    | .loading => 4
    | .checking => 3
    | _ => 2

/-- The thread that is joined goes on to its end. -/
theorem draining_leave {s₀ : State C} {k : ℕ} (hq : Quiet n k s₀ s)
    (hd : s.destructor = .joining) (ht : s.threads = k + 1) (hk : k < n)
    (hl : Leaving (s.semaphore k) (s.thread k)) (hg : Gone n (k + 1) s)
    (he : (s.thread k).Goes (s.semaphore k)) :
    Draining n s₀ (s.threadStep k (s.thread k)) ∧
      (s.threadStep k (s.thread k)).left < s.left := by
  have hother : ∀ p v, v ≠ k → update s.thread k p v = s.thread v := by
    intro p v hv
    simp [hv]
  have hquiet : ∀ p, (∀ cpu, cpu < k → update s.thread k p cpu = .waiting ∧
      s.semaphore cpu = 0) := by
    intro p cpu hlt
    rw [hother p cpu (by omega)]
    exact hq.waiting cpu hlt
  have hgone : ∀ p, Gone n (k + 1) (s.goto k p) := by
    intro p cpu hle
    simp only [State.goto, hother p cpu (by omega)]
    exact hg cpu hle
  have hgoto : ∀ p, Leaving (s.semaphore k) p → Draining n s₀ (s.goto k p) := by
    intro p hp
    refine .joining ⟨hq.failed, hq.shutdown, hq.constructor, hq.submits, hq.semaphores, hquiet p,
      hq.waiters, hq.started⟩ hd ht hk ?_ (hgone p)
    simpa [State.goto] using hp
  have hleft : s.left = 5 * k + match s.thread k with
      | .waiting => 5
      | .loading => 4
      | .checking => 3
      | _ => 2 := by
    simp [State.left, hd, ht]
  cases hc : s.thread k with
  | absent | storingSemaphore | storingHead | signallingReady | running | submitting =>
    rw [hc] at hl
    cases hl
  | exited =>
    rw [hc] at he
    cases he
  | checking =>
    simp only [State.threadStep, hq.shutdown, if_true]
    refine ⟨hgoto .exited trivial, ?_⟩
    rw [hleft, hc]
    simp [State.left, State.goto, hd, ht]
  | loading =>
    simp only [State.threadStep, hq.waiters k hk]
    refine ⟨hgoto .checking trivial, ?_⟩
    rw [hleft, hc]
    simp [State.left, State.goto, hd, ht]
  | waiting =>
    simp only [State.threadStep]
    constructor
    · refine .joining ⟨hq.failed, hq.shutdown, hq.constructor, hq.submits, hq.semaphores, ?_,
        hq.waiters, hq.started⟩ hd ht hk ?_ (hgone .loading)
      · intro cpu hlt
        simpa [State.goto, Nat.ne_of_lt hlt] using hq.waiting cpu hlt
      · simp [State.goto, Leaving]
    · rw [hleft, hc]
      simp [State.left, State.goto, hd, ht]

theorem draining_destruct {s₀ : State C} (h : Draining n s₀ s)
    (hg : s.destructor.Goes (s.thread (s.threads - 1))) :
    Draining n s₀ (s.destruct s.destructor) ∧ (s.destruct s.destructor).left < s.left := by
  cases h with
  | done hq hd hgone =>
    rw [hd] at hg
    cases hg
  | @joining k hq hd ht hk hl hgone =>
    simp only [hd, Destructor.Goes, ht, Nat.add_sub_cancel] at hg
    simp only [hd, State.destruct]
    constructor
    · refine .testing (k := k) ⟨hq.failed, hq.shutdown, hq.constructor, hq.submits, hq.semaphores,
        hq.waiting, hq.waiters, hq.started⟩ rfl (by simp [ht]) (by omega) ?_
      intro cpu hle
      by_cases hcpu : cpu = k
      · exact .inl (hcpu ▸ hg)
      · exact hgone cpu (by omega)
    · simp [State.left, hd, ht, hg]
  | @testing k hq hd ht hk hgone =>
    simp only [hd, State.destruct, ht]
    cases k with
    | zero =>
      simp only [if_true]
      exact ⟨.done ⟨hq.failed, hq.shutdown, hq.constructor, hq.submits, hq.semaphores, hq.waiting,
        hq.waiters, hq.started⟩ rfl hgone, by simp [State.left, hd]⟩
    | succ k =>
      obtain ⟨hwaiting, hzero⟩ := hq.waiting k (by omega)
      have hlast : s.semaphores.getLast? = some (some k) := by
        simp [hq.semaphores, List.range_succ]
      simp only [Nat.add_eq_zero_iff, Nat.one_ne_zero, and_false, if_false, hlast, State.deref,
        hwaiting, reduceCtorEq]
      constructor
      · refine .joining (k := k) ⟨hq.failed, hq.shutdown, hq.constructor, hq.submits, ?_, ?_,
          hq.waiters, hq.started⟩ rfl ht hk ?_ hgone
        · simp [hq.semaphores, List.range_succ]
        · intro cpu hlt
          simpa [State.post, Nat.ne_of_lt hlt] using hq.waiting cpu (by omega)
        · simp [State.post, hwaiting, hzero, Leaving]
      · simp only [State.left, hd, ht, State.post, hwaiting, Nat.add_sub_cancel]
        omega

/-- The thread that is joined is the only one to go on. -/
structure Joining (n k : ℕ) (s₀ s : State C) : Prop where
  quiet : Quiet n k s₀ s
  destructor : s.destructor = .joining
  threads : s.threads = k + 1
  lt : k < n
  leaving : Leaving (s.semaphore k) (s.thread k)
  gone : Gone n (k + 1) s

theorem Draining.thread_cases {s₀ : State C} (h : Draining n s₀ s) (cpu : ℕ) :
    (s.thread cpu = .waiting ∧ s.semaphore cpu = 0) ∨ s.thread cpu = .exited ∨
      s.thread cpu = .absent ∨ Joining n cpu s₀ s := by
  have hgone : ∀ k, Gone n k s → k ≤ cpu → s.thread cpu = .exited ∨ s.thread cpu = .absent := by
    intro k hg hle
    rcases hg cpu hle with he | ⟨-, he⟩
    · exact .inl he
    · exact .inr he
  cases h with
  | done hq hd hg =>
    rcases hgone 0 hg (Nat.zero_le cpu) with he | he
    · exact .inr (.inl he)
    · exact .inr (.inr (.inl he))
  | @testing k hq hd ht hk hg =>
    rcases Nat.lt_or_ge cpu k with hlt | hle
    · exact .inl (hq.waiting cpu hlt)
    · rcases hgone k hg hle with he | he
      · exact .inr (.inl he)
      · exact .inr (.inr (.inl he))
  | @joining k hq hd ht hk hl hg =>
    rcases Nat.lt_trichotomy cpu k with hlt | rfl | hlt
    · exact .inl (hq.waiting cpu hlt)
    · exact .inr (.inr (.inr ⟨hq, hd, ht, hk, hl, hg⟩))
    · rcases hgone (k + 1) hg hlt with he | he
      · exact .inr (.inl he)
      · exact .inr (.inr (.inl he))

theorem Draining.quiet {s₀ : State C} (h : Draining n s₀ s) : ∃ k, Quiet n k s₀ s := by
  cases h with
  | done hq => exact ⟨0, hq⟩
  | @testing k hq => exact ⟨k, hq⟩
  | @joining k hq => exact ⟨k, hq⟩

theorem Draining.destructor_ne {s₀ : State C} (h : Draining n s₀ s) :
    s.destructor ≠ .idle := by
  cases h with
  | done hq hd => simp [hd]
  | testing hq hd => simp [hd]
  | joining hq hd => simp [hd]

theorem Draining.not_running {s₀ : State C} (h : Draining n s₀ s) : s.thread cpu ≠ .running := by
  intro hrun
  rcases h.thread_cases cpu with ⟨he, -⟩ | he | he | hj
  · rw [he] at hrun
    cases hrun
  · rw [he] at hrun
    cases hrun
  · rw [he] at hrun
    cases hrun
  · have hl := hj.leaving
    rw [hrun] at hl
    cases hl

theorem draining_next {s₀ : State C} (h : Draining n s₀ s) (he : Enabled n s l) :
    Draining n s₀ (next n s l) ∧ (next n s l).left < s.left := by
  obtain ⟨k, hq⟩ := h.quiet
  cases l with
  | construct =>
    have hg := he.2
    rw [hq.constructor] at hg
    cases hg
  | return_ cpu => exact absurd he.2 h.not_running
  | submit by_ cpu callback =>
    cases by_ with
    | none => exact absurd he.2.2.1 h.destructor_ne
    | some t => exact absurd he.2.1 h.not_running
  | signal by_ cpu =>
    have hm := he.2
    rw [hq.submits] at hm
    cases hm
  | shutdown => exact absurd he.2.2 h.destructor_ne
  | destruct => exact draining_destruct h he.2
  | thread cpu =>
    have hg := he.2
    rcases h.thread_cases cpu with ⟨hw, hz⟩ | hw | hw | hj
    · rw [hw, hz] at hg
      exact absurd hg (Nat.lt_irrefl 0)
    · rw [hw] at hg
      cases hg
    · rw [hw] at hg
      cases hg
    · exact draining_leave hj.quiet hj.destructor hj.threads hj.lt hj.leaving hj.gone hg

/-- Until it is done, the destructor of an idle pool goes on. -/
theorem Draining.goes {s₀ : State C} (h : Draining n s₀ s) :
    s.destructor = .done ∨ ∃ l : Label C, Enabled n s l := by
  obtain ⟨k, hq⟩ := h.quiet
  cases h with
  | done _ hd => exact .inl hd
  | testing _ hd =>
    refine .inr ⟨.destruct, hq.failed, ?_⟩
    rw [hd]
    trivial
  | @joining k hq' hd ht hk hl hg =>
    right
    by_cases hexited : s.thread k = .exited
    · refine ⟨.destruct, hq.failed, ?_⟩
      rw [hd, ht]
      exact hexited
    · refine ⟨.thread k, hq.failed, ?_⟩
      revert hl hexited
      cases s.thread k <;> simp [Leaving, Thread.Goes]
      intro hone
      omega

theorem run_cons {xs : List (State C × Label C)} (he : Enabled n s l)
    (hr : (machine C n).Run (next n s l) xs u) : (machine C n).Run s ((s, l) :: xs) u :=
  .stepL ⟨he, rfl⟩ hr

/-- What the steps of one thread leave alone. -/
structure Frame (cpu : ℕ) (s u : State C) : Prop where
  constructor : u.constructor = s.constructor
  destructor : u.destructor = s.destructor
  shutdown : u.shutdown = s.shutdown
  threads : u.threads = s.threads
  semaphores : u.semaphores = s.semaphores
  thread : ∀ v, v ≠ cpu → u.thread v = s.thread v
  submits : ∀ f, f.1 ≠ some cpu → (f ∈ u.submits ↔ f ∈ s.submits)

theorem Frame.trans (h : Frame cpu s t) (h' : Frame cpu t u) : Frame cpu s u where
  constructor := h'.constructor.trans h.constructor
  destructor := h'.destructor.trans h.destructor
  shutdown := h'.shutdown.trans h.shutdown
  threads := h'.threads.trans h.threads
  semaphores := h'.semaphores.trans h.semaphores
  thread v hv := (h'.thread v hv).trans (h.thread v hv)
  submits f hf := (h'.submits f hf).trans (h.submits f hf)

/-- The thread can get to its end, unless something is misused before. -/
def Exits (n cpu : ℕ) (s : State C) : Prop :=
  ∃ xs u, (machine C n).Run s xs u ∧
    (u.failed ≠ none ∨ u.failed = none ∧ u.thread cpu = .exited ∧ Frame cpu s u)

theorem Exits.step (he : Enabled n s l) (hf : Frame cpu s (next n s l))
    (h : Exits n cpu (next n s l)) : Exits n cpu s := by
  obtain ⟨xs, u, hr, hu⟩ := h
  refine ⟨_, u, run_cons he hr, ?_⟩
  rcases hu with hu | ⟨hu, hexited, hframe⟩
  · exact .inl hu
  · exact .inr ⟨hu, hexited, hf.trans hframe⟩

theorem frame_goto {p : Thread} (ht : t.thread = update s.thread cpu p)
    (hconstructor : t.constructor = s.constructor) (hdestructor : t.destructor = s.destructor)
    (hshutdown : t.shutdown = s.shutdown) (hthreads : t.threads = s.threads)
    (hsemaphores : t.semaphores = s.semaphores) (hsubmits : t.submits = s.submits) :
    Frame cpu s t where
  constructor := hconstructor
  destructor := hdestructor
  shutdown := hshutdown
  threads := hthreads
  semaphores := hsemaphores
  thread v hv := by simp [ht, hv]
  submits f _ := by rw [hsubmits]

theorem exits_checking (hf : s.failed = none) (hs : s.shutdown = true)
    (hp : s.thread cpu = .checking) : Exits n cpu s := by
  have he : Enabled n s (.thread cpu) := ⟨hf, by rw [hp]; trivial⟩
  have hnext : next n s (.thread cpu) = s.goto cpu .exited := by
    simp [next, hp, State.threadStep, hs]
  refine ⟨_, _, run_cons he .refl, .inr ?_⟩
  rw [hnext]
  exact ⟨hf, by simp [State.goto], frame_goto rfl rfl rfl rfl rfl rfl rfl⟩

theorem exits_running (hf : s.failed = none) (hs : s.shutdown = true)
    (hp : s.thread cpu = .running) : Exits n cpu s :=
  .step (l := .return_ cpu) ⟨hf, hp⟩ (frame_goto rfl rfl rfl rfl rfl rfl rfl)
    (exits_checking hf hs (by simp [next, State.goto]))

theorem exits_loading (hf : s.failed = none) (hs : s.shutdown = true)
    (hp : s.thread cpu = .loading) : Exits n cpu s := by
  have he : Enabled n s (.thread cpu) := ⟨hf, by rw [hp]; trivial⟩
  refine .step he ?_ ?_
  · cases hw : s.waiters cpu with
    | nil =>
      simp only [next, hp, State.threadStep, hw]
      exact frame_goto rfl rfl rfl rfl rfl rfl rfl
    | cons callback rest =>
      simp only [next, hp, State.threadStep, hw]
      exact frame_goto (p := .running) rfl rfl rfl rfl rfl rfl rfl
  · cases hw : s.waiters cpu with
    | nil =>
      simp only [next, hp, State.threadStep, hw]
      exact exits_checking hf hs (by simp [State.goto])
    | cons callback rest =>
      simp only [next, hp, State.threadStep, hw]
      exact exits_running hf hs (by simp [State.goto])

theorem exits_waiting (hf : s.failed = none) (hs : s.shutdown = true)
    (hp : s.thread cpu = .waiting) (hpos : 0 < s.semaphore cpu) : Exits n cpu s := by
  have he : Enabled n s (.thread cpu) := ⟨hf, by rw [hp]; exact hpos⟩
  refine .step he ?_ ?_
  · simp only [next, hp, State.threadStep]
    exact frame_goto (p := .loading) rfl rfl rfl rfl rfl rfl rfl
  · simp only [next, hp, State.threadStep]
    exact exits_loading hf hs (by simp [State.goto])

theorem exits_submitting (hf : s.failed = none) (hs : s.shutdown = true) {target : ℕ}
    (hm : (some cpu, target) ∈ s.submits) : Exits n cpu s := by
  have he : Enabled n s (.signal (some cpu) target) := ⟨hf, hm⟩
  by_cases hfail : (next n s (.signal (some cpu) target)).failed = none
  · have hderef : ∃ c, next n s (.signal (some cpu) target) =
        { s.post c with
          submits := s.submits.erase (some cpu, target)
          thread := s.by_ (some cpu) .running } := by
      revert hfail
      simp only [next, State.signal, State.deref]
      split
      · intro h
        cases h
      · intro h
        cases h
      · next c _ =>
        split
        · intro h
          cases h
        · intro _
          exact ⟨c, rfl⟩
    obtain ⟨c, hc⟩ := hderef
    refine .step he ?_ ?_
    · rw [hc]
      refine ⟨rfl, rfl, rfl, rfl, rfl, fun v hv => by simp [State.by_, hv], fun f hne => ?_⟩
      have hne' : f ≠ (some cpu, target) := by
        rintro rfl
        exact hne rfl
      exact List.mem_erase_of_ne hne'
    · rw [hc]
      exact exits_running hf hs (by simp [State.by_])
  · exact ⟨_, _, run_cons he .refl, .inl hfail⟩

/-- A thread that is not waiting for a signal can leave once the pool is shut down. -/
theorem exits_of_active (hf : s.failed = none) (hs : s.shutdown = true)
    (hp : (s.thread cpu).active = true) (hw : s.thread cpu = .waiting → 0 < s.semaphore cpu)
    (hm : s.thread cpu = .submitting → ∃ target, (some cpu, target) ∈ s.submits) :
    Exits n cpu s := by
  cases hc : s.thread cpu with
  | absent | storingSemaphore | storingHead | signallingReady | exited =>
    simp [hc, Thread.active] at hp
  | waiting => exact exits_waiting hf hs hc (hw hc)
  | loading => exact exits_loading hf hs hc
  | running => exact exits_running hf hs hc
  | checking => exact exits_checking hf hs hc
  | submitting =>
    obtain ⟨target, hm⟩ := hm hc
    exact exits_submitting hf hs hm

/-- The destructor has `k` threads left, and each of them is somewhere in its loop or has left. -/
structure Shutting (n k : ℕ) (s : State C) : Prop where
  failed : s.failed = none
  shutdown : s.shutdown = true
  destructor : s.destructor = .testing
  threads : s.threads = k
  semaphores : s.semaphores = (List.range k).map some
  thread : ∀ cpu, cpu < k → (s.thread cpu).active = true ∨ s.thread cpu = .exited
  submitting : ∀ cpu, cpu < k → s.thread cpu = .submitting →
    ∃ target, (some cpu, target) ∈ s.submits

/-- The destructor comes to its end, or something is misused: the semaphore of a thread that has
left, if there is one. -/
theorem shutting_drains {k : ℕ} (h : Shutting n k s) :
    ∃ xs u, (machine C n).Run s xs u ∧ (u.failed ≠ none ∨ u.failed = none ∧ u.semaphores = [] ∧
      (∀ cpu, cpu < k → s.thread cpu ≠ .exited) ∧
      ∀ target, (none, target) ∈ s.submits → (none, target) ∈ u.submits) := by
  induction k generalizing s with
  | zero =>
    exact ⟨[], s, .refl, .inr ⟨h.failed, by simpa using h.semaphores, by simp, fun _ => id⟩⟩
  | succ k ih =>
    have he : Enabled n s .destruct := ⟨h.failed, by rw [h.destructor]; trivial⟩
    have hlast : s.semaphores.getLast? = some (some k) := by
      simp [h.semaphores, List.range_succ]
    by_cases hexited : s.thread k = .exited
    · refine ⟨_, _, run_cons he .refl, .inl ?_⟩
      simp [next, State.destruct, h.destructor, h.threads, hlast, State.deref, hexited, State.fail]
    · have hsignal : next n s .destruct =
          { s.post k with semaphores := s.semaphores.dropLast, destructor := .joining } := by
        simp [next, State.destruct, h.destructor, h.threads, hlast, State.deref, hexited]
      have hactive : (s.thread k).active = true :=
        (h.thread k (by omega)).resolve_right hexited
      have hexits : Exits n k (next n s .destruct) := by
        rw [hsignal]
        exact exits_of_active h.failed h.shutdown hactive (by simp [State.post])
          (h.submitting k (by omega))
      obtain ⟨xs, u, hr, hu⟩ := hexits
      have hrun : (machine C n).Run s ((s, .destruct) :: xs) u := run_cons he hr
      rcases hu with hu | ⟨hfailed, hgone, hframe⟩
      · exact ⟨_, u, hrun, .inl hu⟩
      · rw [hsignal] at hframe
        have hthreads : u.threads = k + 1 := hframe.threads.trans h.threads
        have hjoin : Enabled n u .destruct := by
          refine ⟨hfailed, ?_⟩
          rw [hframe.destructor, hthreads]
          exact hgone
        have hnext : next n u .destruct = { u with threads := k, destructor := .testing } := by
          simp [next, State.destruct, hframe.destructor, hthreads]
        have hshutting : Shutting n k (next n u .destruct) := by
          rw [hnext]
          refine ⟨hfailed, hframe.shutdown.trans h.shutdown, rfl, rfl, ?_, ?_, ?_⟩
          · refine hframe.semaphores.trans ?_
            simp [h.semaphores, List.range_succ]
          · intro cpu hlt
            have hsame : u.thread cpu = s.thread cpu := hframe.thread cpu (by omega)
            simp only [hsame]
            exact h.thread cpu (by omega)
          · intro cpu hlt hs
            have hsame : u.thread cpu = s.thread cpu := hframe.thread cpu (by omega)
            obtain ⟨target, hm⟩ := h.submitting cpu (by omega) (hsame ▸ hs)
            refine ⟨target, (hframe.submits _ ?_).mpr hm⟩
            simp only [ne_eq, Option.some.injEq]
            omega
        obtain ⟨ys, v, hr', hv⟩ := ih hshutting
        have hrun' : (machine C n).Run s (((s, .destruct) :: xs) ++ (u, .destruct) :: ys) v :=
          hrun.append (run_cons hjoin hr')
        refine ⟨_, v, hrun', ?_⟩
        rcases hv with hv | ⟨hv, hnil, hall, hsubmits⟩
        · exact .inl hv
        · refine .inr ⟨hv, hnil, fun cpu hlt => ?_, fun target hm => ?_⟩
          · by_cases hcpu : cpu = k
            · exact hcpu ▸ hexited
            · have hlt' : cpu < k := by omega
              have hne := hall cpu hlt'
              have hsame : u.thread cpu = s.thread cpu := hframe.thread cpu hcpu
              rw [hnext] at hne
              rwa [← hsame]
          · apply hsubmits
            rw [hnext]
            exact (hframe.submits _ (by simp)).mpr hm

/-- The destructor has just started. -/
theorem shutting_shutdown (hp : Published n s) (hk : Counted n s) (hc : s.constructor = .done) :
    Shutting n n (next n s .shutdown) := by
  obtain ⟨hsemaphores, -, -, hthreads⟩ := hp.lengths
  simp only [hc, Constructor.emplaced] at hsemaphores hthreads
  refine ⟨hp.failed, rfl, rfl, hthreads, ?_, ?_, ?_⟩
  · apply List.ext_getElem?
    intro cpu
    by_cases hn : cpu < n
    · simp [next, (hp.done hc hn).1, hn]
    · simp [next, hn, List.getElem?_eq_none (by omega : s.semaphores.length ≤ cpu)]
  · intro cpu hn
    left
    have halive := hp.alive cpu
    have habsent : s.thread cpu ≠ .absent := by
      rw [Ne, hp.absent, hc]
      simpa [Constructor.emplaced] using hn
    have hpublishing : (s.thread cpu).publishing = false := by
      rw [← Bool.not_eq_true]
      exact fun hpub => (hp.publishing cpu hpub).2.1 hc
    revert halive habsent hpublishing
    simp only [next]
    cases s.thread cpu <;> simp [Thread.active, Thread.publishing]
  · intro cpu hn hs
    have hcount := hk.submitting cpu
    have hs' : s.thread cpu = .submitting := hs
    rw [hs', if_pos rfl] at hcount
    obtain ⟨⟨by_, target⟩, hm, hby⟩ := List.countP_pos_iff.mp
      (by omega : 0 < s.submits.countP fun f => f.1 = some cpu)
    simp only [decide_eq_true_eq] at hby
    exact ⟨target, hby ▸ hm⟩

/-- A thread that could leave before it is told to does. -/
theorem misuses_of_exits {k : ℕ} (h : Shutting n k s) (hlt : cpu < k) (he : Exits n cpu s) :
    ∃ xs u, (machine C n).Run s xs u ∧ u.failed ≠ none := by
  obtain ⟨xs, u, hr, hu⟩ := he
  rcases hu with hu | ⟨hfailed, hexited, hframe⟩
  · exact ⟨xs, u, hr, hu⟩
  · have hshutting : Shutting n k u := by
      refine ⟨hfailed, hframe.shutdown.trans h.shutdown, hframe.destructor.trans h.destructor,
        hframe.threads.trans h.threads, hframe.semaphores.trans h.semaphores, ?_, ?_⟩
      · intro v hv
        by_cases hvc : v = cpu
        · exact .inr (hvc ▸ hexited)
        · rw [hframe.thread v hvc]
          exact h.thread v hv
      · intro v hv hs
        by_cases hvc : v = cpu
        · rw [hvc, hexited] at hs
          cases hs
        · rw [hframe.thread v hvc] at hs
          obtain ⟨target, hm⟩ := h.submitting v hv hs
          exact ⟨target, (hframe.submits _ (by simpa using hvc)).mpr hm⟩
    obtain ⟨ys, v, hr', hv⟩ := shutting_drains hshutting
    refine ⟨xs ++ ys, v, hr.append hr', ?_⟩
    rcases hv with hv | ⟨-, -, hall, -⟩
    · exact hv
    · exact absurd hexited (hall cpu hlt)

/-- A pool that is not idle can be destroyed the wrong way. -/
theorem misuses_of_not_idle (hp : Published n s) (hk : Counted n s) (hc : s.constructor = .done)
    (hi : ¬ Idle n s) :
    ∃ xs u, (machine C n).Run (next n s .shutdown) xs u ∧ u.failed ≠ none := by
  have hshutting := shutting_shutdown hp hk hc
  by_cases hall : ∀ cpu, cpu < n → s.thread cpu = .waiting ∧ s.semaphore cpu = 0
  · have hne : s.submits ≠ [] := fun hnil => hi ⟨hnil, hall⟩
    obtain ⟨⟨by_, target⟩, hm⟩ := List.exists_mem_of_ne_nil _ hne
    -- no thread of the pool is in a callback, so that somebody else is about to signal
    have hby : by_ = none := by
      cases hb : by_ with
      | none => rfl
      | some t =>
        have hs : s.thread t = .submitting := hk.by_submitting hm t hb
        have ht : t < n := hp.emplaced_lt (by simp [hs])
        rw [(hall t ht).1] at hs
        cases hs
    subst hby
    obtain ⟨xs, u, hr, hu⟩ := shutting_drains hshutting
    rcases hu with hu | ⟨hfailed, hnil, -, hsubmits⟩
    · exact ⟨xs, u, hr, hu⟩
    · have hsignal : Enabled n u (.signal none target) := ⟨hfailed, hsubmits target hm⟩
      refine ⟨_, _, hr.append (run_cons hsignal .refl), ?_⟩
      simp [next, State.signal, hnil, State.deref, State.fail]
  · simp only [not_forall] at hall
    obtain ⟨cpu, hn, hbusy⟩ := hall
    have hactive : (s.thread cpu).active = true :=
      (hshutting.thread cpu hn).resolve_right (hp.alive cpu)
    refine misuses_of_exits hshutting hn
      (exits_of_active hp.failed rfl hactive (fun hw => ?_) (hshutting.submitting cpu hn))
    by_contra hz
    exact hbusy ⟨hw, by simpa [next] using hz⟩

/-- Until it is destroyed a pool never uses a pointer that is null or dangles. When it is
destroyed, then nothing is misused in whatever order the threads go on if and only if every thread
waits and nobody is about to wake one. The destructor of such a pool comes to its end within
`5 * n + 1` steps, with every thread joined and every callback started that was submitted. -/
theorem destructs_iff_idle (h : (machine C n).Reachable s) (hd : s.destructor = .idle) :
    s.failed = none ∧ (s.constructor = .done →
      ((∀ xs u, (machine C n).Run (next n s .shutdown) xs u → u.failed = none) ↔ Idle n s) ∧
      (Idle n s → ∀ xs u, (machine C n).Run (next n s .shutdown) xs u →
        xs.length ≤ 5 * n + 1 ∧ ((∀ l, ¬ Enabled n u l) →
          u.destructor = .done ∧
          ∀ cpu, cpu < n → u.thread cpu = .exited ∧ u.started cpu = s.submitted cpu))) := by
  obtain ⟨hp, hk⟩ := inv_reachable h hd
  refine ⟨hp.failed, fun hc => ?_⟩
  have hrun : Idle n s → ∀ xs u, (machine C n).Run (next n s .shutdown) xs u →
      Draining n s u ∧ xs.length + u.left ≤ 5 * n + 1 := by
    intro hi xs u hr
    have hstart := draining_shutdown hp hk hc hi
    have hleft : (next n s .shutdown).left = 5 * n + 1 := by
      have hthreads : s.threads = n := by simpa [hc, Constructor.emplaced] using hp.lengths.2.2.2
      simp [next, State.left, hthreads]
    rw [← hleft]
    clear hleft
    generalize next n s .shutdown = t at hr hstart
    induction hr with
    | refl => exact ⟨hstart, by simp⟩
    | @stepL t u v l xs hs _ ih =>
      obtain ⟨he, rfl⟩ := hs
      obtain ⟨hnext, hlt⟩ := draining_next hstart he
      obtain ⟨hdraining, hle⟩ := ih hnext
      refine ⟨hdraining, ?_⟩
      simp only [List.length_cons]
      simp only [machine] at hle
      omega
  refine ⟨⟨fun hsafe => ?_, fun hi xs u hr => ?_⟩, fun hi xs u hr => ?_⟩
  · by_contra hi
    obtain ⟨xs, u, hr, hu⟩ := misuses_of_not_idle hp hk hc hi
    exact hu (hsafe xs u hr)
  · obtain ⟨k, hq⟩ := (hrun hi xs u hr).1.quiet
    exact hq.failed
  · obtain ⟨hdraining, hle⟩ := hrun hi xs u hr
    refine ⟨by omega, fun hfinal => ?_⟩
    have hdone : u.destructor = .done := by
      rcases hdraining.goes with hdone | ⟨l, he⟩
      · exact hdone
      · exact absurd he (hfinal l)
    refine ⟨hdone, fun cpu hn => ?_⟩
    cases hdraining with
    | testing _ hd' => simp [hd'] at hdone
    | joining _ hd' => simp [hd'] at hdone
    | done hq _ hgone =>
      constructor
      · rcases hgone cpu (Nat.zero_le cpu) with he | ⟨hle, -⟩
        · exact he
        · omega
      · rw [hq.started, hk.started, hi.waiters hk hn, List.append_nil]

/-- A pool of one thread runs a callback and is shut down while the thread waits for the next. -/
def oneThread : List (Label ℕ) :=
  [.construct, .thread 0, .thread 0, .thread 0, .construct, .construct, .construct,
    .submit none 0 7, .signal none 0, .thread 0, .thread 0, .return_ 0, .thread 0]

theorem oneThread_destructs : ∃ s : State ℕ, s.constructor = .done ∧ s.submitted 0 = [7] ∧
    ∀ xs u, (machine ℕ 1).Run (next 1 s .shutdown) xs u → u.failed = none := by
  obtain ⟨s, hs, hp⟩ := Machine.exists_reachable_of_exec (M := machine ℕ 1) oneThread
    (fun s => decide (s.constructor = .done ∧ s.destructor = .idle ∧ s.submitted 0 = [7] ∧
      s.submits = [] ∧ s.thread 0 = .waiting ∧ s.semaphore 0 = 0)) rfl (by decide)
  obtain ⟨hc, hd, hsubmitted, hsubmits, hwaiting, hzero⟩ := of_decide_eq_true hp
  refine ⟨s, hc, hsubmitted, ((destructs_iff_idle hs hd).2 hc).1.mpr ⟨hsubmits, ?_⟩⟩
  intro cpu hn
  obtain rfl : cpu = 0 := by omega
  exact ⟨hwaiting, hzero⟩

end Eventuals.StaticThreadPool.Lifetime
