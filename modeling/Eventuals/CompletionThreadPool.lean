import Mathlib.Algebra.Group.Nat.Defs
import Mathlib.Data.List.Basic
import Mathlib.Data.List.Nodup
import Mathlib.Logic.Function.Iterate
import Eventuals.Library.Transition

/-! A pool of completion queues and of the threads that poll them
(`grpc/completion-thread-pool.h`). Whoever uses the queues starts operations on them and borrows
them; an operation that has completed is an event. `Schedule()` is one step: calls of it that
overlap, which its scan of the queues and its flag are not made for, are left out. -/
namespace Eventuals.CompletionThreadPool

open Transition (Machine)

/-- `SIZE_MAX` -/
def sizeMax : ℕ := 2 ^ 64 - 1

/-- A completion queue, behind its `Borrowable`. -/
structure Queue where
  borrows : ℕ
  pending : ℕ
  events : ℕ
  isShutdown : Bool
  deriving DecidableEq

/-- The queue that a thread polls, and which of the threads of the queue it is. -/
abbrev Thread := ℕ × ℕ

/-- Where the call of `Shutdown()` and `Wait()` is. -/
inductive Waiter
  | running
  /-- `Shutdown()` has got to that element of `cqs_`. -/
  | shutdown (i : ℕ)
  /-- `while (!threads_.empty())` -/
  | wait
  /-- `while (cq->Next(&tag, &ok)) {}` -/
  | drain
  /-- `cqs_.pop_back()` -/
  | pop
  | done
  /-- `back()` of an empty `cqs_`. -/
  | failed
  deriving DecidableEq

structure State where
  queue : ℕ → Queue
  cqs : List ℕ
  threads : List Thread
  exited : Thread → Bool
  waiter : Waiter
  /-- The latest is the first, as it is with `drained`. -/
  joined : List Thread
  drained : List ℕ

inductive Label
  | start (q : ℕ)
  | complete (q : ℕ)
  /-- `Next()` of a thread returns, which then runs the callback or exits. -/
  | poll (w : Thread)
  | schedule
  | reborrow (q : ℕ)
  | release (q : ℕ)
  | waiter
  deriving DecidableEq

/-- `Next()` returns false. -/
def Queue.finished (q : Queue) : Bool := q.isShutdown && q.pending == 0 && q.events == 0

/-- `Next()` returns. -/
def Queue.ready (q : Queue) : Bool := 0 < q.events || q.finished

/-- `Next()` has returned true. -/
def Queue.next (q : Queue) : Queue := { q with events := q.events - 1 }

namespace State

variable (s : State)

def modify (q : ℕ) (f : Queue → Queue) : State :=
  { s with queue := Function.update s.queue q (f (s.queue q)) }

def addCompletionQueue (t : ℕ) : State :=
  { s with
    cqs := s.cqs ++ [s.cqs.length]
    threads := s.threads ++ (List.range t).map fun i => (s.cqs.length, i) }

/-- `Schedule()`: an element of `cqs_` with the smallest number of borrows. -/
def schedule : Option ℕ :=
  (s.cqs.foldl (fun p q =>
    let borrows := (s.queue q).borrows
    if borrows < p.2 then (some q, borrows) else p) (none, sizeMax)).1

def waiterEnabled : Bool :=
  match s.waiter with
  | .running | .shutdown _ => true
  | .wait => (s.threads.getLast?).all s.exited
  | .drain => (s.cqs.getLast?).all fun q => (s.queue q).ready
  | .pop => (s.cqs.getLast?).all fun q => (s.queue q).borrows = 0
  | .done | .failed => false

def waiterNext : State :=
  match s.waiter with
  | .running => { s with waiter := .shutdown 0 }
  | .shutdown i =>
    match s.cqs[i]? with
    | some q => { s.modify q ({ · with isShutdown := true }) with waiter := .shutdown (i + 1) }
    | none => { s with waiter := .wait }
  | .wait =>
    match s.threads.getLast? with
    | some w =>
      { s with
        threads := s.threads.dropLast
        joined := w :: s.joined
        waiter := if s.cqs.isEmpty then .failed else .drain }
    | none => { s with waiter := .done }
  | .drain =>
    match s.cqs.getLast? with
    | some q =>
      if (s.queue q).finished then { s with drained := q :: s.drained, waiter := .pop }
      else s.modify q Queue.next
    | none => s
  | .pop => { s with cqs := s.cqs.dropLast, waiter := .wait }
  | .done | .failed => s

end State

def empty : State where
  queue _ := ⟨0, 0, 0, false⟩
  cqs := []
  threads := []
  exited _ := false
  waiter := .running
  joined := []
  drained := []

/-- The constructor adds one queue after the other. -/
def construct (n t : ℕ) : State := (fun s => s.addCompletionQueue t)^[n] empty

def Enabled (n t : ℕ) (s : State) : Label → Prop
  | .start q => q < n ∧ (s.queue q).isShutdown = false
  | .complete q => q < n ∧ 0 < (s.queue q).pending
  | .poll w => w.1 < n ∧ w.2 < t ∧ s.exited w = false ∧ (s.queue w.1).ready = true
  | .schedule => s.waiter = .running ∧ s.schedule ≠ none
  | .reborrow q | .release q => q < n ∧ 0 < (s.queue q).borrows
  | .waiter => s.waiterEnabled = true

def next (s : State) : Label → State
  | .start q => s.modify q fun q => { q with pending := q.pending + 1 }
  | .complete q => s.modify q fun q => { q with pending := q.pending - 1, events := q.events + 1 }
  | .poll w =>
    if (s.queue w.1).finished then { s with exited := Function.update s.exited w true }
    else s.modify w.1 Queue.next
  | .schedule =>
    match s.schedule with
    | some q => s.modify q fun q => { q with borrows := q.borrows + 1 }
    | none => s
  | .reborrow q => s.modify q fun q => { q with borrows := q.borrows + 1 }
  | .release q => s.modify q fun q => { q with borrows := q.borrows - 1 }
  | .waiter => s.waiterNext

/-- `n` queues with `t` threads for each. -/
def machine (n t : ℕ) : Machine State Label where
  Initial s := s = construct n t
  Enabled := Enabled n t
  next := next

/-- The threads of one queue stand behind those of the other. -/
def layout (n t : ℕ) : List Thread :=
  (List.range n).flatMap fun q => (List.range t).map fun i => (q, i)

/-- `Wait()` has come to the end of `Shutdown()`. -/
def Waiter.waits : Waiter → Bool
  | .running | .shutdown _ => false
  | .wait | .drain | .pop | .done | .failed => true

def Label.isBorrow : Label → Bool
  | .reborrow _ | .release _ => true
  | .start _ | .complete _ | .poll _ | .schedule | .waiter => false

section Layout

theorem mem_layout {n t : ℕ} {w : Thread} : w ∈ layout n t ↔ w.1 < n ∧ w.2 < t := by
  simp only [layout, List.mem_flatMap, List.mem_range, List.mem_map]
  constructor
  · rintro ⟨q, hq, i, hi, rfl⟩
    exact ⟨hq, hi⟩
  · rintro ⟨hq, hi⟩
    exact ⟨w.1, hq, w.2, hi, rfl⟩

theorem layout_succ (n t : ℕ) :
    layout (n + 1) t = layout n t ++ (List.range t).map fun i => (n, i) := by
  simp [layout, List.range_succ]

theorem nodup_layout (n t : ℕ) : (layout n t).Nodup := by
  induction n with
  | zero => exact List.nodup_nil
  | succ n ih =>
    rw [layout_succ, List.nodup_append]
    refine ⟨ih, List.nodup_range.map fun i j h => (Prod.mk.inj h).2, ?_⟩
    intro w hw v hv hwv
    obtain ⟨i, -, rfl⟩ := List.mem_map.mp hv
    have hlt := (mem_layout.mp hw).1
    rw [hwv] at hlt
    exact Nat.lt_irrefl _ hlt

/-- The queues of the threads are those of the pool, in the same order. -/
theorem map_fst_layout {n t : ℕ} (h : n = 0 ∨ t = 1) :
    (layout n t).map Prod.fst = List.range n := by
  rcases h with rfl | rfl
  · rfl
  · induction n with
    | zero => rfl
    | succ n ih =>
      rw [layout_succ, List.map_append, ih]
      exact List.range_succ.symm

theorem construct_eq (n t : ℕ) :
    construct n t = { empty with cqs := List.range n, threads := layout n t } := by
  induction n with
  | zero => rfl
  | succ n ih =>
    rw [construct, Function.iterate_succ_apply', ← construct, ih, layout_succ, List.range_succ]
    simp [State.addCompletionQueue]

end Layout

section Steps

variable {n t : ℕ} {s u : State} {l : Label}

@[simp] theorem modify_self (q : ℕ) (f : Queue → Queue) :
    (s.modify q f).queue q = f (s.queue q) :=
  Function.update_self ..

theorem modify_of_ne {p q : ℕ} (h : p ≠ q) (f : Queue → Queue) :
    (s.modify q f).queue p = s.queue p :=
  Function.update_of_ne h ..

/-- What only `Shutdown()` and `Wait()` change. -/
structure Frame (s u : State) : Prop where
  cqs : u.cqs = s.cqs
  threads : u.threads = s.threads
  waiter : u.waiter = s.waiter
  joined : u.joined = s.joined
  drained : u.drained = s.drained
  isShutdown : ∀ q, (u.queue q).isShutdown = (s.queue q).isShutdown

theorem frame_modify (q : ℕ) {f : Queue → Queue}
    (hf : ∀ x, (f x).isShutdown = x.isShutdown) : Frame s (s.modify q f) where
  cqs := rfl
  threads := rfl
  waiter := rfl
  joined := rfl
  drained := rfl
  isShutdown p := by
    by_cases h : p = q
    · subst h
      rw [modify_self, hf]
    · rw [modify_of_ne h]

theorem frame_refl (s : State) : Frame s s := ⟨rfl, rfl, rfl, rfl, rfl, fun _ => rfl⟩

theorem frame_next (hl : l ≠ .waiter) : Frame s (next s l) := by
  cases l with
  | start q | complete q | reborrow q | release q =>
    simp only [next]
    exact frame_modify q fun _ => rfl
  | poll w =>
    unfold next
    dsimp only
    split
    · exact ⟨rfl, rfl, rfl, rfl, rfl, fun _ => rfl⟩
    · exact frame_modify w.1 fun _ => rfl
  | schedule =>
    unfold next
    dsimp only
    split
    · exact frame_modify _ fun _ => rfl
    · exact frame_refl s
  | waiter => exact absurd rfl hl

/-- The queues that `Shutdown()` has got past. -/
def Waiter.past : Waiter → ℕ → Prop
  | .running, _ => False
  | .shutdown i, q => q < i
  | .wait, _ | .drain, _ | .pop, _ | .done, _ | .failed, _ => True

structure Inv (n t : ℕ) (s : State) : Prop where
  threads : s.threads ++ s.joined = layout n t
  cqs : (if s.waiter = .pop then s.cqs.dropLast else s.cqs) ++ s.drained = List.range n
  begun : s.waiter.waits = false → s.joined = [] ∧ s.drained = []
  shut : ∀ q < n, s.waiter.past q → (s.queue q).isShutdown = true
  pop : s.waiter = .pop → s.cqs.getLast? = s.drained.head?
  done : s.waiter = .done → s.threads = []

theorem inv_construct (n t : ℕ) : Inv n t (construct n t) := by
  rw [construct_eq]
  exact {
    threads := List.append_nil _
    cqs := List.append_nil _
    begun := fun _ => ⟨rfl, rfl⟩
    shut := fun _ _ h => h.elim
    pop := fun h => nomatch h
    done := fun h => nomatch h }

theorem Inv.of_frame (h : Inv n t s) (hf : Frame s u) : Inv n t u where
  threads := by rw [hf.threads, hf.joined, h.threads]
  cqs := by rw [hf.waiter, hf.cqs, hf.drained, h.cqs]
  begun := by
    rw [hf.waiter, hf.joined, hf.drained]
    exact h.begun
  shut q hq hp := by
    rw [hf.isShutdown]
    exact h.shut q hq (hf.waiter ▸ hp)
  pop := by
    rw [hf.waiter, hf.cqs, hf.drained]
    exact h.pop
  done := by
    rw [hf.waiter, hf.threads]
    exact h.done

theorem Inv.cqs_eq (h : Inv n t s) (hw : s.waiter.waits = false) : s.cqs = List.range n := by
  have hcqs := h.cqs
  rw [(h.begun hw).2, List.append_nil] at hcqs
  cases hs : s.waiter with
  | running | shutdown => simpa [hs] using hcqs
  | wait | drain | pop | done | failed => simp [hs, Waiter.waits] at hw

theorem Inv.shut_of_waits (h : Inv n t s) (hw : s.waiter.waits = true) (q : ℕ) (hq : q < n) :
    (s.queue q).isShutdown = true := by
  refine h.shut q hq ?_
  cases hs : s.waiter with
  | running | shutdown => simp [hs, Waiter.waits] at hw
  | wait | drain | pop | done | failed => trivial

theorem inv_waiter (h : Inv n t s) : Inv n t s.waiterNext := by
  have hcqs := h.cqs
  unfold State.waiterNext
  cases hw : s.waiter with
  | running =>
    have hbegun := h.begun (by rw [hw]; rfl)
    exact {
      threads := h.threads
      cqs := by simpa [hw] using hcqs
      begun := fun _ => hbegun
      shut := fun q _ hq => absurd hq (Nat.not_lt_zero q)
      pop := fun hp => nomatch hp
      done := fun hd => nomatch hd }
  | shutdown i =>
    have hwaits : s.waiter.waits = false := by rw [hw]; rfl
    have hbegun := h.begun hwaits
    have hrange := h.cqs_eq hwaits
    simp only [hw, reduceCtorEq, if_false] at hcqs
    dsimp only
    split
    · rename_i q hq
      have hqi : q = i := by
        rw [hrange, List.getElem?_eq_some_iff] at hq
        obtain ⟨hi, hq⟩ := hq
        rw [← hq, List.getElem_range]
      subst hqi
      exact {
        threads := h.threads
        cqs := hcqs
        begun := fun _ => hbegun
        shut := by
          intro p hp hlt
          dsimp only [Waiter.past] at hlt ⊢
          by_cases hpq : p = q
          · subst hpq
            rw [modify_self]
          · rw [modify_of_ne hpq]
            refine h.shut p hp ?_
            rw [hw]
            exact Nat.lt_of_le_of_ne (Nat.le_of_lt_succ hlt) hpq
        pop := fun hp => nomatch hp
        done := fun hd => nomatch hd }
    · rename_i hnone
      have hle : n ≤ i := by
        rw [hrange, List.getElem?_eq_none_iff, List.length_range] at hnone
        exact hnone
      exact {
        threads := h.threads
        cqs := by simpa using hcqs
        begun := fun _ => hbegun
        shut := by
          intro p hp _
          refine h.shut p hp ?_
          rw [hw]
          exact Nat.lt_of_lt_of_le hp hle
        pop := fun hp => nomatch hp
        done := fun hd => nomatch hd }
  | wait =>
    have hshut := h.shut_of_waits (by rw [hw]; rfl)
    simp only [hw, reduceCtorEq, if_false] at hcqs
    dsimp only
    split
    · rename_i w hlast
      have hthreads : s.threads.dropLast ++ w :: s.joined = layout n t := by
        rw [← h.threads]
        nth_rewrite 2 [← List.dropLast_append_getLast? w hlast]
        rw [List.append_assoc, List.singleton_append]
      split
      all_goals exact {
        threads := hthreads
        cqs := hcqs
        begun := fun hf => nomatch hf
        shut := fun q hq _ => hshut q hq
        pop := fun hp => nomatch hp
        done := fun hd => nomatch hd }
    · rename_i hnone
      exact {
        threads := h.threads
        cqs := by simpa using hcqs
        begun := fun hf => nomatch hf
        shut := fun q hq _ => hshut q hq
        pop := fun hp => nomatch hp
        done := fun _ => List.getLast?_eq_none_iff.mp hnone }
  | drain =>
    have hshut := h.shut_of_waits (by rw [hw]; rfl)
    dsimp only
    split
    · rename_i q hlast
      split
      · simp only [hw, reduceCtorEq, if_false] at hcqs
        exact {
          threads := h.threads
          cqs := by
            rw [← hcqs, ← List.dropLast_append_getLast? q hlast]
            simp
          begun := fun hf => nomatch hf
          shut := fun q hq _ => hshut q hq
          pop := fun _ => hlast
          done := fun hd => nomatch hd }
      · exact h.of_frame (frame_modify q fun _ => rfl)
    · exact h
  | pop =>
    simp only [hw, if_true] at hcqs
    exact {
      threads := h.threads
      cqs := by simpa using hcqs
      begun := fun hf => nomatch hf
      shut := fun q hq _ => h.shut_of_waits (by rw [hw]; rfl) q hq
      pop := fun hp => nomatch hp
      done := fun hd => nomatch hd }
  | done | failed => exact h

theorem inv_next (h : Inv n t s) (l : Label) : Inv n t (next s l) := by
  by_cases hl : l = .waiter
  · subst hl
    exact inv_waiter h
  · exact h.of_frame (frame_next hl)

theorem inv_reachable (h : (machine n t).Reachable s) : Inv n t s :=
  h.invariant (fun s (hs : s = construct n t) => hs ▸ inv_construct n t)
    fun _ l hi _ => inv_next hi l

end Steps

end Eventuals.CompletionThreadPool
