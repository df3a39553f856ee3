import Mathlib.Algebra.Order.BigOperators.Group.Finset
import Eventuals.CompletionThreadPool

/-! What `Shutdown()` and `Wait()` do to a pool, for any number of queues and of threads for each of
them. -/
namespace Eventuals.CompletionThreadPool

open Transition (Machine)

/-- No thread is joined twice, and a queue is drained once, and destroyed, after all of its threads
have been joined. -/
structure Safe (n t : ℕ) (s : State) : Prop where
  joined : s.joined.Nodup
  drained : s.drained.Nodup
  after : ∀ q < n, s.waiter = .drain ∧ s.cqs.getLast? = some q ∨ q ∈ s.drained ∨ q ∉ s.cqs →
    ∀ i < t, (q, i) ∈ s.joined
  unfailed : s.waiter ≠ .failed

/-- `Shutdown()` and `Wait()` are safe, cannot get stuck, and wait for nothing for ever but that the
queues are not borrowed any more; when they are over, every thread has been joined and every queue
been drained. -/
structure Waits (n t : ℕ) : Prop where
  safe : ∀ s, (machine n t).Reachable s → Safe n t s
  ends : ∀ s, (machine n t).Reachable s → s.waiter ≠ .running →
    (machine n t).Quiet (fun l => ∀ q, l ≠ .reborrow q) s → s.waiter = .done
  bounded : ∀ s, (machine n t).Reachable s → s.waiter.waits = true →
    ∃ m, ∀ xs u, (machine n t).Run s xs u → xs.countP (fun p => !p.2.isBorrow) ≤ m
  all : ∀ s, (machine n t).Reachable s → s.waiter = .done →
    (∀ q < n, ∀ i < t, (q, i) ∈ s.joined) ∧ ∀ q < n, q ∈ s.drained

section Pairs

variable {n t : ℕ} {s : State}

/-- One queue has been drained for each thread that has been joined. -/
structure Paired (s : State) : Prop where
  length : s.joined.length = s.drained.length + if s.waiter = .drain then 1 else 0
  unfailed : s.waiter ≠ .failed

theorem length_layout (hn : n = 0 ∨ t = 1) : (layout n t).length = n := by
  rw [← List.length_map (f := Prod.fst), map_fst_layout hn, List.length_range]

/-- There is a queue for each thread that has not been joined. -/
theorem Paired.cqs_length (h : Inv n t s) (hp : Paired s) (hn : n = 0 ∨ t = 1)
    (hw : s.waiter = .wait) : s.cqs.length = s.threads.length := by
  have hthreads := congrArg List.length h.threads
  have hcqs := congrArg List.length h.cqs
  have hlength := hp.length
  rw [List.length_append, length_layout hn] at hthreads
  simp only [hw, reduceCtorEq, if_false, List.length_append, List.length_range] at hcqs hlength
  omega

theorem paired_waiter (h : Inv n t s) (hp : Paired s) (hn : n = 0 ∨ t = 1) :
    Paired s.waiterNext := by
  have hlength := hp.length
  unfold State.waiterNext
  cases hw : s.waiter with
  | running =>
    simp only [hw, reduceCtorEq, if_false] at hlength
    exact ⟨hlength, by simp⟩
  | shutdown i =>
    simp only [hw, reduceCtorEq, if_false] at hlength
    dsimp only
    split <;> exact ⟨hlength, by simp⟩
  | wait =>
    have hcqs := hp.cqs_length h hn hw
    simp only [hw, reduceCtorEq, if_false, Nat.add_zero] at hlength
    dsimp only
    split
    · rename_i w hlast
      have hne : s.cqs.isEmpty = false := by
        rw [← Bool.not_eq_true, List.isEmpty_iff, ← List.length_eq_zero_iff, hcqs,
          List.length_eq_zero_iff]
        rintro hnil
        rw [hnil] at hlast
        cases hlast
      rw [hne]
      exact ⟨by simp [hlength], by simp⟩
    · exact ⟨by simpa using hlength, by simp⟩
  | drain =>
    simp only [hw, if_true] at hlength
    dsimp only
    split
    · split
      · exact ⟨by simpa using hlength, by simp⟩
      · rename_i q _ _
        have hf := frame_modify (s := s) q (f := Queue.next) fun _ => rfl
        refine ⟨?_, ?_⟩
        · rw [hf.joined, hf.drained, hf.waiter, if_pos hw, hlength]
        · rw [hf.waiter, hw]
          simp
    · exact hp
  | pop =>
    simp only [hw, reduceCtorEq, if_false] at hlength
    exact ⟨by simpa using hlength, by simp⟩
  | done | failed => exact hp

theorem paired_next (h : Inv n t s) (hp : Paired s) (hn : n = 0 ∨ t = 1) (l : Label) :
    Paired (next s l) := by
  by_cases hl : l = .waiter
  · subst hl
    exact paired_waiter h hp hn
  · have hf := frame_next (s := s) hl
    exact ⟨by rw [hf.joined, hf.drained, hf.waiter, hp.length], hf.waiter ▸ hp.unfailed⟩

theorem paired_reachable (hn : n = 0 ∨ t = 1) (h : (machine n t).Reachable s) : Paired s := by
  induction h with
  | initial h0 =>
    obtain rfl : _ = construct n t := h0
    rw [construct_eq]
    exact ⟨rfl, nofun⟩
  | step hr hs ih =>
    obtain ⟨-, rfl⟩ := hs
    exact paired_next (inv_reachable hr) ih hn _

/-- The queues of the threads that have been joined are those that have been drained, and the one
that is being drained. -/
theorem map_fst_joined (h : Inv n t s) (hp : Paired s) (hn : n = 0 ∨ t = 1) :
    s.joined.map Prod.fst =
      (if s.waiter = .drain then s.cqs.getLast?.toList else []) ++ s.drained := by
  have hthreads := congrArg (List.map Prod.fst) h.threads
  rw [List.map_append, map_fst_layout hn, ← h.cqs] at hthreads
  have hlength := hp.length
  split
  · rename_i hw
    simp only [hw, reduceCtorEq, if_false, if_true] at hthreads hlength
    cases hlast : s.cqs.getLast? with
    | none =>
      rw [List.getLast?_eq_none_iff.mp hlast, List.nil_append] at hthreads
      have hle := congrArg List.length hthreads
      rw [List.length_append, List.length_map, List.length_map] at hle
      omega
    | some q =>
      rw [← List.dropLast_append_getLast? q hlast, List.append_assoc] at hthreads
      refine (List.append_inj' hthreads ?_).2
      rw [List.length_map, hlength, List.length_append, List.length_singleton, Nat.add_comm]
  · rename_i hw
    simp only [hw, if_false] at hlength
    refine (List.append_inj' hthreads ?_).2
    rw [List.length_map, hlength]
    rfl

theorem safe_of_paired (h : Inv n t s) (hp : Paired s) (hn : n = 0 ∨ t = 1) : Safe n t s where
  joined := by
    have hnodup := nodup_layout n t
    rw [← h.threads] at hnodup
    exact (List.nodup_append.mp hnodup).2.1
  drained := by
    have hnodup := List.nodup_range (n := n)
    rw [← h.cqs] at hnodup
    exact (List.nodup_append.mp hnodup).2.1
  unfailed := hp.unfailed
  after q hq hgone i hi := by
    have hmem : q ∈ s.joined.map Prod.fst := by
      rw [map_fst_joined h hp hn, List.mem_append]
      rcases hgone with ⟨hw, hlast⟩ | hdrained | hout
      · left
        rw [if_pos hw, hlast]
        exact List.mem_singleton_self q
      · exact .inr hdrained
      · right
        have hrange : q ∈ List.range n := List.mem_range.mpr hq
        rw [← h.cqs, List.mem_append] at hrange
        refine hrange.resolve_left fun hin => hout ?_
        split at hin
        · exact List.mem_of_mem_dropLast hin
        · exact hin
    obtain ⟨w, hw, rfl⟩ := List.mem_map.mp hmem
    have hlayout : w ∈ layout n t := h.threads ▸ List.mem_append_right _ hw
    have hwt := (mem_layout.mp hlayout).2
    have hiw : i = w.2 := by omega
    rw [hiw]
    exact hw

theorem all_of_done (h : Inv n t s) (hp : Paired s) (hn : n = 0 ∨ t = 1) (hw : s.waiter = .done) :
    (∀ q < n, ∀ i < t, (q, i) ∈ s.joined) ∧ ∀ q < n, q ∈ s.drained := by
  have hjoined : s.joined = layout n t := by
    rw [← h.threads, h.done hw, List.nil_append]
  have hdrained := map_fst_joined h hp hn
  rw [hjoined, map_fst_layout hn] at hdrained
  simp only [hw, reduceCtorEq, if_false, List.nil_append] at hdrained
  refine ⟨fun q hq i hi => ?_, fun q hq => ?_⟩
  · rw [hjoined]
    exact mem_layout.mpr ⟨hq, hi⟩
  · rw [← hdrained]
    exact List.mem_range.mpr hq

/-- A queue that has been shut down either has something for `Next()` or an operation that has not
completed. -/
theorem ready_of_quiet {q : Queue} (hs : q.isShutdown = true) (hp : q.pending = 0) :
    q.ready = true := by
  unfold Queue.ready Queue.finished
  rcases Nat.eq_zero_or_pos q.events with h | h <;> simp [hs, hp, h]

theorem done_of_quiet (h : Inv n t s) (hp : Paired s) (hrunning : s.waiter ≠ .running)
    (hq : (machine n t).Quiet (fun l => ∀ q, l ≠ .reborrow q) s) : s.waiter = .done := by
  have hready : s.waiter.waits = true → ∀ q < n, (s.queue q).ready = true := by
    intro hwaits q hlt
    refine ready_of_quiet (h.shut_of_waits hwaits q hlt) ?_
    by_contra hpos
    exact hq (.complete q) nofun ⟨hlt, Nat.pos_of_ne_zero hpos⟩
  have hwaiter : s.waiterEnabled = false := by
    by_contra he
    exact hq .waiter nofun (Bool.of_not_eq_false he)
  unfold State.waiterEnabled at hwaiter
  cases hw : s.waiter with
  | running => exact absurd hw hrunning
  | shutdown => simp [hw] at hwaiter
  | wait =>
    simp only [hw, Option.all_eq_false] at hwaiter
    obtain ⟨w, hlast, hexited⟩ := hwaiter
    have hlayout : w ∈ layout n t := by
      rw [← h.threads]
      exact List.mem_append_left _ (List.mem_of_getLast? hlast)
    obtain ⟨hlt, ht⟩ := mem_layout.mp hlayout
    exact absurd ⟨hlt, ht, hexited, hready (by rw [hw]; rfl) _ hlt⟩ (hq (.poll w) nofun)
  | drain =>
    simp only [hw, Option.all_eq_false] at hwaiter
    obtain ⟨q, hlast, hnot⟩ := hwaiter
    have hcqs := h.cqs
    simp only [hw, reduceCtorEq, if_false] at hcqs
    have hrange : q ∈ List.range n := by
      rw [← hcqs]
      exact List.mem_append_left _ (List.mem_of_getLast? hlast)
    rw [hready (by rw [hw]; rfl) q (List.mem_range.mp hrange)] at hnot
    cases hnot
  | pop =>
    simp only [hw, Option.all_eq_false, decide_eq_false_iff_not] at hwaiter
    obtain ⟨q, hlast, hborrows⟩ := hwaiter
    have hrange : q ∈ List.range n := by
      rw [← h.cqs]
      exact List.mem_append_right _ (List.mem_of_head? (h.pop hw ▸ hlast))
    exact absurd ⟨List.mem_range.mp hrange, Nat.pos_of_ne_zero hborrows⟩ (hq (.release q) nofun)
  | done => rfl
  | failed => exact absurd hw hp.unfailed

end Pairs

section Progress

variable {n t : ℕ} {s u : State} {l : Label}

theorem sum_update {ι α : Type*} [DecidableEq ι] {S : Finset ι} (g : α → ℕ) (f : ι → α) {i : ι}
    (hi : i ∈ S) (a : α) :
    ∑ j ∈ S, g (Function.update f i a j) + g (f i) = ∑ j ∈ S, g (f j) + g a := by
  rw [← Finset.sum_erase_add _ _ hi, ← Finset.sum_erase_add S (fun j => g (f j)) hi,
    Function.update_self]
  have hrest : ∑ j ∈ S.erase i, g (Function.update f i a j) = ∑ j ∈ S.erase i, g (f j) :=
    Finset.sum_congr rfl fun j hj => by rw [Function.update_of_ne (Finset.ne_of_mem_erase hj)]
  omega

/-- How often `Next()` is going to return for what has been started. -/
def Queue.load (q : Queue) : ℕ := 2 * q.pending + q.events

def Waiter.load : Waiter → ℕ
  | .drain => 3
  | .pop => 2
  | .wait => 1
  | .running | .shutdown _ | .done | .failed => 0

def threadLoad (exited : Bool) : ℕ := if exited then 0 else 1

/-- How many threads have not exited. -/
def alive (n t : ℕ) (exited : Thread → Bool) : ℕ :=
  ∑ w ∈ Finset.range n ×ˢ Finset.range t, threadLoad (exited w)

/-- What there is to do until `Wait()` is over. -/
def load (n t : ℕ) (s : State) : ℕ :=
  ∑ q ∈ Finset.range n, (s.queue q).load + alive n t s.exited + 4 * s.threads.length +
    s.waiter.load

theorem load_modify {q : ℕ} (hq : q < n) (f : Queue → Queue) :
    load n t (s.modify q f) + (s.queue q).load = load n t s + (f (s.queue q)).load := by
  have hsum := sum_update Queue.load s.queue (Finset.mem_range.mpr hq) (f (s.queue q))
  simp only [load, State.modify]
  omega

theorem load_next_queue {q : Queue} (h : q.ready = true) (hf : q.finished = false) :
    q.next.load + 1 = q.load := by
  have hpos : 0 < q.events := by
    simpa [Queue.ready, hf] using h
  simp only [Queue.load, Queue.next]
  omega

theorem load_waiter (hn : s.waiter = .drain → ∀ q ∈ s.cqs, q < n)
    (hw : s.waiter.waits = true) (hne : s.waiter = .drain → s.cqs ≠ [])
    (he : s.waiterEnabled = true) : load n t s.waiterNext + 1 ≤ load n t s := by
  unfold State.waiterNext
  unfold State.waiterEnabled at he
  cases hs : s.waiter with
  | running | shutdown => simp [hs, Waiter.waits] at hw
  | wait =>
    dsimp only
    split
    · rename_i w hlast
      have hlength := congrArg List.length (List.dropLast_append_getLast? w hlast)
      rw [List.length_append, List.length_singleton] at hlength
      split <;> simp only [load, hs, Waiter.load] <;> omega
    · simp only [load, hs, Waiter.load]
      omega
  | drain =>
    dsimp only
    split
    · rename_i q hlast
      simp only [hs, hlast, Option.all_some] at he
      split
      · simp only [load, hs, Waiter.load]
        omega
      · rename_i hf
        have hq := hn hs q (List.mem_of_getLast? hlast)
        have hmodify := load_modify (t := t) (s := s) hq Queue.next
        have hnext := load_next_queue he (Bool.not_eq_true _ ▸ hf)
        omega
    · rename_i hnone
      exact absurd (List.getLast?_eq_none_iff.mp hnone) (hne hs)
  | pop =>
    simp only [load, hs, Waiter.load]
    omega
  | done | failed => simp [hs] at he

/-- What takes part in a run once `Shutdown()` is over. -/
structure Waiting (n t : ℕ) (s : State) : Prop where
  inv : Inv n t s
  paired : Paired s
  waits : s.waiter.waits = true

theorem waits_waiterNext (hw : s.waiter.waits = true) : s.waiterNext.waiter.waits = true := by
  unfold State.waiterNext
  cases hs : s.waiter with
  | running | shutdown => simp [hs, Waiter.waits] at hw
  | wait =>
    dsimp only
    split
    · split <;> rfl
    · rfl
  | drain =>
    dsimp only
    split
    · split
      · rfl
      · exact hw
    · exact hw
  | pop => rfl
  | done | failed => exact hw

theorem Waiting.next (h : Waiting n t s) (hn : n = 0 ∨ t = 1) (l : Label) :
    Waiting n t (next s l) where
  inv := inv_next h.inv l
  paired := paired_next h.inv h.paired hn l
  waits := by
    by_cases hl : l = .waiter
    · subst hl
      exact waits_waiterNext h.waits
    · rw [(frame_next hl).waiter]
      exact h.waits

theorem Waiting.cqs_lt (h : Waiting n t s) (he : s.waiter ≠ .pop) (q : ℕ) (hq : q ∈ s.cqs) :
    q < n := by
  have hcqs := h.inv.cqs
  rw [if_neg he] at hcqs
  rw [← List.mem_range, ← hcqs]
  exact List.mem_append_left _ hq

theorem Waiting.cqs_ne_nil (h : Waiting n t s) (hn : n = 0 ∨ t = 1) (hw : s.waiter = .drain) :
    s.cqs ≠ [] := by
  intro hnil
  have hthreads := congrArg List.length h.inv.threads
  have hcqs := congrArg List.length h.inv.cqs
  have hlength := h.paired.length
  rw [List.length_append, length_layout hn] at hthreads
  simp only [hw, hnil, reduceCtorEq, if_false, if_true, List.nil_append,
    List.length_range] at hcqs hlength
  omega

theorem alive_update {exited : Thread → Bool} {w : Thread} (hq : w.1 < n) (hi : w.2 < t)
    (hw : exited w = false) : alive n t (Function.update exited w true) + 1 = alive n t exited := by
  have hmem : w ∈ Finset.range n ×ˢ Finset.range t := by
    rw [Finset.mem_product, Finset.mem_range, Finset.mem_range]
    exact ⟨hq, hi⟩
  have hsum := sum_update threadLoad exited hmem true
  rw [hw] at hsum
  exact hsum

theorem load_poll {w : Thread} (he : Enabled n t s (.poll w)) :
    load n t (next s (.poll w)) + 1 = load n t s := by
  obtain ⟨hq, hi, hexited, hready⟩ := he
  unfold next
  dsimp only
  split
  · have hexits := alive_update hq hi hexited
    simp only [load]
    omega
  · rename_i hf
    have hmodify := load_modify (t := t) (s := s) hq Queue.next
    have hnext := load_next_queue hready (Bool.not_eq_true _ ▸ hf)
    omega

theorem load_borrows {q : ℕ} (hq : q < n) (f : ℕ → ℕ) :
    load n t (s.modify q fun q => { q with borrows := f q.borrows }) = load n t s := by
  have hmodify := load_modify (t := t) (s := s) hq fun q => { q with borrows := f q.borrows }
  simp only [Queue.load] at hmodify
  omega

/-- Nothing is started any more, and what has been started comes to an end. -/
theorem load_next (h : Waiting n t s) (hn : n = 0 ∨ t = 1) (he : Enabled n t s l) :
    load n t (next s l) + (if !l.isBorrow then 1 else 0) ≤ load n t s := by
  cases l with
  | start q =>
    obtain ⟨hq, hopen⟩ := he
    rw [h.inv.shut_of_waits h.waits q hq] at hopen
    cases hopen
  | complete q =>
    obtain ⟨hq, hpos⟩ := he
    have hmodify := load_modify (t := t) (s := s) hq
      fun q => { q with pending := q.pending - 1, events := q.events + 1 }
    simp only [Queue.load] at hmodify
    simp only [next, Label.isBorrow, Bool.not_false, if_true]
    omega
  | poll w => exact Nat.le_of_eq (load_poll he)
  | schedule =>
    have hwaits := h.waits
    rw [he.1] at hwaits
    cases hwaits
  | reborrow q => exact Nat.le_of_eq (load_borrows he.1 (· + 1))
  | release q => exact Nat.le_of_eq (load_borrows he.1 (· - 1))
  | waiter =>
    refine load_waiter (fun hw => h.cqs_lt ?_) h.waits (h.cqs_ne_nil hn) he
    rw [hw]
    simp

/-- The threads and the queues of a pool are taken apart in the right order if there is one thread
for each queue. -/
theorem waits_of_one (hn : n = 0 ∨ t = 1) : Waits n t where
  safe s hs := safe_of_paired (inv_reachable hs) (paired_reachable hn hs) hn
  ends s hs := done_of_quiet (inv_reachable hs) (paired_reachable hn hs)
  bounded s hs hw := by
    refine ⟨load n t s, fun xs u hr => ?_⟩
    exact hr.countP_le (P := Waiting n t) (fun l => !l.isBorrow) (fun _ l h _ => h.next hn l)
      (fun _ _ h he => load_next h hn he) ⟨inv_reachable hs, paired_reachable hn hs, hw⟩
  all s hs := all_of_done (inv_reachable hs) (paired_reachable hn hs) hn

end Progress

section Unsafe

variable {n t : ℕ}

/-- `Shutdown()` has got past the first `i` queues, before anything else has happened. -/
def shutState (n t i : ℕ) : State :=
  { construct n t with
    queue := fun q => if q < i then ⟨0, 0, 0, true⟩ else ⟨0, 0, 0, false⟩
    waiter := .shutdown i }

theorem reachable_shutState {i : ℕ} (hi : i ≤ n) : (machine n t).Reachable (shutState n t i) := by
  induction i with
  | zero =>
    have he : (machine n t).Enabled (construct n t) .waiter := by
      rw [construct_eq]
      rfl
    have heq : (machine n t).next (construct n t) .waiter = shutState n t 0 := by
      simp [machine, next, State.waiterNext, shutState, construct_eq, empty]
    exact heq ▸ Machine.Reachable.next (.initial rfl) he
  | succ i ih =>
    have he : (machine n t).Enabled (shutState n t i) .waiter := rfl
    have heq : (machine n t).next (shutState n t i) .waiter = shutState n t (i + 1) := by
      have hcqs : (shutState n t i).cqs[i]? = some i := by
        rw [shutState, construct_eq, List.getElem?_range hi]
      simp only [machine, next, State.waiterNext, shutState] at hcqs ⊢
      rw [hcqs]
      simp only [State.modify, State.mk.injEq, and_true]
      funext q
      by_cases hq : q = i
      · subst hq
        simp
      · rw [Function.update_of_ne hq]
        have hlt : q < i + 1 ↔ q < i := by omega
        simp only [hlt]
    exact heq ▸ (ih (Nat.le_of_succ_le hi)).next he

def waitState (n t : ℕ) : State := { shutState n t n with waiter := .wait }

theorem reachable_waitState : (machine n t).Reachable (waitState n t) := by
  have he : (machine n t).Enabled (shutState n t n) .waiter := rfl
  have heq : (machine n t).next (shutState n t n) .waiter = waitState n t := by
    have hcqs : (shutState n t n).cqs[n]? = none := by
      rw [shutState, construct_eq]
      simp
    simp only [machine, next, State.waiterNext, shutState, waitState] at hcqs ⊢
    rw [hcqs]
  exact heq ▸ (reachable_shutState (Nat.le_refl n)).next he

theorem threads_waitState : (waitState n t).threads = layout n t := by
  rw [waitState, shutState, construct_eq]

/-- One thread has found its queue shut down. -/
def exitState (n t : ℕ) (w : Thread) : State :=
  { waitState n t with exited := Function.update (waitState n t).exited w true }

theorem reachable_exitState {w : Thread} (hq : w.1 < n) (hi : w.2 < t) :
    (machine n t).Reachable (exitState n t w) := by
  have hfinished : ((waitState n t).queue w.1).finished = true := by
    simp [waitState, shutState, Queue.finished, hq]
  have hpoll : (machine n t).Enabled (waitState n t) (.poll w) := by
    refine ⟨hq, hi, ?_, ?_⟩
    · rw [waitState, shutState, construct_eq]
      rfl
    · rw [Queue.ready, hfinished, Bool.or_true]
  have heq : (machine n t).next (waitState n t) (.poll w) = exitState n t w := by
    simp only [machine, next, hfinished, if_true, exitState]
  exact heq ▸ reachable_waitState.next hpoll

/-- Without threads nobody drains the queues. -/
theorem not_waits_zero (hn : 0 < n) : ¬ Waits n 0 := by
  intro h
  have hlast : (waitState n 0).threads.getLast? = none := by
    rw [threads_waitState, List.getLast?_eq_none_iff, List.eq_nil_iff_forall_not_mem]
    exact fun w hw => Nat.not_lt_zero _ (mem_layout.mp hw).2
  have he : (machine n 0).Enabled (waitState n 0) .waiter := by
    change (waitState n 0).threads.getLast?.all _ = true
    rw [hlast]
    rfl
  have hnext : (machine n 0).next (waitState n 0) .waiter =
      { waitState n 0 with waiter := .done } := by
    simp only [machine, next, State.waiterNext]
    rw [hlast]
    rfl
  have hdrained := (h.all _ (hnext ▸ reachable_waitState.next he) rfl).2 0 hn
  rw [waitState, shutState, construct_eq] at hdrained
  cases hdrained

/-- The first queue that is destroyed may have another thread, which is not joined before. -/
theorem not_waits_of_two_le (hn : 0 < n) (ht : 2 ≤ t) : ¬ Waits n t := by
  intro h
  obtain ⟨m, rfl⟩ : ∃ m, n = m + 1 := ⟨n - 1, by omega⟩
  obtain ⟨i, rfl⟩ : ∃ i, t = i + 1 := ⟨t - 1, by omega⟩
  have hlast : (layout (m + 1) (i + 1)).getLast? = some (m, i) := by
    rw [layout_succ, List.range_succ, List.map_append, ← List.append_assoc]
    exact List.getLast?_concat
  have hjoin : (machine (m + 1) (i + 1)).Enabled (exitState (m + 1) (i + 1) (m, i)) .waiter := by
    change (waitState (m + 1) (i + 1)).threads.getLast?.all _ = true
    rw [threads_waitState, hlast]
    exact Function.update_self ..
  have hcqs : (waitState (m + 1) (i + 1)).cqs = List.range m ++ [m] := by
    rw [waitState, shutState, construct_eq, ← List.range_succ]
  have hnext : (machine (m + 1) (i + 1)).next (exitState (m + 1) (i + 1) (m, i)) .waiter =
      { exitState (m + 1) (i + 1) (m, i) with
        threads := (layout (m + 1) (i + 1)).dropLast
        joined := [(m, i)]
        waiter := .drain } := by
    have hjoined : (waitState (m + 1) (i + 1)).joined = [] := by
      rw [waitState, shutState, construct_eq]
      rfl
    have hwait : (waitState (m + 1) (i + 1)).waiter = .wait := rfl
    simp [machine, next, State.waiterNext, exitState, threads_waitState, hlast, hcqs, hjoined,
      hwait]
  have hexit : (machine (m + 1) (i + 1)).Reachable (exitState (m + 1) (i + 1) (m, i)) :=
    reachable_exitState (Nat.lt_succ_self m) (Nat.lt_succ_self i)
  have hsafe := h.safe _ (hexit.next hjoin)
  rw [hnext] at hsafe
  have hdrain : (waitState (m + 1) (i + 1)).cqs.getLast? = some m := by
    rw [hcqs, List.getLast?_concat]
  have hmem := hsafe.after m (Nat.lt_succ_self m) (.inl ⟨rfl, hdrain⟩) 0 (Nat.succ_pos i)
  rw [List.mem_singleton, Prod.mk.injEq] at hmem
  omega

/-- The pool is taken apart as it should be if and only if it has no queues or one thread for each
of them. -/
theorem waits_iff (n t : ℕ) : Waits n t ↔ n = 0 ∨ t = 1 := by
  refine ⟨fun h => ?_, waits_of_one⟩
  by_contra hnot
  rw [not_or] at hnot
  have hn : 0 < n := Nat.pos_of_ne_zero hnot.1
  rcases Nat.lt_or_ge t 2 with hlt | hle
  · obtain rfl : t = 0 := by omega
    exact not_waits_zero hn h
  · exact not_waits_of_two_le hn hle h

/-- With two threads for the only queue it is destroyed while one of them polls it. -/
theorem not_waits_two : ¬ Waits 1 2 :=
  not_waits_of_two_le Nat.one_pos (Nat.le_refl 2)

end Unsafe

end Eventuals.CompletionThreadPool
