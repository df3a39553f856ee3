import Mathlib.Data.List.Perm.Basic
import Mathlib.Tactic.ByContra
import Eventuals.ServerInvariant

/-! Which servers lose no call that they have accepted. -/
namespace Eventuals.Server

open Route (Endpoint Endpoints)
open Pipe (returnedValues writtenBeforeClose)
open Transition (Machine)

section Calls

variable {s t : State} {l : Label} {w i n : ℕ} {c : Call}

theorem count_setWorker {p q : Phase} (h : s.workers[w]? = some p) :
    (s.setWorker w q).calls.count n + p.ids.count n = s.calls.count n + q.ids.count n := by
  have hset := count_flatMap_set (b := q) (g := Phase.ids) (n := n) h
  simp only [State.calls, State.setWorker, State.finishedIds, List.count_append]
  omega

theorem count_setServed {p : Served} {f : Served → Served} (h : s.served[i]? = some p) :
    (s.setServed i f).calls.count n + p.ids.count n = s.calls.count n + (f p).ids.count n := by
  have hset := count_flatMap_set (b := f p) (g := Served.ids) (n := n) h
  simp only [State.calls, State.setServed, State.finishedIds, modify_eq_set h, List.count_append]
  omega

/-- What is done with a pipe does not change what has been written to it in time. -/
theorem calls_setServed {p : Served} {f : Served → Served} (h : s.served[i]? = some p)
    (hf : (f p).ids = p.ids) (n : ℕ) : (s.setServed i f).calls.count n = s.calls.count n := by
  have hcount := count_setServed (f := f) (n := n) h
  rw [hf] at hcount
  omega

theorem calls_setWorker {p q : Phase} (h : s.workers[w]? = some p) (hq : q.ids = p.ids) (n : ℕ) :
    (s.setWorker w q).calls.count n = s.calls.count n := by
  have hcount := count_setWorker (q := q) (n := n) h
  rw [hq] at hcount
  omega

theorem ids_write {p : Served} (h : PipeOk p.pipe) (ho : p.pipe.isClosed = false) (c : Call) :
    ({ p with pipe := pipeStep (.write c) p.pipe } : Served).ids = p.ids ++ [c.id] := by
  rw [Served.ids, h.written_open ho, List.map_append]
  rfl

theorem ids_write_closed {p : Served} (h : PipeOk p.pipe) (ho : p.pipe.isClosed = true) (c : Call) :
    ({ p with pipe := pipeStep (.write c) p.pipe } : Served).ids = p.ids := by
  rw [Served.ids, h.written_closed ho]
  rfl

theorem target_eq {e : Endpoint ℕ} {p : Served} (hw : s.workers[w]? = some (.routed c (.enqueue e)))
    (hp : s.served[e.server]? = some p) : s.target w = some p := by
  rw [State.target, hw]
  exact hp

/-- A call that a worker writes to an open pipe is there, and else nowhere. -/
theorem count_enqueue {e : Endpoint ℕ} {p : Served} (h : PipeOk p.pipe)
    (hw : s.workers[w]? = some (.routed c (.enqueue e))) (hp : s.served[e.server]? = some p)
    (n : ℕ) :
    ((s.act c (.enqueue e)).setWorker w .requesting).calls.count n +
        (if p.pipe.isClosed then [c.id].count n else 0) = s.calls.count n := by
  have hworker := count_setWorker (s := s.act c (.enqueue e)) (q := .requesting) (n := n) hw
  have hserved := count_setServed (n := n)
    (f := fun p => { p with pipe := pipeStep (.write c) p.pipe }) hp
  have hcall : (Phase.routed c (.enqueue e)).ids = [c.id] := rfl
  have hnone : Phase.requesting.ids = [] := rfl
  rw [hcall, hnone, List.count_nil] at hworker
  change (s.act c (.enqueue e)).calls.count n + _ = _ at hserved
  cases ho : p.pipe.isClosed with
  | false =>
    rw [ids_write h ho, List.count_append] at hserved
    simp only [Bool.false_eq_true, if_false]
    omega
  | true =>
    rw [ids_write_closed h ho] at hserved
    simp only [if_true]
    omega

/-- No step but a late one loses a call, or has one twice. -/
theorem calls_step (hinv : Inv s) (hs : Step s l t) (hl : InTime s l)
    (h : s.calls.Perm (List.range s.accepted)) : t.calls.Perm (List.range t.accepted) := by
  rw [List.perm_iff_count] at h ⊢
  intro n
  cases hs with
  | @request w method host hw =>
    have hcount := count_setWorker (n := n) (q := .looking ⟨s.accepted, method, host⟩) hw
    have hcall : (Phase.looking ⟨s.accepted, method, host⟩).ids = [s.accepted] := rfl
    have hnone : Phase.requesting.ids = [] := rfl
    rw [hcall, hnone, List.count_nil, Nat.add_zero, h n] at hcount
    rw [List.range_succ, List.count_append]
    exact hcount
  | reject hw hshutdown => exact (calls_setWorker (q := .failing) hw rfl n).trans (h n)
  | @lookup w c hw hlock =>
    have hsame := calls_setWorker hw (rfl : (Phase.routed c
      (Route.Server.route s.endpoints c.method c.host)).ids = (Phase.looking c).ids) n
    exact hsame.trans (h n)
  | @enqueue w c e hw =>
    obtain ⟨p, hp, hok⟩ := hinv.served (hinv.routed c e (List.mem_of_getElem? hw))
    have hcount := count_enqueue hok hw hp n
    rw [(hl p (target_eq hw hp)).1] at hcount
    exact hcount.trans (h n)
  | @unimplemented w c code message hw =>
    have hcount := count_setWorker (s := s.act c (.finish code message)) (n := n)
      (q := .requesting) hw
    have hcall : (Phase.routed c (.finish code message)).ids = [c.id] := rfl
    have hnone : Phase.requesting.ids = [] := rfl
    have hact : (s.act c (.finish code message)).calls.count n =
        s.calls.count n + [c.id].count n := by
      simp only [State.calls, State.act, State.finishedIds, List.map_append, List.count_append,
        List.map_cons, List.map_nil]
      omega
    rw [hcall, hnone, List.count_nil, hact] at hcount
    exact (Nat.add_right_cancel hcount).trans (h n)
  | sweep hw hlock =>
    exact (calls_setWorker (q := .sweeping s.endpoints.entries) hw rfl n).trans (h n)
  | @close w e rest hw he =>
    obtain ⟨p, hp, -⟩ := hinv.served (hinv.sweeping _ (List.mem_of_getElem? hw) _ he)
    have hclose := calls_setServed (f := fun p => { p with pipe := pipeStep .close p.pipe }) hp
      (congrArg (List.map Call.id) (written_close p.pipe)) n
    have hworker := calls_setWorker
      (s := s.setServed e.server fun p => { p with pipe := pipeStep .close p.pipe })
      (q := .sweeping (rest.erase e)) hw rfl n
    exact hworker.trans (hclose.trans (h n))
  | finish hw => exact (calls_setWorker (q := .done) hw rfl n).trans (h n)
  | insert hlock hfind hi =>
    have hnew : ∀ service, (⟨Pipe.Data.empty, .demanded, service⟩ : Served).ids = [] := fun _ => rfl
    simpa [State.calls, hnew, State.finishedIds] using h n
  | dequeue hp hr =>
    exact (calls_setServed hp (congrArg (List.map Call.id) (written_take _)) n).trans (h n)
  | demand hp hloop => exact (calls_setServed hp rfl n).trans (h n)
  | abandon hp => exact (calls_setServed hp rfl n).trans (h n)
  | refuse | complete | shutdown | wait | proceed => exact h n

/-- What is in a pipe has a loop that reads it, if nothing comes late. -/
theorem read_step (hinv : Inv s) (hs : Step s l t) (hl : InTime s l)
    (h : ∀ p ∈ s.served, p.loop = .ended → p.pipe.values = []) :
    ∀ p ∈ t.served, p.loop = .ended → p.pipe.values = [] := by
  have hmodify {i : ℕ} {a : Served} {f : Served → Served} (hi : s.served[i]? = some a)
      (hf : (f a).loop = .ended → (f a).pipe.values = []) :
      ∀ p ∈ s.served.modify i f, p.loop = .ended → p.pipe.values = [] := by
    intro p hp
    rw [modify_eq_set hi] at hp
    rcases List.mem_or_eq_of_mem_set hp with hp | rfl
    · exact h p hp
    · exact hf
  cases hs with
  | @enqueue w c e hw =>
    obtain ⟨p, hp, hok⟩ := hinv.served (hinv.routed c e (List.mem_of_getElem? hw))
    exact hmodify hp fun he => absurd he (hl p (target_eq hw hp)).2
  | @close w e rest hw he =>
    obtain ⟨p, hp, hok⟩ := hinv.served (hinv.sweeping _ (List.mem_of_getElem? hw) _ he)
    exact hmodify hp fun he => h p (List.mem_of_getElem? hp) he
  | insert hlock hfind hi =>
    intro p hp he
    rcases List.mem_append.mp hp with hp | hp
    · exact h p hp he
    · obtain rfl := List.mem_singleton.mp hp
      rfl
  | @dequeue i p hp hr =>
    refine hmodify hp fun he => ?_
    cases hv : p.pipe.values with
    | nil =>
      rw [Served.dequeue, take_nil hv]
      exact hv
    | cons c values => simp [Served.dequeue, hv] at he
  | demand hp hloop =>
    refine hmodify hp fun he => ?_
    cases he
  | abandon hp =>
    have hempty := hl _ hp
    exact hmodify hp fun _ => hempty
  | request | reject | lookup | unimplemented | sweep | finish | refuse | complete | shutdown
  | wait | proceed => exact h

/-- Where nothing is left to do, the workers have no call, and the loops have read every pipe. -/
theorem settled_of_quiet (hinv : Inv s) (h : s.calls.Perm (List.range s.accepted))
    (hread : ∀ p ∈ s.served, p.loop = .ended → p.pipe.values = [])
    (hq : machine.Quiet (·.serving = true) s) : s.settled.Perm (List.range s.accepted) := by
  have hlocked : s.locked = false := by
    by_contra hlocked
    rw [Bool.not_eq_false] at hlocked
    obtain ⟨p, hp, hsweeping⟩ := List.any_eq_true.mp hlocked
    obtain ⟨w, hw⟩ := List.mem_iff_getElem?.mp hp
    cases p with
    | sweeping rest =>
      cases rest with
      | nil => exact hq (.finish w) rfl (by simp [machine, enabled, hw])
      | cons e rest => exact hq (.close w e) rfl (by simp [machine, enabled, hw])
    | requesting | looking | routed | failing | done => cases hsweeping
  have hworkers : s.workers.flatMap Phase.ids = [] := by
    rw [List.flatMap_eq_nil_iff]
    intro p hp
    obtain ⟨w, hw⟩ := List.mem_iff_getElem?.mp hp
    cases p with
    | looking c => exact absurd (by simp [machine, enabled, hw, hlocked]) (hq (.lookup w) rfl)
    | routed c action => exact absurd (by simp [machine, enabled, hw]) (hq (.act w) rfl)
    | requesting | failing | sweeping | done => rfl
  have hpipes : ∀ p ∈ s.served, p.ids = p.dequeued := by
    intro p hp
    obtain ⟨i, hi⟩ := List.mem_iff_getElem?.mp hp
    have hempty : p.pipe.values = [] := by
      cases hloop : p.loop with
      | ended => exact hread p hp hloop
      | handling =>
        exact absurd (by simp [machine, enabled, hi, hloop]) (hq (.demand i) rfl)
      | demanded =>
        by_contra hne
        refine hq (.dequeue i) rfl ((Option.any_eq_true ..).mpr ⟨p, hi, ?_⟩)
        exact Served.ready_iff.mpr ⟨hloop, fun hv => absurd hv hne⟩
    have hvalues := (hinv.pipes p hp).values
    rw [hempty, List.append_nil] at hvalues
    rw [Served.ids, Served.dequeued, hvalues]
  have hserved : s.served.flatMap Served.ids = s.served.flatMap Served.dequeued :=
    List.flatMap_congr hpipes
  rwa [State.calls, hworkers, List.nil_append, hserved] at h

/-- What comes late is lost at once, or stays in a pipe that nobody reads. -/
theorem not_kept_step (hinv : Inv s) (hs : Step s l t) (hk : Kept s) (hn : ¬ InTime s l) :
    ¬ Kept t := by
  intro ht
  cases hs with
  | @enqueue w c e hw =>
    obtain ⟨p, hp, hok⟩ := hinv.served (hinv.routed c e (List.mem_of_getElem? hw))
    refine hn fun p' hp' => ?_
    obtain rfl : p = p' := Option.some.inj ((target_eq hw hp).symm.trans hp')
    have hopen : p.pipe.isClosed = false := by
      by_contra hclosed
      have hcount := count_enqueue hok hw hp c.id
      have hbefore := List.perm_iff_count.mp hk.calls c.id
      have hafter := List.perm_iff_count.mp ht.calls c.id
      rw [if_pos (by simpa using hclosed), List.count_singleton_self] at hcount
      change _ = (List.range s.accepted).count c.id at hafter
      omega
    refine ⟨hopen, fun hended => ?_⟩
    have hmem : ({ p with pipe := pipeStep (.write c) p.pipe } : Served) ∈
        s.served.modify e.server fun p => { p with pipe := pipeStep (.write c) p.pipe } := by
      rw [modify_eq_set hp]
      exact List.mem_set (List.getElem?_eq_some_iff.mp hp).1 _
    have hvalues := ht.read _ hmem hended
    simp [write_open hopen] at hvalues
  | @abandon i p hp =>
    refine hn fun p' hp' => ?_
    obtain rfl : p = p' := Option.some.inj (hp.symm.trans hp')
    have hmem : ({ p with loop := .ended } : Served) ∈
        s.served.modify i fun p => { p with loop := .ended } := by
      rw [modify_eq_set hp]
      exact List.mem_set (List.getElem?_eq_some_iff.mp hp).1 _
    have hempty := ht.read _ hmem rfl
    exact hempty
  | @unimplemented w c code message hw =>
    refine hn fun p hp => ?_
    simp [State.target, hw] at hp
  | request | reject | lookup | sweep | close | finish | insert | refuse | dequeue | demand
  | complete | shutdown | wait | proceed => exact hn trivial

end Calls

section Runs

variable {s t : State} {xs : List (State × Label)}

theorem kept_initial (queues services : ℕ) : Kept (initial queues services) := by
  have hcalls : (initial queues services).calls = [] := by
    simp [State.calls, initial, State.finishedIds, Phase.ids]
  have hread : ∀ p ∈ (initial queues services).served, p.loop = .ended → p.pipe.values = [] :=
    fun _ hp => (List.not_mem_nil hp).elim
  have hperm : (initial queues services).calls.Perm
      (List.range (initial queues services).accepted) := by
    rw [hcalls]
    exact .refl _
  have hinv := inv_initial queues services
  exact ⟨hperm, hread, settled_of_quiet hinv hperm hread, _, fun _ _ => bounded_serving hinv⟩

theorem kept_next {l : Label} (hinv : Inv s) (hk : Kept s) (he : machine.Enabled s l)
    (hl : InTime s l) : Kept (next s l) := by
  have hs := step_next he
  have hcalls := calls_step hinv hs hl hk.calls
  have hread := read_step hinv hs hl hk.read
  have hnext := inv_step hinv hs
  exact ⟨hcalls, hread, settled_of_quiet hnext hcalls hread, _, fun _ _ => bounded_serving hnext⟩

/-- A server keeps every call that it accepts, whatever its workers, its loops and `Shutdown()` do,
if and only if each call is enqueued in time. -/
theorem kept_iff_inTime (h0 : machine.Initial s) (hr : machine.Run s xs t) :
    (∀ j ≤ xs.length, Kept (Machine.stateAt t xs j)) ↔ ∀ p ∈ xs, InTime p.1 p.2 := by
  obtain ⟨queues, services, rfl⟩ := h0
  have hkeep : ∀ s l, Inv s ∧ Kept s → machine.Enabled s l → InTime s l →
      Inv (next s l) ∧ Kept (next s l) := fun _ _ h he hl =>
    ⟨inv_step h.1 (step_next he), kept_next h.1 h.2 he hl⟩
  exact hr.forall_stateAt_iff (fun _ h => h.2) hkeep
    (fun _ _ h he hn => not_kept_step h.1 (step_next he) h.2 hn)
    ⟨inv_initial queues services, kept_initial queues services⟩

/-- One call is served, and one has no endpoint, before both workers have been told to stop. -/
def serving : List Label :=
  [.accept 0 "/m" "*", .request 0 "/m" "h", .lookup 0, .act 0, .dequeue 0, .request 1 "/n" "h",
    .lookup 1, .act 1, .shutdown, .reject 1, .sweep 1, .close 1 ⟨"/m", "*", 0⟩, .finish 1,
    .demand 0, .dequeue 0, .reject 0, .sweep 0, .close 0 ⟨"/m", "*", 0⟩, .finish 0]

theorem exists_run_kept : ∃ xs t, machine.Run (initial 2 1) xs t ∧ xs.map Prod.snd = serving ∧
    t.settled = [1, 0] ∧ ∀ j ≤ xs.length, Kept (Machine.stateAt t xs j) := by
  have he : (machine.restrict InTime).exec (initial 2 1) serving = some _ := rfl
  obtain ⟨xs, hrun, hl⟩ := Machine.exec_run he
  obtain ⟨hr, hin⟩ := hrun.of_restrict
  exact ⟨xs, _, hr, hl, rfl, (kept_iff_inTime ⟨2, 1, rfl⟩ hr).mpr hin⟩

/-- A worker has looked up the endpoint of a call when the other one closes its pipe: the call is
dropped, and nobody ever finishes it. -/
theorem exists_not_kept : ∃ s, machine.Reachable s ∧ s.accepted = 1 ∧ s.calls = [] ∧
    s.finished = [] ∧ (∀ p ∈ s.workers, p = .done) ∧ (∀ p ∈ s.served, p.loop = .ended) ∧
      ¬ Kept s := by
  have he : machine.exec (initial 2 1)
      [.accept 0 "/m" "*", .request 0 "/m" "h", .lookup 0, .shutdown, .reject 1, .sweep 1,
        .close 1 ⟨"/m", "*", 0⟩, .finish 1, .act 0, .reject 0, .sweep 0,
        .close 0 ⟨"/m", "*", 0⟩, .finish 0, .dequeue 0] = some _ := rfl
  refine ⟨_, Machine.exec_reachable (.initial ⟨2, 1, rfl⟩) he, rfl, rfl, rfl, by decide, by decide,
    fun h => ?_⟩
  exact absurd h.calls.length_eq (by decide)

end Runs

end Eventuals.Server
