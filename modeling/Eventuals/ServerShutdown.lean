import Eventuals.ServerInvariant

/-! Which servers close every pipe when they are shut down. -/
namespace Eventuals.Server

open Route (Endpoint Endpoints)
open Transition (Machine)

section Covers

variable {s t : State} {l : Label} {i w : ℕ}

/-- A worker is still to close the pipe. -/
def Phase.Covers (i : ℕ) : Phase → Prop
  | .done => False
  | .sweeping rest => ∃ e ∈ rest, e.server = i
  | .requesting | .looking _ | .routed .. | .failing => True

/-- Each pipe has been closed, or some worker is still to do so. -/
def Covered (s : State) : Prop :=
  ∀ i p, s.served[i]? = some p → p.pipe.isClosed = true ∨ ∃ q ∈ s.workers, q.Covers i

theorem Covered.closed (h : Covered s) (hdone : ∀ p ∈ s.workers, p = .done) :
    ∀ p ∈ s.served, p.pipe.isClosed = true := by
  intro p hp
  obtain ⟨i, hi⟩ := List.mem_iff_getElem?.mp hp
  rcases h i p hi with h | ⟨q, hq, hcovers⟩
  · exact h
  · rw [hdone q hq] at hcovers
    exact hcovers.elim

/-- A worker goes on, and closes no less. -/
theorem covers_set {p q : Phase} (hw : s.workers[w]? = some p) (hq : p.Covers i → q.Covers i)
    (h : ∃ q ∈ s.workers, q.Covers i) : ∃ r ∈ s.workers.set w q, r.Covers i := by
  obtain ⟨r, hr, hcovers⟩ := h
  obtain ⟨v, hv⟩ := List.mem_iff_getElem?.mp hr
  by_cases hvw : w = v
  · subst hvw
    obtain rfl : p = r := Option.some.inj (hw.symm.trans hv)
    exact ⟨q, List.mem_set (List.getElem?_eq_some_iff.mp hw).1 q, hq hcovers⟩
  · refine ⟨r, List.mem_of_getElem? (i := v) ?_, hcovers⟩
    rw [List.getElem?_set_ne hvw, hv]

theorem covered_setWorker {p q : Phase} (h : Covered s) (hw : s.workers[w]? = some p)
    (hq : ∀ i < s.served.length, p.Covers i → q.Covers i) : Covered (s.setWorker w q) :=
  fun i _ hi => (h i _ hi).imp_right
    (covers_set hw (hq i (List.getElem?_eq_some_iff.mp hi).1))

theorem covered_setServed {p : Served} {f : Served → Served} (h : Covered s)
    (hi : s.served[i]? = some p) (hf : (f p).pipe.isClosed = p.pipe.isClosed) :
    Covered (s.setServed i f) := by
  intro j q hj
  rw [State.setServed, modify_eq_set hi] at hj
  by_cases hij : i = j
  · subst hij
    rw [List.getElem?_set_self (List.getElem?_eq_some_iff.mp hi).1] at hj
    obtain rfl := Option.some.inj hj
    rw [hf]
    exact h i p hi
  · rw [List.getElem?_set_ne hij] at hj
    exact h j q hj

theorem isClosed_write (d : Pipe.Data Call) (c : Call) :
    (pipeStep (.write c) d).isClosed = d.isClosed := by
  cases ho : d.isClosed with
  | false => simp [write_open ho, Pipe.Data.log, ho]
  | true => simp [write_closed ho, Pipe.Data.log, ho]

theorem isClosed_take (d : Pipe.Data Call) :
    (pipeStep .takeValue d).isClosed = d.isClosed := by
  cases hv : d.values with
  | nil => rw [take_nil hv]
  | cons c values => rw [take_cons hv, Pipe.Data.log]

/-- A pipe that the server gets before its last worker has swept will be closed. -/
theorem covered_step (hinv : Inv s) (hs : Step s l t) (hl : Early s l) (h : Covered s) :
    Covered t := by
  cases hs with
  | request hw => exact covered_setWorker h hw fun _ _ _ => trivial
  | reject hw => exact covered_setWorker h hw fun _ _ _ => trivial
  | lookup hw hlock => exact covered_setWorker h hw fun _ _ _ => trivial
  | @enqueue w c e hw =>
    obtain ⟨p, hp, -⟩ := hinv.served (hinv.routed c e (List.mem_of_getElem? hw))
    have hserved := covered_setServed (f := fun p => { p with pipe := pipeStep (.write c) p.pipe })
      h hp (isClosed_write p.pipe c)
    exact covered_setWorker hserved hw fun _ _ _ => trivial
  | unimplemented hw => exact covered_setWorker h hw fun _ _ _ => trivial
  | sweep hw hlock =>
    refine covered_setWorker h hw fun i hi _ => ?_
    have hmem : i ∈ s.endpoints.entries.map Endpoint.server := by
      rw [hinv.servers]
      exact List.mem_range.mpr hi
    exact List.mem_map.mp hmem
  | @close w e rest hw he =>
    obtain ⟨p, hp, -⟩ := hinv.served (hinv.sweeping rest (List.mem_of_getElem? hw) e he)
    intro i q hi
    simp only [State.setWorker, State.setServed, modify_eq_set hp] at hi ⊢
    by_cases hei : e.server = i
    · subst hei
      rw [List.getElem?_set_self (List.getElem?_eq_some_iff.mp hp).1] at hi
      obtain rfl := Option.some.inj hi
      exact .inl rfl
    · rw [List.getElem?_set_ne hei] at hi
      refine (h i q hi).imp_right (covers_set hw ?_)
      rintro ⟨e', he', rfl⟩
      exact ⟨e', (List.mem_erase_of_ne fun heq => hei (congrArg _ heq.symm)).mpr he', rfl⟩
  | finish hw =>
    refine covered_setWorker h hw fun _ _ hcovers => ?_
    obtain ⟨e, he, -⟩ := hcovers
    cases he
  | insert hlock hfind hi =>
    obtain ⟨q, hq, hdone⟩ : ∃ q ∈ s.workers, q ≠ .done := by
      by_contra hnone
      exact hl (fun q hq => by_contra fun hdone => hnone ⟨q, hq, hdone⟩) hfind
    intro i p hp
    by_cases hi : i < s.served.length
    · rw [List.getElem?_append_left hi] at hp
      exact h i p hp
    · refine .inr ⟨q, hq, ?_⟩
      have hsweeping : q.isSweeping = false := by
        simpa using List.any_eq_false.mp hlock q hq
      cases q with
      | done => exact hdone rfl
      | sweeping rest => cases hsweeping
      | requesting | looking | routed | failing => trivial
  | dequeue hp hr => exact covered_setServed h hp (isClosed_take _)
  | demand hp hloop =>
    exact covered_setServed (f := fun p => { p with loop := .demanded }) h hp rfl
  | abandon hp => exact covered_setServed (f := fun p => { p with loop := .ended }) h hp rfl
  | refuse | complete | shutdown | wait | proceed => exact h

/-- Where all is closed and nothing is left to do, the loops have ended. -/
theorem ended_of_quiet (hclosed : ∀ p ∈ s.served, p.pipe.isClosed = true)
    (hdone : ∀ p ∈ s.workers, p = .done) (hq : machine.Quiet (·.ending = true) s) :
    (∀ p ∈ s.served, p.loop = .ended) ∧ s.waiter ≠ .workers ∧ s.waiter ≠ .serves := by
  have hloops : ∀ p ∈ s.served, p.loop = .ended := by
    intro p hp
    obtain ⟨i, hi⟩ := List.mem_iff_getElem?.mp hp
    cases hloop : p.loop with
    | ended => rfl
    | handling => exact absurd (by simp [machine, enabled, hi, hloop]) (hq (.demand i) rfl)
    | demanded =>
      refine absurd ?_ (hq (.dequeue i) rfl)
      exact (Option.any_eq_true ..).mpr
        ⟨p, hi, Served.ready_iff.mpr ⟨hloop, fun _ => hclosed p hp⟩⟩
  refine ⟨hloops, fun hw => ?_, fun hw => ?_⟩
  · refine hq .proceed rfl ?_
    simpa [machine, enabled, hw] using hdone
  · by_cases hserves : ∀ b ∈ s.serves, b = true
    · refine hq .proceed rfl ?_
      simpa [machine, enabled, hw] using hserves
    · simp only [not_forall, Bool.not_eq_true] at hserves
      obtain ⟨b, hb, rfl⟩ := hserves
      obtain ⟨service, hservice⟩ := List.mem_iff_getElem?.mp hb
      refine hq (.complete service) rfl ?_
      simp only [machine, enabled, hservice, Bool.and_eq_true, List.all_eq_true, Bool.or_eq_true,
        beq_iff_eq, true_and]
      exact fun p hp => .inr (hloops p hp)

theorem Covered.ends (hinv : Inv s) (h : Covered s) : Ends s :=
  ⟨h.closed, fun hdone hq => ended_of_quiet (h.closed hdone) hdone hq, _,
    fun _ _ => bounded_ending hinv⟩

/-- A pipe that comes after the last worker has swept stays open. -/
theorem not_ends_step (hs : Step s l t) (hn : ¬ Early s l) : ¬ Ends t := by
  intro ht
  cases hs with
  | @insert service path host endpoints hlock hfind hi =>
    simp only [Early, Classical.not_imp] at hn
    have hopen := ht.closed hn.1 ⟨Pipe.Data.empty, .demanded, service⟩
      (List.mem_append_right _ List.mem_cons_self)
    cases hopen
  | refuse hfind => exact hn fun _ => hfind
  | request | reject | lookup | enqueue | unimplemented | sweep | close | finish | dequeue | demand
  | abandon | complete | shutdown | wait | proceed => exact hn trivial

end Covers

section Runs

variable {s t : State} {xs : List (State × Label)}

theorem covered_initial (queues services : ℕ) : Covered (initial queues services) :=
  fun _ _ hp => nomatch hp

/-- A second worker closes what has been inserted after the first one. -/
def stopping : List Label :=
  [.accept 0 "/m" "*", .shutdown, .wait, .proceed, .reject 0, .reject 1, .sweep 0,
    .close 0 ⟨"/m", "*", 0⟩, .finish 0, .accept 0 "/n" "*", .sweep 1, .close 1 ⟨"/n", "*", 1⟩,
    .close 1 ⟨"/m", "*", 0⟩, .finish 1, .dequeue 1, .dequeue 0, .complete 0, .proceed, .proceed]

/-- The only worker has swept, and then an endpoint is inserted. -/
def late : State :=
  { initial 1 1 with
    endpoints := (Route.Server.insert .empty ⟨"/m", "*", 0⟩).2
    served := [⟨Pipe.Data.empty, .demanded, 0⟩]
    workers := [.done]
    shutdown := true
    waiter := .serves }

theorem quiet_late : machine.Quiet (·.ending = true) late := by
  intro l hl he
  have hworkers : late.workers = [.done] := rfl
  have hserved : late.served = [⟨Pipe.Data.empty, .demanded, 0⟩] := rfl
  have hserves : late.serves = [false] := rfl
  have hwaiter : late.waiter = .serves := rfl
  cases l with
  | lookup w | act w | sweep w | close w e | finish w =>
    cases w <;> simp [machine, enabled, hworkers] at he
  | dequeue i | demand i =>
    cases i <;> simp [machine, enabled, hserved, Served.ready, Pipe.Data.empty] at he
  | complete service => cases service <;> simp [machine, enabled, hserves, hserved] at he
  | proceed => simp [machine, enabled, hwaiter, hserves] at he
  | request | reject | accept | abandon | shutdown | wait => cases hl

end Runs

end Eventuals.Server
