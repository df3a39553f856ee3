import Eventuals.Server

/-! What becomes of the calls that a server accepts. -/
namespace Eventuals.Server

open Route (Endpoint Endpoints)
open Route.Server (Action StatusCode)
open Pipe (returnedValues writtenBeforeClose)
open Transition (Machine)

section Lists

variable {α : Type*} {l : List α} {i n : ℕ} {a b : α} {f : α → α}

theorem sum_map_set (g : α → ℕ) (h : l[i]? = some a) :
    ((l.set i b).map g).sum + g a = (l.map g).sum + g b := by
  induction l generalizing i with
  | nil => simp at h
  | cons x l ih =>
    cases i with
    | zero =>
      obtain rfl : x = a := by simpa using h
      simp only [List.set_cons_zero, List.map_cons, List.sum_cons]
      omega
    | succ i =>
      have hrest := ih (by simpa using h)
      simp only [List.set_cons_succ, List.map_cons, List.sum_cons]
      omega

theorem count_flatMap_set {g : α → List ℕ} (h : l[i]? = some a) :
    ((l.set i b).flatMap g).count n + (g a).count n = (l.flatMap g).count n + (g b).count n := by
  rw [List.count_flatMap, List.count_flatMap]
  exact sum_map_set (List.count n ∘ g) h

theorem modify_eq_set (h : l[i]? = some a) : l.modify i f = l.set i (f a) := by
  induction l generalizing i with
  | nil => simp at h
  | cons x l ih =>
    cases i with
    | zero =>
      obtain rfl : x = a := by simpa using h
      rfl
    | succ i => exact congrArg (x :: ·) (ih (by simpa using h))

end Lists

section Steps

/-- How much of `Wait()` is left. -/
def Waiter.left : Waiter → ℕ
  | .none | .returned => 0
  | .server => 3
  | .workers => 2
  | .serves => 1

/-- What each step does, and when. -/
inductive Step (s : State) : Label → State → Prop
  | request {w method host} : s.workers[w]? = some .requesting →
      Step s (.request w method host)
        { s.setWorker w (.looking ⟨s.accepted, method, host⟩) with accepted := s.accepted + 1 }
  | reject {w} : s.workers[w]? = some .requesting → s.shutdown = true →
      Step s (.reject w) (s.setWorker w .failing)
  | lookup {w c} : s.workers[w]? = some (.looking c) → s.locked = false →
      Step s (.lookup w)
        (s.setWorker w (.routed c (Route.Server.route s.endpoints c.method c.host)))
  | enqueue {w c e} : s.workers[w]? = some (.routed c (.enqueue e)) →
      Step s (.act w) ((s.act c (.enqueue e)).setWorker w .requesting)
  | unimplemented {w c code message} : s.workers[w]? = some (.routed c (.finish code message)) →
      Step s (.act w) ((s.act c (.finish code message)).setWorker w .requesting)
  | sweep {w} : s.workers[w]? = some .failing → s.locked = false →
      Step s (.sweep w) (s.setWorker w (.sweeping s.endpoints.entries))
  | close {w e rest} : s.workers[w]? = some (.sweeping rest) → e ∈ rest →
      Step s (.close w e)
        ((s.setServed e.server fun p => { p with pipe := pipeStep .close p.pipe }).setWorker w
          (.sweeping (rest.erase e)))
  | finish {w} : s.workers[w]? = some (.sweeping []) → Step s (.finish w) (s.setWorker w .done)
  | insert {service path host endpoints} : s.locked = false →
      s.endpoints.find (path, host) = none →
      Route.Server.insert s.endpoints ⟨path, host, s.served.length⟩ = (.ok (), endpoints) →
      Step s (.accept service path host)
        { s with
          endpoints := endpoints
          served := s.served ++ [⟨Pipe.Data.empty, .demanded, service⟩] }
  | refuse {service path host} : s.endpoints.find (path, host) ≠ none →
      Step s (.accept service path host) s
  | dequeue {i p} : s.served[i]? = some p → p.ready = true →
      Step s (.dequeue i) (s.setServed i Served.dequeue)
  | demand {i p} : s.served[i]? = some p → p.loop = .handling →
      Step s (.demand i) (s.setServed i fun p => { p with loop := .demanded })
  | abandon {i p} : s.served[i]? = some p →
      Step s (.abandon i) (s.setServed i fun p => { p with loop := .ended })
  | complete {service} : s.serves[service]? = some false →
      Step s (.complete service) { s with serves := s.serves.set service true }
  | shutdown : Step s .shutdown { s with shutdown := true }
  | wait : Step s .wait { s with waiter := .server }
  | proceed {waiter} : waiter.left < s.waiter.left → Step s .proceed { s with waiter := waiter }

theorem insert_of_find_none {endpoints : Endpoints ℕ} {e : Endpoint ℕ}
    (h : endpoints.find e.key = none) :
    ∃ endpoints', Route.Server.insert endpoints e = (.ok (), endpoints') := by
  unfold Route.Server.insert Route.Endpoints.tryEmplace
  rw [dif_pos h]
  exact ⟨_, rfl⟩

theorem step_next {s : State} {l : Label} (h : enabled s l = true) : Step s l (next s l) := by
  cases l with
  | request w method host => exact .request (by simpa [enabled] using h)
  | reject w =>
    simp only [enabled, Bool.and_eq_true, beq_iff_eq] at h
    exact .reject h.1 h.2
  | lookup w =>
    simp only [enabled] at h
    split at h
    · next c hw =>
      simp only [next, hw]
      exact .lookup hw (by simpa using h)
    · cases h
  | act w =>
    simp only [enabled] at h
    split at h
    · next c action hw =>
      simp only [next, hw]
      cases action with
      | enqueue e => exact .enqueue hw
      | finish code message => exact .unimplemented hw
    · cases h
  | sweep w =>
    simp only [enabled, Bool.and_eq_true, beq_iff_eq, Bool.not_eq_true'] at h
    exact .sweep h.1 h.2
  | close w e =>
    simp only [enabled] at h
    split at h
    · next rest hw =>
      simp only [next, hw]
      exact .close hw (by simpa using h)
    · cases h
  | finish w => exact .finish (by simpa [enabled] using h)
  | accept service path host =>
    simp only [enabled, Bool.and_eq_true, Bool.not_eq_true'] at h
    by_cases hfind : s.endpoints.find (path, host) = none
    · obtain ⟨endpoints, hi⟩ := insert_of_find_none (e := ⟨path, host, s.served.length⟩) hfind
      simp only [next, State.accept, hi]
      exact .insert h.1 hfind hi
    · obtain ⟨failure, hi⟩ := Route.insert_of_find (e := ⟨path, host, s.served.length⟩) hfind
      simp only [next, State.accept, hi]
      exact .refuse hfind
  | dequeue i =>
    obtain ⟨p, hp, hr⟩ := (Option.any_eq_true ..).mp h
    exact .dequeue hp hr
  | demand i =>
    obtain ⟨p, hp, hl⟩ := (Option.any_eq_true ..).mp h
    exact .demand hp (by simpa using hl)
  | abandon i =>
    obtain ⟨p, hp, -⟩ := (Option.any_eq_true ..).mp h
    exact .abandon hp
  | complete service =>
    simp only [enabled, Bool.and_eq_true, beq_iff_eq] at h
    exact .complete h.1
  | shutdown => exact .shutdown
  | wait => exact .wait
  | proceed =>
    refine .proceed ?_
    cases hw : s.waiter with
    | server | workers | serves => simp [Waiter.left]
    | none | returned => simp [enabled, hw] at h

end Steps

section Pipes

variable {d : Pipe.Data Call} {c : Call}

/-- The fields of a pipe agree with what has happened to it. -/
structure PipeOk (d : Pipe.Data Call) : Prop where
  values : returnedValues d.history ++ d.values = writtenBeforeClose d.history
  closed : d.isClosed = true ↔ Pipe.Closed d.history
  checks : d.failed = false

theorem pipeOk_empty : PipeOk Pipe.Data.empty :=
  ⟨rfl, by simp [Pipe.Data.empty, Pipe.Closed], rfl⟩

theorem write_open (ho : d.isClosed = false) (c : Call) :
    pipeStep (.write c) d = { d.log (.wrote c) with values := d.values ++ [c] } := by
  simp [pipeStep, Pipe.code, ho, Monitor.Instr.store]

theorem write_closed (ho : d.isClosed = true) (c : Call) :
    pipeStep (.write c) d = d.log (.wrote c) := by
  simp [pipeStep, Pipe.code, ho, Monitor.Instr.store]

theorem close_eq (d : Pipe.Data Call) :
    pipeStep .close d = { d.log .closed with isClosed := true } :=
  rfl

theorem PipeOk.written_open (h : PipeOk d) (ho : d.isClosed = false) (c : Call) :
    writtenBeforeClose (pipeStep (.write c) d).history = writtenBeforeClose d.history ++ [c] := by
  have hn : ¬ Pipe.Closed d.history := by
    rw [← h.closed, ho]
    exact Bool.false_ne_true
  rw [write_open ho]
  exact Pipe.written_append_wrote hn

theorem PipeOk.written_closed (h : PipeOk d) (ho : d.isClosed = true) (c : Call) :
    writtenBeforeClose (pipeStep (.write c) d).history = writtenBeforeClose d.history := by
  rw [write_closed ho]
  exact Pipe.written_append (.inl (h.closed.mp ho))

theorem written_close (d : Pipe.Data Call) :
    writtenBeforeClose (pipeStep .close d).history = writtenBeforeClose d.history :=
  Pipe.written_append (.inr fun _ he => nomatch he)

theorem PipeOk.write (h : PipeOk d) (c : Call) : PipeOk (pipeStep (.write c) d) := by
  cases ho : d.isClosed with
  | false =>
    have hwritten := h.written_open ho c
    rw [write_open ho] at hwritten ⊢
    refine ⟨?_, ?_, h.checks⟩
    · rw [hwritten, ← h.values]
      simp [Pipe.Data.log, returnedValues]
    · simpa [Pipe.Data.log, Pipe.closed_append] using h.closed
  | true =>
    have hwritten := h.written_closed ho c
    rw [write_closed ho] at hwritten ⊢
    refine ⟨?_, ?_, h.checks⟩
    · rw [hwritten, ← h.values]
      simp [Pipe.Data.log, returnedValues]
    · simpa [Pipe.Data.log, Pipe.closed_append] using h.closed

theorem PipeOk.close (h : PipeOk d) : PipeOk (pipeStep .close d) := by
  refine ⟨?_, ?_, h.checks⟩
  · rw [written_close, ← h.values]
    simp [close_eq, Pipe.Data.log, returnedValues]
  · simp [close_eq, Pipe.Data.log, Pipe.closed_append]

theorem take_cons {values : List Call} (hv : d.values = c :: values) :
    pipeStep .takeValue d = { d.log (.returned c) with values := values } := by
  simp [pipeStep, Pipe.code, hv, Monitor.Instr.store]

theorem take_nil (hv : d.values = []) :
    pipeStep .takeValue d = { d with failed := d.failed || !d.isClosed } := by
  simp [pipeStep, Pipe.code, hv, Monitor.Instr.store]

theorem written_take (d : Pipe.Data Call) :
    writtenBeforeClose (pipeStep .takeValue d).history = writtenBeforeClose d.history := by
  cases hv : d.values with
  | nil => rw [take_nil hv]
  | cons c values =>
    rw [take_cons hv]
    exact Pipe.written_append (.inr fun _ he => nomatch he)

/-- `Read()` finds a value, or a closed pipe. -/
theorem PipeOk.take (h : PipeOk d) (hr : d.values = [] → d.isClosed = true) :
    PipeOk (pipeStep .takeValue d) := by
  have hwritten := written_take d
  cases hv : d.values with
  | nil =>
    rw [take_nil hv]
    exact ⟨h.values, h.closed, by simp [h.checks, hr hv]⟩
  | cons c values =>
    rw [take_cons hv] at hwritten ⊢
    refine ⟨?_, ?_, h.checks⟩
    · rw [hwritten, ← h.values, hv]
      simp [Pipe.Data.log, returnedValues]
    · simpa [Pipe.Data.log, Pipe.closed_append] using h.closed

theorem Served.ready_iff {p : Served} :
    p.ready = true ↔ p.loop = .demanded ∧ (p.pipe.values = [] → p.pipe.isClosed = true) := by
  cases hv : p.pipe.values <;> cases hc : p.pipe.isClosed <;> simp [Served.ready, hv, hc]

end Pipes

section Invariant

variable {s t : State} {l : Label}

/-- The pipes of the endpoints, in the order of their insertion. -/
structure Inv (s : State) : Prop where
  pipes : ∀ p ∈ s.served, PipeOk p.pipe
  servers : s.endpoints.entries.map Endpoint.server = List.range s.served.length
  routed : ∀ c e, .routed c (.enqueue e) ∈ s.workers → e.server < s.served.length
  sweeping : ∀ rest, .sweeping rest ∈ s.workers → ∀ e ∈ rest, e.server < s.served.length

theorem Inv.server_lt (h : Inv s) {e : Endpoint ℕ} (he : e ∈ s.endpoints.entries) :
    e.server < s.served.length := by
  have hmem := List.mem_map_of_mem (f := Endpoint.server) he
  rw [h.servers] at hmem
  exact List.mem_range.mp hmem

theorem inv_initial (queues services : ℕ) : Inv (initial queues services) where
  pipes := fun _ hp => (List.not_mem_nil hp).elim
  servers := rfl
  routed := fun _ _ hp => nomatch List.eq_of_mem_replicate hp
  sweeping := fun _ hp => nomatch List.eq_of_mem_replicate hp

/-- A worker goes on, with endpoints of the server at most. -/
theorem inv_setWorker (h : Inv s) {w : ℕ} {p : Phase}
    (hr : ∀ c e, p = .routed c (.enqueue e) → e.server < s.served.length)
    (hs : ∀ rest, p = .sweeping rest → ∀ e ∈ rest, e.server < s.served.length) :
    Inv (s.setWorker w p) where
  pipes := h.pipes
  servers := h.servers
  routed c e hp := by
    rcases List.mem_or_eq_of_mem_set hp with hp | hp
    · exact h.routed c e hp
    · exact hr c e hp.symm
  sweeping rest hp := by
    rcases List.mem_or_eq_of_mem_set hp with hp | hp
    · exact h.sweeping rest hp
    · exact hs rest hp.symm

theorem inv_setServed (h : Inv s) {i : ℕ} {p : Served} {f : Served → Served}
    (hi : s.served[i]? = some p) (hf : PipeOk (f p).pipe) : Inv (s.setServed i f) where
  pipes p hp := by
    rw [State.setServed, modify_eq_set hi] at hp
    rcases List.mem_or_eq_of_mem_set hp with hp | rfl
    · exact h.pipes p hp
    · exact hf
  servers := by simpa [State.setServed] using h.servers
  routed c e hp := by simpa [State.setServed] using h.routed c e hp
  sweeping rest hp e he := by simpa [State.setServed] using h.sweeping rest hp e he

theorem Inv.served (h : Inv s) {e : Endpoint ℕ} (he : e.server < s.served.length) :
    ∃ p, s.served[e.server]? = some p ∧ PipeOk p.pipe :=
  ⟨_, List.getElem?_eq_getElem he, h.pipes _ (List.getElem_mem he)⟩

theorem insert_entries {endpoints endpoints' : Endpoints ℕ} {e : Endpoint ℕ}
    (h : Route.Server.insert endpoints e = (.ok (), endpoints')) :
    endpoints'.entries = endpoints.entries ++ [e] := by
  unfold Route.Server.insert Route.Endpoints.tryEmplace at h
  split at h
  · cases h
  · next hsome =>
    cases h
    split at hsome
    · cases hsome
      rfl
    · cases hsome

theorem route_mem {endpoints : Endpoints ℕ} {method host : String} {e : Endpoint ℕ}
    (h : Route.Server.route endpoints method host = .enqueue e) : e ∈ endpoints.entries := by
  unfold Route.Server.route at h
  split at h
  · next e' hlookup =>
    cases h
    unfold Route.Server.lookup at hlookup
    split at hlookup
    · next hfind =>
      cases hlookup
      exact List.mem_of_find?_eq_some hfind
    · exact List.mem_of_find?_eq_some hlookup
  · cases h

theorem inv_step (h : Inv s) (hs : Step s l t) : Inv t := by
  have hmem {w : ℕ} {p : Phase} (hw : s.workers[w]? = some p) : p ∈ s.workers :=
    List.mem_of_getElem? hw
  cases hs with
  | request hw =>
    exact inv_setWorker (s := { s with accepted := s.accepted + 1 }) { h with }
      (fun _ _ hp => nomatch hp) (fun _ hp => nomatch hp)
  | reject hw => exact inv_setWorker h (fun _ _ hp => nomatch hp) (fun _ hp => nomatch hp)
  | lookup hw hl =>
    refine inv_setWorker h (fun c' e hp => ?_) (fun _ hp => nomatch hp)
    injection hp with _ hroute
    exact h.server_lt (route_mem hroute)
  | enqueue hw =>
    obtain ⟨p, hp, hok⟩ := h.served (h.routed _ _ (hmem hw))
    exact inv_setWorker (inv_setServed h hp (hok.write _)) (fun _ _ hp => nomatch hp)
      (fun _ hp => nomatch hp)
  | @unimplemented w c code message hw =>
    exact inv_setWorker (s := s.act c (.finish code message)) { h with }
      (fun _ _ hp => nomatch hp) (fun _ hp => nomatch hp)
  | sweep hw hl =>
    refine inv_setWorker h (fun _ _ hp => nomatch hp) (fun rest hp e he => ?_)
    cases hp
    exact h.server_lt he
  | close hw he =>
    obtain ⟨p, hp, hok⟩ := h.served (h.sweeping _ (hmem hw) _ he)
    have hclosed := inv_setServed (f := fun p => { p with pipe := pipeStep .close p.pipe }) h hp
      hok.close
    refine inv_setWorker hclosed (fun _ _ hp => nomatch hp) (fun rest hp e he => ?_)
    cases hp
    simpa [State.setServed] using h.sweeping _ (hmem hw) e (List.mem_of_mem_erase he)
  | finish hw => exact inv_setWorker h (fun _ _ hp => nomatch hp) (fun _ hp => nomatch hp)
  | @insert service path host endpoints hl hfind hi =>
    have hentries := insert_entries hi
    refine ⟨?_, ?_, ?_, ?_⟩
    · intro p hp
      rcases List.mem_append.mp hp with hp | hp
      · exact h.pipes p hp
      · obtain rfl := List.mem_singleton.mp hp
        exact pipeOk_empty
    · simp [hentries, h.servers, List.range_succ]
    · intro c e hp
      simpa using Nat.lt_succ_of_lt (h.routed c e hp)
    · intro rest hp e he
      simpa using Nat.lt_succ_of_lt (h.sweeping rest hp e he)
  | refuse => exact h
  | dequeue hp hr =>
    have hok := (h.pipes _ (List.mem_of_getElem? hp)).take (Served.ready_iff.mp hr).2
    exact inv_setServed h hp hok
  | demand hp hl =>
    have hok := h.pipes _ (List.mem_of_getElem? hp)
    exact inv_setServed h hp hok
  | abandon hp =>
    have hok := h.pipes _ (List.mem_of_getElem? hp)
    exact inv_setServed h hp hok
  | complete | shutdown | wait | proceed => exact { h with }

end Invariant

section Work

variable {s t : State} {l : Label}

/-- How many steps a worker still makes, where there are so many endpoints. -/
def Phase.work (endpoints : ℕ) : Phase → ℕ
  | .requesting | .done => 0
  | .looking _ => 4
  | .routed .. => 3
  | .failing => endpoints + 2
  | .sweeping rest => rest.length + 1

def Loop.work : Loop → ℕ
  | .demanded => 1
  | .handling => 2
  | .ended => 0

def Served.work (p : Served) : ℕ := 2 * p.pipe.values.length + p.loop.work

/-- How many steps are left before the server and its loops have nothing to do. -/
def State.work (s : State) : ℕ :=
  (s.workers.map (Phase.work s.endpoints.entries.length)).sum + (s.served.map Served.work).sum +
    s.serves.count false + s.waiter.left

theorem work_setWorker {w : ℕ} {p q : Phase} (h : s.workers[w]? = some p) :
    (s.setWorker w q).work + p.work s.endpoints.entries.length =
      s.work + q.work s.endpoints.entries.length := by
  have hset := sum_map_set (b := q) (Phase.work s.endpoints.entries.length) h
  simp only [State.work, State.setWorker]
  omega

theorem work_setServed {i : ℕ} {p : Served} {f : Served → Served} (h : s.served[i]? = some p) :
    (s.setServed i f).work + p.work = s.work + (f p).work := by
  have hset := sum_map_set (b := f p) Served.work h
  simp only [State.work, State.setServed, modify_eq_set h]
  omega

theorem values_write (d : Pipe.Data Call) (c : Call) :
    (pipeStep (.write c) d).values.length ≤ d.values.length + 1 := by
  cases ho : d.isClosed with
  | false => simp [write_open ho]
  | true => simp [write_closed ho, Pipe.Data.log]

theorem work_dequeue {p : Served} (h : p.ready = true) : p.dequeue.work < p.work := by
  have hloop := (Served.ready_iff.mp h).1
  cases hv : p.pipe.values with
  | nil => simp [Served.work, Served.dequeue, take_nil hv, hv, hloop, Loop.work]
  | cons c values =>
    simp only [Served.work, Served.dequeue, take_cons hv, hv, hloop, Loop.work, List.isEmpty_cons,
      List.length_cons, Bool.false_eq_true, if_false]
    omega

/-- The steps that lead to the end leave less to do. -/
theorem work_step (hinv : Inv s) (hs : Step s l t) (hl : l.ending = true) : t.work < s.work := by
  cases hs with
  | @lookup w c hw hlock =>
    have hset := work_setWorker hw
      (q := .routed c (Route.Server.route s.endpoints c.method c.host))
    simp only [Phase.work] at hset
    omega
  | @enqueue w c e hw =>
    obtain ⟨p, hp, -⟩ := hinv.served (hinv.routed c e (List.mem_of_getElem? hw))
    have hserved := work_setServed hp
      (f := fun p => { p with pipe := pipeStep (.write c) p.pipe })
    have hset := work_setWorker (s := s.act c (.enqueue e)) hw (q := .requesting)
    have hvalues := values_write p.pipe c
    simp only [Served.work] at hserved
    simp only [Phase.work] at hset
    change (s.act c (.enqueue e)).work + _ = _ at hserved
    omega
  | @unimplemented w c code message hw =>
    have hset := work_setWorker (s := s.act c (.finish code message)) hw (q := .requesting)
    have hact : (s.act c (.finish code message)).work = s.work := rfl
    simp only [Phase.work] at hset
    omega
  | sweep hw hlock =>
    have hset := work_setWorker hw (q := .sweeping s.endpoints.entries)
    simp only [Phase.work] at hset
    omega
  | @close w e rest hw he =>
    obtain ⟨p, hp, -⟩ := hinv.served (hinv.sweeping rest (List.mem_of_getElem? hw) e he)
    have hserved := work_setServed hp (f := fun p => { p with pipe := pipeStep .close p.pipe })
    have hset := work_setWorker
      (s := s.setServed e.server fun p => { p with pipe := pipeStep .close p.pipe }) hw
      (q := .sweeping (rest.erase e))
    have hlength := List.length_erase_of_mem he
    have hpos := List.length_pos_of_mem he
    have hsame : (pipeStep .close p.pipe).values = p.pipe.values := rfl
    simp only [Served.work, hsame] at hserved
    simp only [Phase.work] at hset
    omega
  | finish hw =>
    have hset := work_setWorker hw (q := .done)
    simp only [Phase.work, List.length_nil] at hset
    omega
  | dequeue hp hr =>
    have hset := work_setServed hp (f := Served.dequeue)
    have hless := work_dequeue hr
    omega
  | demand hp hloop =>
    have hset := work_setServed hp (f := fun p => { p with loop := .demanded })
    simp only [Served.work, hloop, Loop.work] at hset
    omega
  | @complete service hc =>
    obtain ⟨hlt, hc⟩ := List.getElem?_eq_some_iff.mp hc
    have hcount := List.count_set (a := true) (b := false) hlt
    have hpos : 0 < s.serves.count false := List.count_pos_iff.mpr (hc ▸ List.getElem_mem hlt)
    simp only [State.work]
    simp [hc] at hcount
    omega
  | proceed hless =>
    simp only [State.work]
    omega
  | request | reject | insert | refuse | abandon | shutdown | wait => cases hl

theorem bounded_ending (hinv : Inv s) {xs : List (State × Label)}
    (hr : (machine.restrict fun _ l => l.ending = true).Run s xs t) : xs.length ≤ s.work := by
  have hkeep : ∀ u l, Inv u → (machine.restrict fun _ l => l.ending = true).Enabled u l →
      Inv (next u l) := fun u l hu he => inv_step hu (step_next he.1)
  have hless : ∀ u l, Inv u → (machine.restrict fun _ l => l.ending = true).Enabled u l →
      (next u l).work + 1 ≤ u.work := fun u l hu he => work_step hu (step_next he.1) he.2
  have hcount := hr.countP_le (fun _ => true) hkeep hless hinv
  simpa using hcount

theorem bounded_serving (hinv : Inv s) {xs : List (State × Label)}
    (hr : (machine.restrict fun _ l => l.serving = true).Run s xs t) : xs.length ≤ s.work := by
  obtain ⟨hrun, hserving⟩ := hr.of_restrict
  have hending : ∀ p ∈ xs, p.2.ending = true := fun p hp =>
    (Bool.or_eq_true ..).mpr (.inl (hserving p hp))
  exact bounded_ending hinv (hrun.restrict hending)

end Work

end Eventuals.Server
