import Eventuals.Library.MonitorView
import Mathlib.Data.List.Sort

/-! `RequestResponseChannel`: requestors and readers under one lock
(`request-response-channel.h`). -/
namespace Eventuals.RequestResponseChannel

open Function (update)
open Monitor (Instr Program View Guarded)
open Transition (Machine)

/-- The condition variables `has_requests_or_shutdown_` and `has_responses_or_shutdown_`. -/
inductive Variable
  | hasRequestsOrShutdown
  | hasResponsesOrShutdown
  deriving DecidableEq

/-- The sections and where a thread stands in them; a `Request` carries the number of requests
made before it. -/
inductive Control (Q A : Type*)
  | idle
  | request (request : Q)
  | requestNotify (n : ℕ)
  | awaitResponse (n : ℕ)
  | takeResponse (n : ℕ)
  | respond (response : A)
  | respondNotify
  | respondBatch (responses : List A)
  | respondNotifyAll
  | read
  | takeRequest
  | readBatch
  | takeRequests
  | shutdown
  | shutdownRequests
  | shutdownResponses
  | done
  deriving DecidableEq

/-- The fields of the channel; each request in the deque keeps its number. -/
structure Data (Q A : Type*) where
  requests : List (ℕ × Q)
  responses : List A
  shutdown : Bool
  failed : Bool
  /-- Requests made so far. -/
  made : ℕ
  readLog : List (ℕ × Q)
  responded : List A
  /-- Responses in the order they were taken, each with the number of the request it went to. -/
  received : List (ℕ × A)
  deriving DecidableEq

variable {Q A W : Type*}

def Data.empty : Data Q A where
  requests := []
  responses := []
  shutdown := false
  failed := false
  made := 0
  readLog := []
  responded := []
  received := []

def code (c : Control Q A) (d : Data Q A) : Instr Variable (Control Q A) (Data Q A) :=
  match c with
  | .idle | .done => .release .idle
  -- `Request`
  | .request q =>
    if d.shutdown then .assign d (.awaitResponse d.made)
    else .assign { d with requests := d.requests ++ [(d.made, q)], made := d.made + 1 }
      (.requestNotify d.made)
  | .requestNotify n => .notify .hasRequestsOrShutdown (.awaitResponse n)
  | .awaitResponse n =>
    .wait .hasResponsesOrShutdown (some (d.responses.isEmpty && !d.shutdown)) (.takeResponse n)
  | .takeResponse n =>
    match d.responses with
    | a :: responses =>
      .assign { d with responses := responses, received := d.received ++ [(n, a)] } .done
    | [] => .assign { d with failed := d.failed || !d.shutdown } .done
  -- `Respond`
  | .respond a =>
    if d.shutdown then .assign d .done
    else .assign { d with responses := d.responses ++ [a], responded := d.responded ++ [a] }
      .respondNotify
  | .respondNotify => .notify .hasResponsesOrShutdown .done
  -- `RespondBatch`
  | .respondBatch responses =>
    if d.shutdown then .assign d .done
    else .assign { d with
      responses := d.responses ++ responses, responded := d.responded ++ responses }
      .respondNotifyAll
  | .respondNotifyAll => .notifyAll .hasResponsesOrShutdown .done
  -- `Read`
  | .read => .wait .hasRequestsOrShutdown (some (d.requests.isEmpty && !d.shutdown)) .takeRequest
  | .takeRequest =>
    match d.requests with
    | q :: requests =>
      .assign { d with requests := requests, readLog := d.readLog ++ [q] } .done
    | [] => .assign { d with failed := d.failed || !d.shutdown } .done
  -- `ReadBatch`
  | .readBatch =>
    .wait .hasRequestsOrShutdown (some (d.requests.isEmpty && !d.shutdown)) .takeRequests
  | .takeRequests =>
    match d.requests with
    | q :: requests =>
      .assign { d with requests := [], readLog := d.readLog ++ q :: requests } .done
    | [] => .assign { d with failed := d.failed || !d.shutdown } .done
  -- `Shutdown`
  | .shutdown => .assign { d with shutdown := true } .shutdownRequests
  | .shutdownRequests => .notifyAll .hasRequestsOrShutdown .shutdownResponses
  | .shutdownResponses => .notifyAll .hasResponsesOrShutdown .done

/-- The first step of each section. -/
def Control.isEntry : Control Q A → Bool
  | .request _ | .respond _ | .respondBatch _ | .read | .readBatch | .shutdown => true
  | _ => false

/-- Any thread that is not inside the channel may start any section. -/
def program (Q A : Type*) : Program Variable (Control Q A) (Data Q A) where
  code := code
  entry
    | .idle, c => c.isEntry
    | _, _ => false

abbrev State (W Q A : Type*) := Monitor.State W Variable (Control Q A) (Data Q A)

abbrev Label (W Q A : Type*) := Monitor.Label W (Control Q A)

/-- The number of a request whose `Request` has not got its response. -/
def Control.pending : Control Q A → List ℕ
  | .requestNotify n | .awaitResponse n | .takeResponse n => [n]
  | _ => []

abbrev ChannelView (Q A : Type*) := View Variable (Control Q A) (Data Q A)

/-- Requests whose requestor has been notified and waits for the lock, then those whose requestor
waits for a notification. -/
def queuedRequests (v : ChannelView Q A) : List ℕ :=
  (v.woken .hasResponsesOrShutdown).flatMap Control.pending ++
    (v.waiters .hasResponsesOrShutdown).flatMap Control.pending

/-- The responses that a section is about to give. -/
def Control.given : Control Q A → List A
  | .respond a => [a]
  | .respondBatch responses => responses
  | _ => []

/-- Responses are given to requests that have been read, in the order they were read. -/
def InOrder (v : ChannelView Q A) : Prop :=
  v.data.responded.length + (v.active.elim [] Control.given).length ≤ v.data.readLog.length

instance : DecidablePred (InOrder : ChannelView Q A → Prop) := fun v =>
  inferInstanceAs (Decidable (_ ≤ v.data.readLog.length))

def Control.isRequest : Control Q A → Bool
  | .request _ => true
  | _ => false

def Control.isResponder : Control Q A → Bool
  | .respond _ | .respondBatch _ => true
  | _ => false

/-- A new request finds no response left over, and a responder finds the requestors that were
notified, and behind them those that wait, in the order of their requests. -/
def InTurn (v : ChannelView Q A) : Prop :=
  (v.active.any Control.isRequest = true → v.data.responses = []) ∧
    (v.active.any Control.isResponder = true → (queuedRequests v).Pairwise (· < ·))

instance [DecidableEq A] : DecidablePred (InTurn : ChannelView Q A → Prop) := fun v =>
  inferInstanceAs (Decidable ((_ → v.data.responses = []) ∧
    (_ → (queuedRequests v).Pairwise (· < ·))))

/-- The channel used by readers that respond in the order they read. -/
def machine (W Q A : Type*) [DecidableEq W] : Machine (State W Q A) (Label W Q A) :=
  (Monitor.machine (program Q A) .idle .empty).restrict (Guarded InOrder)

instance [DecidableEq W] (s : State W Q A) (l : Label W Q A) :
    Decidable ((machine W Q A).Enabled s l) :=
  inferInstanceAs (Decidable (((Monitor.machine (program Q A) .idle .empty).restrict
    (Guarded InOrder)).Enabled s l))

/-- The `i`-th response that was received is the `i`-th that was given, and it went to the
`i`-th request that was read; once nobody wants the lock, no response is left over. -/
structure Correct (s : State W Q A) : Prop where
  matching : ∀ (i n : ℕ) (a : A), s.data.received[i]? = some (n, a) →
    s.data.responded[i]? = some a ∧ ∃ q, s.data.readLog[i]? = some (n, q)
  complete : s.queue = [] → s.data.received.length = s.data.responded.length
  checks : s.data.failed = false

/-- Requests still to be answered, the running requestor first, then the notified ones. -/
def line (v : ChannelView Q A) : List ℕ :=
  (v.active.elim [] Control.pending) ++
    (v.woken .hasResponsesOrShutdown).flatMap Control.pending

/-- Requests whose requestor waits for a notification. -/
def parked (v : ChannelView Q A) : List ℕ :=
  (v.waiters .hasResponsesOrShutdown).flatMap Control.pending

/-- The next requests to be answered, in the order they were made. -/
def expected (d : Data Q A) : List ℕ :=
  List.range' d.received.length (d.made - d.received.length)

/-- Where each response left over will go: to the requests in line, except while a responder has
yet to notify their requestors. -/
def Served (v : ChannelView Q A) : Prop :=
  match v.active with
  | some .respondNotify =>
    line v ++ parked v = expected v.data ∧ v.data.responses.length ≤ (line v).length + 1
  | some .respondNotifyAll => line v ++ parked v = expected v.data
  | _ => (line v).take v.data.responses.length =
      List.range' v.data.received.length v.data.responses.length

/-- A thread that takes a request or a response has found one. -/
def Found (v : ChannelView Q A) : Prop :=
  match v.active with
  | some (.takeResponse _) => v.data.responses ≠ []
  | some .takeRequest | some .takeRequests => v.data.requests ≠ []
  | _ => True

structure Inv (v : ChannelView Q A) : Prop where
  requests : (v.data.readLog ++ v.data.requests).map Prod.fst = List.range v.data.made
  responses : v.data.responded = v.data.received.map Prod.snd ++ v.data.responses
  received : v.data.received.map Prod.fst = List.range v.data.received.length
  responded : v.data.responded.length ≤ v.data.readLog.length
  pending : (line v ++ parked v).Perm (expected v.data)
  served : Served v
  found : Found v
  failed : v.data.failed = false

variable {v v' : ChannelView Q A} {c : Control Q A} {n : ℕ}

theorem waits_responses {d : Data Q A} {b : Option Bool} {c' : Control Q A}
    (h : code c d = .wait .hasResponsesOrShutdown b c') : ∃ n, c = .awaitResponse n := by
  cases c <;> simp only [code] at h
  case awaitResponse n => exact ⟨n, rfl⟩
  all_goals repeat' split at h
  all_goals simp at h

theorem waits_requests {d : Data Q A} {b : Option Bool} {c' : Control Q A}
    (h : code c d = .wait .hasRequestsOrShutdown b c') : c = .read ∨ c = .readBatch := by
  cases c <;> simp only [code] at h
  case read => exact Or.inl rfl
  case readBatch => exact Or.inr rfl
  all_goals repeat' split at h
  all_goals simp at h

theorem pending_of_isEntry (h : c.isEntry = true) : c.pending = [] := by
  cases c <;> simp_all [Control.isEntry, Control.pending]

/-- No responder is about to notify. -/
def Settled (v : ChannelView Q A) : Prop :=
  v.active ≠ some .respondNotify ∧ v.active ≠ some .respondNotifyAll

theorem served_iff (h : Settled v) : Served v ↔
    (line v).take v.data.responses.length =
      List.range' v.data.received.length v.data.responses.length := by
  unfold Served
  split
  · next ha => exact (h.1 ha).elim
  · next ha => exact (h.2 ha).elim
  · rfl

theorem inv_initial : Inv (⟨none, fun _ => [], fun _ => [], Data.empty⟩ : ChannelView Q A) := by
  constructor <;> simp [Data.empty, line, parked, expected, Served, Found]

/-- A step that changes neither the fields nor who is in line. -/
theorem Inv.keep (h : Inv v) (hd : v'.data = v.data) (hs : Settled v) (hs' : Settled v')
    (hl : ∃ x, line v' = line v ++ x ∧ x ++ parked v' = parked v) (hf : Found v') : Inv v' := by
  obtain ⟨x, hl, hp⟩ := hl
  have hserved := (served_iff hs).mp h.served
  refine ⟨?_, ?_, ?_, ?_, ?_, (served_iff hs').mpr ?_, hf, ?_⟩
  · rw [hd]
    exact h.requests
  · rw [hd]
    exact h.responses
  · rw [hd]
    exact h.received
  · rw [hd]
    exact h.responded
  · rw [hd, hl, List.append_assoc, hp]
    exact h.pending
  · rw [hd, hl]
    have hlen := congrArg List.length hserved
    simp only [List.length_take, List.length_range'] at hlen
    rw [List.take_append_of_le_length (by omega)]
    exact hserved
  · rw [hd]
    exact h.failed

theorem inv_enter (h : Inv v) (ha : v.active = none) (hc : c.isEntry = true) :
    Inv { v with active := some c } := by
  refine h.keep rfl (by simp [Settled, ha]) ?_ ⟨[], ?_, rfl⟩ ?_
  · cases c <;> simp_all [Settled, Control.isEntry]
  · simp [line, ha, pending_of_isEntry hc]
  · cases c <;> simp_all [Found, Control.isEntry]

theorem inv_resume (h : Inv v) (ha : v.active = none) {k : Variable} {l : List (Control Q A)}
    (hk : v.woken k = c :: l) (hw : v.Waits (program Q A)) :
    Inv { v with active := some c, woken := update v.woken k l } := by
  obtain ⟨d, b, c', hc⟩ := hw k c (Or.inl (by simp [hk]))
  cases k with
  | hasRequestsOrShutdown =>
    rcases waits_requests hc with rfl | rfl
    all_goals
      refine h.keep rfl (by simp [Settled, ha]) (by simp [Settled]) ⟨[], ?_, rfl⟩ ?_
      · simp [line, ha, Control.pending]
      · simp [Found]
  | hasResponsesOrShutdown =>
    obtain ⟨n, rfl⟩ := waits_responses hc
    refine h.keep rfl (by simp [Settled, ha]) (by simp [Settled]) ⟨[], ?_, rfl⟩ ?_
    · simp [line, ha, hk, Control.pending]
    · simp [Found]

theorem line_wake_requests : line (v.wake .hasRequestsOrShutdown) = line v ∧
    parked (v.wake .hasRequestsOrShutdown) = parked v := by
  unfold View.wake
  cases v.waiters .hasRequestsOrShutdown <;> simp [line, parked]

theorem wake_data {k : Variable} : (v.wake k).data = v.data ∧ (v.wake k).active = v.active := by
  unfold View.wake
  cases v.waiters k <;> exact ⟨rfl, rfl⟩

/-- A notified requestor moves from the end of those that wait into the line. -/
theorem line_wake_responses (hw : v.Waits (program Q A)) :
    ∃ x, line (v.wake .hasResponsesOrShutdown) = line v ++ x ∧
      x ++ parked (v.wake .hasResponsesOrShutdown) = parked v ∧
      (parked v = [] ∨ x.length = 1) := by
  unfold View.wake
  cases hk : v.waiters .hasResponsesOrShutdown with
  | nil => exact ⟨[], by simp, by simp, Or.inl (by simp [parked, hk])⟩
  | cons c l =>
    obtain ⟨d, b, c', hc⟩ := hw .hasResponsesOrShutdown c (Or.inr (by simp [hk]))
    obtain ⟨n, rfl⟩ := waits_responses hc
    exact ⟨[n], by simp [line, Control.pending], by simp [parked, hk, Control.pending],
      Or.inr rfl⟩

theorem Inv.length_received_le (h : Inv v) : v.data.received.length ≤ v.data.made := by
  have h1 := congrArg List.length h.requests
  have h2 := congrArg List.length h.responses
  have h3 := h.responded
  simp only [List.map_append, List.length_append, List.length_map, List.length_range] at h1 h2
  omega

/-- A new request goes behind all the others. -/
theorem inv_request (h : Inv v) {q : Q} (ha : v.active = some (.request q))
    (hr : v.data.responses = []) :
    Inv { v with
      active := some (.requestNotify v.data.made),
      data := { v.data with
        requests := v.data.requests ++ [(v.data.made, q)], made := v.data.made + 1 } } := by
  have hle := h.length_received_le
  have hreq := h.requests
  rw [List.map_append] at hreq
  refine ⟨?_, h.responses, h.received, h.responded, ?_, ?_, trivial, h.failed⟩
  · simp only [List.map_append, List.map_cons, List.map_nil, List.range_succ, ← hreq,
      List.append_assoc]
  · have hp := h.pending
    have hlast : List.range' v.data.received.length (v.data.made + 1 - v.data.received.length) =
        expected v.data ++ [v.data.made] := by
      rw [Nat.succ_sub hle, List.range'_1_concat, Nat.add_sub_cancel' hle]
      rfl
    simp only [line, ha, parked, Control.pending, Option.elim, List.nil_append] at hp ⊢
    simp only [expected, hlast, List.cons_append]
    refine (List.Perm.cons v.data.made hp).trans ?_
    exact (List.perm_append_singleton _ _).symm
  · simp [Served, hr]

theorem inv_await_blocked (h : Inv v) (ha : v.active = some (.awaitResponse n))
    (hr : v.data.responses = []) :
    Inv { v with
      active := none,
      waiters := update v.waiters .hasResponsesOrShutdown
        (v.waiters .hasResponsesOrShutdown ++ [.awaitResponse n]) } := by
  refine ⟨h.requests, h.responses, h.received, h.responded, ?_, ?_, trivial, h.failed⟩
  · have hp := h.pending
    simp only [line, ha, parked, Control.pending, Option.elim] at hp
    simp only [line, parked, Control.pending, Option.elim, Function.update_self,
      List.flatMap_append, List.flatMap_cons, List.flatMap_nil, List.append_nil, List.nil_append]
    rw [← List.append_assoc]
    exact (List.perm_append_singleton _ _).trans hp
  · simp [Served, hr]

/-- The requestor at the front of the line takes the first response. -/
theorem inv_take (h : Inv v) (ha : v.active = some (.takeResponse n)) {a : A} {responses : List A}
    (hr : v.data.responses = a :: responses) :
    Inv { v with
      active := some .done,
      data := { v.data with
        responses := responses, received := v.data.received ++ [(n, a)] } } := by
  have hserved := (served_iff (by simp [Settled, ha])).mp h.served
  have hline : line v = n :: (v.woken .hasResponsesOrShutdown).flatMap Control.pending := by
    simp [line, ha, Control.pending]
  rw [hline, hr, List.length_cons, List.take_succ_cons, List.range'_succ, List.cons.injEq]
    at hserved
  obtain ⟨hn, hserved⟩ := hserved
  have hreq := congrArg List.length h.requests
  have hres := congrArg List.length h.responses
  have hresp := h.responded
  simp only [List.map_append, List.length_append, List.length_map, List.length_range, hr,
    List.length_cons] at hreq hres
  refine ⟨h.requests, ?_, ?_, h.responded, ?_, ?_, trivial, h.failed⟩
  · simp [h.responses, hr]
  · rw [List.map_append, h.received, List.length_append, List.length_singleton, List.range_succ]
    simp [hn]
  · have hp := h.pending
    have hsucc : v.data.made - v.data.received.length =
        (v.data.made - (v.data.received.length + 1)) + 1 := by omega
    rw [hline] at hp
    simp only [expected, List.cons_append, hsucc, List.range'_succ, hn] at hp
    simpa [line, parked, expected, Control.pending] using hp.cons_inv
  · rw [served_iff (by simp [Settled])]
    simpa [line, Control.pending] using hserved

theorem inv_takeRequests (h : Inv v) (ha : v.active = some .takeRequest ∨
    v.active = some .takeRequests) {taken left : List (ℕ × Q)}
    (hr : v.data.requests = taken ++ left) :
    Inv { v with
      active := some .done,
      data := { v.data with requests := left, readLog := v.data.readLog ++ taken } } := by
  have hs : Settled v := by rcases ha with ha | ha <;> simp [Settled, ha]
  have hserved := (served_iff hs).mp h.served
  have hline : line v = (v.woken .hasResponsesOrShutdown).flatMap Control.pending := by
    rcases ha with ha | ha <;> simp [line, ha, Control.pending]
  refine ⟨?_, h.responses, h.received, ?_, ?_, ?_, trivial, h.failed⟩
  · have hq := h.requests
    rw [hr, ← List.append_assoc] at hq
    exact hq
  · have hle := h.responded
    simp only [List.length_append]
    omega
  · have hp := h.pending
    rw [hline] at hp
    simpa [line, parked, expected, Control.pending] using hp
  · rw [served_iff (by simp [Settled])]
    rw [hline] at hserved
    simpa [line, Control.pending] using hserved

/-- The requests in line and those that wait are exactly the next ones, in order. -/
theorem eq_expected (h : Inv v) (hp : (line v ++ parked v).Pairwise (· < ·)) :
    line v ++ parked v = expected v.data :=
  List.Perm.eq_of_pairwise (fun _ _ _ _ hab hba => (Nat.lt_asymm hab hba).elim) hp
    (List.pairwise_lt_range' 1) h.pending

theorem expected_length (d : Data Q A) : (expected d).length = d.made - d.received.length := by
  simp [expected]

/-- A response is added; the requestor it is for has yet to be notified. -/
theorem inv_respond (h : Inv v) {a : A} (ha : v.active = some (.respond a))
    (ho : v.data.responded.length < v.data.readLog.length)
    (hq : (queuedRequests v).Pairwise (· < ·)) :
    Inv { v with
      active := some .respondNotify,
      data := { v.data with
        responses := v.data.responses ++ [a], responded := v.data.responded ++ [a] } } := by
  have hline : line v = (v.woken .hasResponsesOrShutdown).flatMap Control.pending := by
    simp [line, ha, Control.pending]
  have heq := eq_expected h (by rw [hline]; exact hq)
  have hserved := congrArg List.length ((served_iff (by simp [Settled, ha])).mp h.served)
  rw [hline] at heq hserved
  simp only [List.length_take, List.length_range'] at hserved
  refine ⟨h.requests, ?_, h.received, ?_, ?_, ⟨?_, ?_⟩, trivial, h.failed⟩
  · simp [h.responses]
  · simp only [List.length_append, List.length_singleton]
    omega
  · have hp := h.pending
    rw [hline] at hp
    simpa [line, parked, expected, Control.pending] using hp
  · simpa [line, parked, expected, Control.pending] using heq
  · simp only [line, Control.pending, Option.elim, List.nil_append, List.length_append,
      List.length_singleton]
    omega

/-- No more responses are left over than requests are to be answered. -/
theorem Inv.length_responses_le (h : Inv v) :
    v.data.responses.length ≤ (expected v.data).length := by
  have hreq := congrArg List.length h.requests
  have hres := congrArg List.length h.responses
  have hresp := h.responded
  simp only [List.map_append, List.length_append, List.length_map, List.length_range] at hreq hres
  rw [expected_length]
  omega

theorem take_expected {d : Data Q A} {l l' : List ℕ} {m : ℕ} (h : l ++ l' = expected d)
    (hl : m ≤ l.length) : l.take m = List.range' d.received.length m := by
  have hlen := congrArg List.length h
  simp only [List.length_append, expected_length] at hlen
  have htake : l.take m = (l ++ l').take m := (List.take_append_of_le_length hl).symm
  rw [htake, h, expected]
  exact List.take_range'_of_length_ge (by omega)

/-- The responder has notified: the requestors in line are those the responses are for. -/
theorem inv_responded {x : List ℕ} (h : Inv v) (hd : v'.data = v.data)
    (heq : line v ++ parked v = expected v.data) (hs : Settled v') (hl : line v' = line v ++ x)
    (hx : x ++ parked v' = parked v)
    (hlen : v.data.responses.length ≤ (line v ++ x).length) (hf : Found v') : Inv v' := by
  refine ⟨?_, ?_, ?_, ?_, ?_, ?_, hf, ?_⟩
  · rw [hd]
    exact h.requests
  · rw [hd]
    exact h.responses
  · rw [hd]
    exact h.received
  · rw [hd]
    exact h.responded
  · rw [hd, hl, List.append_assoc, hx]
    exact h.pending
  · have happend : (line v ++ x) ++ parked v' = expected v.data := by
      rw [List.append_assoc, hx, heq]
    rw [served_iff hs, hd, hl]
    exact take_expected happend hlen
  · rw [hd]
    exact h.failed

/-- The notified requestor is the one the response is for. -/
theorem inv_respondNotify (h : Inv v) (hw : v.Waits (program Q A))
    (ha : v.active = some .respondNotify) :
    Inv { v.wake .hasResponsesOrShutdown with active := some .done } := by
  have hs := h.served
  simp only [Served, ha] at hs
  obtain ⟨heq, hlen⟩ := hs
  obtain ⟨x, hl, hx, hone⟩ := line_wake_responses hw
  obtain ⟨hd, hact⟩ := wake_data (v := v) (k := .hasResponsesOrShutdown)
  refine inv_responded h hd heq (by simp [Settled]) (x := x) ?_ hx ?_ trivial
  · rw [← hl]
    simp [line, hact, ha, Control.pending]
  · rw [List.length_append]
    rcases hone with hone | hone
    · have hle := h.length_responses_le
      rw [← heq, hone, List.append_nil] at hle
      omega
    · omega

theorem inv_respondBatch (h : Inv v) {responses : List A}
    (ha : v.active = some (.respondBatch responses))
    (ho : v.data.responded.length + responses.length ≤ v.data.readLog.length)
    (hq : (queuedRequests v).Pairwise (· < ·)) :
    Inv { v with
      active := some .respondNotifyAll,
      data := { v.data with
        responses := v.data.responses ++ responses,
        responded := v.data.responded ++ responses } } := by
  have hline : line v = (v.woken .hasResponsesOrShutdown).flatMap Control.pending := by
    simp [line, ha, Control.pending]
  have heq := eq_expected h (by rw [hline]; exact hq)
  rw [hline] at heq
  refine ⟨h.requests, ?_, h.received, ?_, ?_, ?_, trivial, h.failed⟩
  · simp [h.responses]
  · simpa only [List.length_append] using ho
  · have hp := h.pending
    rw [hline] at hp
    simpa [line, parked, expected, Control.pending] using hp
  · simpa [Served, line, parked, expected, Control.pending] using heq

/-- All waiting requestors are notified, one after the other. -/
theorem inv_respondNotifyAll (h : Inv v) (hw : v.Waits (program Q A))
    (ha : v.active = some .respondNotifyAll) :
    Inv (v.run .respondNotifyAll false (.notifyAll .hasResponsesOrShutdown .done)) := by
  have heq := h.served
  simp only [Served, ha] at heq
  simp only [View.run]
  cases hk : v.waiters .hasResponsesOrShutdown with
  | nil =>
    have hp : parked v = [] := by simp [parked, hk]
    refine inv_responded h rfl heq (by simp [Settled]) (x := []) ?_ rfl ?_ trivial
    · simp [line, ha, Control.pending]
    · have hle := h.length_responses_le
      rw [← heq, hp] at hle
      simpa using hle
  | cons c l =>
    obtain ⟨x, hl, hx, -⟩ := line_wake_responses hw
    obtain ⟨hd, hact⟩ := wake_data (v := v) (k := .hasResponsesOrShutdown)
    refine ⟨?_, ?_, ?_, ?_, ?_, ?_, ?_, ?_⟩
    · simpa only [hd] using h.requests
    · simpa only [hd] using h.responses
    · simpa only [hd] using h.received
    · simpa only [hd] using h.responded
    · rw [hl, List.append_assoc, hx, hd]
      exact h.pending
    · simp only [Served, hact, ha]
      rw [hl, List.append_assoc, hx, hd]
      exact heq
    · simp [Found, hact, ha]
    · simpa only [hd] using h.failed

theorem inv_read (h : Inv v) {c' : Control Q A}
    (hc : v.active = some .read ∧ c' = .takeRequest ∨
      v.active = some .readBatch ∧ c' = .takeRequests)
    (hr : v.data.requests ≠ []) : Inv { v with active := some c' } := by
  rcases hc with ⟨ha, rfl⟩ | ⟨ha, rfl⟩
  all_goals
    refine h.keep rfl (by simp [Settled, ha]) (by simp [Settled]) ⟨[], ?_, rfl⟩ (by simpa [Found])
    simp [line, ha, Control.pending]

theorem inv_read_blocked (h : Inv v) (hc : v.active = some .read ∨ v.active = some .readBatch)
    (l : List (Control Q A)) :
    Inv { v with active := none, waiters := update v.waiters .hasRequestsOrShutdown l } := by
  rcases hc with ha | ha
  all_goals
    refine h.keep rfl (by simp [Settled, ha]) (by simp [Settled]) ⟨[], ?_, ?_⟩ trivial
    · simp [line, ha, Control.pending]
    · simp [parked]

/-- Every step of a thread that keeps its turn, while the channel is not shut down. -/
theorem inv_run (h : Inv v) (hw : v.Waits (program Q A)) (ha : v.active = some c)
    (ho : InOrder v) (ht : InTurn v) {b : Bool}
    (hs : (v.run c b (code c v.data)).data.shutdown = false) :
    Inv (v.run c b (code c v.data)) := by
  have keep : ∀ {x : ChannelView Q A}, x.data = v.data → Settled v → Settled x →
      line x = line v → parked x = parked v → Found x → Inv x := by
    intro x hd hv hx hl hp hf
    exact h.keep hd hv hx ⟨[], by simp [hl], by simp [hp]⟩ hf
  cases c with
  | idle | done =>
    refine keep rfl ?_ ?_ ?_ rfl trivial <;>
      simp [View.run, code, Settled, ha, line, Control.pending]
  | request q =>
    by_cases hd : v.data.shutdown = true
    · simp [View.run, code, hd] at hs
    · have hr := ht.1 (by simp [ha, Control.isRequest])
      simpa [View.run, code, hd] using inv_request h ha hr
  | requestNotify n =>
    obtain ⟨hl, hp⟩ := line_wake_requests (v := v)
    obtain ⟨hd, hact⟩ := wake_data (v := v) (k := .hasRequestsOrShutdown)
    refine keep hd ?_ ?_ ?_ hp ?_
    · simp [Settled, ha]
    · simp [View.run, code, Settled]
    · rw [← hl]
      simp [View.run, code, line, hact, ha, Control.pending]
    · simp [View.run, code, Found]
  | awaitResponse n =>
    simp only [View.run, code, Option.getD_some] at hs ⊢
    split
    · next hb =>
      simp only [Bool.and_eq_true, List.isEmpty_iff] at hb
      exact inv_await_blocked h ha hb.1
    · next hb =>
      rw [if_neg hb] at hs
      simp only at hs
      simp only [hs, Bool.not_false, Bool.and_true, List.isEmpty_iff] at hb
      refine keep rfl ?_ ?_ ?_ rfl ?_
      · simp [Settled, ha]
      · simp [Settled]
      · simp [line, ha, Control.pending]
      · simpa [Found] using hb
  | takeResponse n =>
    have hf := h.found
    simp only [Found, ha] at hf
    cases hr : v.data.responses with
    | nil => exact (hf hr).elim
    | cons a responses => simpa [View.run, code, hr] using inv_take h ha hr
  | respond a =>
    by_cases hd : v.data.shutdown = true
    · simp [View.run, code, hd] at hs
    · simp only [InOrder, ha, Control.given, Option.elim] at ho
      have hq := ht.2 (by simp [ha, Control.isResponder])
      simpa [View.run, code, hd] using inv_respond h ha ho hq
  | respondNotify => exact inv_respondNotify h hw ha
  | respondBatch responses =>
    by_cases hd : v.data.shutdown = true
    · simp [View.run, code, hd] at hs
    · simp only [InOrder, ha, Control.given, Option.elim] at ho
      have hq := ht.2 (by simp [ha, Control.isResponder])
      simpa [View.run, code, hd] using inv_respondBatch h ha ho hq
  | respondNotifyAll => exact inv_respondNotifyAll h hw ha
  | read =>
    simp only [View.run, code, Option.getD_some] at hs ⊢
    split
    · exact inv_read_blocked h (Or.inl ha) _
    · next hb =>
      rw [if_neg hb] at hs
      simp only at hs
      simp only [hs, Bool.not_false, Bool.and_true, List.isEmpty_iff] at hb
      exact inv_read h (Or.inl ⟨ha, rfl⟩) hb
  | readBatch =>
    simp only [View.run, code, Option.getD_some] at hs ⊢
    split
    · exact inv_read_blocked h (Or.inr ha) _
    · next hb =>
      rw [if_neg hb] at hs
      simp only at hs
      simp only [hs, Bool.not_false, Bool.and_true, List.isEmpty_iff] at hb
      exact inv_read h (Or.inr ⟨ha, rfl⟩) hb
  | takeRequest =>
    have hf := h.found
    simp only [Found, ha] at hf
    cases hr : v.data.requests with
    | nil => exact (hf hr).elim
    | cons q requests =>
      have hq : v.data.requests = [q] ++ requests := hr
      simpa [View.run, code, hr] using inv_takeRequests h (Or.inl ha) hq
  | takeRequests =>
    have hf := h.found
    simp only [Found, ha] at hf
    cases hr : v.data.requests with
    | nil => exact (hf hr).elim
    | cons q requests =>
      have hq : v.data.requests = (q :: requests) ++ [] := by rw [hr, List.append_nil]
      simpa [View.run, code, hr] using inv_takeRequests h (Or.inr ha) hq
  | shutdown => simp [View.run, code] at hs
  | shutdownRequests =>
    obtain ⟨hl, hp⟩ := line_wake_requests (v := v)
    obtain ⟨hd, hact⟩ := wake_data (v := v) (k := .hasRequestsOrShutdown)
    simp only [View.run, code]
    split
    · refine keep rfl ?_ ?_ ?_ rfl trivial <;> simp [Settled, ha, line, Control.pending]
    · refine keep hd ?_ ?_ hl hp ?_ <;> simp [Settled, ha, hact, Found]
  | shutdownResponses =>
    obtain ⟨x, hl, hx, -⟩ := line_wake_responses hw
    obtain ⟨hd, hact⟩ := wake_data (v := v) (k := .hasResponsesOrShutdown)
    simp only [View.run, code]
    split
    · refine keep rfl ?_ ?_ ?_ rfl trivial <;> simp [Settled, ha, line, Control.pending]
    · refine h.keep hd ?_ ?_ ⟨x, hl, hx⟩ ?_ <;> simp [Settled, ha, hact, Found]

theorem shutdown_of_next {b : Bool} (h : (v.run c b (code c v.data)).data.shutdown = false) :
    v.data.shutdown = false := by
  by_contra hs
  simp only [Bool.not_eq_false] at hs
  have hwake : ∀ k, (v.wake k).data.shutdown = true := fun k => by rw [wake_data.1, hs]
  cases c
  case takeResponse n => cases hr : v.data.responses <;> simp [View.run, code, hr, hs] at h
  case takeRequest | takeRequests =>
    cases hr : v.data.requests <;> simp [View.run, code, hr, hs] at h
  all_goals simp only [View.run, code, hs] at h
  all_goals repeat' split at h
  all_goals simp_all

/-- The steps allowed: responses in order, and sections in turn. -/
def Allowed (v : ChannelView Q A) : Prop :=
  InOrder v ∧ InTurn v

theorem inv_reachable (h : (View.machine (program Q A) Allowed .empty).Reachable v)
    (hs : v.data.shutdown = false) : Inv v := by
  induction h with
  | initial h0 =>
    rw [h0]
    exact inv_initial
  | @step v v' l hr hst ih =>
    obtain ⟨he, rfl⟩ := hst
    have hw := View.waits_reachable hr
    cases l with
    | enter c =>
      obtain ⟨ha, c₀, hc⟩ := he
      refine inv_enter (ih hs) ha ?_
      cases c₀ <;> first | exact hc | simp [program] at hc
    | resume k =>
      obtain ⟨ha, hne⟩ := he
      cases hk : v.woken k with
      | nil => exact (hne hk).elim
      | cons c l =>
        simp only [View.machine, hk] at hs ⊢
        exact inv_resume (ih hs) ha hk hw
    | run b =>
      obtain ⟨hne, ho, ht⟩ := he
      cases ha : v.active with
      | none => exact (hne ha).elim
      | some c =>
        simp only [View.machine, ha] at hs ⊢
        exact inv_run (ih (shutdown_of_next hs)) hw ha ho ht hs

variable [DecidableEq W]

omit [DecidableEq W] in
theorem correct_of_inv {s : State W Q A} (h : Inv s.view) : Correct s := by
  have hreceived : s.data.received.map Prod.fst = List.range s.data.received.length := h.received
  have hresponded : s.data.responded = s.data.received.map Prod.snd ++ s.data.responses :=
    h.responses
  have hread : (s.data.readLog ++ s.data.requests).map Prod.fst = List.range s.data.made :=
    h.requests
  have hle : s.data.responded.length ≤ s.data.readLog.length := h.responded
  constructor
  · intro i n a hi
    obtain ⟨hlt, heq⟩ := List.getElem?_eq_some_iff.mp hi
    have hn : n = i := by
      have hfst := congrArg (fun l => l[i]?) hreceived
      simpa [hlt, heq] using hfst
    subst hn
    refine ⟨?_, ?_⟩
    · rw [hresponded, List.getElem?_append_left (by simpa using hlt), List.getElem?_map, hi]
      rfl
    · have hres := congrArg List.length hresponded
      simp only [List.length_append, List.length_map] at hres
      have hlt' : n < s.data.readLog.length := by omega
      have hmade := congrArg List.length hread
      simp only [List.map_append, List.length_append, List.length_map, List.length_range] at hmade
      have hfst := congrArg (fun l => l[n]?) hread
      simp only [List.map_append] at hfst
      rw [List.getElem?_append_left (by simpa using hlt'), List.getElem?_map,
        List.getElem?_range (by omega), List.getElem?_eq_getElem hlt'] at hfst
      simp only [Option.map_some, Option.some.injEq] at hfst
      refine ⟨s.data.readLog[n].2, ?_⟩
      rw [List.getElem?_eq_getElem hlt', Option.some.injEq]
      exact Prod.ext hfst rfl
  · intro hq
    have hactive : s.view.active = none := by simp [Monitor.State.view, Monitor.State.active, hq]
    have hserved := (served_iff (by simp [Settled, hactive])).mp h.served
    have hline : line s.view = [] := by
      rw [line, hactive]
      simp [Monitor.State.view, Monitor.State.woken, hq]
    have hnil := congrArg List.length hserved
    simp only [hline, List.take_nil, List.length_nil, List.length_range'] at hnil
    have hres := congrArg List.length hresponded
    simp only [List.length_append, List.length_map] at hres
    change 0 = s.data.responses.length at hnil
    omega
  · exact h.failed

/-- Without a request out of turn, every requestor receives the response to its request. -/
theorem correct_of_inTurn {s t : State W Q A} {xs : List (State W Q A × Label W Q A)}
    (hi : (machine W Q A).Initial s) (hr : (machine W Q A).Run s xs t)
    (hx : ∀ p ∈ xs, Guarded InTurn p.1 p.2) (hs : t.data.shutdown = false) : Correct t := by
  have hreach := (Machine.Reachable.initial (M := (machine W Q A).restrict (Guarded InTurn))
    hi).run (hr.restrict hx)
  have hallowed : ((Monitor.machine (program Q A) .idle .empty).restrict
      (Guarded Allowed)).Reachable t :=
    hreach.restrict_restrict.mono fun _ _ hc w hw => ⟨hc.1 w hw, hc.2 w hw⟩
  exact correct_of_inv (inv_reachable (Monitor.view_reachable hallowed).2 hs)

/-- Threads 0 and 1 request, thread 2 reads both requests and responds to both. -/
def friendly : List (Label ℕ ℕ ℕ) :=
  .flatten [
    [.arrive 0 (.request 10), .resume 0, .arrive 1 (.request 20)],
    .replicate 3 (.run 0), [.resume 1], .replicate 3 (.run 1),
    [.arrive 2 .readBatch, .resume 2], .replicate 3 (.run 2),
    [.arrive 2 (.respondBatch [100, 200]), .resume 2], .replicate 5 (.run 2),
    [.resume 0], .replicate 3 (.run 0), [.resume 1], .replicate 3 (.run 1)]

theorem friendly_correct : ∃ t : State ℕ ℕ ℕ,
    t.data.received = [(0, 100), (1, 200)] ∧ Correct t := by
  have hexec : (((machine ℕ ℕ ℕ).restrict (Guarded InTurn)).exec
      (Monitor.initial .idle .empty) friendly).any (fun t =>
        decide (t.data.received = [(0, 100), (1, 200)] ∧ t.data.shutdown = false)) = true := by
    decide
  obtain ⟨t, ht, hp⟩ := (Option.any_eq_true ..).mp hexec
  obtain ⟨hreceived, hshutdown⟩ := of_decide_eq_true hp
  obtain ⟨xs, hr, -⟩ := Machine.exec_run ht
  obtain ⟨hrun, hx⟩ := hr.of_restrict
  exact ⟨t, hreceived, correct_of_inTurn rfl hrun hx hshutdown⟩

/-- Thread 0 requests and waits, thread 1 reads its request and responds, and thread 2 comes with
another request while thread 1 still holds the lock. -/
def stolen : List (Label ℕ ℕ ℕ) :=
  .flatten [
    [.arrive 0 (.request 10), .resume 0], .replicate 3 (.run 0),
    [.arrive 1 .read, .resume 1], .replicate 3 (.run 1),
    [.arrive 1 (.respond 100), .resume 1, .arrive 2 (.request 20)],
    .replicate 3 (.run 1), [.resume 2], .replicate 4 (.run 2)]

/-- The response to the only request that was read goes to a request that nobody has read. -/
theorem response_stolen : ¬ ∀ s : State ℕ ℕ ℕ, (machine ℕ ℕ ℕ).Reachable s →
    s.data.shutdown = false → Correct s := by
  intro h
  obtain ⟨s, hs, hp⟩ := Machine.exists_reachable_of_exec (M := machine ℕ ℕ ℕ) stolen
    (fun s => decide (s.data.received = [(1, 100)] ∧ s.data.readLog = [(0, 10)] ∧
      s.data.shutdown = false)) rfl (by decide)
  obtain ⟨hreceived, hread, hshutdown⟩ := of_decide_eq_true hp
  obtain ⟨-, q, hq⟩ := (h s hs hshutdown).matching 0 1 100 (by simp [hreceived])
  simp [hread] at hq

end Eventuals.RequestResponseChannel
