import Eventuals.Library.Transition
import Eventuals.Handle

/-! One HTTP transfer: what is created for it and released again, in every order of the callbacks
of the event loop, of libuv and of libcurl (`http.h`). What the handles of libcurl are set to, and
what is in a response, is left out. -/
namespace Eventuals.HTTP

open Transition (Machine)
open EventLoop (Entry Uv)

/-- A poll handle, and how often it was passed to `uv_close`. -/
structure Poll where
  uv : Uv
  closes : ℕ
  deriving DecidableEq

/-- The poll handles of a transfer, which are numbered as they are made. -/
structure Polls where
  handles : List Poll
  /-- `polls_` -/
  polls : List ℕ
  /-- The sockets that libcurl has reported, each with the poll handle assigned to it. -/
  sockets : List (ℕ × ℕ)
  deriving DecidableEq

/-- The callbacks of libcurl. -/
inductive Curl
  /-- `timer_function` -/
  | timer
  /-- `socket_function` with `CURL_POLL_IN`, `CURL_POLL_OUT` or both. -/
  | poll (socket : ℕ)
  /-- `socket_function` with `CURL_POLL_REMOVE`. -/
  | remove (socket : ℕ)
  deriving DecidableEq

namespace Polls

variable (p : Polls)

/-- `uv_poll_start()` -/
def start (i : ℕ) : Polls :=
  { p with handles := p.handles.modify i fun h => { h with uv := .active } }

/-- `uv_poll_stop()` and `uv_close()` -/
def close (i : ℕ) : Polls :=
  { p with handles := p.handles.modify i fun h => ⟨.closing, h.closes + 1⟩ }

/-- The callback that frees a handle. -/
def delete (i : ℕ) : Polls :=
  { p with handles := p.handles.modify i fun h => { h with uv := .closed } }

def poll (socket : ℕ) : Polls :=
  match p.sockets.lookup socket with
  | some i => p.start i
  | none =>
    { handles := p.handles ++ [⟨.active, 0⟩]
      polls := p.polls ++ [p.handles.length]
      sockets := p.sockets ++ [(socket, p.handles.length)] }

def remove (socket : ℕ) : Polls :=
  match p.sockets.lookup socket with
  | some i =>
    { p.close i with
      polls := p.polls.erase i
      sockets := p.sockets.filter fun a => a.1 ≠ socket }
  | none => p

def react : Curl → Polls
  | .timer => p
  | .poll socket => p.poll socket
  | .remove socket => p.remove socket

def curl (cs : List Curl) : Polls :=
  cs.foldl react p

/-- Every handle of `polls_` is closed, and the vector cleared. -/
def closeAll : Polls :=
  { p.polls.foldl close p with polls := [] }

/-- libcurl removes only a socket that it has reported. -/
def Accepts : Curl → Prop
  | .remove socket => (p.sockets.lookup socket).isSome = true
  | _ => True

end Polls

def Polls.Reports : Polls → List Curl → Prop
  | _, [] => True
  | p, c :: cs => p.Accepts c ∧ (p.react c).Reports cs

inductive Submission
  /-- `Start()`, once the handler could not be installed. -/
  | interrupted
  | start
  | fail
  | stop
  deriving DecidableEq

/-- The calls of `k_`. -/
inductive Call
  | start
  | fail
  | stop
  deriving DecidableEq

/-- A call of `k_`, with the timer and the flags at that time. -/
structure Made where
  call : Call
  timer : Uv
  started : Bool
  closed : Bool
  deriving DecidableEq

/-- The callbacks that the timer is closed with. -/
inductive OnClose
  | respond
  | stop
  deriving DecidableEq

inductive Check
  | blocked
  | started
  | completed
  | error
  /-- libuv or libcurl refuses a timer or an option. -/
  | options
  | destructor
  deriving DecidableEq

structure State where
  /-- Whether the certificate of the request can be encoded, if it has one. -/
  certificate : Option Bool
  entered : Option Entry
  registered : Bool
  installed : Bool
  triggered : Bool
  context : Option Submission
  interruptContext : Bool
  started : Bool
  completed : Bool
  closed : Bool
  error : ℕ
  timer : Uv
  onClose : Option OnClose
  polls : Polls
  /-- How often `curl_easy_cleanup` and `curl_multi_cleanup` were called. -/
  easy : ℕ
  multi : ℕ
  calls : List Made
  destroyed : Bool
  failed : Option Check
  deriving DecidableEq

def initial (registered : Bool) (certificate : Option Bool) : State where
  certificate := certificate
  entered := none
  registered := registered
  installed := false
  triggered := false
  context := none
  interruptContext := false
  started := false
  completed := false
  closed := false
  error := 0
  timer := .unused
  onClose := none
  polls := ⟨[], [], []⟩
  easy := 0
  multi := 0
  calls := []
  destroyed := false
  failed := none

/-- How a transfer ends: the result in the message of libcurl, if that is one that it is done, and
what libcurl calls while the easy handle is removed. -/
structure Finish where
  message : Option ℕ
  removal : List Curl
  deriving DecidableEq

/-- `CURLE_ABORTED_BY_CALLBACK` -/
def aborted : ℕ := 42

inductive Label
  | start
  | fail
  | stop
  | trigger
  /-- The event loop runs the callback of `context_`; whether everything can be set up, and what
  libcurl calls while the easy handle is added. -/
  | run (options : Bool) (added : List Curl)
  | interrupt (removal : List Curl)
  /-- The timer expires, or a poll handle has events: what libcurl calls in
  `curl_multi_socket_action`, and whether no transfer is running any more. -/
  | timer (action : List Curl) (finish : Option Finish)
  | poll (i : ℕ) (action : List Curl) (finish : Option Finish)
  /-- libuv has closed the timer, or a poll handle. -/
  | close
  | delete (i : ℕ)
  | destroy
  deriving DecidableEq

namespace State

variable (s : State)

def abort (c : Check) : State :=
  { s with failed := some c }

def call (c : Call) : State :=
  { s with calls := s.calls ++ [⟨c, s.timer, s.started, s.closed⟩] }

/-- `EventLoop::Submit()` with `context_`. -/
def submit (r : Submission) : State :=
  if s.context.isSome then s.abort .blocked else { s with context := some r }

def start : State :=
  if s.started || s.completed then s.abort .started
  else if s.registered && s.triggered then { s with entered := some .start }.submit .interrupted
  else { s with entered := some .start, installed := s.registered }.submit .start

def fail : State :=
  { s with entered := some .fail }.submit .fail

def stop : State :=
  { s with entered := some .stop }.submit .stop

def trigger : State :=
  if s.installed then
    if s.interruptContext then s.abort .blocked
    else { s with triggered := true, interruptContext := true }
  else { s with triggered := true }

/-- Starting a timer that is closing is refused, which nobody looks at. -/
def startTimer : State :=
  if s.timer = .inactive ∨ s.timer = .active then { s with timer := .active } else s

/-- libcurl calls back. -/
def curl (cs : List Curl) : State :=
  let s := if .timer ∈ cs then s.startTimer else s
  { s with polls := s.polls.curl cs }

def closeTimer (c : OnClose) : State :=
  { s with timer := .closing, onClose := some c }

/-- The transfer is set up in the event loop. -/
def begin (options : Bool) (added : List Curl) : State :=
  let s := { s with started := true }
  if s.error ≠ 0 then s.abort .error
  else if s.certificate = some false then
    let s := { s with completed := true }.call .fail
    { s with easy := s.easy + 1, multi := s.multi + 1 }
  else
    let s := { s with timer := .inactive }
    if options then s.curl added else s.abort .options

def run (options : Bool) (added : List Curl) : State :=
  match s.context with
  | none => s
  | some r =>
    let s := { s with context := none }
    match r with
    | .interrupted => if s.completed then s else { s with completed := true }.call .stop
    | .start => if s.completed then s else s.begin options added
    | .fail => s.call .fail
    | .stop => s.call .stop

/-- `check_multi_info` -/
def finish (f : Finish) : State :=
  let s := { s with completed := true, error := f.message.getD aborted }
  let s := s.curl f.removal
  { s with polls := s.polls.closeAll }.closeTimer .respond

/-- `curl_multi_socket_action` and what follows it. -/
def socketAction (action : List Curl) (finish : Option Finish) : State :=
  match finish with
  | none => s.curl action
  | some f => (s.curl action).finish f

/-- What the interrupt handler has submitted. -/
def interrupt (removal : List Curl) : State :=
  let s := { s with interruptContext := false }
  if ¬ s.started then
    if s.completed ∨ s.error ≠ 0 then s.abort .completed
    else { s with completed := true }.call .stop
  else if s.completed then s
  else if s.error ≠ 0 then s.abort .error
  else
    let s := { s with completed := true }
    ({ s with polls := s.polls.closeAll }.closeTimer .stop).curl removal

/-- The callback that the timer was closed with. -/
def close : State :=
  match s.onClose with
  | none => s
  | some c =>
    let s := { s with closed := true, timer := .closed, onClose := none }
    match c with
    | .respond => if s.error = 0 then s.call .start else s.call .fail
    | .stop => s.call .stop

/-- The destructor, and those of `easy_` and `multi_`. -/
def destroy : State :=
  if s.started && !s.closed then s.abort .destructor
  else { s with destroyed := true, easy := s.easy + 1, multi := s.multi + 1 }

def next : Label → State
  | .start => s.start
  | .fail => s.fail
  | .stop => s.stop
  | .trigger => s.trigger
  | .run options added => s.run options added
  | .interrupt removal => s.interrupt removal
  | .timer action finish => { s with timer := .inactive }.socketAction action finish
  | .poll _ action finish => s.socketAction action finish
  | .close => s.close
  | .delete i => { s with polls := s.polls.delete i }
  | .destroy => s.destroy

end State

namespace Polls

/-- libcurl reports that each socket which is still assigned is removed. -/
def Removes (p : Polls) (removal : List Curl) : Prop :=
  p.Reports removal ∧ (p.curl removal).sockets = []

/-- What libcurl may do in `curl_multi_socket_action`. -/
def Acts (p : Polls) (action : List Curl) : Option Finish → Prop
  | none => p.Reports action
  | some f => p.Reports action ∧ (p.curl action).Removes f.removal

end Polls

/-- The continuation may be destroyed once it has called `k_` or if it was never called; that waits
for the callbacks that have been submitted. -/
def State.Ready (s : State) : Label → Prop
  | .start | .fail | .stop => s.entered = none ∧ s.destroyed = false
  | .trigger => s.triggered = false ∧ s.destroyed = false
  | .run _ added => s.context.isSome = true ∧ s.polls.Reports added
  | .interrupt removal => s.interruptContext = true ∧ s.polls.Removes removal
  | .timer action finish => s.timer = .active ∧ s.polls.Acts action finish
  | .poll i action finish =>
    (s.polls.handles[i]?).any (·.uv = .active) = true ∧ s.polls.Acts action finish
  | .close => s.timer = .closing
  | .delete i => (s.polls.handles[i]?).any (·.uv = .closing) = true
  | .destroy => s.destroyed = false ∧ s.context = none ∧ s.interruptContext = false ∧
      (s.entered = none ∨ s.calls ≠ [])

def machine : Machine State Label where
  Initial s := ∃ registered certificate, s = initial registered certificate
  Enabled s l := s.failed = none ∧ s.Ready l
  next s l := s.next l

section Decidable

instance (p : Polls) : DecidablePred p.Accepts
  | .remove socket => inferInstanceAs (Decidable ((p.sockets.lookup socket).isSome = true))
  | .timer | .poll _ => .isTrue trivial

instance Polls.decidableReports : (p : Polls) → (cs : List Curl) → Decidable (p.Reports cs)
  | _, [] => .isTrue trivial
  | p, c :: cs =>
    have := decidableReports (p.react c) cs
    inferInstanceAs (Decidable (p.Accepts c ∧ (p.react c).Reports cs))

instance (p : Polls) : DecidablePred p.Removes := fun removal =>
  inferInstanceAs (Decidable (p.Reports removal ∧ (p.curl removal).sockets = []))

instance (p : Polls) (action : List Curl) : DecidablePred (p.Acts action)
  | none => inferInstanceAs (Decidable (p.Reports action))
  | some f => inferInstanceAs (Decidable (p.Reports action ∧ (p.curl action).Removes f.removal))

instance (s : State) : DecidablePred s.Ready
  | .start | .fail | .stop =>
    inferInstanceAs (Decidable (s.entered = none ∧ s.destroyed = false))
  | .trigger => inferInstanceAs (Decidable (s.triggered = false ∧ s.destroyed = false))
  | .run _ added =>
    inferInstanceAs (Decidable (s.context.isSome = true ∧ s.polls.Reports added))
  | .interrupt removal =>
    inferInstanceAs (Decidable (s.interruptContext = true ∧ s.polls.Removes removal))
  | .timer action finish =>
    inferInstanceAs (Decidable (s.timer = .active ∧ s.polls.Acts action finish))
  | .poll i action finish =>
    inferInstanceAs (Decidable
      ((s.polls.handles[i]?).any (·.uv = .active) = true ∧ s.polls.Acts action finish))
  | .close => inferInstanceAs (Decidable (s.timer = .closing))
  | .delete i =>
    inferInstanceAs (Decidable ((s.polls.handles[i]?).any (·.uv = .closing) = true))
  | .destroy =>
    inferInstanceAs (Decidable (s.destroyed = false ∧ s.context = none ∧
      s.interruptContext = false ∧ (s.entered = none ∨ s.calls ≠ [])))

instance (s : State) (l : Label) : Decidable (machine.Enabled s l) :=
  inferInstanceAs (Decidable (s.failed = none ∧ s.Ready l))

end Decidable

end Eventuals.HTTP
