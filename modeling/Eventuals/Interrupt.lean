import Mathlib.Logic.Function.Basic
import Eventuals.Library.Transition

/-! `Interrupt` and its handlers, one atomic step at a time (`interrupt.h`). The current handler
and the state of each handler are words of their own. -/
namespace Eventuals.Interrupt

open Transition (Machine)

/-- What `handler_` points to. -/
inductive Pointer
  | null
  | placeholder
  | handler (h : ℕ)
  deriving DecidableEq

/-- `Handler::State`. `EXECUTED` is only ever returned. -/
inductive Word
  | uninstalled
  | installed
  | uninstalling
  deriving DecidableEq

inductive Check
  | callback
  | uninstalled
  | triggered
  | install
  | uninstalling
  | uninstall
  | restore
  | installed
  | trigger
  | executing
  | invoke
  deriving DecidableEq

/-- Where an `Install()` stands, or an `InstallOrExecuteIfTriggered()` if it is to `execute`. -/
inductive Installer
  | idle
  | loading (h : ℕ) (execute : Bool)
  | checking (h : ℕ) (execute : Bool) (stored : Pointer)
  /-- About to compare and exchange `handler_`. -/
  | swapping (h : ℕ) (execute : Bool) (stored : Pointer)
  /-- About to set its own handler to `INSTALLED`. -/
  | marking (h : ℕ) (execute : Bool) (stored : Pointer) (installed : Bool)
  /-- About to read the state of the handler `g` that it has replaced. -/
  | reading (h : ℕ) (execute : Bool) (g : ℕ) (installed : Bool)
  | replacing (h : ℕ) (execute : Bool) (g : ℕ) (installed : Bool) (state : Word)
  | executing (h : ℕ)
  | invoking (h : ℕ)
  deriving DecidableEq

/-- Where an `Uninstall()` or a `Trigger()` stands. -/
inductive Thread
  | idle
  | loading (h : ℕ)
  /-- About to set its handler to `UNINSTALLING`. -/
  | updating (h : ℕ)
  /-- About to compare and exchange `handler_`. -/
  | uninstalling (h : ℕ)
  | finishing (h : ℕ)
  | releasing (h : ℕ)
  /-- About to set its handler back to `INSTALLED`. -/
  | restoring (h : ℕ)
  | waiting (h : ℕ)
  /-- `Trigger()`, about to exchange `handler_`. -/
  | exchanging
  | taken (h : ℕ)
  /-- About to set the handler to `UNINSTALLED`. -/
  | setting (h : ℕ)
  | invoking (h : ℕ)
  deriving DecidableEq

structure State where
  pointer : Pointer
  word : ℕ → Word
  /-- The handler holds a callback. -/
  callback : ℕ → Bool
  /-- There is one installer at a time. -/
  installer : Installer
  threads : ℕ → Thread
  failed : Option Check
  /-- What follows is history. Handlers whose callback `Trigger()` has run. -/
  ran : List ℕ
  /-- Handlers whose callback `InstallOrExecuteIfTriggered()` has run. -/
  executed : List ℕ
  /-- What the calls of `Install()` returned. -/
  results : List Bool
  /-- Handlers that were not `UNINSTALLED` when their `Install()` returned false. -/
  left : List ℕ
  /-- An `Uninstall()` has returned since the handler was last set to `INSTALLED`. -/
  released : ℕ → Bool
  /-- Handlers whose callback `Trigger()` has run after that. -/
  late : List ℕ

inductive Label
  /-- `Install()`, with a callback or without. -/
  | install (h : ℕ) (fresh execute : Bool)
  /-- The next step of the installer, where a weak compare and exchange may fail. -/
  | step (spurious : Bool)
  | uninstall (t h : ℕ)
  | trigger (t : ℕ)
  | thread (t : ℕ) (spurious : Bool)

namespace State

variable (s : State)

def goto (t : ℕ) (thread : Thread) : State :=
  { s with threads := Function.update s.threads t thread }

def setWord (h : ℕ) (word : Word) : State :=
  { s with word := Function.update s.word h word }

def fail (c : Check) : State :=
  { s with failed := some c }

def install (h : ℕ) (fresh execute : Bool) : State :=
  if fresh then
    { s with callback := Function.update s.callback h true, installer := .loading h execute }
  else if s.callback h then { s with installer := .loading h execute }
  else s.fail .callback

def installReturns (h : ℕ) (execute installed : Bool) : State :=
  { s with
    installer := if installed = false ∧ execute = true then .executing h else .idle
    results := s.results ++ [installed]
    left := if installed = false ∧ s.word h ≠ .uninstalled then s.left ++ [h] else s.left }

/-- `Handler::Invoke()`, up to the call of the callback. -/
def takeCallback (h : ℕ) : State :=
  { s with callback := Function.update s.callback h false }

/-- `reload` says whether an `Update()` that fails stores the state that it found. -/
def step (reload spurious : Bool) : State :=
  match s.installer with
  | .idle => s
  | .loading h execute =>
    match s.pointer with
    | .null => s.installReturns h execute false
    | .placeholder => { s with installer := .checking h execute .placeholder }
    | .handler g =>
      if g = h then s.installReturns h execute true
      else { s with installer := .checking h execute (.handler g) }
  | .checking h execute stored =>
    if s.word h = .uninstalled then { s with installer := .swapping h execute stored }
    else s.fail .uninstalled
  | .swapping h execute stored =>
    if s.pointer = stored ∧ spurious = false then
      { s with pointer := .handler h, installer := .marking h execute stored true }
    else if s.pointer = .null then { s with installer := .marking h execute .null false }
    else s.fail .triggered
  | .marking h execute stored installed =>
    if s.word h = .uninstalled then
      let marked :=
        { s.setWord h .installed with released := Function.update s.released h false }
      match stored with
      | .handler g => { marked with installer := .reading h execute g installed }
      -- The placeholder is `UNINSTALLED` and stays so.
      | _ => marked.installReturns h execute installed
    else s.fail .install
  | .reading h execute g installed =>
    { s with installer := .replacing h execute g installed (s.word g) }
  | .replacing h execute g installed state =>
    if s.word g = state then (s.setWord g .uninstalled).installReturns h execute installed
    else if reload then { s with installer := .replacing h execute g installed (s.word g) }
    else s
  | .executing h =>
    if s.word h = .uninstalled then { s with installer := .invoking h } else s.fail .executing
  | .invoking h =>
    if s.callback h then
      { s.takeCallback h with installer := .idle, executed := s.executed ++ [h] }
    else s.fail .invoke

/-- The next step of thread `t` from where it stands. -/
def threadStep (t : ℕ) (spurious : Bool) : Thread → State
  | .idle => s
  | .loading h => if s.word h = .installed then s.goto t (.updating h) else s.goto t (.waiting h)
  | .updating h =>
    if s.word h = .installed then (s.setWord h .uninstalling).goto t (.uninstalling h)
    else s.goto t (.waiting h)
  | .uninstalling h =>
    if s.pointer = .handler h ∧ spurious = false then
      { s.goto t (.finishing h) with pointer := .placeholder }
    else s.goto t (.restoring h)
  | .finishing h =>
    if s.word h = .uninstalling then s.goto t (.releasing h) else s.fail .uninstalling
  | .releasing h =>
    if s.word h = .uninstalling then (s.setWord h .uninstalled).goto t (.waiting h)
    else s.fail .uninstall
  | .restoring h =>
    if s.word h = .uninstalling then (s.setWord h .installed).goto t (.waiting h)
    else s.fail .restore
  | .waiting h =>
    if s.word h = .uninstalled then
      { s.goto t .idle with released := Function.update s.released h true }
    else s
  | .exchanging =>
    match s.pointer with
    | .handler h => { s.goto t (.taken h) with pointer := .null }
    | _ => { s.goto t .idle with pointer := .null }
  | .taken h => if s.word h = .installed then s.goto t (.setting h) else s.fail .installed
  | .setting h =>
    if s.word h = .installed then (s.setWord h .uninstalled).goto t (.invoking h)
    else s.fail .trigger
  | .invoking h =>
    if s.callback h then
      { (s.takeCallback h).goto t .idle with
        ran := s.ran ++ [h], late := if s.released h then s.late ++ [h] else s.late }
    else s.fail .invoke

def thread (t : ℕ) (spurious : Bool) : State :=
  s.threadStep t spurious (s.threads t)

/-- The handlers are constructed with a callback or without. -/
def init (callback : ℕ → Bool) : State where
  pointer := .placeholder
  word _ := .uninstalled
  callback := callback
  installer := .idle
  threads _ := .idle
  failed := none
  ran := []
  executed := []
  results := []
  left := []
  released _ := false
  late := []

end State

/-- The thread is not waiting for somebody else. -/
def Ready (s : State) : Thread → Prop
  | .idle => False
  | .waiting h => s.word h = .uninstalled
  | _ => True

/-- A `CHECK` that fails ends the program. -/
def Enabled (s : State) : Label → Prop
  | .install .. => s.failed = none ∧ s.installer = .idle
  | .step _ => s.failed = none ∧ s.installer ≠ .idle
  | .uninstall t _ | .trigger t => s.failed = none ∧ s.threads t = .idle
  | .thread t _ => s.failed = none ∧ Ready s (s.threads t)

def next (reload : Bool) (s : State) : Label → State
  | .install h fresh execute => s.install h fresh execute
  | .step spurious => s.step reload spurious
  | .uninstall t h => s.goto t (.loading h)
  | .trigger t => s.goto t .exchanging
  | .thread t spurious => s.thread t spurious

def machine (reload : Bool) : Machine State Label where
  Initial s := ∃ callback, s = .init callback
  Enabled := Enabled
  next := next reload

section Executing

instance (s : State) : (thread : Thread) → Decidable (Ready s thread)
  | .idle => inferInstanceAs (Decidable False)
  | .waiting h => inferInstanceAs (Decidable (s.word h = .uninstalled))
  | .loading _ | .updating _ | .uninstalling _ | .finishing _ | .releasing _ | .restoring _
  | .exchanging | .taken _ | .setting _ | .invoking _ => inferInstanceAs (Decidable True)

instance (s : State) : (l : Label) → Decidable (Enabled s l)
  | .install .. => inferInstanceAs (Decidable (s.failed = none ∧ s.installer = .idle))
  | .step _ => inferInstanceAs (Decidable (s.failed = none ∧ s.installer ≠ .idle))
  | .uninstall t _ | .trigger t =>
    inferInstanceAs (Decidable (s.failed = none ∧ s.threads t = .idle))
  | .thread t _ => inferInstanceAs (Decidable (s.failed = none ∧ Ready s (s.threads t)))

instance (reload : Bool) (s : State) (l : Label) : Decidable ((machine reload).Enabled s l) :=
  inferInstanceAs (Decidable (Enabled s l))

end Executing

end Eventuals.Interrupt
