import Eventuals.Interrupt

/-! An `Interrupt` whose operations are executed one after the other. -/
namespace Eventuals.Interrupt

inductive Op
  | install (h : ℕ) (fresh execute : Bool)
  | uninstall (t h : ℕ)
  | trigger (t : ℕ)

section Executing

variable (reload : Bool)

/-- The installer takes its steps until it is done, `n` at most. -/
def State.finishInstall : ℕ → State → State
  | 0, s => s
  | n + 1, s =>
    if s.failed = none ∧ s.installer ≠ .idle then finishInstall n (s.step reload false) else s

/-- Thread `t` takes its steps until it is done or blocked, `n` at most. -/
def State.finishThread (t : ℕ) : ℕ → State → State
  | 0, s => s
  | n + 1, s =>
    if s.failed = none ∧ Ready s (s.threads t) then finishThread t n (s.thread t false) else s

def State.perform (s : State) : Op → State
  | .install h fresh execute => (s.install h fresh execute).finishInstall reload 8
  | .uninstall t h => (s.goto t (.loading h)).finishThread t 8
  | .trigger t => (s.goto t .exchanging).finishThread t 8

def State.performAll (s : State) (ops : List Op) : State :=
  ops.foldl (State.perform reload) s

end Executing

/-- What an `Interrupt` is for. -/
structure Spec where
  triggered : Bool
  /-- The handler that was installed last, until it is uninstalled. -/
  current : Option ℕ
  /-- The handlers that hold a callback. -/
  callback : ℕ → Bool
  /-- The handlers whose callback `Trigger()` has run. -/
  ran : List ℕ
  /-- The handlers whose callback `InstallOrExecuteIfTriggered()` has run. -/
  executed : List ℕ
  /-- What the calls of `Install()` returned. -/
  results : List Bool

namespace Spec

def init (callback : ℕ → Bool) : Spec where
  triggered := false
  current := none
  callback := callback
  ran := []
  executed := []
  results := []

/-- A handler is installed with a callback or when it holds one. -/
def Allowed (a : Spec) : Op → Prop
  | .install h fresh _ => fresh = true ∨ a.callback h = true
  | _ => True

def give (a : Spec) (h : ℕ) (fresh : Bool) : Spec :=
  if fresh then { a with callback := Function.update a.callback h true } else a

def take (a : Spec) (h : ℕ) : Spec :=
  { a with callback := Function.update a.callback h false }

def perform (a : Spec) : Op → Spec
  | .install h fresh execute =>
    if a.triggered then
      if execute then
        { (a.give h fresh).take h with
          executed := a.executed ++ [h], results := a.results ++ [false] }
      else { a.give h fresh with results := a.results ++ [false] }
    else { a.give h fresh with current := some h, results := a.results ++ [true] }
  | .uninstall _ h => if a.current = some h then { a with current := none } else a
  | .trigger _ =>
    match a.current with
    | some h => { a.take h with triggered := true, current := none, ran := a.ran ++ [h] }
    | none => { a with triggered := true }

def performAll (a : Spec) (ops : List Op) : Spec :=
  ops.foldl perform a

def AllowedAll (a : Spec) : List Op → Prop
  | [] => True
  | op :: ops => a.Allowed op ∧ (a.perform op).AllowedAll ops

end Spec

/-- The words of the code, between two operations, say what the specification says. -/
structure Agrees (s : State) (a : Spec) : Prop where
  checks : s.failed = none
  installer : s.installer = .idle
  threads : ∀ t, s.threads t = .idle
  null : s.pointer = .null ↔ a.triggered = true
  pointer : ∀ h, s.pointer = .handler h ↔ a.current = some h
  installed : ∀ h, s.word h = if a.current = some h then .installed else .uninstalled
  callback : s.callback = a.callback
  armed : ∀ h, a.current = some h → a.callback h = true
  ran : s.ran = a.ran
  executed : s.executed = a.executed
  results : s.results = a.results

variable {s u : State} {a : Spec} {t h g n : ℕ} {reload fresh execute : Bool}

section Steps

theorem goto_idle (ht : s.threads t = .idle) : s.goto t .idle = s := by
  have hi : Function.update s.threads t .idle = s.threads := by
    rw [← ht]
    exact Function.update_eq_self t s.threads
  rw [State.goto, hi]

theorem finishThread_step (x : Thread) (u : State) (hf : s.failed = none) (hr : Ready s x)
    (hs : (s.goto t x).threadStep t false x = u) :
    (s.goto t x).finishThread t (n + 1) = u.finishThread t n := by
  have hx : (s.goto t x).threads t = x := Function.update_self ..
  rw [State.finishThread, State.thread, hx, hs]
  exact if_pos ⟨hf, by cases x <;> exact hr⟩

theorem finishThread_idle (hs : s.threads t = .idle) :
    (s.goto t .idle).finishThread t n = s := by
  have hx : (s.goto t .idle).threads t = .idle := Function.update_self ..
  have hfinish : (s.goto t .idle).finishThread t n = s.goto t .idle := by
    cases n with
    | zero => rfl
    | succ n => exact if_neg fun hr => by simp [hx, Ready] at hr
  exact hfinish.trans (goto_idle hs)

theorem perform_uninstall (hs : Agrees s a) (hc : a.current = some h) :
    s.perform reload (.uninstall t h) =
      { s with
        pointer := .placeholder, word := Function.update s.word h .uninstalled
        released := Function.update s.released h true } := by
  have hp : s.pointer = .handler h := (hs.pointer h).mpr hc
  have hw : s.word h = .installed := by simp [hs.installed, hc]
  rw [State.perform,
    finishThread_step (.loading h) (s.goto t (.updating h)) (by exact hs.checks) trivial
      (by simp [State.threadStep, State.goto, hw]),
    finishThread_step (.updating h) ((s.setWord h .uninstalling).goto t (.uninstalling h))
      (by exact hs.checks)
      trivial (by simp [State.threadStep, State.goto, State.setWord, hw]),
    finishThread_step (.uninstalling h)
      (State.goto { s.setWord h .uninstalling with pointer := .placeholder } t (.finishing h))
      (by exact hs.checks) trivial (by simp [State.threadStep, State.goto, State.setWord, hp]),
    finishThread_step (.finishing h)
      (State.goto { s.setWord h .uninstalling with pointer := .placeholder } t (.releasing h))
      (by exact hs.checks) trivial (by simp [State.threadStep, State.goto, State.setWord]),
    finishThread_step (.releasing h)
      (State.goto { s.setWord h .uninstalled with pointer := .placeholder } t (.waiting h))
      (by exact hs.checks) trivial (by simp [State.threadStep, State.goto, State.setWord]),
    finishThread_step (.waiting h)
      (State.goto { s.setWord h .uninstalled with
        pointer := .placeholder, released := Function.update s.released h true } t .idle)
      (by exact hs.checks) (by simp [Ready, State.setWord])
      (by simp [State.threadStep, State.goto, State.setWord])]
  exact finishThread_idle (hs.threads t)

theorem perform_uninstall_other (hs : Agrees s a) (hc : a.current ≠ some h) :
    s.perform reload (.uninstall t h) =
      { s with released := Function.update s.released h true } := by
  have hw : s.word h = .uninstalled := by simp [hs.installed, hc]
  rw [State.perform,
    finishThread_step (.loading h) (s.goto t (.waiting h)) (by exact hs.checks) trivial
      (by simp [State.threadStep, State.goto, hw]),
    finishThread_step (.waiting h)
      (State.goto { s with released := Function.update s.released h true } t .idle)
      (by exact hs.checks) hw (by simp [State.threadStep, State.goto, hw])]
  exact finishThread_idle (hs.threads t)

theorem perform_trigger (hs : Agrees s a) (hc : a.current = some h) :
    s.perform reload (.trigger t) =
      { s with
        pointer := .null, word := Function.update s.word h .uninstalled
        callback := Function.update s.callback h false, ran := s.ran ++ [h]
        late := if s.released h then s.late ++ [h] else s.late } := by
  have hp : s.pointer = .handler h := (hs.pointer h).mpr hc
  have hw : s.word h = .installed := by simp [hs.installed, hc]
  have hcallback : s.callback h = true := hs.callback ▸ hs.armed h hc
  rw [State.perform,
    finishThread_step .exchanging (State.goto { s with pointer := .null } t (.taken h))
      (by exact hs.checks)
      trivial (by simp [State.threadStep, State.goto, hp]),
    finishThread_step (.taken h) (State.goto { s with pointer := .null } t (.setting h))
      (by exact hs.checks)
      trivial (by simp [State.threadStep, State.goto, hw]),
    finishThread_step (.setting h)
      (State.goto { s.setWord h .uninstalled with pointer := .null } t (.invoking h))
      (by exact hs.checks)
      trivial (by simp [State.threadStep, State.goto, State.setWord, hw]),
    finishThread_step (.invoking h)
      (State.goto { s.setWord h .uninstalled with
        pointer := .null, callback := Function.update s.callback h false, ran := s.ran ++ [h]
        late := if s.released h then s.late ++ [h] else s.late } t .idle)
      (by exact hs.checks) trivial
      (by simp [State.threadStep, State.goto, State.setWord, State.takeCallback, hcallback]; rfl)]
  exact finishThread_idle (hs.threads t)

theorem perform_trigger_none (hs : Agrees s a) (hc : a.current = none) :
    s.perform reload (.trigger t) = { s with pointer := .null } := by
  have hp : ∀ h, s.pointer ≠ .handler h := fun h hp => by
    simp [(hs.pointer h).mp hp] at hc
  have hx : (s.goto t .exchanging).threadStep t false .exchanging =
      State.goto { s with pointer := .null } t .idle := by
    cases hy : s.pointer with
    | handler h => exact absurd hy (hp h)
    | null => simp [State.threadStep, State.goto, hy]
    | placeholder => simp [State.threadStep, State.goto, hy]
  rw [State.perform, finishThread_step .exchanging _ (by exact hs.checks) trivial hx]
  exact finishThread_idle (hs.threads t)

theorem install_armed (hf : fresh = true ∨ s.callback h = true) :
    s.install h fresh execute =
      { s with
        callback := if fresh then Function.update s.callback h true else s.callback
        installer := .loading h execute } := by
  cases fresh with
  | true => rfl
  | false =>
    have hc : s.callback h = true := hf.resolve_left (by simp)
    simp [State.install, hc]

/-- `Install()` when the interrupt has been triggered. -/
theorem perform_install_triggered (hs : Agrees s a) (ht : a.triggered = true)
    (hf : fresh = true ∨ s.callback h = true) (hc : a.current = none) :
    s.perform reload (.install h fresh execute) =
      { s with
        callback :=
          Function.update (if fresh then Function.update s.callback h true else s.callback) h
            !execute
        executed := if execute then s.executed ++ [h] else s.executed
        results := s.results ++ [false] } := by
  have hp : s.pointer = .null := hs.null.mpr ht
  have hw : s.word h = .uninstalled := by simp [hs.installed, hc]
  have hi := hs.installer
  have hfailed := hs.checks
  have harmed : (if fresh then Function.update s.callback h true else s.callback) h = true := by
    rcases hf with rfl | hx
    · simp
    · cases fresh <;> simp [hx]
  rw [State.perform, install_armed hf]
  cases execute <;>
    simp [State.finishInstall, State.step, State.installReturns, State.takeCallback, hp, hw, hi,
      hfailed, harmed]

theorem perform_install_current (hs : Agrees s a) (hc : a.current = some h)
    (hf : fresh = true ∨ s.callback h = true) :
    s.perform reload (.install h fresh execute) =
      { s with
        callback := if fresh then Function.update s.callback h true else s.callback
        results := s.results ++ [true] } := by
  have hp : s.pointer = .handler h := (hs.pointer h).mpr hc
  have hi := hs.installer
  have hfailed := hs.checks
  rw [State.perform, install_armed hf]
  simp [State.finishInstall, State.step, State.installReturns, hp, hi, hfailed]

theorem perform_install_free (hs : Agrees s a) (ht : a.triggered = false) (hc : a.current = none)
    (hf : fresh = true ∨ s.callback h = true) :
    s.perform reload (.install h fresh execute) =
      { s with
        pointer := .handler h, word := Function.update s.word h .installed
        callback := if fresh then Function.update s.callback h true else s.callback
        released := Function.update s.released h false, results := s.results ++ [true] } := by
  have hp : s.pointer = .placeholder := by
    cases hx : s.pointer with
    | null => simp [hs.null.mp hx] at ht
    | placeholder => rfl
    | handler g => simp [(hs.pointer g).mp hx] at hc
  have hw : s.word h = .uninstalled := by simp [hs.installed, hc]
  have hi := hs.installer
  have hfailed := hs.checks
  rw [State.perform, install_armed hf]
  simp [State.finishInstall, State.step, State.setWord, State.installReturns, hp, hw, hi, hfailed]

theorem perform_install_replaces (hs : Agrees s a) (hc : a.current = some g) (hgh : g ≠ h)
    (hf : fresh = true ∨ s.callback h = true) :
    s.perform reload (.install h fresh execute) =
      { s with
        pointer := .handler h
        word := Function.update (Function.update s.word h .installed) g .uninstalled
        callback := if fresh then Function.update s.callback h true else s.callback
        released := Function.update s.released h false, results := s.results ++ [true] } := by
  have hp : s.pointer = .handler g := (hs.pointer g).mpr hc
  have hw : s.word h = .uninstalled := by simp [hs.installed, hc, hgh]
  have hi := hs.installer
  have hfailed := hs.checks
  rw [State.perform, install_armed hf]
  simp [State.finishInstall, State.step, State.setWord, State.installReturns, hp, hw, hi, hfailed,
    hgh]

end Steps

section Correct

theorem Agrees.current_none (hs : Agrees s a) (ht : a.triggered = true) : a.current = none := by
  cases hc : a.current with
  | none => rfl
  | some h =>
    have hp := (hs.pointer h).mpr hc
    simp [hs.null.mpr ht] at hp

theorem give_eq (a : Spec) (h : ℕ) (fresh : Bool) :
    a.give h fresh =
      { a with
        callback := if fresh then Function.update a.callback h true else a.callback } := by
  cases fresh <;> rfl

theorem armed_give (ha : ∀ k, a.current = some k → a.callback k = true) {k : ℕ}
    (hk : k = h ∧ (fresh = true ∨ a.callback h = true) ∨ a.current = some k) :
    (if fresh then Function.update a.callback h true else a.callback) k = true := by
  cases fresh with
  | false => exact hk.elim (fun hx => hx.1 ▸ hx.2.resolve_left (by simp)) (ha k)
  | true =>
    by_cases hkh : k = h
    · simp [hkh]
    · simpa [hkh] using ha k (hk.resolve_left fun hx => hkh hx.1)

theorem agrees_install (hs : Agrees s a) (hf : fresh = true ∨ a.callback h = true) :
    Agrees (s.perform reload (.install h fresh execute))
      (a.perform (.install h fresh execute)) := by
  have hf' : fresh = true ∨ s.callback h = true := hs.callback ▸ hf
  cases ht : a.triggered with
  | true =>
    have hc := hs.current_none ht
    have hwords : ∀ k, s.word k = .uninstalled := fun k => by simp [hs.installed, hc]
    have hnull : s.pointer = .null := hs.null.mpr ht
    rw [perform_install_triggered hs ht hf' hc]
    have ha : a.perform (.install h fresh execute) =
        { a with
          callback := Function.update
            (if fresh then Function.update a.callback h true else a.callback) h !execute
          executed := if execute then a.executed ++ [h] else a.executed
          results := a.results ++ [false] } := by
      have harmed : (if fresh then Function.update a.callback h true else a.callback) h = true :=
        armed_give hs.armed (Or.inl ⟨rfl, hf⟩)
      have hsame : Function.update (if fresh then Function.update a.callback h true else a.callback)
          h true = if fresh then Function.update a.callback h true else a.callback :=
        Function.update_eq_self_iff.mpr harmed.symm
      cases execute <;> simp [Spec.perform, ht, give_eq, Spec.take, hsame]
    rw [ha]
    exact { hs with
      callback := by simp only [hs.callback]
      armed := fun k hk => by simp [hc] at hk
      executed := by simp only [hs.executed]
      results := by simp only [hs.results] }
  | false =>
    have ha : a.perform (.install h fresh execute) =
        { a with
          callback := if fresh then Function.update a.callback h true else a.callback
          current := some h, results := a.results ++ [true] } := by
      simp [Spec.perform, ht, give_eq]
    rw [ha]
    cases hc : a.current with
    | none =>
      rw [perform_install_free hs ht hc hf']
      have hwords : ∀ k, s.word k = .uninstalled := fun k => by simp [hs.installed, hc]
      exact { hs with
        null := by simp [ht]
        pointer := by simp
        installed := fun k => by
          by_cases hk : k = h
          · simp [hk]
          · simp [hk, Ne.symm hk, hwords]
        callback := by simp only [hs.callback]
        armed := fun k hk => armed_give hs.armed (Or.inl ⟨(Option.some.inj hk).symm, hf⟩)
        results := by simp only [hs.results] }
    | some g =>
      by_cases hgh : g = h
      · subst hgh
        rw [perform_install_current hs hc hf']
        exact { hs with
          pointer := fun k => by simp [hs.pointer, hc]
          installed := fun k => by simp [hs.installed, hc]
          callback := by simp only [hs.callback]
          armed := fun k hk => armed_give hs.armed (Or.inl ⟨(Option.some.inj hk).symm, hf⟩)
          results := by simp only [hs.results] }
      · rw [perform_install_replaces hs hc hgh hf']
        exact { hs with
          null := by simp [ht]
          pointer := by simp
          installed := fun k => by
            by_cases hk : k = h
            · simp [hk, Ne.symm hgh]
            · by_cases hkg : k = g
              · simp [hkg, Ne.symm hgh]
              · simp [hk, hkg, Ne.symm hk, Ne.symm hkg, hs.installed, hc]
          callback := by simp only [hs.callback]
          armed := fun k hk => armed_give hs.armed (Or.inl ⟨(Option.some.inj hk).symm, hf⟩)
          results := by simp only [hs.results] }

theorem agrees_uninstall (hs : Agrees s a) :
    Agrees (s.perform reload (.uninstall t h)) (a.perform (.uninstall t h)) := by
  by_cases hc : a.current = some h
  · rw [perform_uninstall hs hc, show a.perform (.uninstall t h) = { a with current := none } from
      if_pos hc]
    have ht : a.triggered ≠ true := fun ht => by simp [hs.current_none ht] at hc
    exact { hs with
      null := by simp [ht]
      pointer := by simp
      installed := fun k => by
        by_cases hk : k = h
        · simp [hk]
        · simp [hk, Ne.symm hk, hs.installed, hc]
      armed := by simp }
  · rw [perform_uninstall_other hs hc, show a.perform (.uninstall t h) = a from if_neg hc]
    exact { hs with }

theorem agrees_trigger (hs : Agrees s a) :
    Agrees (s.perform reload (.trigger t)) (a.perform (.trigger t)) := by
  cases hc : a.current with
  | none =>
    rw [perform_trigger_none hs hc, show a.perform (.trigger t) = { a with triggered := true } by
      simp [Spec.perform, hc]]
    exact { hs with
      null := by simp
      pointer := fun k => by simp [hc] }
  | some h =>
    rw [perform_trigger hs hc, show a.perform (.trigger t) =
      { a.take h with triggered := true, current := none, ran := a.ran ++ [h] } by
      simp [Spec.perform, hc]]
    exact { hs with
      null := by simp
      pointer := by simp
      installed := fun k => by
        by_cases hk : k = h
        · simp [hk]
        · simp [hk, Ne.symm hk, hs.installed, hc]
      callback := by simp only [hs.callback, Spec.take]
      armed := by simp
      ran := by simp only [hs.ran] }

theorem agrees_perform (hs : Agrees s a) {op : Op} (ha : a.Allowed op) :
    Agrees (s.perform reload op) (a.perform op) := by
  cases op with
  | install h fresh execute => exact agrees_install hs ha
  | uninstall t h => exact agrees_uninstall hs
  | trigger t => exact agrees_trigger hs

theorem agrees_performAll (hs : Agrees s a) {ops : List Op} (ha : a.AllowedAll ops) :
    Agrees (s.performAll reload ops) (a.performAll ops) := by
  induction ops generalizing s a with
  | nil => exact hs
  | cons op ops ih => exact ih (agrees_perform hs ha.1) ha.2

theorem agrees_init (callback : ℕ → Bool) : Agrees (.init callback) (.init callback) := by
  constructor <;> simp [State.init, Spec.init]

theorem reachable_finishInstall (hr : (machine reload).Reachable s) :
    (machine reload).Reachable (s.finishInstall reload n) := by
  induction n generalizing s with
  | zero => exact hr
  | succ n ih =>
    unfold State.finishInstall
    split
    · next hi => exact ih (hr.step (l := Label.step false) ⟨hi, rfl⟩)
    · exact hr

theorem reachable_finishThread (hr : (machine reload).Reachable s) :
    (machine reload).Reachable (s.finishThread t n) := by
  induction n generalizing s with
  | zero => exact hr
  | succ n ih =>
    unfold State.finishThread
    split
    · next hi => exact ih (hr.step (l := Label.thread t false) ⟨hi, rfl⟩)
    · exact hr

/-- Operations one after the other are one way to take the atomic steps. -/
theorem reachable_performAll (hs : Agrees s a) {ops : List Op} (ha : a.AllowedAll ops)
    (hr : (machine reload).Reachable s) : (machine reload).Reachable (s.performAll reload ops) := by
  induction ops generalizing s a with
  | nil => exact hr
  | cons op ops ih =>
    refine ih (agrees_perform hs ha.1) ha.2 ?_
    cases op with
    | install h fresh execute =>
      exact reachable_finishInstall
        (hr.step (l := Label.install h fresh execute) ⟨⟨hs.checks, hs.installer⟩, rfl⟩)
    | uninstall t h =>
      exact reachable_finishThread
        (hr.step (l := Label.uninstall t h) ⟨⟨hs.checks, hs.threads t⟩, rfl⟩)
    | trigger t =>
      exact reachable_finishThread
        (hr.step (l := Label.trigger t) ⟨⟨hs.checks, hs.threads t⟩, rfl⟩)

/-- What `Spec` says is what the code does, whatever the operations and their order. -/
theorem sequential_correct (reload : Bool) (callback : ℕ → Bool) (ops : List Op)
    (h : (Spec.init callback).AllowedAll ops) :
    Agrees ((State.init callback).performAll reload ops) ((Spec.init callback).performAll ops) :=
  agrees_performAll (agrees_init callback) h

/-- Two handlers replace each other, and the interrupt is triggered twice. -/
def replaced : List Op :=
  [.install 0 true false, .install 1 true false, .install 0 false false, .trigger 0, .trigger 0]

theorem replaced_correct :
    Agrees ((State.init fun _ => false).performAll true replaced)
      ((Spec.init fun _ => false).performAll replaced) :=
  sequential_correct true (fun _ => false) replaced
    ⟨Or.inl rfl, Or.inl rfl, Or.inr rfl, trivial, trivial, trivial⟩

/-- `Install()` checks that the handler still has its callback, and `Trigger()` has run it. -/
theorem installAgain_fails :
    ¬ ∀ ops, Agrees ((State.init fun _ => false).performAll true ops)
      ((Spec.init fun _ => false).performAll ops) := by
  intro h
  have hfailed := (h [.install 0 true false, .trigger 0, .install 0 false false]).checks
  have hx : ((State.init fun _ => false).performAll true
      [.install 0 true false, .trigger 0, .install 0 false false]).failed = some .callback := by
    decide
  rw [hx] at hfailed
  simp at hfailed

end Correct

end Eventuals.Interrupt
