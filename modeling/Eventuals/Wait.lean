import Eventuals.LockInvariant

/-! One eventual that waits on a lock while other threads acquire it, notify it and release it. -/
namespace Eventuals.Wait

open Function (update)
open Transition (Machine)

/-- The failures of `_Wait` itself. -/
inductive Check
  | available
  | recursiveWait
  | notOwned
  | noContext
  | acquired
  deriving DecidableEq, Repr

/-- Where the thread `b` stands in the callback that notifies the eventual. -/
inductive Notifying (W : Type*)
  | none
  | calling (b : W)
  | acquiring (b : W)
  deriving DecidableEq

/-- Whether the eventual runs `Start` or, in a stream, `Body`. -/
inductive Kind
  | start
  | body
  deriving DecidableEq

variable {W C : Type*}

/-- The eventual first takes the lock through the waiter `acquirer` of `Acquire`, later through
`waiter_` of `Wait`. -/
structure Eventual (W : Type*) where
  acquirer : W
  waiter : W
  kind : Kind
  distinct : acquirer ≠ waiter

structure State (W C : Type*) where
  lock : Lock.State W C
  notifiable : Bool
  waiting : Bool
  notifying : Notifying W
  failed : Option Check

def initial (self : W → C) : State W C where
  lock := Lock.initial self
  notifiable := false
  waiting := false
  notifying := .none
  failed := none

inductive Label (W C : Type*)
  | start (v : W) (c : C)
  | run (v : W) (spurious : Bool)
  | release (v : W)
  | clear (v : W)
  | wait (u : W)
  | pass (u : W)
  | notify (b : W)
  | call
  | returned

def Notifying.isCalling : Notifying W → Bool
  | .calling _ => true
  | _ => false

def Notifying.isAcquiring : Notifying W → Bool
  | .acquiring _ => true
  | _ => false

/-- The thread is inside the notify callback. -/
def Notifying.by (n : Notifying W) (b : W) : Prop :=
  n = .calling b ∨ n = .acquiring b

def Eventual.owns (e : Eventual W) (u : W) : Prop :=
  u = e.acquirer ∨ u = e.waiter

instance [DecidableEq W] (n : Notifying W) (b : W) : Decidable (n.by b) :=
  inferInstanceAs (Decidable (_ ∨ _))

instance [DecidableEq W] (e : Eventual W) (u : W) : Decidable (e.owns u) :=
  inferInstanceAs (Decidable (_ ∨ _))

section Steps

variable [DecidableEq W] [DecidableEq C]

def State.fail (s : State W C) (c : Check) : State W C :=
  { s with failed := some c }

/-- `Start` and `Body` when the condition asks to wait. -/
def State.wait (s : State W C) (e : Eventual W) (u : W) : State W C :=
  if s.lock.head = none then s.fail .available
  else { s with lock := Lock.next s.lock (.wait u e.waiter), notifiable := true }

/-- `Start` and `Body` when the condition does not ask to wait. -/
def State.pass (s : State W C) : State W C :=
  if s.lock.head = none then s.fail .available else { s with notifiable := false }

/-- The test that the notifier holds the lock: `Body` only asks that somebody does. -/
def State.owned (s : State W C) (e : Eventual W) (b : W) : Bool :=
  match e.kind with
  | .start => decide (s.lock.owner = some (s.lock.self b))
  | .body => decide (s.lock.head ≠ none)

/-- The notify callback up to the call of `AcquireSlow`. -/
def State.notify (s : State W C) (e : Eventual W) (b : W) : State W C :=
  if s.notifiable then
    if s.owned e b then
      if s.lock.context e.waiter = none then s.fail .noContext
      else
        { s with
          notifiable := false, notifying := .calling b,
          waiting := match e.kind with | .start => true | .body => s.waiting }
    else s.fail .notOwned
  else s

/-- The first two checks of `AcquireSlow`. -/
def State.call (s : State W C) (e : Eventual W) (b : W) : State W C :=
  { s with
    lock := Lock.run (Lock.next s.lock (.enqueue e.waiter)) e.waiter false,
    notifying := .acquiring b }

/-- `AcquireSlow` has returned to the notify callback. -/
def State.returned (s : State W C) (e : Eventual W) : State W C :=
  if s.lock.pc e.waiter = .queued then { s with notifying := .none } else s.fail .acquired

/-- One step of the code run for `v`; the callback of `waiter_` also resets `waiting_`. -/
def State.run (s : State W C) (e : Eventual W) (v : W) (spurious : Bool) : State W C :=
  { s with
    lock := Lock.run s.lock v spurious,
    waiting := if s.lock.pc v = .handCallback e.waiter then false else s.waiting }

def Enabled (e : Eventual W) (s : State W C) (l : Label W C) : Prop :=
  s.failed = none ∧
  match l with
  | .start v c =>
    Lock.Enabled s.lock (.start v c) ∧ v ≠ e.waiter ∧
      (v = e.acquirer → s.lock.Free e.waiter ∧ s.notifiable = false ∧ s.notifying = .none)
  | .run v spurious =>
    Lock.Enabled s.lock (.run v spurious) ∧ ¬ (v = e.waiter ∧ s.lock.pc v = .ownCallback)
  | .release v => Lock.Enabled s.lock (.release v) ∧ ¬ s.notifying.by v
  | .clear v => Lock.Enabled s.lock (.clear v)
  | .wait u => s.lock.failed = none ∧ s.lock.pc u = .critical ∧ e.owns u
  | .pass u => s.lock.failed = none ∧ s.lock.pc u = .critical ∧ e.owns u
  | .notify b =>
    s.lock.failed = none ∧ s.lock.pc b = .critical ∧ ¬ e.owns b ∧ s.notifying = .none
  | .call => s.lock.failed = none ∧ s.notifying.isCalling = true
  | .returned => s.lock.failed = none ∧ s.notifying.isAcquiring = true ∧
      (s.lock.pc e.waiter = .queued ∨ s.lock.pc e.waiter = .ownCallback)

instance (e : Eventual W) : ∀ (s : State W C) (l : Label W C), Decidable (Enabled e s l)
  | s, .start v c => inferInstanceAs (Decidable (s.failed = none ∧
      Lock.Enabled s.lock (.start v c) ∧ v ≠ e.waiter ∧ (v = e.acquirer →
        (s.lock.pc e.waiter = .idle ∧ s.lock.clearing e.waiter = false) ∧ _ ∧ _)))
  | s, .run v x => inferInstanceAs (Decidable (s.failed = none ∧
      Lock.Enabled s.lock (.run v x) ∧ ¬ (v = e.waiter ∧ s.lock.pc v = .ownCallback)))
  | s, .release v => inferInstanceAs (Decidable (s.failed = none ∧
      Lock.Enabled s.lock (.release v) ∧ ¬ s.notifying.by v))
  | s, .clear v => inferInstanceAs (Decidable (s.failed = none ∧ Lock.Enabled s.lock (.clear v)))
  | s, .wait u => inferInstanceAs (Decidable (s.failed = none ∧ s.lock.failed = none ∧
      s.lock.pc u = .critical ∧ e.owns u))
  | s, .pass u => inferInstanceAs (Decidable (s.failed = none ∧ s.lock.failed = none ∧
      s.lock.pc u = .critical ∧ e.owns u))
  | s, .notify b => inferInstanceAs (Decidable (s.failed = none ∧ s.lock.failed = none ∧
      s.lock.pc b = .critical ∧ ¬ e.owns b ∧ s.notifying = .none))
  | s, .call => inferInstanceAs (Decidable (s.failed = none ∧ s.lock.failed = none ∧
      s.notifying.isCalling = true))
  | s, .returned => inferInstanceAs (Decidable (s.failed = none ∧ s.lock.failed = none ∧
      s.notifying.isAcquiring = true ∧
      (s.lock.pc e.waiter = .queued ∨ s.lock.pc e.waiter = .ownCallback)))

def next (e : Eventual W) (s : State W C) : Label W C → State W C
  | .start v c => { s with lock := Lock.next s.lock (.start v c) }
  | .run v spurious => s.run e v spurious
  | .release v => { s with lock := Lock.next s.lock (.release v) }
  | .clear v => { s with lock := Lock.next s.lock (.clear v) }
  | .wait u => s.wait e u
  | .pass _ => s.pass
  | .notify b => s.notify e b
  | .call =>
    match s.notifying with
    | .calling b => s.call e b
    | _ => s
  | .returned => s.returned e

def machine (C : Type*) [DecidableEq C] (e : Eventual W) : Machine (State W C) (Label W C) where
  Initial s := ∃ self, s = initial self
  Enabled := Enabled e
  next := next e

instance (e : Eventual W) (s : State W C) (l : Label W C) :
    Decidable ((machine C e).Enabled s l) :=
  inferInstanceAs (Decidable (Enabled e s l))

end Steps

/-- No notification is delivered while the waiter's own `Release` has yet to clear its flag. -/
def Settled (e : Eventual W) (s : State W C) (l : Label W C) : Prop :=
  l = .call → s.lock.clearing e.waiter = false

/-- How the flags of `Wait` follow the waiters of the eventual. -/
structure Inv (e : Eventual W) (s : State W C) (q : List W) : Prop where
  lock : Lock.Inv s.lock q
  failed : s.failed = none
  single : s.lock.pc e.acquirer ≠ .idle → s.lock.pc e.waiter = .idle ∧ s.notifying = .none ∧
    (s.notifiable = true → (s.lock.pc e.acquirer).releasing = true)
  notifiable : s.notifiable = true → s.notifying = .none ∧ s.lock.Ready e.waiter .slow ∧
    (s.lock.pc e.waiter = .idle ∨ (s.lock.pc e.waiter).releasing = true)
  calling : ∀ b, s.notifying = .calling b → s.lock.pc b = .critical ∧
    s.lock.pc e.waiter = .idle ∧ s.lock.Ready e.waiter .slow
  acquiring : ∀ b, s.notifying = .acquiring b → s.lock.pc b = .critical ∧
    ((s.lock.pc e.waiter).enqueuing = true ∨ s.lock.pc e.waiter = .queued)

theorem exists_calling {n : Notifying W} (h : n.isCalling = true) : ∃ b, n = .calling b := by
  cases n with
  | calling b => exact ⟨b, rfl⟩
  | none | acquiring b => simp [Notifying.isCalling] at h

theorem exists_acquiring {n : Notifying W} (h : n.isAcquiring = true) :
    ∃ b, n = .acquiring b := by
  cases n with
  | acquiring b => exact ⟨b, rfl⟩
  | none | calling b => simp [Notifying.isAcquiring] at h

variable {e : Eventual W} {s : State W C} {q : List W} {b u v : W}

theorem inv_initial (self : W → C) : Inv e (initial self) [] where
  lock := Lock.inv_initial self
  failed := rfl
  single := by simp [initial, Lock.initial]
  notifiable := by simp [initial]
  calling := by simp [initial]
  acquiring := by simp [initial]

/-- A waiter whose callback is run is queued. -/
theorem Inv.not_handCallback (h : Inv e s q) (hp : s.lock.pc u ≠ .queued) :
    s.lock.pc v ≠ .handCallback u := by
  intro hv
  exact hp (h.lock.handing v u (by rw [hv]; rfl)).2

theorem Inv.critical_of_by (h : Inv e s q) (hb : s.notifying.by b) : s.lock.pc b = .critical := by
  rcases hb with hb | hb
  · exact (h.calling b hb).1
  · exact (h.acquiring b hb).1

/-- A step that leaves the waiter alone and does not start the acquirer. -/
theorem Inv.other {t : State W C} {q' : List W} (h : Inv e s q) (hl : Lock.Inv t.lock q')
    (hf : t.failed = none) (hn : t.notifiable = s.notifiable) (hc : t.notifying = s.notifying)
    (hw : t.lock.pc e.waiter = s.lock.pc e.waiter ∧
      t.lock.context e.waiter = s.lock.context e.waiter ∧ t.lock.f e.waiter = s.lock.f e.waiter ∧
      t.lock.self e.waiter = s.lock.self e.waiter)
    (ha : t.lock.pc e.acquirer ≠ .idle → s.lock.pc e.acquirer ≠ .idle ∧
      ((s.lock.pc e.acquirer).releasing = true → (t.lock.pc e.acquirer).releasing = true))
    (hb : ∀ b, s.notifying.by b → t.lock.pc b = .critical) : Inv e t q' := by
  obtain ⟨hp, hx, hf', hs⟩ := hw
  have hready : t.lock.Ready e.waiter .slow ↔ s.lock.Ready e.waiter .slow := by
    simp only [Lock.State.Ready, hx, hf', hs]
  refine ⟨hl, hf, ?_, ?_, ?_, ?_⟩
  · intro hidle
    obtain ⟨ho, hr⟩ := ha hidle
    obtain ⟨hi, hnone, hrel⟩ := h.single ho
    exact ⟨hp ▸ hi, hc ▸ hnone, fun hnot => hr (hrel (hn ▸ hnot))⟩
  · intro hnot
    obtain ⟨hnone, hrd, hpark⟩ := h.notifiable (hn ▸ hnot)
    exact ⟨hc ▸ hnone, hready.mpr hrd, hp ▸ hpark⟩
  · intro b hcall
    rw [hc] at hcall
    obtain ⟨-, hi, hrd⟩ := h.calling b hcall
    exact ⟨hb b (Or.inl hcall), hp ▸ hi, hready.mpr hrd⟩
  · intro b hacq
    rw [hc] at hacq
    exact ⟨hb b (Or.inr hacq), hp ▸ (h.acquiring b hacq).2⟩

theorem Inv.acquirer_idle (h : Inv e s q) (hw : s.lock.pc e.waiter ≠ .idle) :
    s.lock.pc e.acquirer = .idle := by
  by_contra ha
  exact hw (h.single ha).1

/-- Between a notification and the next wait, nothing is left to be notified. -/
theorem Inv.active (h : Inv e s q) (hi : s.lock.pc e.waiter ≠ .idle)
    (hr : (s.lock.pc e.waiter).releasing = false) (he : (s.lock.pc e.waiter).enqueuing = false)
    (hq : s.lock.pc e.waiter ≠ .queued) : s.notifiable = false ∧ s.notifying = .none := by
  constructor
  · by_contra hn
    simp only [Bool.not_eq_false] at hn
    rcases (h.notifiable hn).2.2 with hp | hp
    · exact hi hp
    · simp [hr] at hp
  · cases hn : s.notifying with
    | none => rfl
    | calling b => exact (hi (h.calling b hn).2.1).elim
    | acquiring b =>
      rcases (h.acquiring b hn).2 with hp | hp
      · simp [he] at hp
      · exact (hq hp).elim

/-- The invariant of an eventual that nobody may notify. -/
theorem Inv.quiet {t : State W C} (hl : Lock.Inv t.lock q) (hf : t.failed = none)
    (hn : t.notifiable = false) (hc : t.notifying = .none)
    (ha : t.lock.pc e.acquirer ≠ .idle → t.lock.pc e.waiter = .idle) : Inv e t q := by
  refine ⟨hl, hf, ?_, ?_, ?_, ?_⟩
  · exact fun hidle => ⟨ha hidle, hc, by simp [hn]⟩
  all_goals simp [hn, hc]

variable [DecidableEq W] [DecidableEq C]

/-- An instruction run for a waiter that the eventual does not wait with. -/
theorem inv_run_other (h : Inv e s q) {x : Bool} (hv : v ≠ e.waiter)
    (he : Enabled e s (.run v x)) (hp : s.lock.pc v ≠ .handCallback e.waiter) :
    ∃ q', Inv e (next e s (.run v x)) q' := by
  obtain ⟨-, ⟨-, hi, -, hcrit⟩, -⟩ := he
  obtain ⟨q', -, hlock⟩ := Lock.inv_run h.lock x (w := v)
  refine ⟨q', h.other hlock h.failed rfl rfl ?_ ?_ ?_⟩
  · exact Lock.run_frame x (Ne.symm hv) hp
  · intro hidle
    by_cases hva : v = e.acquirer
    · subst hva
      refine ⟨hi, fun hr => ?_⟩
      have hne : s.lock.pc e.acquirer ≠ .handCallback e.acquirer :=
        h.not_handCallback (by
          intro hq
          simp [hq, Lock.PC.releasing] at hr)
      rcases (Lock.run_releasing x hr hne).1 with hr' | hr'
      · exact hr'
      · exact (hidle hr').elim
    · by_cases hpa : s.lock.pc v = .handCallback e.acquirer
      · have hq := (h.lock.handing v e.acquirer (by rw [hpa]; rfl)).2
        simp [hq, Lock.PC.releasing]
      · have hsame := (Lock.run_frame (s := s.lock) x (Ne.symm hva) hpa).1
        simp only [next, State.run, hsame] at hidle ⊢
        exact ⟨hidle, id⟩
  · intro b hb
    have hbc := h.critical_of_by hb
    have hbv : b ≠ v := by
      rintro rfl
      exact hcrit hbc
    have hne := h.not_handCallback (v := v) (u := b) (by simp [hbc])
    simpa only [next, State.run, (Lock.run_frame x hbv hne).1] using hbc

/-- The waiter is handed the lock: its notification has been consumed before. -/
theorem inv_run_callback (h : Inv e s q) {x : Bool} (hp : s.lock.pc v = .handCallback e.waiter) :
    ∃ q', Inv e (next e s (.run v x)) q' := by
  obtain ⟨q', -, hlock⟩ := Lock.inv_run h.lock x (w := v)
  have hhand : (s.lock.pc v).handing = some e.waiter := by rw [hp]; rfl
  have hq : s.lock.pc e.waiter = .queued := (h.lock.handing v _ hhand).2
  have hva : e.acquirer ≠ v := by
    rintro rfl
    have hi := h.acquirer_idle (by simp [hq])
    simp [hi] at hp
  have hnot : s.notifiable = false := by
    by_contra hn
    simp only [Bool.not_eq_false] at hn
    have := (h.notifiable hn).2.2
    simp [hq, Lock.PC.releasing] at this
  have hnone : s.notifying = .none := by
    cases hn : s.notifying with
    | none => rfl
    | calling b => simp [(h.calling b hn).2.1] at hq
    | acquiring b =>
      have hb : (s.lock.pc b).holder = true := by rw [(h.acquiring b hn).1]; rfl
      simp [h.lock.no_handing hb] at hhand
  refine ⟨q', Inv.quiet hlock h.failed hnot hnone fun ha => ?_⟩
  have hne : s.lock.pc v ≠ .handCallback e.acquirer := by
    rw [hp]
    simpa using Ne.symm e.distinct
  rw [show (next e s (.run v x)).lock = Lock.run s.lock v x from rfl,
    (Lock.run_frame x hva hne).1] at ha
  exact (ha (h.acquirer_idle (by simp [hq]))).elim

/-- An instruction run for the waiter of the eventual. -/
theorem inv_run_waiter (h : Inv e s q) {x : Bool} (he : Enabled e s (.run e.waiter x)) :
    ∃ q', Inv e (next e s (.run e.waiter x)) q' := by
  obtain ⟨-, ⟨-, hi, hnq, hnc⟩, -⟩ := he
  obtain ⟨q', -, hlock⟩ := Lock.inv_run h.lock x (w := e.waiter)
  have hidle := h.acquirer_idle hi
  have hframe := (Lock.run_frame (s := s.lock) x e.distinct
    (h.not_handCallback (v := e.waiter) (by simp [hidle]))).1
  have hstep : (next e s (.run e.waiter x)).lock = Lock.run s.lock e.waiter x := rfl
  refine ⟨q', hlock, h.failed, ?_, ?_, ?_, ?_⟩
  · intro ha
    rw [hstep, hframe] at ha
    exact (ha hidle).elim
  · intro hn
    obtain ⟨hnone, hready, hpark⟩ := h.notifiable hn
    have hr : (s.lock.pc e.waiter).releasing = true := by
      rcases hpark with hp | hp
      · exact (hi hp).elim
      · exact hp
    obtain ⟨hp, hc, hf, hs⟩ := Lock.run_releasing x hr (h.not_handCallback hnq)
    refine ⟨hnone, ?_, hp.symm⟩
    simpa only [hstep, Lock.State.Ready, hc, hf, hs] using hready
  · intro b hb
    exact (hi (h.calling b hb).2.1).elim
  · intro b hb
    obtain ⟨hbc, hp⟩ := h.acquiring b hb
    have hbw : b ≠ e.waiter := by
      rintro rfl
      exact hnc hbc
    have hen : (s.lock.pc e.waiter).enqueuing = true := by
      rcases hp with hp | hp
      · exact hp
      · exact (hnq hp).elim
    have hbc' : (Lock.run s.lock e.waiter x).pc b = .critical := by
      rw [(Lock.run_frame x hbw (h.not_handCallback (by simp [hbc]))).1]
      exact hbc
    refine ⟨hbc', ?_⟩
    rcases (Lock.run_enqueuing x hen).1 with hp' | hp' | hp'
    · exact Or.inl hp'
    · exact Or.inr hp'
    · refine (hbw (hlock.holder_unique (v := b) (w := e.waiter) ?_ ?_)).elim
      · rw [hbc']
        rfl
      · rw [hp']
        rfl

theorem inv_start (h : Inv e s q) {c : C} (he : Enabled e s (.start v c)) :
    Inv e (next e s (.start v c)) q := by
  obtain ⟨-, hl, hvw, hva⟩ := he
  have hlock := Lock.inv_start h.lock (c := c) hl.2
  have hidle : s.lock.pc v = .idle := hl.2.1
  by_cases hv : v = e.acquirer
  · obtain ⟨hfree, hnot, hnone⟩ := hva hv
    refine ⟨hlock, h.failed, ?_, ?_, ?_, ?_⟩
    · intro _
      refine ⟨?_, hnone, by simp [next, hnot]⟩
      simpa [next, Lock.next, Lock.State.goto, Ne.symm hvw] using hfree.1
    · simp [next, hnot]
    · simp [next, hnone]
    · simp [next, hnone]
  · refine h.other hlock h.failed rfl rfl ?_ ?_ ?_
    · simp [next, Lock.next, Lock.State.goto, Ne.symm hvw]
    · intro hne
      have hsame : (next e s (.start v c)).lock.pc e.acquirer = s.lock.pc e.acquirer := by
        simp [next, Lock.next, Lock.State.goto, Ne.symm hv]
      rw [hsame] at hne ⊢
      exact ⟨hne, id⟩
    · intro b hb
      have hcrit := h.critical_of_by hb
      have hbv : b ≠ v := by
        rintro rfl
        simp [hidle] at hcrit
      simpa [next, Lock.next, Lock.State.goto, hbv] using hcrit

theorem inv_release (h : Inv e s q) (he : Enabled e s (.release v)) :
    Inv e (next e s (.release v)) q := by
  obtain ⟨-, hl, hby⟩ := he
  have hlock := Lock.inv_critical h.lock hl.2
  have hv : s.lock.pc v = .critical := hl.2
  have hpc : ∀ z, z ≠ v → (next e s (.release v)).lock.pc z = s.lock.pc z := by
    intro z hz
    simp [next, Lock.next, Lock.State.goto, hz]
  by_cases hvw : v = e.waiter
  · subst hvw
    obtain ⟨hn, hc⟩ := h.active (by simp [hv]) (by simp [hv, Lock.PC.releasing])
      (by simp [hv, Lock.PC.enqueuing]) (by simp [hv])
    refine Inv.quiet hlock h.failed hn hc fun ha => ?_
    rw [hpc _ e.distinct, h.acquirer_idle (by simp [hv])] at ha
    exact (ha rfl).elim
  · refine h.other hlock h.failed rfl rfl ?_ ?_ ?_
    · simp [next, Lock.next, Lock.State.goto, Ne.symm hvw]
    · intro hne
      by_cases hva : v = e.acquirer
      · subst hva
        simp [hv, Lock.PC.releasing]
      · rw [hpc _ (Ne.symm hva)] at hne ⊢
        exact ⟨hne, id⟩
    · intro b hb
      have hbv : b ≠ v := by
        rintro rfl
        exact hby hb
      rw [hpc b hbv]
      exact h.critical_of_by hb

theorem inv_clear (h : Inv e s q) (he : Enabled e s (.clear v)) :
    Inv e (next e s (.clear v)) q :=
  h.other (Lock.inv_clear h.lock he.2.2) h.failed rfl rfl ⟨rfl, rfl, rfl, rfl⟩
    (fun ha => ⟨ha, id⟩) fun _ hb => h.critical_of_by hb

theorem inv_wait (h : Inv e s q) (he : Enabled e s (.wait u)) : Inv e (next e s (.wait u)) q := by
  obtain ⟨-, -, hu, how⟩ := he
  have hhold : (s.lock.pc u).holder = true := by rw [hu]; rfl
  have hhead := h.lock.head_ne_none hhold
  have hnext : next e s (.wait u) =
      { s with lock := Lock.next s.lock (.wait u e.waiter), notifiable := true } := by
    simp [next, State.wait, hhead]
  rw [hnext]
  rcases how with rfl | rfl
  · obtain ⟨hi, hc, -⟩ := h.single (by simp [hu])
    refine ⟨Lock.inv_wait h.lock hu (Or.inr hi), h.failed, ?_, ?_, ?_, ?_⟩
    · intro _
      simp [Lock.next, Lock.State.goto, Ne.symm e.distinct, hi, hc, Lock.PC.releasing]
    · intro _
      simp [Lock.next, Lock.State.goto, Ne.symm e.distinct, hi, hc, Lock.State.Ready]
    · simp [hc]
    · simp [hc]
  · obtain ⟨-, hc⟩ := h.active (by simp [hu]) (by simp [hu, Lock.PC.releasing])
      (by simp [hu, Lock.PC.enqueuing]) (by simp [hu])
    have ha := h.acquirer_idle (by simp [hu])
    refine ⟨Lock.inv_wait h.lock hu (Or.inl rfl), h.failed, ?_, ?_, ?_, ?_⟩
    · simp [Lock.next, Lock.State.goto, e.distinct, ha]
    · intro _
      simp [Lock.next, Lock.State.goto, hc, Lock.State.Ready, Lock.PC.releasing]
    · simp [hc]
    · simp [hc]

theorem inv_pass (h : Inv e s q) (he : Enabled e s (.pass u)) : Inv e (next e s (.pass u)) q := by
  obtain ⟨-, -, hu, how⟩ := he
  have hhead := h.lock.head_ne_none (w := u) (by rw [hu]; rfl)
  have hnext : next e s (.pass u) = { s with notifiable := false } := by
    simp [next, State.pass, hhead]
  have hc : s.notifying = .none := by
    rcases how with rfl | rfl
    · exact (h.single (by simp [hu])).2.1
    · exact (h.active (by simp [hu]) (by simp [hu, Lock.PC.releasing])
        (by simp [hu, Lock.PC.enqueuing]) (by simp [hu])).2
  rw [hnext]
  exact Inv.quiet h.lock h.failed rfl hc fun ha => (h.single ha).1

theorem inv_notify (h : Inv e s q) (he : Enabled e s (.notify b)) :
    Inv e (next e s (.notify b)) q := by
  obtain ⟨-, -, hb, hown, hnone⟩ := he
  have hhold : (s.lock.pc b).holder = true := by rw [hb]; rfl
  by_cases hn : s.notifiable = true
  · obtain ⟨-, hready, hpark⟩ := h.notifiable hn
    have hbw : b ≠ e.waiter := fun hbw => hown (Or.inr hbw)
    have hba : b ≠ e.acquirer := fun hba => hown (Or.inl hba)
    have hrel : ∀ z, z ≠ b → (s.lock.pc z).releasing = false := by
      intro z hz
      exact h.lock.not_releasing hhold hz
    have hidle : s.lock.pc e.waiter = .idle := by
      rcases hpark with hp | hp
      · exact hp
      · simp [hrel _ (Ne.symm hbw)] at hp
    have hacq : s.lock.pc e.acquirer = .idle := by
      by_contra ha
      have := (h.single ha).2.2 hn
      simp [hrel _ (Ne.symm hba)] at this
    have howned : s.owned e b = true := by
      unfold State.owned
      cases e.kind with
      | start => simpa using h.lock.owner b (by rw [hb]; rfl)
      | body => simpa using h.lock.head_ne_none hhold
    have hctx : s.lock.context e.waiter ≠ none := by simp [hready.1]
    simp only [next, State.notify, hn, howned, if_true, hctx, if_false]
    refine ⟨h.lock, h.failed, ?_, ?_, ?_, ?_⟩
    · exact fun ha => (ha hacq).elim
    · simp
    · intro b' hb'
      simp only [Notifying.calling.injEq] at hb'
      exact ⟨hb' ▸ hb, hidle, hready⟩
    · simp
  · simp only [next, State.notify, hn]
    exact h

theorem inv_call (h : Inv e s q) (he : Enabled e s .call)
    (hs : s.lock.clearing e.waiter = false) : Inv e (next e s .call) q := by
  obtain ⟨b, hb⟩ := exists_calling he.2.2
  obtain ⟨hcrit, hidle, hready⟩ := h.calling b hb
  have henq := Lock.inv_enqueue h.lock ⟨hidle, hs⟩ (hready.2 rfl) hready.1
  have hslow := Lock.inv_slow henq (w := e.waiter) (b := false)
    (Or.inr (Or.inl (by simp [Lock.next, Lock.State.goto])))
  have hfacts := h.lock.facts e.waiter
  simp only [Lock.Facts, hidle, hs] at hfacts
  have hbw : b ≠ e.waiter := by
    rintro rfl
    simp [hcrit] at hidle
  have hlock : (next e s .call).lock =
      (s.lock.goto e.waiter .slowChecks).goto e.waiter .slowLoad := by
    simp [next, hb, State.call, Lock.next, Lock.run, Lock.State.goto, hfacts]
  have hacq : s.lock.pc e.acquirer = .idle := by
    by_contra ha
    simp [(h.single ha).2.1] at hb
  have hnot : s.notifiable = false := by
    by_contra hn
    simp only [Bool.not_eq_false] at hn
    simp [(h.notifiable hn).1] at hb
  have hinv : Lock.Inv (next e s .call).lock q := by
    simpa only [next, hb, State.call] using hslow
  have hnotifying : (next e s .call).notifying = .acquiring b := by
    simp only [next, hb, State.call]
  have hrest : (next e s .call).failed = none ∧ (next e s .call).notifiable = false := by
    simp only [next, hb, State.call]
    exact ⟨h.failed, hnot⟩
  refine ⟨hinv, hrest.1, ?_, ?_, ?_, ?_⟩
  · rw [hlock]
    simp [Lock.State.goto, e.distinct, hacq]
  · simp [hrest.2]
  · simp [hnotifying]
  · intro b' hb'
    rw [hnotifying, Notifying.acquiring.injEq] at hb'
    subst hb'
    rw [hlock]
    simp [Lock.State.goto, hbw, hcrit, Lock.PC.enqueuing]

theorem inv_returned (h : Inv e s q) (he : Enabled e s .returned) :
    Inv e (next e s .returned) q := by
  obtain ⟨-, -, hn, hp⟩ := he
  obtain ⟨b, hb⟩ := exists_acquiring hn
  obtain ⟨hcrit, hpc⟩ := h.acquiring b hb
  have hqueued : s.lock.pc e.waiter = .queued := by
    rcases hpc with hpc | hpc
    · rcases hp with hp | hp <;> simp [hp, Lock.PC.enqueuing] at hpc
    · exact hpc
  have hnot : s.notifiable = false := by
    by_contra hn
    simp only [Bool.not_eq_false] at hn
    simp [(h.notifiable hn).1] at hb
  have hnext : next e s .returned = { s with notifying := .none } := by
    simp [next, State.returned, hqueued]
  rw [hnext]
  exact Inv.quiet h.lock h.failed hnot rfl fun ha => (h.single ha).1

theorem inv_next {l : Label W C} (h : Inv e s q) (he : Enabled e s l) (hs : Settled e s l) :
    ∃ q', Inv e (next e s l) q' := by
  cases l with
  | start v c => exact ⟨q, inv_start h he⟩
  | run v x =>
    by_cases hp : s.lock.pc v = .handCallback e.waiter
    · exact inv_run_callback h hp
    · by_cases hv : v = e.waiter
      · subst hv
        exact inv_run_waiter h he
      · exact inv_run_other h hv he hp
  | release v => exact ⟨q, inv_release h he⟩
  | clear v => exact ⟨q, inv_clear h he⟩
  | wait u => exact ⟨q, inv_wait h he⟩
  | pass u => exact ⟨q, inv_pass h he⟩
  | notify b => exact ⟨q, inv_notify h he⟩
  | call => exact ⟨q, inv_call h he (hs rfl)⟩
  | returned => exact ⟨q, inv_returned h he⟩

/-- No check has failed, and a waiter's flag is set exactly while the waiter holds the lock,
except inside a `Release`; a flag that is still to be cleared belongs to a waiter not in use. -/
structure Correct (s : State W C) : Prop where
  lock : s.lock.failed = none
  wait : s.failed = none
  acquired : ∀ v, ¬ s.lock.Releasing v →
    (s.lock.acquired v = true ↔ (s.lock.pc v).running = true)
  kept : ∀ v, s.lock.clearing v = true → s.lock.pc v = .idle

omit [DecidableEq W] [DecidableEq C] in
theorem Inv.correct (h : Inv e s q) : Correct s where
  lock := h.lock.failed
  wait := h.failed
  acquired _ hv := h.lock.acquired_iff hv
  kept _ hv := h.lock.idle_of_clearing hv

/-- A notification that meets the flag before it is cleared trips the check of `AcquireSlow`. -/
theorem call_fails (h : Inv e s q) (he : Enabled e s .call)
    (hs : s.lock.clearing e.waiter = true) :
    (next e s .call).lock.failed = some .recursiveAcquire := by
  obtain ⟨b, hb⟩ := exists_calling he.2.2
  have hidle := (h.calling b hb).2.1
  have hfacts := h.lock.facts e.waiter
  simp only [Lock.Facts, hidle, hs] at hfacts
  simp [next, hb, State.call, Lock.next, Lock.run, Lock.State.goto, Lock.State.fail, hfacts]

omit [DecidableEq W] [DecidableEq C] in
theorem failed_final {l : Label W C} (hf : s.lock.failed ≠ none) : ¬ Enabled e s l := by
  rintro ⟨-, he⟩
  cases l with
  | start v c | run v x | release v => exact hf he.1.1
  | clear v | wait u | pass u | notify b | call | returned => exact hf he.1

theorem correct_iff_of_inv {t : State W C} {xs : List (State W C × Label W C)} (h : Inv e s q)
    (hr : (machine C e).Run s xs t) :
    Correct t ↔ ∀ p ∈ xs, Settled e p.1 p.2 := by
  induction hr generalizing q with
  | refl => simpa using h.correct
  | @stepL s t u l xs hst hrest ih =>
    obtain ⟨he, rfl⟩ := hst
    by_cases hs : Settled e s l
    · obtain ⟨q', h'⟩ := inv_next h he hs
      rw [ih h']
      simp [hs]
    · have hbad : ((machine C e).next s l).lock.failed = some .recursiveAcquire := by
        simp only [Settled, Classical.not_imp, Bool.not_eq_false] at hs
        obtain ⟨rfl, hc⟩ := hs
        exact call_fails h he hc
      constructor
      · intro hc
        cases hrest with
        | refl =>
          have hl := hc.lock
          simp [hbad] at hl
        | stepL hst _ => exact (failed_final (by rw [hbad]; simp) hst.1).elim
      · intro hall
        exact (hs (hall _ List.mem_cons_self)).elim

/-- A run goes right to the end exactly when every notification in it met a settled waiter. -/
theorem correct_iff_settled {t : State W C} {xs : List (State W C × Label W C)}
    (hi : (machine C e).Initial s) (hr : (machine C e).Run s xs t) :
    Correct t ↔ ∀ p ∈ xs, Settled e p.1 p.2 := by
  obtain ⟨self, rfl⟩ := hi
  exact correct_iff_of_inv (inv_initial self) hr

/-- The eventual uses waiters 0 and 1, the notifier waiter 2. -/
def pair : Eventual ℕ where
  acquirer := 0
  waiter := 1
  kind := .start
  distinct := by decide

/-- The eventual waits, is notified by the thread that acquired the lock meanwhile, and waits
again: everything up to the second notification. -/
def secondWait : List (Label ℕ ℕ) :=
  .flatten [
    [.start 0 0], .replicate 6 (.run 0 false), [.wait 0], .replicate 4 (.run 0 false),
    [.clear 0, .start 2 2], .replicate 6 (.run 2 false),
    [.notify 2, .call], .replicate 2 (.run 1 false),
    [.returned, .release 2], .replicate 9 (.run 2 false),
    [.run 1 false, .wait 1], .replicate 4 (.run 1 false),
    [.start 2 2], .replicate 6 (.run 2 false), [.notify 2]]

theorem secondWait_correct_iff : ∃ xs t, (machine ℕ pair).Run (initial id) xs t ∧
    xs.map Prod.snd = secondWait ∧ (Correct t ↔ ∀ p ∈ xs, Settled pair p.1 p.2) := by
  have hexec : ((machine ℕ pair).exec (initial id) secondWait).isSome = true := by decide
  obtain ⟨t, ht⟩ := Option.isSome_iff_exists.mp hexec
  obtain ⟨xs, hr, hx⟩ := Machine.exec_run ht
  exact ⟨xs, t, hr, hx, correct_iff_settled ⟨id, rfl⟩ hr⟩

/-- The second notification comes between the compare-exchange that frees the lock and the reset
of the waiter's flag. -/
theorem notified_while_releasing : ¬ ∀ (e : Eventual ℕ) (s : State ℕ ℕ),
    (machine ℕ e).Reachable s → Correct s := by
  intro h
  obtain ⟨s, hs, hf⟩ := Machine.exists_reachable_of_exec (M := machine ℕ pair)
    (secondWait ++ [.call]) (fun s => decide (s.lock.failed = some .recursiveAcquire)) ⟨id, rfl⟩
    (by decide)
  have hl := (h pair s hs).lock
  rw [of_decide_eq_true hf] at hl
  simp at hl

end Eventuals.Wait
