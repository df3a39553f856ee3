import Eventuals.Library.Tokens
import Eventuals.Interrupt

/-! When the two words of `interrupt.h` stay together: whose turn it is to set a handler to
`UNINSTALLED` is a token that the pointer, an installer or a thread keeps. -/
namespace Eventuals.Interrupt

open Transition (Machine)
open Tokens (Kept)

section Views

inductive Place
  | pointer
  | installer
  | thread (t : ℕ)
  deriving DecidableEq

def Pointer.token : Pointer → Option ℕ
  | .handler h => some h
  | _ => none

def Installer.token : Installer → Option ℕ
  | .marking _ _ stored _ => stored.token
  | .reading _ _ g _ | .replacing _ _ g _ _ => some g
  | _ => none

def Thread.token : Thread → Option ℕ
  | .finishing h | .releasing h | .taken h | .setting h => some h
  | _ => none

/-- The handler that the thread has set to `UNINSTALLING`. -/
def Thread.window : Thread → Option ℕ
  | .uninstalling h | .finishing h | .releasing h | .restoring h => some h
  | _ => none

/-- The handler that a `Trigger()` has taken and whose callback it has not yet run. -/
def Thread.trigger : Thread → Option ℕ
  | .taken h | .setting h | .invoking h => some h
  | _ => none

/-- The handler that is in `handler_` and not yet `INSTALLED`. -/
def Installer.marks : Installer → Option ℕ
  | .marking h .. => some h
  | _ => none

def State.place (s : State) : Place → Option ℕ
  | .pointer => s.pointer.token
  | .installer => s.installer.token
  | .thread t => (s.threads t).token

/-- The handler is `INSTALLED` or about to be, and so has to be set to `UNINSTALLED` by somebody. -/
def State.Live (s : State) (h : ℕ) : Prop :=
  s.word h ≠ .uninstalled ∨ s.installer.marks = some h

end Views

section Inv

/-- What a thread relies on until its next step. -/
def ThreadOk (s : State) : Thread → Prop
  | .restoring h => s.pointer ≠ .handler h
  | .waiting h => s.pointer = .handler h → s.word h ≠ .installed
  | .taken _ | .setting _ => s.pointer = .null ∧ s.ran = []
  | .invoking h => s.pointer = .null ∧ s.ran = [] ∧ s.callback h = true ∧ ¬ s.Live h ∧
    s.released h = false
  | _ => True

/-- No `Trigger()` has the handler, and it has its callback. -/
structure Untaken (s : State) (h : ℕ) : Prop where
  pointer : s.pointer ≠ .handler h
  callback : s.callback h = true
  trigger : ∀ t, (s.threads t).trigger ≠ some h

/-- What the installer relies on until its next step. -/
def InstallerOk (s : State) : Installer → Prop
  | .idle => True
  | .loading h execute => s.callback h = true ∨ s.pointer = .null ∧ execute = false
  | .checking h _ stored => Untaken s h ∧ stored ≠ .null
  | .swapping h _ stored => Untaken s h ∧ stored ≠ .null ∧ s.word h = .uninstalled
  | .marking h _ stored installed => s.word h = .uninstalled ∧ stored ≠ .null ∧ installed = true
  | .reading _ _ _ installed => installed = true
  | .replacing _ _ _ installed state => installed = true ∧ state = .installed
  | .executing h | .invoking h => Untaken s h ∧ s.pointer = .null ∧ s.word h = .uninstalled

structure Inv (s : State) : Prop where
  failed : s.failed = none
  left : s.left = []
  late : s.late = []
  kept : Kept s.place s.Live
  windows : Kept (fun t => (s.threads t).window) fun h => s.word h = .uninstalling
  threads : ∀ t, ThreadOk s (s.threads t)
  installer : InstallerOk s s.installer
  sole : ∀ t u h k, (s.threads t).trigger = some h → (s.threads u).trigger = some k → t = u
  once : s.ran.length ≤ 1
  ran : s.ran ≠ [] → s.pointer = .null
  callback : ∀ h, s.Live h → s.callback h = true
  released : ∀ h, s.word h ≠ .uninstalled → s.released h = false

end Inv

section Steps

variable {s s' : State} {p : Place} {t u h g : ℕ} {reload spurious execute installed : Bool}
  {stored : Pointer}
  {thread : Thread}

theorem place_goto (s : State) (t : ℕ) (thread : Thread) :
    (s.goto t thread).place = Function.update s.place (.thread t) thread.token := by
  funext p
  cases p with
  | pointer => rfl
  | installer => rfl
  | thread u =>
    by_cases hut : u = t
    · subst hut
      simp [State.place, State.goto]
    · simp [State.place, State.goto, hut]

theorem token_of (ht : s.threads t = thread) : s.place (.thread t) = thread.token :=
  congrArg Thread.token ht

theorem window_goto (s : State) (t : ℕ) (thread : Thread) :
    (fun u => ((s.goto t thread).threads u).window) =
      Function.update (fun u => (s.threads u).window) t thread.window := by
  funext u
  by_cases hut : u = t
  · subst hut
    simp [State.goto]
  · simp [State.goto, hut]

theorem trigger_goto (hu : ((s.goto t thread).threads u).trigger = some h) :
    u = t ∧ thread.trigger = some h ∨ u ≠ t ∧ (s.threads u).trigger = some h := by
  by_cases hut : u = t
  · subst hut
    simp only [State.goto, Function.update_self] at hu
    exact Or.inl ⟨rfl, hu⟩
  · simp only [State.goto, Function.update_of_ne hut] at hu
    exact Or.inr ⟨hut, hu⟩

/-- A thread has taken a step: it installs nothing. -/
structure Follows (s s' : State) : Prop where
  installer : s'.installer = s.installer
  word : ∀ h, s.word h = .uninstalled → s'.word h = .uninstalled
  pointer : ∀ h, s'.pointer = .handler h → s.pointer = .handler h
  null : s.pointer = .null → s'.pointer = .null
  trigger : ∀ u h, (s'.threads u).trigger = some h →
    (s.threads u).trigger = some h ∨ s.pointer = .handler h
  callback : s'.callback = s.callback

theorem Untaken.follows (hu : Untaken s h) (hf : Follows s s') : Untaken s' h := by
  refine ⟨fun hp => hu.pointer (hf.pointer h hp), hf.callback ▸ hu.callback, fun u hx => ?_⟩
  rcases hf.trigger u h hx with ht | hp
  · exact hu.trigger u ht
  · exact hu.pointer hp

theorem InstallerOk.follows {i : Installer} (hi : InstallerOk s i) (hf : Follows s s') :
    InstallerOk s' i := by
  cases i with
  | idle => trivial
  | loading h execute => exact hi.imp (fun hc => hf.callback ▸ hc) fun hp => ⟨hf.null hp.1, hp.2⟩
  | checking h execute stored => exact ⟨hi.1.follows hf, hi.2⟩
  | swapping h execute stored => exact ⟨hi.1.follows hf, hi.2.1, hf.word h hi.2.2⟩
  | marking h execute stored installed => exact ⟨hf.word h hi.1, hi.2⟩
  | reading h execute g installed => exact hi
  | replacing h execute g installed state => exact hi
  | executing h => exact ⟨hi.1.follows hf, hf.null hi.2.1, hf.word h hi.2.2⟩
  | invoking h => exact ⟨hi.1.follows hf, hf.null hi.2.1, hf.word h hi.2.2⟩

theorem live_follows (hf : Follows s s') (hl : s'.Live h) : s.Live h := by
  rcases hl with hw | hm
  · exact Or.inl fun hx => hw (hf.word h hx)
  · exact Or.inr (hf.installer ▸ hm)

/-- What the other threads rely on is left alone. -/
structure Spares (s s' : State) : Prop where
  pointer : ∀ h, s'.pointer = .handler h → s.pointer = .handler h
  null : s.pointer = .null → s'.pointer = .null
  ran : s'.ran = s.ran
  word : ∀ h, s'.pointer = .handler h → s'.word h = .installed → s.word h = .installed
  live : ∀ h, s'.Live h → s.Live h
  callback : s'.callback = s.callback
  released : ∀ h, s.released h = false → s'.released h = false

theorem Spares.refl : Spares s { s with threads := s'.threads } :=
  ⟨fun _ => id, id, rfl, fun _ _ => id, fun _ => id, rfl, fun _ => id⟩

theorem ThreadOk.keep (hx : ThreadOk s thread) (hs : Spares s s') : ThreadOk s' thread := by
  cases thread with
  | idle | loading | updating | uninstalling | finishing | releasing | exchanging => trivial
  | restoring h => exact fun hp => hx (hs.pointer h hp)
  | waiting h => exact fun hp hw => hx (hs.pointer h hp) (hs.word h hp hw)
  | taken h => exact ⟨hs.null hx.1, hs.ran.trans hx.2⟩
  | setting h => exact ⟨hs.null hx.1, hs.ran.trans hx.2⟩
  | invoking h =>
    obtain ⟨hp, hr, hc, hl, hrel⟩ := hx
    exact ⟨hs.null hp, hs.ran.trans hr, hs.callback ▸ hc, fun h' => hl (hs.live h h'),
      hs.released h hrel⟩

theorem threads_goto (hok : ThreadOk s' thread) (hs : ∀ u, u ≠ t → ThreadOk s' (s.threads u))
    (u : ℕ) : ThreadOk s' ((s.goto t thread).threads u) := by
  by_cases hut : u = t
  · subst hut
    simpa [State.goto] using hok
  · simpa [State.goto, hut] using hs u hut

theorem spares_goto (s : State) (t : ℕ) (thread : Thread) : Spares s (s.goto t thread) :=
  ⟨fun _ => id, id, rfl, fun _ _ => id, fun _ => id, rfl, fun _ => id⟩

/-- What a step of thread `t` leaves alone, apart from the tokens. -/
structure Moves (s s' : State) (t : ℕ) (thread : Thread) : Prop where
  threads : s'.threads = (s.goto t thread).threads
  trigger : ∀ h, thread.trigger = some h →
    ((s.threads t).trigger = some h ∨ s.pointer = .handler h) ∧
      ∀ u, u ≠ t → (s.threads u).trigger = none
  installer : s'.installer = s.installer
  word : ∀ h, s.word h = .uninstalled → s'.word h = .uninstalled
  installed : ∀ h, s'.pointer = .handler h → s'.word h = .installed → s.word h = .installed
  pointer : ∀ h, s'.pointer = .handler h → s.pointer = .handler h
  null : s.pointer = .null → s'.pointer = .null
  callback : s'.callback = s.callback
  ran : s'.ran = s.ran
  released : s'.released = s.released
  logs : s'.failed = s.failed ∧ s'.left = s.left ∧ s'.late = s.late

theorem Moves.follows (hm : Moves s s' t thread) : Follows s s' := by
  refine ⟨hm.installer, hm.word, hm.pointer, hm.null, fun u h hu => ?_, hm.callback⟩
  rw [hm.threads] at hu
  rcases trigger_goto hu with ⟨rfl, hx⟩ | ⟨-, hx⟩
  · exact (hm.trigger h hx).1
  · exact Or.inl hx

theorem Moves.spares (hm : Moves s s' t thread) : Spares s s' :=
  ⟨hm.pointer, hm.null, hm.ran, hm.installed, fun _ => live_follows hm.follows, hm.callback,
    fun h hr => (congrFun hm.released h).trans hr⟩

theorem Inv.moves (hi : Inv s) (t : ℕ) (thread : Thread) (hm : Moves s s' t thread)
    (hkept : Kept s'.place s'.Live)
    (hwindows : Kept (fun u => (s'.threads u).window) fun h => s'.word h = .uninstalling)
    (hok : ThreadOk s' thread) : Inv s' := by
  obtain ⟨hfailed, hleft, hlate⟩ := hm.logs
  refine ⟨hfailed.trans hi.failed, hleft.trans hi.left, hlate.trans hi.late, hkept, hwindows,
    fun u => ?_, hm.installer ▸ hi.installer.follows hm.follows, fun u v j k hu hv => ?_,
    hm.ran ▸ hi.once, fun hr => hm.null (hi.ran (hm.ran ▸ hr)), fun h hl => ?_, fun h hw => ?_⟩
  · rw [hm.threads]
    exact threads_goto hok (fun v _ => (hi.threads v).keep hm.spares) u
  · rw [hm.threads] at hu hv
    rcases trigger_goto hu with ⟨rfl, hx⟩ | ⟨hut, hx⟩ <;>
      rcases trigger_goto hv with ⟨rfl, hy⟩ | ⟨hvt, hy⟩
    · rfl
    · exact absurd hy (by simp [(hm.trigger j hx).2 v hvt])
    · exact absurd hx (by simp [(hm.trigger k hy).2 u hut])
    · exact hi.sole u v j k hx hy
  · rw [hm.callback]
    exact hi.callback h (live_follows hm.follows hl)
  · rw [hm.released]
    exact hi.released h fun hx => hw (hm.word h hx)

theorem kept_same {place' : Place → Option ℕ} {live' : ℕ → Prop} (hk : Kept s.place s.Live)
    (hp : place' = Function.update s.place (.thread t) (s.threads t).token)
    (hl : ∀ h, live' h ↔ s.Live h) : Kept place' live' := by
  have hsame : Function.update s.place (.thread t) (s.threads t).token = s.place :=
    Function.update_eq_self (.thread t) s.place
  rw [hp, hsame]
  exact hk.congr hl

theorem windows_same (hi : Inv s) (hw : thread.window = (s.threads t).window) :
    Kept (fun u => ((s.goto t thread).threads u).window) fun h => s.word h = .uninstalling := by
  have hsame : Function.update (fun u => (s.threads u).window) t (s.threads t).window =
    fun u => (s.threads u).window := Function.update_eq_self t fun u => (s.threads u).window
  rw [window_goto, hw, hsame]
  exact hi.windows

/-- A thread moves on with what it keeps. -/
theorem Inv.goto {thread' : Thread} (hi : Inv s) (ht : s.threads t = thread')
    (htoken : thread.token = thread'.token) (hwindow : thread.window = thread'.window)
    (htrigger : thread.trigger = none ∨ thread.trigger = thread'.trigger)
    (hok : ThreadOk s thread) : Inv (s.goto t thread) := by
  subst ht
  refine hi.moves t thread ⟨rfl, fun h hx => ?_, rfl, fun _ => id, fun _ _ => id, fun _ => id, id,
    rfl, rfl, rfl, rfl, rfl, rfl⟩
    (kept_same hi.kept ((place_goto ..).trans (by rw [htoken])) fun _ => Iff.rfl)
    (windows_same hi hwindow) (hok.keep (spares_goto ..))
  rcases htrigger with hn | hs
  · simp [hn] at hx
  · have ht : (s.threads t).trigger = some h := hs ▸ hx
    refine ⟨Or.inl ht, fun u hut => ?_⟩
    cases hu : (s.threads u).trigger with
    | none => rfl
    | some k => exact absurd (hi.sole u t k h hu ht) hut

theorem live_setWord {word : Word} :
    (s.setWord g word).Live h ↔
      (if h = g then word ≠ .uninstalled else s.word h ≠ .uninstalled) ∨
        s.installer.marks = some h := by
  simp only [State.Live, State.setWord, Function.update_apply]
  split <;> rfl

theorem word_setWord {word : Word} :
    (s.setWord g word).word h = if h = g then word else s.word h :=
  Function.update_apply ..

/-- Setting a handler to `UNINSTALLED` gives nobody another word. -/
theorem word_of_setWord {word : Word} (hw : word ≠ .uninstalled)
    (hk : (s.setWord g .uninstalled).word h = word) : s.word h = word := by
  rw [word_setWord] at hk
  split at hk
  · exact absurd hk.symm hw
  · exact hk

/-- `Uninstall()` sets its handler to `UNINSTALLING`. -/
theorem inv_updating (hi : Inv s) (ht : s.threads t = .updating h) (hw : s.word h = .installed) :
    Inv ((s.setWord h .uninstalling).goto t (.uninstalling h)) := by
  have hlive : ∀ k, (s.setWord h .uninstalling).Live k ↔ s.Live k := by
    intro k
    rw [live_setWord]
    by_cases hk : k = h
    · subst hk
      simp [State.Live, hw]
    · simp [State.Live, hk]
  refine hi.moves t (.uninstalling h) ⟨rfl, by simp [Thread.trigger], rfl,
    fun k hk => ?_, fun k _ hk => ?_, fun _ => id, id, rfl, rfl, rfl, rfl, rfl, rfl⟩
    (kept_same hi.kept (t := t) ((place_goto ..).trans (by rw [ht]; rfl)) hlive) ?_ trivial
  · have hkh : k ≠ h := by
      rintro rfl
      simp [hw] at hk
    exact word_setWord.trans ((if_neg hkh).trans hk)
  · by_cases hkh : k = h
    · exact hkh ▸ hw
    · exact ((if_neg hkh).symm.trans word_setWord.symm).trans hk
  · rw [window_goto]
    have hwindow : (s.threads t).window = none := by
      rw [ht]
      rfl
    refine (hi.windows.gain (k := h) hwindow (by simp [hw])).congr fun k => ?_
    rw [show ((s.setWord h .uninstalling).goto t (.uninstalling h)).word k = _ from word_setWord]
    by_cases hk : k = h
    · simp [hk]
    · simp [hk]

/-- `Uninstall()` takes its handler out of `handler_`. -/
theorem inv_uninstalling (hi : Inv s) (ht : s.threads t = .uninstalling h)
    (hp : s.pointer = .handler h) :
    Inv { s.goto t (.finishing h) with pointer := .placeholder } := by
  refine hi.moves t (.finishing h) ⟨rfl, by simp [Thread.trigger], rfl,
    fun _ => id, fun k hk => by simp at hk, fun k hk => by simp at hk, fun hn => by simp [hp] at hn,
    rfl, rfl, rfl, rfl, rfl, rfl⟩ ?_ (windows_same hi (by rw [ht]; rfl)) trivial
  have hplace : State.place { s.goto t (.finishing h) with pointer := .placeholder } =
      Function.update (Function.update s.place .pointer none) (.thread t) (some h) := by
    funext p
    cases p with
    | pointer => rfl
    | installer => rfl
    | thread u => by_cases hut : u = t <;> simp [State.place, State.goto, Thread.token, hut]
  rw [hplace]
  exact hi.kept.move (by simp) (congrArg Pointer.token hp) (congrArg Thread.token ht)

theorem kept_drop (hi : Inv s) (hp : s.place p = some h) (hm : s.installer.marks ≠ some h)
    {place' : Place → Option ℕ} (hplace : place' = Function.update s.place p none) :
    Kept place' (s.setWord h .uninstalled).Live := by
  rw [hplace]
  refine (hi.kept.drop hp).congr fun k => ?_
  rw [live_setWord]
  by_cases hk : k = h
  · subst hk
    simp [hm]
  · simp [State.Live, hk]

theorem windows_drop (hi : Inv s) {word : Word} (hw : (s.threads t).window = some h)
    (hn : thread.window = none) (hword : word ≠ .uninstalling) :
    Kept (fun u => ((s.goto t thread).threads u).window)
      fun k => (s.setWord h word).word k = .uninstalling := by
  rw [window_goto, hn]
  refine (hi.windows.drop (p := t) hw).congr fun k => ?_
  rw [word_setWord]
  by_cases hk : k = h
  · simp [hk, hword]
  · simp [hk]

/-- A handler that has been found in `handler_` is not about to be set to `INSTALLED`. -/
theorem Inv.not_marks (hi : Inv s) (hw : s.word h ≠ .uninstalled) :
    s.installer.marks ≠ some h := by
  intro hm
  have hok := hi.installer
  cases hx : s.installer <;> simp only [hx, Installer.marks] at hm <;> try simp at hm
  subst hm
  rw [hx] at hok
  exact hw hok.1

theorem Inv.word_of_window (hi : Inv s) (ht : s.threads t = thread)
    (hw : thread.window = some h) : s.word h = .uninstalling := by
  apply hi.windows.live t h
  rw [ht]
  exact hw

/-- `Uninstall()` sets its handler to `UNINSTALLED`. -/
theorem inv_releasing (hi : Inv s) (ht : s.threads t = .releasing h) :
    Inv ((s.setWord h .uninstalled).goto t (.waiting h)) := by
  have hw : s.word h = .uninstalling := hi.word_of_window ht rfl
  refine hi.moves t (.waiting h) ⟨rfl, by simp [Thread.trigger], rfl,
    fun k hk => ?_, fun k _ hk => ?_, fun _ => id, id, rfl, rfl, rfl, rfl, rfl, rfl⟩
    (kept_drop hi (token_of ht) (hi.not_marks (by simp [hw])) (place_goto ..))
    (windows_drop hi (by rw [ht]; rfl) rfl (by simp)) fun _ => ?_
  · change (s.setWord h .uninstalled).word k = _
    rw [word_setWord, hk, ite_self]
  · exact word_of_setWord (g := h) (by simp) hk
  · simp [State.setWord, State.goto]

/-- `Uninstall()` sets its handler back to `INSTALLED`, as somebody else has to uninstall it. -/
theorem inv_restoring (hi : Inv s) (ht : s.threads t = .restoring h) :
    Inv ((s.setWord h .installed).goto t (.waiting h)) := by
  have hw : s.word h = .uninstalling := hi.word_of_window ht rfl
  have hok : ThreadOk s (.restoring h) := ht ▸ hi.threads t
  have hlive : ∀ k, (s.setWord h .installed).Live k ↔ s.Live k := by
    intro k
    rw [live_setWord]
    by_cases hk : k = h
    · subst hk
      simp [State.Live, hw]
    · simp [State.Live, hk]
  refine hi.moves t (.waiting h) ⟨rfl, by simp [Thread.trigger], rfl,
    fun k hk => ?_, fun k hp hk => ?_, fun _ => id, id, rfl, rfl, rfl, rfl, rfl, rfl⟩
    (kept_same hi.kept (t := t) ((place_goto ..).trans (by rw [ht]; rfl)) hlive)
    (windows_drop hi (by rw [ht]; rfl) rfl (by simp)) fun hp => absurd hp hok
  · have hkh : k ≠ h := by
      rintro rfl
      simp [hw] at hk
    exact word_setWord.trans ((if_neg hkh).trans hk)
  · have hkh : k ≠ h := by
      rintro rfl
      exact hok hp
    exact ((if_neg hkh).symm.trans word_setWord.symm).trans hk

/-- `Trigger()` finds a handler, and is the first to be run. -/
theorem inv_exchanging_handler (hi : Inv s) (ht : s.threads t = .exchanging)
    (hp : s.pointer = .handler h) : Inv { s.goto t (.taken h) with pointer := .null } := by
  have hnull : s.pointer ≠ .null := by simp [hp]
  have hran : s.ran = [] := by
    by_contra hr
    exact hnull (hi.ran hr)
  refine hi.moves t (.taken h) ⟨rfl, fun k hk => ⟨?_, fun u _ => ?_⟩, rfl,
    fun _ => id, fun k hk => by simp at hk, fun k hk => by simp at hk, fun _ => rfl,
    rfl, rfl, rfl, rfl, rfl, rfl⟩ ?_ (windows_same hi (by rw [ht]; rfl)) ⟨rfl, hran⟩
  · simp only [Thread.trigger, Option.some.injEq] at hk
    exact Or.inr (hk ▸ hp)
  · have hok := hi.threads u
    cases hu : s.threads u <;> simp only [Thread.trigger] <;> rw [hu] at hok
    · exact absurd hok.1 hnull
    · exact absurd hok.1 hnull
    · exact absurd hok.1 hnull
  · have hplace : State.place { s.goto t (.taken h) with pointer := .null } =
        Function.update (Function.update s.place .pointer none) (.thread t) (some h) := by
      funext p
      cases p with
      | pointer => rfl
      | installer => rfl
      | thread u => by_cases hut : u = t <;> simp [State.place, State.goto, Thread.token, hut]
    rw [hplace]
    exact hi.kept.move (by simp) (congrArg Pointer.token hp) (congrArg Thread.token ht)

theorem inv_exchanging (hi : Inv s) (ht : s.threads t = .exchanging)
    (hp : ∀ h, s.pointer ≠ .handler h) : Inv { s.goto t .idle with pointer := .null } := by
  refine hi.moves t .idle ⟨rfl, by simp [Thread.trigger], rfl,
    fun _ => id, fun k hk => by simp at hk, fun k hk => by simp at hk, fun _ => rfl,
    rfl, rfl, rfl, rfl, rfl, rfl⟩ (kept_same hi.kept (t := t) ?_ fun _ => Iff.rfl)
    (windows_same hi (by rw [ht]; rfl)) trivial
  have hnone : s.pointer.token = none := by
    cases hx : s.pointer with
    | null | placeholder => rfl
    | handler h => exact absurd hx (hp h)
  funext p
  cases p with
  | pointer => exact hnone.symm
  | installer => rfl
  | thread u =>
    by_cases hut : u = t
    · subst hut
      simp [State.place, State.goto, ht, Thread.token]
    · simp [State.place, State.goto, hut]

/-- `Trigger()` sets its handler to `UNINSTALLED`. -/
theorem inv_setting (hi : Inv s) (ht : s.threads t = .setting h) (hw : s.word h = .installed) :
    Inv ((s.setWord h .uninstalled).goto t (.invoking h)) := by
  have hok : ThreadOk s (.setting h) := ht ▸ hi.threads t
  have htrigger : (s.threads t).trigger = some h := by
    rw [ht]
    rfl
  have hmarks := hi.not_marks (h := h) (by simp [hw])
  have hkept : Kept ((s.setWord h .uninstalled).goto t (.invoking h)).place
      (s.setWord h .uninstalled).Live :=
    kept_drop hi (token_of ht) hmarks (place_goto ..)
  refine hi.moves t (.invoking h) ⟨rfl, fun k hk => ⟨Or.inl ?_, fun u hut => ?_⟩,
    rfl, fun k hk => ?_, fun k _ hk => ?_, fun _ => id, id, rfl, rfl, rfl, rfl, rfl, rfl⟩
    hkept ?_ ⟨hok.1, hok.2, ?_, ?_, ?_⟩
  · simp only [Thread.trigger, Option.some.injEq] at hk
    exact hk ▸ htrigger
  · cases hu : (s.threads u).trigger with
    | none => rfl
    | some j => exact absurd (hi.sole u t j h hu htrigger) hut
  · change (s.setWord h .uninstalled).word k = _
    rw [word_setWord, hk, ite_self]
  · exact word_of_setWord (g := h) (by simp) hk
  · rw [window_goto]
    have hsame : Function.update (fun u => (s.threads u).window) t none =
        fun u => (s.threads u).window := by
      refine Function.update_eq_self_iff.mpr ?_
      rw [ht]
      rfl
    refine (hsame ▸ hi.windows).congr fun k => ?_
    change (s.setWord h .uninstalled).word k = _ ↔ _
    rw [word_setWord]
    by_cases hk : k = h
    · simp [hk, hw]
    · simp [hk]
  · exact hi.callback h (Or.inl (by simp [hw]))
  · change ¬ (s.setWord h .uninstalled).Live h
    rw [live_setWord]
    simp [hmarks]
  · exact hi.released h (by simp [hw])

/-- `Uninstall()` returns, when no `Trigger()` is about to run the callback. -/
theorem inv_waiting (hi : Inv s) (ht : s.threads t = .waiting h) (hw : s.word h = .uninstalled)
    (hn : ∀ u, s.threads u ≠ .invoking h) :
    Inv { s.goto t .idle with released := Function.update s.released h true } := by
  have hg : Inv (s.goto t .idle) := hi.goto ht rfl rfl (Or.inl rfl) trivial
  have hreleased : ∀ k, k ≠ h → Function.update s.released h true k = s.released k :=
    fun k hk => Function.update_of_ne hk _ _
  exact { hg with
    threads := threads_goto trivial fun u _ => by
      have hok := hi.threads u
      cases hu : s.threads u with
      | idle | loading | updating | uninstalling | finishing | releasing | exchanging => trivial
      | restoring k => exact (hu ▸ hok : ThreadOk s (.restoring k))
      | waiting k => exact (hu ▸ hok : ThreadOk s (.waiting k))
      | taken k => exact (hu ▸ hok : ThreadOk s (.taken k))
      | setting k => exact (hu ▸ hok : ThreadOk s (.setting k))
      | invoking k =>
        obtain ⟨hp, hr, hc, hl, hrel⟩ : ThreadOk s (.invoking k) := hu ▸ hok
        have hkh : k ≠ h := by
          rintro rfl
          exact hn u hu
        exact ⟨hp, hr, hc, hl, (hreleased k hkh).trans hrel⟩
    installer := hg.installer.follows ⟨rfl, fun _ => id, fun _ => id, id, fun _ _ => Or.inl, rfl⟩
    released := fun k hk => by
      have hkh : k ≠ h := by
        rintro rfl
        exact hk hw
      exact (hreleased k hkh).trans (hi.released k hk) }

/-- `Trigger()` runs the callback. -/
theorem inv_invoking (hi : Inv s) (ht : s.threads t = .invoking h)
    (hl : s.installer ≠ .loading h true) :
    Inv { (s.takeCallback h).goto t .idle with
      ran := s.ran ++ [h], late := if s.released h then s.late ++ [h] else s.late } := by
  obtain ⟨hp, hr, hc, hlive, hrel⟩ : ThreadOk s (.invoking h) := ht ▸ hi.threads t
  have htrigger : (s.threads t).trigger = some h := by
    rw [ht]
    rfl
  have hg : Inv (s.goto t .idle) := hi.goto ht rfl rfl (Or.inl rfl) trivial
  have hcallback : ∀ k, k ≠ h → Function.update s.callback h false k = s.callback k :=
    fun k hk => Function.update_of_ne hk _ _
  have huntaken : ∀ k, Untaken s k → k ≠ h := by
    rintro k hk rfl
    exact hk.trigger t htrigger
  have hmove : ∀ k, Untaken s k → Untaken { (s.takeCallback h).goto t .idle with
      ran := s.ran ++ [h], late := if s.released h then s.late ++ [h] else s.late } k := by
    intro k hk
    refine ⟨hk.pointer, (hcallback k (huntaken k hk)).trans hk.callback, fun u hu => ?_⟩
    rcases trigger_goto hu with ⟨-, hx⟩ | ⟨-, hx⟩
    · simp [Thread.trigger] at hx
    · exact hk.trigger u hx
  exact { hg with
    late := by
      change (if s.released h = true then s.late ++ [h] else s.late) = []
      rw [if_neg (by simp [hrel])]
      exact hi.late
    threads := threads_goto trivial fun u hut => by
      have hok := hi.threads u
      have hnone : (s.threads u).trigger = none := by
        cases hu : (s.threads u).trigger with
        | none => rfl
        | some k => exact absurd (hi.sole u t k h hu htrigger) hut
      change ThreadOk _ (s.threads u)
      cases hu : s.threads u with
      | idle | loading | updating | uninstalling | finishing | releasing | exchanging => trivial
      | restoring k => exact (hu ▸ hok : ThreadOk s (.restoring k))
      | waiting k => exact (hu ▸ hok : ThreadOk s (.waiting k))
      | taken k | setting k | invoking k =>
        rw [hu] at hnone
        simp [Thread.trigger] at hnone
    installer := by
      have hok := hi.installer
      change InstallerOk _ s.installer
      cases hx : s.installer with
      | idle => trivial
      | loading k e =>
        rw [hx] at hok
        by_cases hk : k = h
        · subst hk
          refine Or.inr ⟨hp, ?_⟩
          cases e with
          | false => rfl
          | true => exact absurd hx hl
        · exact hok.imp (fun hc => (hcallback k hk).trans hc) id
      | checking k e stored =>
        rw [hx] at hok
        exact ⟨hmove k hok.1, hok.2⟩
      | swapping k e stored =>
        rw [hx] at hok
        exact ⟨hmove k hok.1, hok.2⟩
      | marking k e stored i => exact (hx ▸ hok : InstallerOk s (.marking k e stored i))
      | reading k e g i => exact (hx ▸ hok : InstallerOk s (.reading k e g i))
      | replacing k e g i st => exact (hx ▸ hok : InstallerOk s (.replacing k e g i st))
      | executing k =>
        rw [hx] at hok
        exact ⟨hmove k hok.1, hok.2⟩
      | invoking k =>
        rw [hx] at hok
        exact ⟨hmove k hok.1, hok.2⟩
    once := by
      change (s.ran ++ [h]).length ≤ 1
      simp [hr]
    ran := fun _ => hp
    callback := fun k hk => by
      have hkh : k ≠ h := by
        rintro rfl
        exact hlive hk
      exact (hcallback k hkh).trans (hi.callback k hk) }

section Installer

variable {i : Installer}

theorem place_installer (s : State) (i : Installer) :
    State.place { s with installer := i } = Function.update s.place .installer i.token := by
  funext p
  cases p <;> simp [State.place]

theorem Inv.no_trigger (hi : Inv s) (hp : s.pointer ≠ .null) (t h : ℕ) :
    (s.threads t).trigger ≠ some h := by
  intro ht
  have hok := hi.threads t
  cases hx : s.threads t <;> rw [hx] at ht hok <;> simp only [Thread.trigger] at ht <;>
    first | exact hp hok.1 | simp at ht

/-- A handler that nobody has to uninstall is `UNINSTALLED`. -/
theorem Inv.not_live (hi : Inv s) (hp : s.pointer ≠ .handler h) (hn : s.installer.token ≠ some h)
    (hw : ∀ t, (s.threads t).window ≠ some h)
    (ht : ∀ t, s.threads t ≠ .taken h ∧ s.threads t ≠ .setting h) : ¬ s.Live h := by
  intro hl
  obtain ⟨p, hx⟩ := hi.kept.found h hl
  cases p with
  | pointer =>
    cases hy : s.pointer <;> simp only [State.place, hy, Pointer.token] at hx <;> simp at hx
    exact hp (hx ▸ hy)
  | installer => exact hn hx
  | thread t =>
    have hwt := hw t
    have htt := ht t
    cases hy : s.threads t <;> simp only [State.place, hy, Thread.token] at hx <;> simp at hx
    · exact hwt (by rw [hy, hx]; rfl)
    · exact hwt (by rw [hy, hx]; rfl)
    · exact htt.1 (hx ▸ hy)
    · exact htt.2 (hx ▸ hy)

theorem word_of_not_live (hl : ¬ s.Live h) : s.word h = .uninstalled := by
  by_contra hw
  exact hl (Or.inl hw)

/-- The installer moves on with what it keeps. -/
theorem Inv.install {j : Installer} (hi : Inv s) (hx : s.installer = j) (htoken : i.token = j.token)
    (hmarks : i.marks = j.marks) (hok : InstallerOk s i) : Inv { s with installer := i } := by
  subst hx
  have hlive : ∀ h, State.Live { s with installer := i } h ↔ s.Live h := by
    intro h
    simp only [State.Live, hmarks]
  have hkept :
      Kept (State.place { s with installer := i }) (State.Live { s with installer := i }) := by
    have hsame : Function.update s.place .installer s.installer.token = s.place :=
      Function.update_eq_self .installer s.place
    rw [place_installer, htoken, hsame]
    exact hi.kept.congr hlive
  exact { hi with
    kept := hkept
    threads := fun t => (hi.threads t).keep
      ⟨fun _ => id, id, rfl, fun _ _ => id, fun h hl => (hlive h).mp hl, rfl, fun _ => id⟩
    installer := by
      cases i with
      | checking h e stored => exact ⟨⟨hok.1.1, hok.1.2, hok.1.3⟩, hok.2⟩
      | swapping h e stored => exact ⟨⟨hok.1.1, hok.1.2, hok.1.3⟩, hok.2⟩
      | executing h => exact ⟨⟨hok.1.1, hok.1.2, hok.1.3⟩, hok.2⟩
      | invoking h => exact ⟨⟨hok.1.1, hok.1.2, hok.1.3⟩, hok.2⟩
      | idle | loading | marking | reading | replacing => exact hok
    callback := fun h hl => hi.callback h ((hlive h).mp hl) }

theorem Inv.results (hi : Inv s) (results : List Bool) : Inv { s with results := results } :=
  { hi with
    installer := hi.installer.follows
      ⟨rfl, fun _ => id, fun _ => id, id, fun _ _ => Or.inl, rfl⟩
    threads := fun t => (hi.threads t).keep
      ⟨fun _ => id, id, rfl, fun _ _ => id, fun _ => id, rfl, fun _ => id⟩ }

/-- `Install()` returns true. -/
theorem inv_installed (hi : Inv s) (htoken : s.installer.token = none)
    (hmarks : s.installer.marks = none) : Inv (s.installReturns h execute true) := by
  have hx : s.installReturns h execute true =
      { s with installer := .idle, results := s.results ++ [true] } := by
    simp [State.installReturns]
  rw [hx]
  exact (hi.install (i := .idle) rfl htoken.symm hmarks.symm trivial).results _

/-- `Install()` returns false, when nobody has its handler. -/
theorem inv_refused (hi : Inv s) (hx : s.installer = .loading h execute) (hp : s.pointer = .null)
    (hw : ∀ t, (s.threads t).window ≠ some h)
    (ht : ∀ t, s.threads t ≠ .taken h ∧ s.threads t ≠ .setting h)
    (he : execute = true → ∀ t, s.threads t ≠ .invoking h) :
    Inv (s.installReturns h execute false) := by
  have hok : InstallerOk s (.loading h execute) := hx ▸ hi.installer
  have hword := word_of_not_live (hi.not_live (by simp [hp]) (by rw [hx]; simp [Installer.token])
    hw ht)
  have hs : s.installReturns h execute false =
      { s with
        installer := if execute then .executing h else .idle,
        results := s.results ++ [false] } := by
    simp [State.installReturns, hword]
  rw [hs]
  refine (hi.install (i := if execute then .executing h else .idle) rfl ?_ ?_ ?_).results _
  · rw [hx]
    cases execute <;> rfl
  · rw [hx]
    cases execute <;> rfl
  · cases execute with
    | false => trivial
    | true =>
      refine ⟨⟨by simp [hp], hok.resolve_right (by simp), fun t htr => ?_⟩, hp, hword⟩
      have htt := ht t
      have hit := he rfl t
      cases hy : s.threads t <;> rw [hy] at htr htt hit <;> simp [Thread.trigger] at htr
      · exact htt.1 (by rw [htr])
      · exact htt.2 (by rw [htr])
      · exact hit (by rw [htr])

/-- `Install()` exchanges `handler_` for its handler. -/
theorem inv_swapping (hi : Inv s) (hx : s.installer = .swapping h execute stored)
    (hp : s.pointer = stored) :
    Inv { s with pointer := .handler h, installer := .marking h execute stored true } := by
  obtain ⟨hu, hstored, hw⟩ : InstallerOk s (.swapping h execute stored) := hx ▸ hi.installer
  have hnull : s.pointer ≠ .null := hp ▸ hstored
  have hnone : s.place .installer = none := congrArg Installer.token hx
  have hnotlive : ¬ s.Live h := by
    rintro (hl | hl)
    · exact hl hw
    · simp [hx, Installer.marks] at hl
  have hlive : ∀ k, State.Live { s with
      pointer := .handler h, installer := .marking h execute stored true } k ↔
      s.Live k ∨ k = h := by
    intro k
    simp [State.Live, hx, Installer.marks, eq_comm]
  refine { hi with
    kept := ?_
    threads := fun t => ?_
    installer := ⟨hw, hstored, rfl⟩
    ran := fun hr => absurd (hi.ran hr) hnull
    callback := fun k hk => ?_ }
  · have hplace : State.place { s with
        pointer := .handler h, installer := .marking h execute stored true } =
        Function.update (Function.update s.place .installer stored.token) .pointer (some h) := by
      funext p
      cases p <;> simp [State.place, Pointer.token, Installer.token]
    rw [hplace]
    cases stored with
    | null => exact absurd rfl hstored
    | placeholder =>
      have hsame : Function.update s.place .installer none = s.place :=
        Function.update_eq_self_iff.mpr hnone.symm
      have hpointer : s.place .pointer = none := congrArg Pointer.token hp
      exact hsame.symm ▸ (hi.kept.gain hpointer hnotlive).congr hlive
    | handler g =>
      have hpointer : s.place .pointer = some g := congrArg Pointer.token hp
      have hmove := hi.kept.move (q := .installer) (by simp) hpointer hnone
      have hgain := hmove.gain (p := .pointer) (k := h) (by simp) hnotlive
      have hsame :
          Function.update (Function.update (Function.update s.place .pointer none) .installer
            (some g)) .pointer (some h) =
          Function.update (Function.update s.place .installer (some g)) .pointer (some h) := by
        funext p
        cases p <;> simp
      exact hsame ▸ hgain.congr hlive
  · have hok := hi.threads t
    change ThreadOk _ (s.threads t)
    cases ht : s.threads t with
    | idle | loading | updating | uninstalling | finishing | releasing | exchanging => trivial
    | restoring k =>
      intro hk
      obtain rfl : h = k := by simpa using hk
      have hwk := hi.word_of_window (h := h) ht rfl
      simp [hw] at hwk
    | waiting k =>
      intro hk
      obtain rfl : h = k := by simpa using hk
      simp [hw]
    | taken k | setting k | invoking k =>
      rw [ht] at hok
      exact absurd hok.1 hnull
  · rcases (hlive k).mp hk with hl | rfl
    · exact hi.callback k hl
    · exact hu.callback

/-- `Install()` sets its handler to `INSTALLED`, when no `Uninstall()` waits for it. -/
theorem inv_marking (hi : Inv s) (hx : s.installer = .marking h execute stored installed)
    (hn : s.pointer = .handler h → ∀ t, s.threads t ≠ .waiting h)
    (hi' : i.token = stored.token) (hm : i.marks = none)
    (hok : ∀ s, InstallerOk s i) :
    Inv { s.setWord h .installed with
      released := Function.update s.released h false, installer := i } := by
  obtain ⟨hw, hstored, hinstalled⟩ : InstallerOk s (.marking h execute stored installed) :=
    hx ▸ hi.installer
  have hlive : ∀ k, State.Live { s.setWord h .installed with
      released := Function.update s.released h false, installer := i } k ↔ s.Live k := by
    intro k
    change (s.setWord h .installed).word k ≠ .uninstalled ∨ i.marks = some k ↔
      s.word k ≠ .uninstalled ∨ s.installer.marks = some k
    have hmarks : s.installer.marks = some h := by
      rw [hx]
      rfl
    rw [word_setWord, hm, hmarks]
    by_cases hk : k = h
    · simp [hk]
    · simp [hk, Ne.symm hk]
  have hreleased : ∀ k, s.released k = false → Function.update s.released h false k = false := by
    intro k hk
    by_cases hkh : k = h
    · simp [hkh]
    · exact (Function.update_of_ne hkh _ _).trans hk
  refine { hi with
    kept := ?_
    windows := ?_
    threads := fun t => ?_
    installer := hok _
    callback := fun k hk => hi.callback k ((hlive k).mp hk)
    released := fun k hk => ?_ }
  · have hsame : Function.update s.place .installer i.token = s.place := by
      refine Function.update_eq_self_iff.mpr ?_
      rw [hi', State.place, hx]
      rfl
    exact ((hsame ▸ place_installer s i : State.place { s with installer := i } = s.place) ▸
      hi.kept).congr hlive
  · refine hi.windows.congr fun k => ?_
    change (s.setWord h .installed).word k = _ ↔ _
    rw [word_setWord]
    by_cases hk : k = h
    · simp [hk, hw]
    · simp [hk]
  · change ThreadOk _ (s.threads t)
    have hokt := hi.threads t
    cases ht : s.threads t with
    | idle | loading | updating | uninstalling | finishing | releasing | exchanging => trivial
    | restoring k => exact (ht ▸ hokt : ThreadOk s (.restoring k))
    | waiting k =>
      intro hp hword
      have hkh : k ≠ h := by
        rintro rfl
        exact hn hp t ht
      change (s.setWord h .installed).word k = _ at hword
      rw [word_setWord, if_neg hkh] at hword
      exact (ht ▸ hokt : ThreadOk s (.waiting k)) hp hword
    | taken k => exact (ht ▸ hokt : ThreadOk s (.taken k))
    | setting k => exact (ht ▸ hokt : ThreadOk s (.setting k))
    | invoking k =>
      obtain ⟨hp, hr, hc, hl, hrel⟩ : ThreadOk s (.invoking k) := ht ▸ hokt
      exact ⟨hp, hr, hc, fun hl' => hl ((hlive k).mp hl'), hreleased k hrel⟩
  · by_cases hkh : k = h
    · subst hkh
      exact Function.update_self ..
    · change (s.setWord h .installed).word k ≠ _ at hk
      rw [word_setWord, if_neg hkh] at hk
      exact hreleased k (hi.released k hk)

/-- Whoever has to uninstall a handler finds it `INSTALLED`, when no `Uninstall()` of it is under
way. -/
theorem Inv.word_taken (hi : Inv s) (htoken : s.place p = some g)
    (hw : ∀ t, (s.threads t).window ≠ some g) (hmarks : s.installer.marks ≠ some g) :
    s.word g = .installed := by
  have hlive := hi.kept.live p g htoken
  cases hx : s.word g with
  | uninstalled => exact hlive.elim (fun hl => absurd hx hl) fun hm => absurd hm hmarks
  | installed => rfl
  | uninstalling =>
    obtain ⟨t, ht⟩ := hi.windows.found g hx
    exact absurd ht (hw t)

/-- `Install()` sets the handler that it has replaced to `UNINSTALLED`. -/
theorem inv_replacing (hi : Inv s) {state : Word}
    (hx : s.installer = .replacing h execute g installed state) (hw : s.word g = .installed) :
    Inv ((s.setWord g .uninstalled).installReturns h execute installed) := by
  obtain ⟨rfl, -⟩ : InstallerOk s (.replacing h execute g installed state) := hx ▸ hi.installer
  have htoken : s.place .installer = some g := congrArg Installer.token hx
  have hmarks : s.installer.marks = none := by
    rw [hx]
    rfl
  have hs : (s.setWord g .uninstalled).installReturns h execute true =
      { s.setWord g .uninstalled with installer := .idle, results := s.results ++ [true] } := by
    simp [State.installReturns, State.setWord]
  have hlive : ∀ k, State.Live { s.setWord g .uninstalled with installer := .idle } k ↔
      (s.setWord g .uninstalled).Live k := by
    intro k
    have hm : (s.setWord g .uninstalled).installer.marks = none := hmarks
    have hm' : Installer.idle.marks = none := rfl
    rw [State.Live, State.Live, hm, hm']
  have hstill : ∀ k,
      State.Live { s.setWord g .uninstalled with installer := .idle } k → s.Live k := by
    intro k hk
    have hk' := (hlive k).mp hk
    rw [live_setWord] at hk'
    rcases hk' with hl | hm
    · split at hl
      · exact absurd rfl hl
      · exact Or.inl hl
    · exact Or.inr hm
  have hspares : Spares s { s.setWord g .uninstalled with installer := .idle } := by
    refine ⟨fun _ => id, id, rfl, fun k _ hk => ?_, hstill, rfl, fun _ => id⟩
    exact word_of_setWord (g := g) (by simp) hk
  have hinv : Inv { s.setWord g .uninstalled with installer := .idle } :=
    { hi with
      kept := (kept_drop hi htoken (by simp [hmarks]) (place_installer s .idle)).congr hlive
      windows := hi.windows.congr fun k => by
        change (s.setWord g .uninstalled).word k = _ ↔ _
        rw [word_setWord]
        by_cases hk : k = g
        · simp [hk, hw]
        · simp [hk]
      threads := fun t => (hi.threads t).keep hspares
      installer := trivial
      callback := fun k hk => hi.callback k (hstill k hk)
      released := fun k hk => by
        change (s.setWord g .uninstalled).word k ≠ _ at hk
        rw [word_setWord] at hk
        split at hk
        · exact absurd rfl hk
        · exact hi.released k hk }
  rw [hs]
  exact hinv.results _

/-- `InstallOrExecuteIfTriggered()` runs the callback. -/
theorem inv_executed (hi : Inv s) (hx : s.installer = .invoking h) :
    Inv { s.takeCallback h with installer := .idle, executed := s.executed ++ [h] } := by
  obtain ⟨hu, hp, hw⟩ : InstallerOk s (.invoking h) := hx ▸ hi.installer
  have hg := hi.install (i := .idle) hx rfl rfl trivial
  have hcallback : ∀ k, k ≠ h → Function.update s.callback h false k = s.callback k :=
    fun k hk => Function.update_of_ne hk _ _
  exact { hg with
    threads := fun t => by
      change ThreadOk _ (s.threads t)
      have hok : ThreadOk _ (s.threads t) := hg.threads t
      have hne := hu.trigger t
      cases ht : s.threads t with
      | idle | loading | updating | uninstalling | finishing | releasing | exchanging => trivial
      | restoring k | waiting k | taken k | setting k =>
        rw [ht] at hok
        exact hok
      | invoking k =>
        rw [ht] at hok hne
        obtain ⟨hp, hr, hc, hl, hrel⟩ := hok
        have hkh : k ≠ h := by
          rintro rfl
          exact hne rfl
        exact ⟨hp, hr, (hcallback k hkh).trans hc, hl, hrel⟩
    installer := trivial
    callback := fun k hk => by
      have hkh : k ≠ h := by
        rintro rfl
        exact hk.elim (fun hl => hl hw) (by simp [Installer.marks])
      exact (hcallback k hkh).trans (hg.callback k hk) }

/-- `Install()` is called, with a callback or on a handler that has one. -/
theorem inv_install (hi : Inv s) (hx : s.installer = .idle) {fresh : Bool}
    (hf : fresh = true ∨ s.callback h = true) : Inv (s.install h fresh execute) := by
  cases fresh with
  | false =>
    have hc : s.callback h = true := hf.resolve_left (by simp)
    have hs : s.install h false execute = { s with installer := .loading h execute } := by
      simp [State.install, hc]
    rw [hs]
    exact hi.install hx rfl rfl (Or.inl hc)
  | true =>
    have hcallback : ∀ k, s.callback k = true → Function.update s.callback h true k = true := by
      intro k hk
      by_cases hkh : k = h
      · simp [hkh]
      · exact (Function.update_of_ne hkh _ _).trans hk
    have hinv : Inv { s with callback := Function.update s.callback h true } :=
      { hi with
        threads := fun t => by
          change ThreadOk _ (s.threads t)
          have hok := hi.threads t
          cases ht : s.threads t with
          | idle | loading | updating | uninstalling | finishing | releasing | exchanging => trivial
          | restoring k | waiting k | taken k | setting k =>
            rw [ht] at hok
            exact hok
          | invoking k =>
            rw [ht] at hok
            obtain ⟨hp, hr, hc, hl, hrel⟩ := hok
            exact ⟨hp, hr, hcallback k hc, hl, hrel⟩
        installer := by
          change InstallerOk _ s.installer
          rw [hx]
          trivial
        callback := fun k hk => hcallback k (hi.callback k hk) }
    exact hinv.install (i := .loading h execute) hx rfl rfl
      (Or.inl (Function.update_self ..))

end Installer

end Steps

end Eventuals.Interrupt
