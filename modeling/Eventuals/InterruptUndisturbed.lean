import Eventuals.InterruptInvariant

/-! What has to hold between the accesses of one operation on an `Interrupt` for the others to be
safe beside it. -/
namespace Eventuals.Interrupt

open Transition (Machine)
open Tokens (Kept)

variable {s : State} {t h g : ℕ} {reload spurious : Bool}

section Undisturbed

/-- What may not happen between the accesses of an operation to the two words, step by step. -/
def UndisturbedInstall (s : State) (spurious : Bool) : Installer → Prop
  -- When `Install()` finds the interrupt triggered, nobody has changed one word of its handler and
  -- not the other, or is to run the callback that it will run itself.
  | .loading h execute => s.pointer = .null → ∀ t, (s.threads t).window ≠ some h ∧
    s.threads t ≠ .taken h ∧ s.threads t ≠ .setting h ∧ (execute = true → s.threads t ≠ .invoking h)
  -- Nobody is uninstalling its handler when it checks the state.
  | .checking h _ _ => ∀ t, (s.threads t).window ≠ some h
  -- `handler_` is as it was loaded, and the compare and exchange does not fail by itself.
  | .swapping _ _ stored => s.pointer = stored ∧ spurious = false
  -- Nobody waits for its handler, which is in `handler_`, to become `UNINSTALLED`.
  | .marking h _ _ _ => s.pointer = .handler h → ∀ t, s.threads t ≠ .waiting h
  -- Nobody is uninstalling the handler that it has replaced.
  | .reading _ _ g _ | .replacing _ _ g _ _ => ∀ t, (s.threads t).window ≠ some g
  | _ => True

def UndisturbedThread (s : State) (spurious : Bool) : Thread → Prop
  -- The compare and exchange of `Uninstall()` does not fail by itself.
  | .uninstalling h => s.pointer = .handler h → spurious = false
  -- `Uninstall()` does not return before a `Trigger()` that has taken its handler has run it.
  | .waiting h => ∀ t, s.threads t ≠ .invoking h
  -- The handler that `Trigger()` has taken is not being uninstalled, nor yet to be installed.
  | .taken h | .setting h => (∀ t, (s.threads t).window ≠ some h) ∧ s.installer.marks ≠ some h
  -- No `InstallOrExecuteIfTriggered()` counts on the callback that `Trigger()` runs.
  | .invoking h => s.installer ≠ .loading h true
  | _ => True

def Undisturbed (s : State) : Label → Prop
  | .install h fresh _ => fresh = true ∨ s.callback h = true
  | .step spurious => UndisturbedInstall s spurious s.installer
  | .thread t spurious => UndisturbedThread s spurious (s.threads t)
  | .uninstall .. | .trigger _ => True

theorem inv_init (callback : ℕ → Bool) : Inv (.init callback) := by
  refine ⟨rfl, rfl, rfl, ?_, ?_, fun _ => trivial, trivial, nofun, by simp [State.init], nofun,
    ?_, nofun⟩
  · have hplace : (State.init callback).place = fun _ => none := by
      funext p
      cases p <;> rfl
    rw [hplace]
    refine Tokens.kept_none fun h hl => ?_
    simp [State.Live, State.init, Installer.marks] at hl
  · exact Tokens.kept_none (by simp [State.init])
  · intro h hl
    simp [State.Live, State.init, Installer.marks] at hl

theorem inv_step (hi : Inv s) (hu : UndisturbedInstall s spurious s.installer) :
    Inv (s.step reload spurious) := by
  have hok := hi.installer
  unfold State.step
  cases hx : s.installer with
  | idle => exact hi
  | loading h execute =>
    rw [hx] at hok hu
    dsimp only
    split
    · next hp =>
      exact inv_refused hi hx hp (fun t => (hu hp t).1) (fun t => ⟨(hu hp t).2.1, (hu hp t).2.2.1⟩)
        fun he t => (hu hp t).2.2.2 he
    · next hp =>
      have hnull : s.pointer ≠ .null := by simp [hp]
      have hc : s.callback h = true := hok.resolve_right fun hn => hnull hn.1
      exact hi.install (i := .checking h execute .placeholder) hx rfl rfl
        ⟨⟨by simp [hp], hc, fun t => hi.no_trigger hnull t h⟩, by simp⟩
    · next g hp =>
      have hnull : s.pointer ≠ .null := by simp [hp]
      have hc : s.callback h = true := hok.resolve_right fun hn => hnull hn.1
      split
      · exact inv_installed hi (by rw [hx]; rfl) (by rw [hx]; rfl)
      · next hgh =>
        exact hi.install (i := .checking h execute (.handler g)) hx rfl rfl
          ⟨⟨by simpa [hp] using hgh, hc, fun t => hi.no_trigger hnull t h⟩, by simp⟩
  | checking h execute stored =>
    rw [hx] at hok hu
    obtain ⟨huntaken, hstored⟩ := hok
    have hinstaller : s.installer.token ≠ some h := by
      rw [hx]
      simp [Installer.token]
    have hw := word_of_not_live (hi.not_live huntaken.pointer hinstaller hu
      fun t => ⟨fun ht => huntaken.trigger t (by rw [ht]; rfl),
        fun ht => huntaken.trigger t (by rw [ht]; rfl)⟩)
    dsimp only
    rw [if_pos hw]
    exact hi.install hx rfl rfl ⟨huntaken, hstored, hw⟩
  | swapping h execute stored =>
    obtain ⟨hp, hs⟩ : s.pointer = stored ∧ spurious = false := by
      rw [hx] at hu
      exact hu
    dsimp only
    rw [if_pos ⟨hp, hs⟩]
    exact inv_swapping hi hx hp
  | marking h execute stored installed =>
    rw [hx] at hok hu
    obtain ⟨hw, hstored, rfl⟩ := hok
    dsimp only
    rw [if_pos hw]
    cases stored with
    | null => exact absurd rfl hstored
    | placeholder =>
      have hinv := inv_marking (i := .idle) hi hx hu rfl rfl fun _ => trivial
      have hs : { s.setWord h .installed with
          released := Function.update s.released h false }.installReturns h execute true =
          { { s.setWord h .installed with
              released := Function.update s.released h false, installer := .idle } with
            results := s.results ++ [true] } := by
        simp [State.installReturns]
        rfl
      exact hs ▸ hinv.results _
    | handler g => exact inv_marking hi hx hu rfl rfl fun _ => rfl
  | reading h execute g installed =>
    rw [hx] at hok hu
    have hw := hi.word_taken (p := .installer) (congrArg Installer.token hx) hu
      (by simp [hx, Installer.marks])
    exact hi.install hx rfl rfl ⟨hok, hw⟩
  | replacing h execute g installed state =>
    rw [hx] at hok hu
    have hw := hi.word_taken (p := .installer) (congrArg Installer.token hx) hu
      (by simp [hx, Installer.marks])
    dsimp only
    rw [if_pos (hw.trans hok.2.symm)]
    exact inv_replacing hi hx hw
  | executing h =>
    rw [hx] at hok
    dsimp only
    rw [if_pos hok.2.2]
    exact hi.install hx rfl rfl hok
  | invoking h =>
    rw [hx] at hok
    dsimp only
    rw [if_pos hok.1.callback]
    exact inv_executed hi hx

theorem inv_thread (hi : Inv s) (hr : Ready s (s.threads t))
    (hu : UndisturbedThread s spurious (s.threads t)) : Inv (s.thread t spurious) := by
  have hok := hi.threads t
  unfold State.thread State.threadStep
  cases hx : s.threads t with
  | idle => exact hi
  | loading h =>
    dsimp only
    split
    · exact hi.goto hx rfl rfl (Or.inl rfl) trivial
    · next hw => exact hi.goto hx rfl rfl (Or.inl rfl) fun _ => hw
  | updating h =>
    dsimp only
    split
    · next hw => exact inv_updating hi hx hw
    · next hw => exact hi.goto hx rfl rfl (Or.inl rfl) fun _ => hw
  | uninstalling h =>
    rw [hx] at hu
    dsimp only
    split
    · next hp => exact inv_uninstalling hi hx hp.1
    · next hp =>
      exact hi.goto hx rfl rfl (Or.inl rfl) fun hh => hp ⟨hh, hu hh⟩
  | finishing h =>
    have hw : s.word h = .uninstalling := hi.word_of_window hx rfl
    dsimp only
    rw [if_pos hw]
    exact hi.goto hx rfl rfl (Or.inl rfl) trivial
  | releasing h =>
    have hw : s.word h = .uninstalling := hi.word_of_window hx rfl
    dsimp only
    rw [if_pos hw]
    exact inv_releasing hi hx
  | restoring h =>
    have hw : s.word h = .uninstalling := hi.word_of_window hx rfl
    dsimp only
    rw [if_pos hw]
    exact inv_restoring hi hx
  | waiting h =>
    rw [hx] at hr hu
    have hw : s.word h = .uninstalled := hr
    dsimp only
    rw [if_pos hw]
    exact inv_waiting hi hx hw hu
  | exchanging =>
    dsimp only
    split
    · next h hp => exact inv_exchanging_handler hi hx hp
    · next hp => exact inv_exchanging hi hx hp
  | taken h =>
    rw [hx] at hok hu
    have hw := hi.word_taken (token_of hx) hu.1 hu.2
    dsimp only
    rw [if_pos hw]
    exact hi.goto hx rfl rfl (Or.inr rfl) hok
  | setting h =>
    rw [hx] at hu
    have hw := hi.word_taken (token_of hx) hu.1 hu.2
    dsimp only
    rw [if_pos hw]
    exact inv_setting hi hx hw
  | invoking h =>
    rw [hx] at hok hu
    dsimp only
    rw [if_pos hok.2.2.1]
    exact inv_invoking hi hx hu

theorem inv_next {l : Label} (hi : Inv s) (he : Enabled s l) (hu : Undisturbed s l) :
    Inv (next reload s l) := by
  cases l with
  | install h fresh execute => exact inv_install hi he.2 hu
  | step spurious => exact inv_step hi hu
  | uninstall t h =>
    exact hi.goto he.2 rfl rfl (Or.inl rfl) trivial
  | trigger t => exact hi.goto he.2 rfl rfl (Or.inl rfl) trivial
  | thread t spurious => exact inv_thread hi he.2 hu

theorem inv_reachable (h : ((machine reload).restrict Undisturbed).Reachable s) : Inv s := by
  refine Machine.Reachable.invariant (P := Inv) (fun s hs => ?_) (fun s l hs he => ?_) h
  · obtain ⟨callback, rfl⟩ := hs
    exact inv_init callback
  · exact inv_next hs he.1 he.2

end Undisturbed

section Safe

def Installer.Replaces (reload : Bool) (h : ℕ) : Installer → Prop
  | .marking _ _ stored _ => stored = .handler h
  | .reading _ _ g _ => g = h
  | .replacing _ _ g _ state => g = h ∧ (reload = true ∨ state = .installed)
  | _ => False

/-- An operation under way is going to set the handler to `UNINSTALLED`. -/
def Pending (reload : Bool) (s : State) (h : ℕ) : Prop :=
  s.installer.Replaces reload h ∨
  ∃ t, s.threads t = .taken h ∨ s.threads t = .setting h ∨ s.threads t = .finishing h ∨
    s.threads t = .releasing h ∨ s.threads t = .uninstalling h ∧ s.pointer = .handler h

structure Safe (reload : Bool) (s : State) : Prop where
  checks : s.failed = none
  /-- An `Install()` that returned false left its handler `UNINSTALLED`. -/
  refused : s.left = []
  waits : ∀ t h, s.threads t = .waiting h → s.word h ≠ .uninstalled → Pending reload s h
  once : ∀ h, s.ran.count h ≤ 1
  /-- No callback was run by `Trigger()` after an `Uninstall()` of its handler had returned. -/
  late : s.late = []

theorem Inv.pending (hi : Inv s) (ht : s.threads t = .waiting h) (hw : s.word h ≠ .uninstalled) :
    Pending reload s h := by
  obtain ⟨p, hp⟩ := hi.kept.found h (Or.inl hw)
  cases p with
  | pointer =>
    have hpointer : s.pointer = .handler h := by
      cases hx : s.pointer <;> simp [State.place, hx, Pointer.token] at hp
      rw [hp]
    have hok : ThreadOk s (.waiting h) := ht ▸ hi.threads t
    have huninstalling : s.word h = .uninstalling := by
      cases hx : s.word h with
      | uninstalled => exact absurd hx hw
      | installed => exact absurd hx (hok hpointer)
      | uninstalling => rfl
    obtain ⟨u, hu⟩ := hi.windows.found h huninstalling
    refine Or.inr ⟨u, ?_⟩
    have hoku := hi.threads u
    cases hx : s.threads u <;> rw [hx] at hu hoku <;> simp [Thread.window] at hu <;> subst hu
    · exact Or.inr (Or.inr (Or.inr (Or.inr ⟨rfl, hpointer⟩)))
    · exact Or.inr (Or.inr (Or.inl rfl))
    · exact Or.inr (Or.inr (Or.inr (Or.inl rfl)))
    · exact absurd hpointer hoku
  | installer =>
    refine Or.inl ?_
    have hok := hi.installer
    cases hx : s.installer <;> simp [State.place, hx, Installer.token] at hp <;> rw [hx] at hok
    case marking k e stored i =>
      cases stored <;> simp [Pointer.token] at hp
      exact congrArg _ hp
    case reading => exact hp
    case replacing => exact ⟨hp, Or.inr hok.2⟩
  | thread u =>
    refine Or.inr ⟨u, ?_⟩
    cases hx : s.threads u <;> simp [State.place, hx, Thread.token] at hp <;> subst hp
    · exact Or.inr (Or.inr (Or.inl rfl))
    · exact Or.inr (Or.inr (Or.inr (Or.inl rfl)))
    · exact Or.inl rfl
    · exact Or.inr (Or.inl rfl)

theorem safe_of_undisturbed (h : ((machine reload).restrict Undisturbed).Reachable s) :
    Safe reload s := by
  have hi := inv_reachable h
  refine ⟨hi.failed, hi.left, fun t h ht hw => hi.pending ht hw, fun h => ?_, hi.late⟩
  have := List.count_le_length (a := h) (l := s.ran)
  have := hi.once
  omega

theorem undisturbed_next (h : ((machine reload).restrict Undisturbed).Reachable s)
    (l : Label) (he : Enabled s l) (hu : Undisturbed s l) :
    ((machine reload).restrict Undisturbed).Reachable (next reload s l) :=
  h.next ⟨he, hu⟩

/-- The operations of an installer and two threads on two handlers, with none of them alone. -/
theorem undisturbed_safe : ∃ s, ((machine true).restrict Undisturbed).Reachable s ∧
    s.results = [true, true, true, false] ∧ s.ran = [1] ∧ s.executed = [0] ∧ Safe true s := by
  have h0 : ((machine true).restrict Undisturbed).Reachable (.init fun _ => false) :=
    .initial ⟨_, rfl⟩
  -- A handler is installed.
  have h1 := undisturbed_next h0 (.install 0 true false) (by decide) (.inl rfl)
  have h2 := undisturbed_next h1 (.step false) (by decide) nofun
  have h3 := undisturbed_next h2 (.step false) (by decide) (fun _ => nofun)
  have h4 := undisturbed_next h3 (.step false) (by decide) ⟨rfl, rfl⟩
  have h5 := undisturbed_next h4 (.step false) (by decide) (fun _ _ => nofun)
  -- Another one replaces it, while thread 1 uninstalls the first.
  have h6 := undisturbed_next h5 (.install 1 true true) (by decide) (.inl rfl)
  have h7 := undisturbed_next h6 (.step false) (by decide) nofun
  have h8 := undisturbed_next h7 (.uninstall 1 0) (by decide) trivial
  have h9 := undisturbed_next h8 (.thread 1 false) (by decide) trivial
  have h10 := undisturbed_next h9 (.step false) (by decide) (fun | 0 | 1 | 2 | _ + 3 => nofun)
  have h11 := undisturbed_next h10 (.step false) (by decide) ⟨rfl, rfl⟩
  have h12 := undisturbed_next h11 (.step false) (by decide)
    (fun _ => fun | 0 | 1 | 2 | _ + 3 => nofun)
  have h13 := undisturbed_next h12 (.step false) (by decide) (fun | 0 | 1 | 2 | _ + 3 => nofun)
  have h14 := undisturbed_next h13 (.step false) (by decide) (fun | 0 | 1 | 2 | _ + 3 => nofun)
  have h15 := undisturbed_next h14 (.thread 1 false) (by decide) trivial
  have h16 := undisturbed_next h15 (.thread 1 false) (by decide) (fun | 0 | 1 | 2 | _ + 3 => nofun)
  -- Thread 2 uninstalls the second, which is then installed again.
  have h17 := undisturbed_next h16 (.uninstall 2 1) (by decide) trivial
  have h18 := undisturbed_next h17 (.thread 2 false) (by decide) trivial
  have h19 := undisturbed_next h18 (.thread 2 false) (by decide) trivial
  have h20 := undisturbed_next h19 (.thread 2 false) (by decide) (fun _ => rfl)
  have h21 := undisturbed_next h20 (.thread 2 false) (by decide) trivial
  have h22 := undisturbed_next h21 (.thread 2 false) (by decide) trivial
  have h23 := undisturbed_next h22 (.thread 2 false) (by decide) (fun | 0 | 1 | 2 | _ + 3 => nofun)
  have h24 := undisturbed_next h23 (.install 1 true true) (by decide) (.inl rfl)
  have h25 := undisturbed_next h24 (.step false) (by decide) nofun
  have h26 := undisturbed_next h25 (.step false) (by decide) (fun | 0 | 1 | 2 | _ + 3 => nofun)
  have h27 := undisturbed_next h26 (.step false) (by decide) ⟨rfl, rfl⟩
  have h28 := undisturbed_next h27 (.step false) (by decide)
    (fun _ => fun | 0 | 1 | 2 | _ + 3 => nofun)
  -- Thread 2 triggers the interrupt, while thread 1 uninstalls what is installed.
  have h29 := undisturbed_next h28 (.trigger 2) (by decide) trivial
  have h30 := undisturbed_next h29 (.uninstall 1 1) (by decide) trivial
  have h31 := undisturbed_next h30 (.thread 1 false) (by decide) trivial
  have h32 := undisturbed_next h31 (.thread 2 false) (by decide) trivial
  have h33 := undisturbed_next h32 (.thread 2 false) (by decide)
    ⟨fun | 0 | 1 | 2 | _ + 3 => nofun, nofun⟩
  have h34 := undisturbed_next h33 (.thread 2 false) (by decide)
    ⟨fun | 0 | 1 | 2 | _ + 3 => nofun, nofun⟩
  have h35 := undisturbed_next h34 (.thread 1 false) (by decide) trivial
  have h36 := undisturbed_next h35 (.thread 2 false) (by decide) nofun
  have h37 := undisturbed_next h36 (.thread 1 false) (by decide) (fun | 0 | 1 | 2 | _ + 3 => nofun)
  -- The first handler finds the interrupt triggered, and its callback is executed.
  have h38 := undisturbed_next h37 (.install 0 true true) (by decide) (.inl rfl)
  have h39 := undisturbed_next h38 (.step false) (by decide)
    (fun _ => fun | 0 | 1 | 2 | _ + 3 => ⟨nofun, nofun, nofun, fun _ => nofun⟩)
  have h40 := undisturbed_next h39 (.step false) (by decide) trivial
  have h41 := undisturbed_next h40 (.step false) (by decide) trivial
  exact ⟨_, h41, rfl, rfl, rfl, safe_of_undisturbed h41⟩

/-- `Trigger()` comes between the load and the compare and exchange of an `Install()`. -/
def triggeredBetween : List Label :=
  [.install 0 true false, .step false, .step false, .trigger 1, .thread 1 false, .step false,
    .step false]

/-- The handler is left `INSTALLED`, and nobody will ever set it to `UNINSTALLED`. -/
theorem triggeredBetween_left : ¬ ∀ s, (machine true).Reachable s → Safe true s := by
  intro h
  obtain ⟨s, hs, hp⟩ := Machine.exists_reachable_of_exec (M := machine true) triggeredBetween
    (fun s => decide (s.left = [0])) ⟨fun _ => false, rfl⟩ (by decide)
  have hl := (h s hs).refused
  rw [of_decide_eq_true hp] at hl
  simp at hl

end Safe

end Eventuals.Interrupt
