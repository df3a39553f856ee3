import Eventuals.Library.Monitor
import Eventuals.Library.Intrusive

/-! `ConditionVariable`: intrusive lists of waiters, edited by whoever holds the lock (`lock.h`).
Acquiring the lock and releasing it are single steps; `LockMonitor` has those of the lock itself. -/
namespace Eventuals.ConditionVariable

open Function (update)
open Intrusive (Chain)
open Monitor (Instr Program Stage Label)
open Transition (Machine)

/-- Where the holder stands in the function it is in: `next` is the local of the append in `Wait`,
and `loop` is the loop of `NotifyAll`. -/
inductive Position (W : Type*)
  | entry
  | append (next : W)
  | loop
  deriving DecidableEq

/-- The condition variables of one lock; every waiting thread has one `Waiter`. -/
structure State (W K C D : Type*) where
  queue : List W
  head : K → Option W
  next : W → Option W
  notified : W → Bool
  notifiable : W → Bool
  stage : W → Stage K
  pc : W → C
  position : W → Position W
  data : D
  /-- Every waiter in the order it was added to a list. -/
  appends : K → List W
  /-- Every waiter in the order it was notified. -/
  wakes : K → List W
  /-- Notifications of the present `Waiter` of the thread. -/
  notifications : W → ℕ
  wokenCount : W → ℕ
  resumedCount : W → ℕ

variable {W K C D : Type*}

def initial (c : C) (d : D) : State W K C D where
  queue := []
  head _ := none
  next _ := none
  notified _ := false
  notifiable _ := false
  stage _ := .outside
  pc _ := c
  position _ := .entry
  data := d
  appends _ := []
  wakes _ := []
  notifications _ := 0
  wokenCount _ := 0
  resumedCount _ := 0

section Steps

variable [DecidableEq W] [DecidableEq K]

def State.goto (s : State W K C D) (w : W) (c : C) : State W K C D :=
  { s with pc := update s.pc w c, position := update s.position w .entry }

/-- The waiter has been linked: `Wait` makes it notifiable and releases the lock. -/
def State.park (s : State W K C D) (w : W) (k : K) : State W K C D :=
  { s with
    queue := s.queue.tail, stage := update s.stage w (.waiting k),
    position := update s.position w .entry, notifiable := update s.notifiable w true,
    appends := update s.appends k (s.appends k ++ [w]) }

/-- The condition is true: the first tests of the append. -/
def State.append (s : State W K C D) (w : W) (k : K) : State W K C D :=
  match s.head k with
  | none => { s with head := update s.head k (some w) }.park w k
  | some x =>
    match s.next x with
    | none => { s with next := update s.next x (some w) }.park w k
    | some y => { s with position := update s.position w (.append y) }

/-- One turn of the loop of the append. -/
def State.walk (s : State W K C D) (w : W) (k : K) (n : W) : State W K C D :=
  match s.next n with
  | none => { s with next := update s.next n (some w) }.park w k
  | some m => { s with position := update s.position w (.append m) }

/-- `Wait`, from the start or from the loop of the append. -/
def State.wait (s : State W K C D) (w : W) (k : K) (condition : Option Bool) (c : C) :
    State W K C D :=
  match s.position w with
  | .append n => s.walk w k n
  | _ =>
    if condition.getD (!s.notified w) then
      { s with notifiable := update s.notifiable w false }.append w k
    else { s with notifiable := update s.notifiable w false }.goto w c

/-- The callback that `Wait` gives to the condition variable. -/
def State.callback (s : State W K C D) (k : K) (x : W) : State W K C D :=
  if s.notifiable x then
    { s with
      notifiable := update s.notifiable x false, queue := s.queue ++ [x],
      stage := update s.stage x (.woken k),
      wokenCount := update s.wokenCount x (s.wokenCount x + 1) }
  else s

def State.notify (s : State W K C D) (k : K) : State W K C D :=
  match s.head k with
  | none => s
  | some x =>
    { s with
      head := update s.head k (s.next x), next := update s.next x none,
      notified := update s.notified x true, wakes := update s.wakes k (s.wakes k ++ [x]),
      notifications := update s.notifications x (s.notifications x + 1) }.callback k x

/-- `NotifyAll`: its call, then one turn of its loop after the other. -/
def State.notifyAll (s : State W K C D) (w : W) (k : K) (c : C) : State W K C D :=
  match s.position w with
  | .loop =>
    match s.head k with
    | none => s.goto w c
    | some _ => s.notify k
  | _ => { s with position := update s.position w .loop }

def State.run (s : State W K C D) (w : W) : Instr K C D → State W K C D
  | .assign d c => { s.goto w c with data := d }
  | .make c =>
    { s.goto w c with
      next := update s.next w none, notified := update s.notified w false,
      notifiable := update s.notifiable w false, notifications := update s.notifications w 0 }
  | .wait k condition c => s.wait w k condition c
  | .notify k c => (s.notify k).goto w c
  | .notifyAll k c => s.notifyAll w k c
  | .release c =>
    { s.goto w c with queue := s.queue.tail, stage := update s.stage w .outside }

def Enabled (P : Program K C D) (s : State W K C D) : Label W C → Prop
  | .arrive w c => s.stage w = .outside ∧ P.entry (s.pc w) c = true
  | .resume w => s.queue.head? = some w ∧ (s.stage w).resumable = true
  | .run w => s.stage w = .running

instance (P : Program K C D) : ∀ (s : State W K C D) (l : Label W C), Decidable (Enabled P s l)
  | s, .arrive w c =>
    inferInstanceAs (Decidable (s.stage w = .outside ∧ P.entry (s.pc w) c = true))
  | s, .resume w =>
    inferInstanceAs (Decidable (s.queue.head? = some w ∧ (s.stage w).resumable = true))
  | s, .run w => inferInstanceAs (Decidable (s.stage w = .running))

def next (P : Program K C D) (s : State W K C D) : Label W C → State W K C D
  | .arrive w c =>
    { s.goto w c with queue := s.queue ++ [w], stage := update s.stage w .arriving }
  | .resume w =>
    { s with
      stage := update s.stage w .running,
      resumedCount := update s.resumedCount w
        (s.resumedCount w + if s.stage w = .arriving then 0 else 1) }
  | .run w => s.run w (P.code (s.pc w) s.data)

def machine (P : Program K C D) (c : C) (d : D) :
    Machine (State W K C D) (Label W C) where
  Initial s := s = initial c d
  Enabled := Enabled P
  next := next P

instance (P : Program K C D) (c : C) (d : D) (s : State W K C D) (l : Label W C) :
    Decidable ((machine P c d).Enabled s l) :=
  inferInstanceAs (Decidable (Enabled P s l))

end Steps

/-- What the lists and flags stand for: one queue of waiters for each condition variable. -/
def State.abstract (s : State W K C D) (q : K → List W) : Monitor.State W K C D where
  queue := s.queue
  waiters := q
  stage := s.stage
  pc := s.pc
  notified := s.notified
  data := s.data

/-- The thread has been notified and has not run since. -/
def State.pending (s : State W K C D) (w : W) : ℕ :=
  match s.stage w with
  | .woken _ => 1
  | _ => 0

/-- The lists hold the waiters `q`, and the history agrees with them. -/
structure Inv (P : Program K C D) (s : State W K C D) (q : K → List W) : Prop where
  wf : Monitor.WellFormed (s.abstract q)
  chain : ∀ k, Chain s.next (s.head k) (q k)
  detached : ∀ w, (∀ k, s.stage w ≠ .waiting k) → s.next w = none
  notifiable : ∀ w, s.notifiable w = true ↔ ∃ k, s.stage w = .waiting k
  appends : ∀ k, s.appends k = s.wakes k ++ q k
  append : ∀ w n, s.position w = .append n → s.stage w = .running ∧
    ∃ k condition c, P.code (s.pc w) s.data = .wait k condition c ∧
      condition.getD (!s.notified w) = true ∧ n ∈ q k
  loop : ∀ w, s.position w = .loop → s.stage w = .running ∧
    ∃ k c, P.code (s.pc w) s.data = .notifyAll k c
  count : ∀ w, s.wokenCount w = s.resumedCount w + s.pending w
  own : ∀ w, s.notified w = true ↔ 0 < s.notifications w

variable {P : Program K C D} {s : State W K C D} {q : K → List W} {w x z : W} {k : K}

theorem inv_initial (c : C) (d : D) : Inv P (initial c d : State W K C D) fun _ => [] where
  wf := Monitor.wellFormed_initial c d
  chain := by simp [initial]
  detached := by simp [initial]
  notifiable := by simp [initial]
  appends := by simp [initial]
  append := by simp [initial]
  loop := by simp [initial]
  count := by simp [initial, State.pending]
  own := by simp [initial]

/-- Only the running thread is inside `Wait` or `NotifyAll`. -/
theorem Inv.position_eq_entry (h : Inv P s q) (hw : s.stage w = .running) (hz : z ≠ w) :
    s.position z = .entry := by
  cases hp : s.position z with
  | entry => rfl
  | append n => exact (hz (h.wf.running_unique (h.append z n hp).1 hw)).elim
  | loop => exact (hz (h.wf.running_unique (h.loop z hp).1 hw)).elim

theorem Inv.mem_iff (h : Inv P s q) : w ∈ q k ↔ s.stage w = .waiting k :=
  h.wf.waiters k w

theorem Inv.position_entry_of_code (h : Inv P s q)
    (hwait : ∀ k b c, P.code (s.pc w) s.data ≠ .wait k b c)
    (hall : ∀ k c, P.code (s.pc w) s.data ≠ .notifyAll k c) : s.position w = .entry := by
  cases hp : s.position w with
  | entry => rfl
  | append n =>
    obtain ⟨-, k, b, c, hc, -⟩ := h.append w n hp
    exact (hwait k b c hc).elim
  | loop =>
    obtain ⟨-, k, c, hc⟩ := h.loop w hp
    exact (hall k c hc).elim

variable [DecidableEq W] [DecidableEq K]

omit [DecidableEq K] in
/-- A step of the running thread that leaves the lists and flags alone. -/
theorem Inv.keep {t : State W K C D} (h : Inv P s q) (hw : s.stage w = .running)
    (hwf : Monitor.WellFormed (t.abstract q)) (hhead : t.head = s.head) (hnext : t.next = s.next)
    (hnotifiable : t.notifiable = s.notifiable) (hwait : ∀ z k, t.stage z = .waiting k ↔
      s.stage z = .waiting k) (happends : t.appends = s.appends) (hwakes : t.wakes = s.wakes)
    (hposition : ∀ z, z ≠ w → t.position z = s.position z) (hentry : t.position w = .entry)
    (hcount : t.wokenCount = s.wokenCount ∧ t.resumedCount = s.resumedCount ∧
      ∀ z, t.pending z = s.pending z)
    (hown : t.notified = s.notified ∧ t.notifications = s.notifications) : Inv P t q := by
  have hpos : ∀ z, t.position z = .entry := by
    intro z
    by_cases hz : z = w
    · rw [hz, hentry]
    · rw [hposition z hz, h.position_eq_entry hw hz]
  refine ⟨hwf, ?_, ?_, ?_, ?_, ?_, ?_, ?_, ?_⟩
  · rw [hhead, hnext]
    exact h.chain
  · intro z hz
    rw [hnext]
    exact h.detached z fun k hk => hz k ((hwait z k).mpr hk)
  · intro z
    simp only [hnotifiable, h.notifiable z, hwait z]
  · rw [happends, hwakes]
    exact h.appends
  · intro z n hn
    simp [hpos z] at hn
  · intro z hn
    simp [hpos z] at hn
  · intro z
    rw [hcount.1, hcount.2.1, hcount.2.2 z]
    exact h.count z
  · rw [hown.1, hown.2]
    exact h.own

/-- The waiter `w` has been linked at the end of its list. -/
theorem inv_park (h : Inv P s q) (hw : s.stage w = .running) {head' : K → Option W}
    {next' : W → Option W} {notifiable' : W → Bool}
    (hchain : ∀ j, Chain next' (head' j) (update q k (q k ++ [w]) j))
    (hdetached : ∀ z, (∀ j, s.stage z ≠ .waiting j) → z ≠ w → next' z = none)
    (hnotifiable : ∀ z, z ≠ w → notifiable' z = s.notifiable z) :
    Inv P ({ s with head := head', next := next', notifiable := notifiable' }.park w k)
      (update q k (q k ++ [w])) := by
  have hpos : ∀ z, update s.position w Position.entry z = .entry := by
    intro z
    by_cases hz : z = w
    · simp [hz]
    · simpa [hz] using h.position_eq_entry hw hz
  refine ⟨Monitor.wellFormed_block h.wf hw, hchain, ?_, ?_, ?_, ?_, ?_, ?_, ?_⟩
  · intro z hz
    have hzw : z ≠ w := by
      rintro rfl
      exact hz k (by simp [State.park])
    exact hdetached z (fun j hj => hz j (by simpa [State.park, hzw] using hj)) hzw
  · intro z
    by_cases hz : z = w
    · simp [State.park, hz]
    · simpa [State.park, hz, hnotifiable z hz] using h.notifiable z
  · intro j
    by_cases hj : j = k
    · subst hj
      simp [State.park, h.appends j]
    · simp [State.park, hj, h.appends j]
  · intro z n hn
    simp [State.park, hpos z] at hn
  · intro z hn
    simp [State.park, hpos z] at hn
  · intro z
    by_cases hz : z = w
    · simpa [State.park, State.pending, hz, hw] using h.count w
    · simpa [State.park, State.pending, hz] using h.count z
  · exact h.own

/-- A listed waiter without a successor gets the running thread's waiter as its successor. -/
theorem inv_link (h : Inv P s q) (hw : s.stage w = .running) (hx : x ∈ q k)
    (hn : s.next x = none) {notifiable' : W → Bool}
    (hnotifiable : ∀ z, z ≠ w → notifiable' z = s.notifiable z) :
    Inv P ({ s with next := update s.next x (some w), notifiable := notifiable' }.park w k)
      (update q k (q k ++ [w])) := by
  have hwq : ∀ j, w ∉ q j := by
    intro j hj
    simp [h.mem_iff.mp hj] at hw
  have hxk := h.mem_iff.mp hx
  refine inv_park h hw ?_ ?_ hnotifiable
  · intro j
    by_cases hj : j = k
    · subst hj
      simpa using (h.chain j).link hx hn (hwq j) (h.detached w (by simp [hw]))
    · have hxj : x ∉ q j := by
        intro hm
        have := (h.mem_iff.mp hm).symm.trans hxk
        exact hj (Stage.waiting.inj this)
      simpa [hj] using (Intrusive.segment_update hxj).mpr (h.chain j)
  · intro z hz hzw
    have hzx : z ≠ x := by
      rintro rfl
      exact hz k hxk
    simpa [hzx] using h.detached z hz

omit [DecidableEq K] in
/-- The append goes on: its local stands at another listed waiter. -/
theorem inv_position (h : Inv P s q) (hw : s.stage w = .running) {condition : Option Bool} {c : C}
    (hc : P.code (s.pc w) s.data = .wait k condition c)
    (hb : condition.getD (!s.notified w) = true) (hx : x ∈ q k) :
    Inv P { s with position := update s.position w (.append x) } q := by
  refine ⟨h.wf, h.chain, h.detached, h.notifiable, h.appends, ?_, ?_, h.count, h.own⟩
  · intro z n hn
    by_cases hz : z = w
    · subst hz
      simp only [Function.update_self, Position.append.injEq] at hn
      subst hn
      exact ⟨hw, k, condition, c, hc, hb, hx⟩
    · simp [hz, h.position_eq_entry hw hz] at hn
  · intro z hn
    by_cases hz : z = w
    · simp [hz] at hn
    · simp [hz, h.position_eq_entry hw hz] at hn

/-- A step of the concrete lists is a step of the queues they stand for, or invisible there. -/
def Matches (P : Program K C D) (s : State W K C D) (q : K → List W) (l : Label W C) : Prop :=
  ∃ q', Inv P (next P s l) q' ∧
    ((next P s l).abstract q' = s.abstract q ∨
      (next P s l).abstract q' = Monitor.next P (s.abstract q) l)

omit [DecidableEq K] in
theorem Inv.notifiable_false (h : Inv P s q) (hw : s.stage w = .running) :
    update s.notifiable w false = s.notifiable := by
  have hf : s.notifiable w = false := by
    by_contra hn
    simp only [Bool.not_eq_false] at hn
    obtain ⟨k, hk⟩ := (h.notifiable w).mp hn
    simp [hk] at hw
  rw [← hf]
  exact Function.update_eq_self w s.notifiable

theorem matches_append (h : Inv P s q) (hw : s.stage w = .running) {condition : Option Bool} {c : C}
    (hc : P.code (s.pc w) s.data = .wait k condition c)
    (hb : condition.getD (!s.notified w) = true) :
    ∃ q', Inv P (s.append w k) q' ∧ ((s.append w k).abstract q' = s.abstract q ∨
      (s.append w k).abstract q' = (s.abstract q).block w k) := by
  have hchain := h.chain k
  cases hh : s.head k with
  | none =>
    have hq : q k = [] := by
      have := hchain.head_eq
      rw [hh] at this
      simpa using this.symm
    refine ⟨update q k (q k ++ [w]), ?_, Or.inr ?_⟩
    · simp only [State.append, hh]
      refine inv_park h hw ?_ ?_ fun _ _ => rfl
      · intro j
        by_cases hj : j = k
        · subst hj
          simp [hq, h.detached w (by simp [hw])]
        · simpa [hj] using h.chain j
      · exact fun z hz _ => h.detached z hz
    · simp [State.append, hh, State.park, State.abstract, Monitor.State.block]
  | some x =>
    have hx : x ∈ q k := by
      have := hchain.head_eq
      rw [hh] at this
      exact List.mem_of_head? this.symm
    cases hn : s.next x with
    | none =>
      refine ⟨update q k (q k ++ [w]), ?_, Or.inr ?_⟩
      · simp only [State.append, hh, hn]
        exact inv_link h hw hx hn fun _ _ => rfl
      · simp [State.append, hh, hn, State.park, State.abstract, Monitor.State.block]
    | some y =>
      refine ⟨q, ?_, Or.inl ?_⟩
      · simp only [State.append, hh, hn]
        exact inv_position h hw hc hb (hchain.next_mem hx hn)
      · simp [State.append, hh, hn, State.abstract]

theorem matches_wait (h : Inv P s q) (hw : s.stage w = .running) {condition : Option Bool} {c : C}
    (hc : P.code (s.pc w) s.data = .wait k condition c) : Matches P s q (.run w) := by
  have hstep : next P s (.run w) = s.wait w k condition c := by simp only [next, hc, State.run]
  have hmonitor : Monitor.next P (s.abstract q) (.run w) =
      if condition.getD (!s.notified w) then (s.abstract q).block w k
      else (s.abstract q).goto w c := by
    change (s.abstract q).run w (P.code (s.pc w) s.data) = _
    rw [hc]
    rfl
  cases hp : s.position w with
  | append n =>
    obtain ⟨-, k', condition', c', hc', hb, hn⟩ := h.append w n hp
    rw [hc] at hc'
    obtain ⟨rfl, rfl, rfl⟩ := Instr.wait.inj hc'
    unfold Matches
    simp only [hstep, hmonitor, State.wait, hp, State.walk, hb, if_true]
    cases hnext : s.next n with
    | none =>
      exact ⟨update q k (q k ++ [w]), inv_link h hw hn hnext fun _ _ => rfl, Or.inr rfl⟩
    | some m =>
      exact ⟨q, inv_position h hw hc hb ((h.chain k).next_mem hn hnext), Or.inl rfl⟩
  | entry | loop =>
    unfold Matches
    simp only [hstep, hmonitor, State.wait, hp, h.notifiable_false hw]
    by_cases hb : condition.getD (!s.notified w) = true
    · simp only [hb, if_true]
      exact matches_append h hw hc hb
    · simp only [hb]
      refine ⟨q, ?_, Or.inr rfl⟩
      refine h.keep hw (Monitor.wellFormed_goto h.wf c) rfl rfl rfl (fun _ _ => Iff.rfl) rfl rfl
        ?_ ?_ ⟨rfl, rfl, fun _ => rfl⟩ ⟨rfl, rfl⟩
      · intro z hz
        simp [State.goto, hz]
      · simp [State.goto]

/-- What a notification that finds the waiter `x` does. -/
theorem Inv.notify_eq (h : Inv P s q) {l : List W} (hk : q k = x :: l) :
    s.notify k = { s with
      head := update s.head k (s.next x), next := update s.next x none,
      notified := update s.notified x true, notifiable := update s.notifiable x false,
      queue := s.queue ++ [x], stage := update s.stage x (.woken k),
      wakes := update s.wakes k (s.wakes k ++ [x]),
      notifications := update s.notifications x (s.notifications x + 1),
      wokenCount := update s.wokenCount x (s.wokenCount x + 1) } := by
  have hhead : s.head k = some x := by
    have := (h.chain k).head_eq
    rwa [hk] at this
  have hx : s.notifiable x = true := (h.notifiable x).mpr ⟨k, h.mem_iff.mp (by simp [hk])⟩
  simp [State.notify, hhead, State.callback, hx]

theorem Inv.notify_nil (h : Inv P s q) (hk : q k = []) : s.notify k = s := by
  have hhead : s.head k = none := by
    have := (h.chain k).head_eq
    rwa [hk] at this
  simp [State.notify, hhead]

theorem abstract_notify (h : Inv P s q) {l : List W} (hk : q k = x :: l) :
    (s.notify k).abstract (update q k l) = (s.abstract q).wake k x l := by
  rw [h.notify_eq hk]
  rfl

/-- The oldest waiter joins the queue of the lock; the others stay as they are. -/
theorem inv_notify (h : Inv P s q) (hw : s.stage w = .running) {l : List W} (hk : q k = x :: l)
    (hp : s.position w = .entry ∨ ∃ c, P.code (s.pc w) s.data = .notifyAll k c) :
    Inv P (s.notify k) (update q k l) := by
  have hwf := Monitor.wellFormed_wake (k := k) (v := x) h.wf hk
  rw [← abstract_notify h hk] at hwf
  have hxk : s.stage x = .waiting k := h.mem_iff.mp (by simp [hk])
  have hxl : x ∉ l := by
    have hn := h.wf.nodup_waiters k
    simp only [State.abstract, hk, List.nodup_cons] at hn
    exact hn.1
  have hwx : w ≠ x := by
    rintro rfl
    simp [hw] at hxk
  have hchain := h.chain k
  rw [hk] at hchain
  refine ⟨hwf, ?_, ?_, ?_, ?_, ?_, ?_, ?_, ?_⟩ <;> rw [h.notify_eq hk]
  · intro j
    by_cases hj : j = k
    · subst hj
      simpa using (Intrusive.segment_update hxl).mpr hchain.2
    · have hxj : x ∉ q j := by
        intro hm
        exact hj (Stage.waiting.inj ((h.mem_iff.mp hm).symm.trans hxk))
      simpa [hj] using (Intrusive.segment_update hxj).mpr (h.chain j)
  · intro z hz
    by_cases hzx : z = x
    · simp [hzx]
    · simpa [hzx] using h.detached z fun j hj => hz j (by simpa [hzx] using hj)
  · intro z
    by_cases hz : z = x
    · simp [hz]
    · simpa [hz] using h.notifiable z
  · intro j
    by_cases hj : j = k
    · subst hj
      simp [h.appends j, hk]
    · simp [hj, h.appends j]
  · intro z n hn
    have hzw : z = w := by
      by_contra hz
      simp [h.position_eq_entry hw hz] at hn
    subst hzw
    rcases hp with hp | ⟨c, hp⟩
    · simp [hp] at hn
    · obtain ⟨-, k', condition, c', hc, -⟩ := h.append z n hn
      simp [hp] at hc
  · intro z hn
    have hzw : z = w := by
      by_contra hz
      simp [h.position_eq_entry hw hz] at hn
    subst hzw
    rcases hp with hp | ⟨c, hp⟩
    · simp [hp] at hn
    · exact ⟨by simpa [hwx] using hw, k, c, hp⟩
  · intro z
    by_cases hz : z = x
    · subst hz
      have := h.count z
      simp only [State.pending, hxk] at this
      simp [State.pending, this]
    · simpa [State.pending, hz] using h.count z
  · intro z
    by_cases hz : z = x
    · simp [hz]
    · simpa [hz] using h.own z

theorem matches_notify (h : Inv P s q) (hw : s.stage w = .running) {c : C}
    (hc : P.code (s.pc w) s.data = .notify k c) : Matches P s q (.run w) := by
  have hstep : next P s (.run w) = (s.notify k).goto w c := by simp only [next, hc, State.run]
  have hmonitor : Monitor.next P (s.abstract q) (.run w) =
      ((s.abstract q).notify k).goto w c := by
    change (s.abstract q).run w (P.code (s.pc w) s.data) = _
    rw [hc]
    rfl
  have hp : s.position w = .entry := h.position_entry_of_code (by simp [hc]) (by simp [hc])
  have goto : ∀ {t : State W K C D} {r : K → List W}, Inv P t r → t.stage w = .running →
      Inv P (t.goto w c) r := by
    intro t r ht hwt
    refine ht.keep hwt (Monitor.wellFormed_goto ht.wf c) rfl rfl rfl (fun _ _ => Iff.rfl) rfl rfl
      (fun z hz => ?_) ?_ ⟨rfl, rfl, fun _ => rfl⟩ ⟨rfl, rfl⟩
    · simp [State.goto, hz]
    · simp [State.goto]
  unfold Matches
  rw [hstep, hmonitor]
  cases hk : q k with
  | nil =>
    refine ⟨q, ?_, Or.inr ?_⟩
    · rw [h.notify_nil hk]
      exact goto h hw
    · rw [h.notify_nil hk]
      simp [Monitor.State.notify, State.abstract, hk, State.goto, Monitor.State.goto]
  | cons x l =>
    refine ⟨update q k l, goto (inv_notify h hw hk (Or.inl hp)) ?_, Or.inr ?_⟩
    · have hwx : w ≠ x := by
        rintro rfl
        simp [h.mem_iff.mp (show w ∈ q k by simp [hk])] at hw
      rw [h.notify_eq hk]
      simpa [hwx] using hw
    · have ha := abstract_notify h hk
      have hm : (s.abstract q).notify k = (s.abstract q).wake k x l := by
        simp [Monitor.State.notify, State.abstract, hk]
      rw [hm, ← ha]
      rfl

theorem matches_notifyAll (h : Inv P s q) (hw : s.stage w = .running) {c : C}
    (hc : P.code (s.pc w) s.data = .notifyAll k c) : Matches P s q (.run w) := by
  have hstep : next P s (.run w) = s.notifyAll w k c := by simp only [next, hc, State.run]
  have hmonitor : Monitor.next P (s.abstract q) (.run w) =
      (s.abstract q).run w (.notifyAll k c) := by
    change (s.abstract q).run w (P.code (s.pc w) s.data) = _
    rw [hc]
  unfold Matches
  rw [hstep, hmonitor]
  cases hp : s.position w with
  | append n =>
    obtain ⟨-, k', condition, c', hc', -⟩ := h.append w n hp
    simp [hc] at hc'
  | entry =>
    refine ⟨q, ?_, Or.inl ?_⟩
    · simp only [State.notifyAll, hp]
      refine ⟨h.wf, h.chain, h.detached, h.notifiable, h.appends, ?_, ?_, h.count, h.own⟩
      · intro z n hn
        by_cases hz : z = w
        · simp [hz] at hn
        · simp [hz, h.position_eq_entry hw hz] at hn
      · intro z hn
        by_cases hz : z = w
        · subst hz
          exact ⟨hw, k, c, hc⟩
        · simp [hz, h.position_eq_entry hw hz] at hn
    · simp [State.notifyAll, hp, State.abstract]
  | loop =>
    cases hk : q k with
    | nil =>
      have hhead : s.head k = none := by
        have := (h.chain k).head_eq
        rwa [hk] at this
      refine ⟨q, ?_, Or.inr ?_⟩
      · simp only [State.notifyAll, hp, hhead]
        refine h.keep hw (Monitor.wellFormed_goto h.wf c) rfl rfl rfl (fun _ _ => Iff.rfl) rfl rfl
          (fun z hz => ?_) ?_ ⟨rfl, rfl, fun _ => rfl⟩ ⟨rfl, rfl⟩
        · simp [State.goto, hz]
        · simp [State.goto]
      · have hempty : (s.abstract q).run w (.notifyAll k c) = (s.abstract q).goto w c := by
          simp only [Monitor.State.run, State.abstract, hk]
        simp only [State.notifyAll, hp, hhead]
        exact hempty.symm
    | cons x l =>
      have hhead : s.head k = some x := by
        have := (h.chain k).head_eq
        rwa [hk] at this
      refine ⟨update q k l, ?_, Or.inr ?_⟩
      · simp only [State.notifyAll, hp, hhead]
        exact inv_notify h hw hk (Or.inr ⟨c, hc⟩)
      · have hwake : (s.abstract q).run w (.notifyAll k c) = (s.abstract q).wake k x l := by
          simp only [Monitor.State.run, State.abstract, hk]
        simp only [State.notifyAll, hp, hhead]
        exact (abstract_notify h hk).trans hwake.symm

theorem matches_make (h : Inv P s q) (hw : s.stage w = .running) {c : C}
    (hc : P.code (s.pc w) s.data = .make c) : Matches P s q (.run w) := by
  have hnext : update s.next w none = s.next := by
    rw [← h.detached w (by simp [hw])]
    exact Function.update_eq_self w s.next
  have hstep : next P s (.run w) = { s.goto w c with
      notified := update s.notified w false,
      notifications := update s.notifications w 0 } := by
    simp only [next, hc, State.run, hnext, h.notifiable_false hw]
    rfl
  have hmonitor : Monitor.next P (s.abstract q) (.run w) =
      { (s.abstract q).goto w c with notified := update s.notified w false } := by
    change (s.abstract q).run w (P.code (s.pc w) s.data) = _
    rw [hc]
    rfl
  have hpos : ∀ z, (s.goto w c).position z = .entry := by
    intro z
    by_cases hz : z = w
    · simp [State.goto, hz]
    · simp [State.goto, hz, h.position_eq_entry hw hz]
  unfold Matches
  rw [hstep, hmonitor]
  refine ⟨q, ?_, Or.inr rfl⟩
  refine ⟨⟨h.wf.nodup, h.wf.queue, h.wf.running, h.wf.nodup_waiters, h.wf.waiters⟩, h.chain,
    h.detached, h.notifiable, h.appends, ?_, ?_, h.count, ?_⟩
  · intro z n hn
    simp [hpos z] at hn
  · intro z hn
    simp [hpos z] at hn
  · intro z
    by_cases hz : z = w
    · simp [hz]
    · simpa [hz] using h.own z

theorem matches_run (h : Inv P s q) (hw : s.stage w = .running) : Matches P s q (.run w) := by
  cases hc : P.code (s.pc w) s.data with
  | wait k b c => exact matches_wait h hw hc
  | notify k c => exact matches_notify h hw hc
  | notifyAll k c => exact matches_notifyAll h hw hc
  | make c => exact matches_make h hw hc
  | assign d c =>
    have hstep : next P s (.run w) = { s.goto w c with data := d } := by
      simp only [next, hc, State.run]
    have hmonitor : Monitor.next P (s.abstract q) (.run w) =
        { (s.abstract q).goto w c with data := d } := by
      change (s.abstract q).run w (P.code (s.pc w) s.data) = _
      rw [hc]
      rfl
    unfold Matches
    rw [hstep, hmonitor]
    refine ⟨q, ?_, Or.inr rfl⟩
    refine h.keep hw ⟨h.wf.nodup, h.wf.queue, h.wf.running, h.wf.nodup_waiters, h.wf.waiters⟩
      rfl rfl rfl (fun _ _ => Iff.rfl) rfl rfl (fun z hz => ?_) ?_ ⟨rfl, rfl, fun _ => rfl⟩
      ⟨rfl, rfl⟩
    · simp [State.goto, hz]
    · simp [State.goto]
  | release c =>
    have hstep : next P s (.run w) =
        { s.goto w c with queue := s.queue.tail, stage := update s.stage w .outside } := by
      simp only [next, hc, State.run]
    have hmonitor : Monitor.next P (s.abstract q) (.run w) = (s.abstract q).leave w c := by
      change (s.abstract q).run w (P.code (s.pc w) s.data) = _
      rw [hc]
      rfl
    unfold Matches
    rw [hstep, hmonitor]
    refine ⟨q, ?_, Or.inr rfl⟩
    refine h.keep hw (Monitor.wellFormed_leave h.wf hw c) rfl rfl rfl (fun z j => ?_) rfl rfl
      (fun z hz => ?_) ?_ ⟨rfl, rfl, fun z => ?_⟩ ⟨rfl, rfl⟩
    · by_cases hz : z = w
      · simp [hz, hw]
      · simp [hz]
    · simp [State.goto, hz]
    · simp [State.goto]
    · by_cases hz : z = w
      · simp [State.pending, hz, hw]
      · simp [State.pending, hz]

theorem matches_arrive (h : Inv P s q) {c : C} (hw : s.stage w = .outside) :
    Matches P s q (.arrive w c) := by
  refine ⟨q, ?_, Or.inr rfl⟩
  have hne : ∀ z, s.stage z = .running → z ≠ w := by
    rintro z hz rfl
    simp [hw] at hz
  refine ⟨Monitor.wellFormed_arrive h.wf hw c, h.chain, ?_, ?_, h.appends, ?_, ?_, ?_, h.own⟩
  · intro z hz
    refine h.detached z fun k hk => hz k ?_
    have hzw : z ≠ w := by
      rintro rfl
      simp [hw] at hk
    simpa [next, hzw] using hk
  · intro z
    by_cases hz : z = w
    · simpa [next, State.goto, hz, hw] using h.notifiable w
    · simpa [next, State.goto, hz] using h.notifiable z
  · intro z n hn
    by_cases hz : z = w
    · simp [next, State.goto, hz] at hn
    · simpa [next, State.goto, hz] using h.append z n (by simpa [next, State.goto, hz] using hn)
  · intro z hn
    by_cases hz : z = w
    · simp [next, State.goto, hz] at hn
    · simpa [next, State.goto, hz] using h.loop z (by simpa [next, State.goto, hz] using hn)
  · intro z
    by_cases hz : z = w
    · simpa [next, State.goto, State.pending, hz, hw] using h.count w
    · simpa [next, State.goto, State.pending, hz] using h.count z

theorem matches_resume (h : Inv P s q) (hq : s.queue.head? = some w)
    (hw : (s.stage w).resumable = true) : Matches P s q (.resume w) := by
  have hnw : ∀ k, s.stage w ≠ .waiting k := by
    intro k hk
    simp [hk, Stage.resumable] at hw
  have hnr : s.stage w ≠ .running := by
    intro hr
    simp [hr, Stage.resumable] at hw
  have hwait : ∀ z k, (next P s (.resume w)).stage z = .waiting k ↔ s.stage z = .waiting k := by
    intro z k
    by_cases hz : z = w
    · simp [next, hz, hnw k]
    · simp [next, hz]
  refine ⟨q, ?_, Or.inr rfl⟩
  refine ⟨Monitor.wellFormed_resume h.wf hq, h.chain, ?_, ?_, h.appends, ?_, ?_, ?_, h.own⟩
  · exact fun z hz => h.detached z fun k hk => hz k ((hwait z k).mpr hk)
  · intro z
    simp only [hwait]
    exact h.notifiable z
  · intro z n hn
    have hz : z ≠ w := by
      rintro rfl
      exact hnr (h.append z n hn).1
    simpa [next, hz] using h.append z n hn
  · intro z hn
    have hz : z ≠ w := by
      rintro rfl
      exact hnr (h.loop z hn).1
    simpa [next, hz] using h.loop z hn
  · intro z
    by_cases hz : z = w
    · have hc := h.count w
      cases hs : s.stage w <;> simp_all [next, State.pending, Stage.resumable]
    · simpa [next, State.pending, hz] using h.count z

/-- Every step keeps the invariant and follows the queues of waiters. -/
theorem inv_next {l : Label W C} (h : Inv P s q) (he : Enabled P s l) : Matches P s q l := by
  cases l with
  | arrive w c => exact matches_arrive h he.1
  | resume w => exact matches_resume h he.1 he.2
  | run w => exact matches_run h he

theorem notify_fields (s : State W K C D) (k : K) :
    (s.notify k).pc = s.pc ∧ (s.notify k).data = s.data := by
  unfold State.notify
  split
  · exact ⟨rfl, rfl⟩
  · unfold State.callback
    split <;> exact ⟨rfl, rfl⟩

theorem append_fields (s : State W K C D) (w : W) (k : K) :
    (s.append w k).pc = s.pc ∧ (s.append w k).data = s.data := by
  unfold State.append
  repeat' split
  all_goals exact ⟨rfl, rfl⟩

theorem walk_fields (s : State W K C D) (w : W) (k : K) (n : W) :
    (s.walk w k n).pc = s.pc ∧ (s.walk w k n).data = s.data := by
  unfold State.walk
  split <;> exact ⟨rfl, rfl⟩

/-- The fields are those that the instruction stores, and only its thread moves. -/
theorem run_fields (s : State W K C D) (w : W) (i : Instr K C D) :
    (s.run w i).data = i.store s.data ∧
      ((s.run w i).pc = s.pc ∧ (∀ d c, i ≠ .assign d c) ∨
        (s.run w i).pc = update s.pc w i.target) := by
  cases i with
  | assign d c | make c | release c => exact ⟨rfl, Or.inr rfl⟩
  | wait k condition c =>
    simp only [State.run, State.wait]
    split
    · next n _ => exact ⟨(walk_fields s w k n).2, Or.inl ⟨(walk_fields s w k n).1, by simp⟩⟩
    · split
      · have h := append_fields { s with notifiable := update s.notifiable w false } w k
        exact ⟨h.2, Or.inl ⟨h.1, by simp⟩⟩
      · exact ⟨rfl, Or.inr rfl⟩
  | notify k c =>
    obtain ⟨hp, hd⟩ := notify_fields s k
    have hgoto : (s.run w (.notify k c)).pc = update (s.notify k).pc w c := rfl
    exact ⟨hd, Or.inr (by rw [hgoto, hp]; rfl)⟩
  | notifyAll k c =>
    obtain ⟨hp, hd⟩ := notify_fields s k
    simp only [State.run, State.notifyAll]
    split
    · split
      · exact ⟨rfl, Or.inr rfl⟩
      · exact ⟨hd, Or.inl ⟨hp, by simp⟩⟩
    · exact ⟨rfl, Or.inl ⟨rfl, by simp⟩⟩

variable {c : C} {d : D}

/-- The intrusive lists implement the monitor with a queue of waiters for each variable. -/
theorem refines_monitor : Transition.Simulation (machine (W := W) P c d) (Monitor.machine P c d)
    fun s t => ∃ q, Inv P s q ∧ t = s.abstract q where
  initial := by
    rintro s rfl
    exact ⟨Monitor.initial c d, rfl, fun _ => [], inv_initial c d, rfl⟩
  step := by
    rintro s t l ⟨q, h, rfl⟩ he
    obtain ⟨q', h', hs | hs⟩ := inv_next h he
    · exact Or.inl ⟨q', h', hs.symm⟩
    · refine Or.inr ⟨l, ?_, q', h', hs.symm⟩
      cases l <;> exact he

theorem inv_reachable (h : (machine P c d).Reachable s) : ∃ q, Inv P s q := by
  obtain ⟨t, -, q, hq, -⟩ := refines_monitor.reachable h
  exact ⟨q, hq⟩

/-- A thread that is outside stands where it started. -/
theorem outside_home (hP : ∀ x y c', P.code x y = .release c' → c' = c)
    (h : (machine P c d).Reachable s) (hw : s.stage w = .outside) : s.pc w = c := by
  obtain ⟨t, ht, q, -, rfl⟩ := refines_monitor.reachable h
  refine ht.invariant (P := fun t => ∀ w, t.stage w = .outside → t.pc w = c) ?_ ?_ w hw
  · rintro t rfl v -
    rfl
  · exact fun t l hi he => Monitor.home_next hP he hi

/-- The waiters listed from `head_`, the one that has waited longest first. -/
def State.Waiters (s : State W K C D) (k : K) (l : List W) : Prop :=
  Chain s.next (s.head k) l

omit [DecidableEq W] [DecidableEq K] in
theorem Inv.waiters_iff (h : Inv P s q) {l : List W} : s.Waiters k l ↔ q k = l := by
  constructor
  · exact fun hl => (h.chain k).unique hl
  · rintro rfl
    exact h.chain k

/-- The notification of `x` and of nobody else. -/
structure Wakes (s t : State W K C D) (k : K) (x : W) (rest : List W) : Prop where
  waiters : t.Waiters k rest
  queue : t.queue = s.queue ++ [x]
  stage : t.stage x = .woken k
  log : t.wakes k = s.wakes k ++ [x]
  others : ∀ y, y ≠ x → t.stage y = s.stage y ∧ t.notifiable y = s.notifiable y ∧
    t.notified y = s.notified y

theorem Inv.wakes (h : Inv P s q) (hw : s.stage w = .running) {l : List W}
    (hl : s.Waiters k (x :: l))
    (hp : s.position w = .entry ∨ ∃ c, P.code (s.pc w) s.data = .notifyAll k c) :
    Wakes s (s.notify k) k x l := by
  have hk := h.waiters_iff.mp hl
  have hi := inv_notify h hw hk hp
  constructor
  · exact hi.waiters_iff.mpr (by simp)
  all_goals rw [h.notify_eq hk]
  · simp
  · simp
  · intro y hy
    simp [hy]

omit [DecidableEq W] [DecidableEq K] in
/-- While a thread runs, others can only join the queue of the lock. -/
theorem eq_arrive_of_running (h : Inv P s q) (hw : s.stage w = .running) {l : Label W C}
    (he : Enabled P s l) (hl : l ≠ .run w) : ∃ v c, v ≠ w ∧ l = .arrive v c := by
  cases l with
  | arrive v c =>
    refine ⟨v, c, ?_, rfl⟩
    rintro rfl
    simp [he.1] at hw
  | resume v =>
    have hv : v = w := Option.some.inj (he.1.symm.trans (h.wf.running w hw))
    have hr := he.2
    simp [hv, hw, Stage.resumable] at hr
  | run v => exact (hl (by rw [h.wf.running_unique he hw])).elim

/-- The thread runs a call of `NotifyAll` on `k`. -/
def State.Notifying (P : Program K C D) (s : State W K C D) (w : W) (k : K) : Prop :=
  s.stage w = .running ∧ s.position w = .loop ∧ ∃ c, P.code (s.pc w) s.data = .notifyAll k c

/-- The thread runs a `Wait` on `k` whose condition is true. -/
def State.Appending (P : Program K C D) (s : State W K C D) (w : W) (k : K) : Prop :=
  s.stage w = .running ∧ ∃ condition c,
    P.code (s.pc w) s.data = .wait k condition c ∧ condition.getD (!s.notified w) = true

theorem notifyAll_iteration (h : Inv P s q) (hn : s.Notifying P w k) {l : List W}
    (hl : s.Waiters k (x :: l)) :
    Wakes s (next P s (.run w)) k x l ∧ (next P s (.run w)).Notifying P w k := by
  obtain ⟨hw, hp, c, hc⟩ := hn
  have hk := h.waiters_iff.mp hl
  have hhead : s.head k = some x := by
    have := (h.chain k).head_eq
    rwa [hk] at this
  have hstep : next P s (.run w) = s.notify k := by
    simp only [next, hc, State.run, State.notifyAll, hp, hhead]
  have hwx : w ≠ x := by
    rintro rfl
    simp [h.mem_iff.mp (show w ∈ q k by simp [hk])] at hw
  have hwakes := h.wakes hw hl (Or.inr ⟨c, hc⟩)
  rw [hstep]
  refine ⟨hwakes, (hwakes.others w hwx).1.trans hw, ?_, c, ?_⟩
  all_goals rw [h.notify_eq hk]
  · exact hp
  · exact hc

/-- `NotifyAll` returns after one turn of its loop for each waiter it found. -/
theorem notifyAll_returns {c₀ : C} {d₀ : D} {t : State W K C D}
    {xs : List (State W K C D × Label W C)} (h : Inv P s q) (hn : s.Notifying P w k) {l : List W}
    (hl : s.Waiters k l) (hr : (machine P c₀ d₀).Run s xs t)
    (hlen : l.length < xs.countP fun p => p.2.isRun w) :
    ∃ p ∈ xs, p.2 = .run w ∧ p.1.Notifying P w k ∧ p.1.Waiters k [] ∧
      p.1.wakes k = s.wakes k ++ l := by
  induction hr generalizing q l with
  | refl => simp at hlen
  | @stepL s t u a xs hst hrest ih =>
    obtain ⟨he, rfl⟩ := hst
    obtain ⟨q', h', -⟩ := inv_next (l := a) h he
    by_cases ha : a = .run w
    · subst ha
      cases l with
      | nil => exact ⟨_, List.mem_cons_self, rfl, hn, hl, by simp⟩
      | cons x l =>
        obtain ⟨hwakes, hn'⟩ := notifyAll_iteration h hn hl
        rw [List.countP_cons_of_pos (by simp [Label.isRun]), List.length_cons] at hlen
        obtain ⟨p, hp, hrun, hnp, hwp, hlog⟩ := ih h' hn' hwakes.waiters (by omega)
        refine ⟨p, List.mem_cons_of_mem _ hp, hrun, hnp, hwp, ?_⟩
        rw [hlog]
        change (next P s (.run w)).wakes k ++ l = _
        rw [hwakes.log]
        simp
    · obtain ⟨v, c, hv, rfl⟩ := eq_arrive_of_running h hn.1 he ha
      have hn' : (next P s (.arrive v c)).Notifying P w k := by
        obtain ⟨hw, hp, hc⟩ := hn
        refine ⟨?_, ?_, ?_⟩
        · simpa [next, Ne.symm hv] using hw
        · simpa [next, State.goto, Ne.symm hv] using hp
        · simpa [next, State.goto, Ne.symm hv] using hc
      rw [List.countP_cons_of_neg (by simp [Label.isRun])] at hlen
      obtain ⟨p, hp, hrest⟩ := ih h' hn' hl hlen
      exact ⟨p, List.mem_cons_of_mem _ hp, hrest⟩

/-- A call of `NotifyAll` notifies the waiters it finds, in their order, and returns. -/
theorem notifyAll_call {c₀ : C} {d₀ : D} {t : State W K C D}
    {xs : List (State W K C D × Label W C)} (h : Inv P s q) (hw : s.stage w = .running)
    (hp : s.position w = .entry) {c : C} (hc : P.code (s.pc w) s.data = .notifyAll k c)
    {l : List W} (hl : s.Waiters k l) (hr : (machine P c₀ d₀).Run s xs t)
    (hlen : l.length + 1 < xs.countP fun p => p.2.isRun w) :
    ∃ p ∈ xs, p.2 = .run w ∧ p.1.Notifying P w k ∧ p.1.Waiters k [] ∧
      p.1.wakes k = s.wakes k ++ l := by
  induction hr generalizing q with
  | refl => simp at hlen
  | @stepL s t u a xs hst hrest ih =>
    obtain ⟨he, rfl⟩ := hst
    obtain ⟨q', h', -⟩ := inv_next (l := a) h he
    by_cases ha : a = .run w
    · subst ha
      have hstep : next P s (.run w) = { s with position := update s.position w .loop } := by
        simp only [next, hc, State.run, State.notifyAll, hp]
      have hn : (next P s (.run w)).Notifying P w k := by
        rw [hstep]
        exact ⟨hw, by simp, c, hc⟩
      have hl' : (next P s (.run w)).Waiters k l := by
        rw [hstep]
        exact hl
      rw [List.countP_cons_of_pos (by simp [Label.isRun])] at hlen
      obtain ⟨p, hmem, hrun, hnp, hwp, hlog⟩ := notifyAll_returns h' hn hl' hrest (by omega)
      refine ⟨p, List.mem_cons_of_mem _ hmem, hrun, hnp, hwp, ?_⟩
      rw [hlog, hstep]
    · obtain ⟨v, c', hv, rfl⟩ := eq_arrive_of_running h hw he ha
      rw [List.countP_cons_of_neg (by simp [Label.isRun])] at hlen
      obtain ⟨p, hmem, hrest⟩ := ih h' (by simpa [machine, next, Ne.symm hv] using hw)
        (by simpa [machine, next, State.goto, Ne.symm hv] using hp)
        (by simpa [machine, next, State.goto, Ne.symm hv] using hc) hl hlen
      exact ⟨p, List.mem_cons_of_mem _ hmem, hrest⟩

/-- The waiter joins the end of the list and its thread gives up the lock. -/
structure Appends (s t : State W K C D) (w : W) (k : K) (l : List W) : Prop where
  waiters : t.Waiters k (l ++ [w])
  queue : t.queue = s.queue.tail
  stage : t.stage w = .waiting k

/-- The append stands at the entry of its loop or at a waiter with `n` others behind it. -/
def State.Remaining (s : State W K C D) (w : W) (l : List W) (n : ℕ) : Prop :=
  s.position w = .entry ∧ l.length = n ∨
    ∃ v a b, s.position w = .append v ∧ l = a ++ v :: b ∧ b.length = n

theorem inv_link_appends (h : Inv P s q) (hw : s.stage w = .running) (hx : x ∈ q k)
    (hn : s.next x = none) {notifiable' : W → Bool}
    (hnotifiable : ∀ z, z ≠ w → notifiable' z = s.notifiable z) :
    Appends s ({ s with next := update s.next x (some w), notifiable := notifiable' }.park w k)
      w k (q k) := by
  have hi := inv_link h hw hx hn hnotifiable
  exact ⟨hi.waiters_iff.mpr (by simp), rfl, by simp [State.park]⟩

/-- One step of the append finishes it or brings it closer to the end of the list. -/
theorem append_step (h : Inv P s q) (ha : s.Appending P w k) {l : List W} {n : ℕ}
    (hl : s.Waiters k l) (hn : s.Remaining w l n) :
    Appends s (next P s (.run w)) w k l ∨
      (next P s (.run w)).Appending P w k ∧ (next P s (.run w)).Waiters k l ∧
        ∃ m, m < n ∧ (next P s (.run w)).Remaining w l m := by
  obtain ⟨hw, condition, c, hc, hb⟩ := ha
  have hq := h.waiters_iff.mp hl
  have hstep : next P s (.run w) = s.wait w k condition c := by simp only [next, hc, State.run]
  have move : ∀ y, ({ s with position := update s.position w (.append y) } :
      State W K C D).Appending P w k := fun y => ⟨hw, condition, c, hc, hb⟩
  rw [hstep]
  rcases hn with ⟨hp, hn⟩ | ⟨v, a, b, hp, rfl, hn⟩
  · simp only [State.wait, hp, hb, if_true, h.notifiable_false hw]
    cases l with
    | nil =>
      left
      have hhead : s.head k = none := hl
      have hi := matches_append h hw hc hb
      simp only [State.append, hhead]
      refine ⟨?_, rfl, by simp [State.park]⟩
      simp [State.Waiters, State.park, h.detached w (by simp [hw])]
    | cons x l =>
      have hhead : s.head k = some x := hl.1
      cases l with
      | nil =>
        left
        simp only [State.append, hhead, show s.next x = none from hl.2]
        rw [← hq]
        exact inv_link_appends h hw (by simp [hq]) hl.2 fun _ _ => rfl
      | cons y l =>
        right
        simp only [State.append, hhead, show s.next x = some y from hl.2.1]
        refine ⟨move y, hl, l.length, ?_, Or.inr ⟨y, [x], l, by simp, rfl, rfl⟩⟩
        simp only [List.length_cons] at hn
        omega
  · simp only [State.wait, hp, State.walk]
    have hnext := Intrusive.Chain.next_eq_head hl
    cases b with
    | nil =>
      left
      rw [List.head?_nil] at hnext
      simp only [hnext]
      rw [← hq]
      exact inv_link_appends h hw (by simp [hq]) hnext fun _ _ => rfl
    | cons m b =>
      right
      rw [List.head?_cons] at hnext
      simp only [hnext]
      refine ⟨move m, hl, b.length, ?_, Or.inr ⟨m, a ++ [v], b, by simp, by simp, rfl⟩⟩
      simp only [List.length_cons] at hn
      omega

theorem appends_of_remaining {c₀ : C} {d₀ : D} {t : State W K C D}
    {xs : List (State W K C D × Label W C)} (h : Inv P s q) (ha : s.Appending P w k) {l : List W}
    {n : ℕ} (hl : s.Waiters k l) (hn : s.Remaining w l n)
    (hr : (machine P c₀ d₀).Run s xs t) (hlen : n < xs.countP fun p => p.2.isRun w) :
    ∃ p ∈ xs, p.2 = .run w ∧ Appends p.1 (next P p.1 p.2) w k l := by
  induction hr generalizing q n with
  | refl => simp at hlen
  | @stepL s t u a xs hst hrest ih =>
    obtain ⟨he, rfl⟩ := hst
    obtain ⟨q', h', -⟩ := inv_next (l := a) h he
    by_cases hrun : a = .run w
    · subst hrun
      rw [List.countP_cons_of_pos (by simp [Label.isRun])] at hlen
      rcases append_step h ha hl hn with hdone | ⟨ha', hl', m, hm, hn'⟩
      · exact ⟨_, List.mem_cons_self, rfl, hdone⟩
      · obtain ⟨p, hp, hrest⟩ := ih h' ha' hl' hn' (by omega)
        exact ⟨p, List.mem_cons_of_mem _ hp, hrest⟩
    · obtain ⟨v, c, hv, rfl⟩ := eq_arrive_of_running h ha.1 he hrun
      have ha' : (next P s (.arrive v c)).Appending P w k := by
        obtain ⟨hw, hc⟩ := ha
        refine ⟨?_, ?_⟩
        · simpa [next, Ne.symm hv] using hw
        · simpa [next, State.goto, Ne.symm hv] using hc
      have hn' : (next P s (.arrive v c)).Remaining w l n := by
        simpa [State.Remaining, next, State.goto, Ne.symm hv] using hn
      rw [List.countP_cons_of_neg (by simp [Label.isRun])] at hlen
      obtain ⟨p, hp, hrest⟩ := ih h' ha' hl hn' hlen
      exact ⟨p, List.mem_cons_of_mem _ hp, hrest⟩

/-- A `Wait` whose condition is true ends with its waiter at the end of the list. -/
theorem wait_appends {c₀ : C} {d₀ : D} {t : State W K C D}
    {xs : List (State W K C D × Label W C)} (h : Inv P s q) (ha : s.Appending P w k) {l : List W}
    (hl : s.Waiters k l) (hr : (machine P c₀ d₀).Run s xs t)
    (hlen : l.length < xs.countP fun p => p.2.isRun w) :
    ∃ p ∈ xs, p.2 = .run w ∧ Appends p.1 (next P p.1 p.2) w k l := by
  cases hp : s.position w with
  | entry => exact appends_of_remaining h ha hl (Or.inl ⟨hp, rfl⟩) hr hlen
  | loop =>
    obtain ⟨-, k', c', hc'⟩ := h.loop w hp
    obtain ⟨-, condition, c, hc, -⟩ := ha
    simp [hc] at hc'
  | append n =>
    obtain ⟨-, k', condition', c', hc', -, hn⟩ := h.append w n hp
    obtain ⟨-, condition, c, hc, -⟩ := id ha
    rw [hc] at hc'
    obtain ⟨rfl, rfl, rfl⟩ := Instr.wait.inj hc'
    rw [h.waiters_iff.mp hl] at hn
    obtain ⟨a, b, rfl⟩ := List.append_of_mem hn
    simp only [List.length_append, List.length_cons] at hlen
    exact appends_of_remaining h ha hl (Or.inr ⟨n, a, b, hp, rfl, rfl⟩) hr (by omega)

/-- A `Wait` without a condition goes on only after a notification of its own waiter. -/
theorem notified_of_returns (h : Inv P s q) (hw : s.stage w = .running) {c : C}
    (hc : P.code (s.pc w) s.data = .wait k none c)
    (hpos : (next P s (.run w)).position w = .entry)
    (hrun : (next P s (.run w)).stage w = .running) : 0 < s.notifications w := by
  apply (h.own w).mp
  by_contra hn
  have hb : (none : Option Bool).getD (!s.notified w) = true := by simpa using hn
  have ha : s.Appending P w k := ⟨hw, none, c, hc, hb⟩
  have hstage : ∀ t : State W K C D, Appends s t w k (q k) → t.stage w ≠ .running := by
    intro t ht
    simp [ht.stage]
  have hremaining : ∃ n, s.Remaining w (q k) n := by
    cases hp : s.position w with
    | entry => exact ⟨_, Or.inl ⟨hp, rfl⟩⟩
    | loop =>
      obtain ⟨-, k', c', hc'⟩ := h.loop w hp
      simp [hc] at hc'
    | append n =>
      obtain ⟨-, k', condition', c', hc', -, hn⟩ := h.append w n hp
      rw [hc] at hc'
      obtain ⟨rfl, rfl, rfl⟩ := Instr.wait.inj hc'
      obtain ⟨a, b, hab⟩ := List.append_of_mem hn
      exact ⟨b.length, Or.inr ⟨n, a, b, hp, hab, rfl⟩⟩
  obtain ⟨n, hn⟩ := hremaining
  rcases append_step h ha (h.chain k) hn with hdone | ⟨-, -, m, hm, ⟨-, hlen⟩ | ⟨v, a, b, hp, -⟩⟩
  · exact hstage _ hdone hrun
  · rcases hn with ⟨-, hn⟩ | ⟨v, a, b, -, hab, hn⟩
    · omega
    · have := congrArg List.length hab
      simp only [List.length_append, List.length_cons] at this
      omega
  · simp [hpos] at hp

/-- What the users of the condition variables of one lock rely on, in every state `s`. -/
structure Correct (P : Program K C D) (c₀ : C) (d₀ : D) (s : State W K C D) : Prop where
  list : ∀ k, ∃ l, s.Waiters k l ∧ l.Nodup ∧ (∀ w ∈ l, s.notifiable w = true) ∧
    s.appends k = s.wakes k ++ l
  notify : ∀ w k c x l, s.stage w = .running → P.code (s.pc w) s.data = .notify k c →
    s.Waiters k (x :: l) → Wakes s (next P s (.run w)) k x l
  notifyAll : ∀ w k c l t xs, s.stage w = .running → s.position w = .entry →
    P.code (s.pc w) s.data = .notifyAll k c → s.Waiters k l →
    (machine P c₀ d₀).Run s xs t → l.length + 1 < xs.countP (fun p => p.2.isRun w) →
    ∃ p ∈ xs, p.2 = .run w ∧ p.1.Notifying P w k ∧ p.1.Waiters k [] ∧
      p.1.wakes k = s.wakes k ++ l
  append : ∀ w k l t xs, s.Appending P w k → s.Waiters k l → (machine P c₀ d₀).Run s xs t →
    l.length < xs.countP (fun p => p.2.isRun w) →
    ∃ p ∈ xs, p.2 = .run w ∧ Appends p.1 (next P p.1 p.2) w k l
  returns : ∀ w k c, s.stage w = .running → P.code (s.pc w) s.data = .wait k none c →
    (next P s (.run w)).position w = .entry → (next P s (.run w)).stage w = .running →
    0 < s.notifications w
  woken : ∀ w, s.wokenCount w = s.resumedCount w + s.pending w ∧ (s.pending w = 1 → w ∈ s.queue)

theorem Inv.correct (h : Inv P s q) (c₀ : C) (d₀ : D) : Correct P c₀ d₀ s where
  list k := ⟨q k, h.chain k, h.wf.nodup_waiters k,
    fun w hw => (h.notifiable w).mpr ⟨k, h.mem_iff.mp hw⟩, h.appends k⟩
  notify w k c x l hw hc hl := by
    have hstep : next P s (.run w) = (s.notify k).goto w c := by simp only [next, hc, State.run]
    have hp := h.position_entry_of_code (w := w) (by simp [hc]) (by simp [hc])
    have hwakes := h.wakes hw hl (Or.inl hp)
    rw [hstep]
    exact ⟨hwakes.waiters, hwakes.queue, hwakes.stage, hwakes.log, hwakes.others⟩
  notifyAll w k c l t xs hw hp hc hl hr hlen := notifyAll_call h hw hp hc hl hr hlen
  append w k l t xs ha hl hr hlen := wait_appends h ha hl hr hlen
  returns w k c hw hc hp hrun := notified_of_returns h hw hc hp hrun
  woken w := by
    refine ⟨h.count w, fun hp => (h.wf.queue w).mpr ?_⟩
    cases hs : s.stage w <;> simp_all [State.pending, State.abstract, Stage.queued]

theorem waiters_correct (h : (machine P c d).Reachable s) : Correct P c d s := by
  obtain ⟨q, hi⟩ := inv_reachable h
  exact hi.correct c d

/-- Threads wait for a notification in section 1 and notify all in section 3. -/
def broadcast : Program Unit ℕ Unit where
  code c _ :=
    match c with
    | 1 => .make 2
    | 2 => .wait () none 4
    | 3 => .notifyAll () 4
    | _ => .release 0
  entry c c' := decide (c = 0 ∧ (c' = 1 ∨ c' = 3))

/-- Threads 0 and 1 wait, then thread 2 notifies them while thread 3 comes for the lock. -/
def broadcastRun : List (Label ℕ ℕ) :=
  [.arrive 0 1, .resume 0, .run 0, .run 0, .arrive 1 1, .resume 1, .run 1, .run 1,
    .arrive 2 3, .resume 2, .run 2, .run 2, .arrive 3 1, .run 2]

theorem broadcast_correct : ∃ s : State ℕ Unit ℕ Unit, s.wakes () = [0, 1] ∧
    s.queue = [2, 0, 3, 1] ∧ Correct broadcast 0 () s := by
  obtain ⟨s, hs, hp⟩ := Machine.exists_reachable_of_exec (M := machine broadcast 0 ())
    broadcastRun (fun s => decide (s.wakes () = [0, 1] ∧ s.queue = [2, 0, 3, 1])) rfl (by decide)
  obtain ⟨hw, hq⟩ := of_decide_eq_true hp
  exact ⟨s, hw, hq, waiters_correct hs⟩

end Eventuals.ConditionVariable
