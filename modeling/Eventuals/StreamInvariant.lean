import Eventuals.Library.Iteration
import Eventuals.Stream

/-! No check of a stream fails, and no source is asked for a value that it was told is not
wanted. -/
namespace Eventuals.Stream

variable {α β R : Type} {c : Running α} {k : Ctx R α}

/-- A stream that has begun and was not told that it is done. -/
def Running.Ok {α : Type} : Running α → Prop
  | .iterate _ _ told => told = false
  | .map stream _ _ => stream.Ok
  | .filter stream _ _ => stream.Ok
  | .until stream _ => stream.Ok
  | .takeRange stream begin amount i => stream.Ok ∧ i ≤ begin + amount
  | .flatMap outer _ done => outer.Ok ∧ done = false
  | .flatMapping outer _ adapted inner done =>
    outer.Ok ∧ adapted.Ok ∧ inner = true ∧ done = false

/-- Nothing after the stream has told it that it is done. -/
def Ctx.Asking {α : Type} : Ctx R α → Prop
  | .terminal _ => True
  | .map _ _ k => k.Asking
  | .filter _ _ k => k.Asking
  | .until _ k => k.Asking
  | .takeRange begin amount i k => k.Asking ∧ i ≤ begin + amount
  | .flatMap _ adapted done k => k.Asking ∧ adapted = none ∧ done = false
  | .adaptor outer _ inner done k => k.Asking ∧ outer.Ok ∧ inner = true ∧ done = false

/-- The stream is done, and every stream that is to be done with it is on its way down to where
that was decided. -/
def Ctx.Ending {α : Type} : Ctx R α → Prop
  | .terminal _ => True
  | .map _ _ k => k.Ending
  | .filter _ _ k => k.Ending
  | .until _ k => k.Ending
  | .takeRange _ _ _ k => k.Ending
  | .flatMap _ adapted done k =>
    adapted = none ∧ (done = true ∧ k.Ending ∨ done = false ∧ k.Asking)
  | .adaptor outer _ inner done k =>
    outer.Ok ∧ inner = true ∧ (done = true ∧ k.Ending ∨ done = false ∧ k.Asking)

/-- What comes after a stream is about to begin. -/
def Ctx.Beginning : Ctx R α → Prop
  | .terminal _ => True
  | .adaptor outer _ inner done k => k.Asking ∧ outer.Ok ∧ inner = false ∧ done = false
  | _ => False

def Control.Ok : Control R → Prop
  | .begin stream _ k => stream.Ok ∧ k.Beginning
  | .next stream k => stream.Ok ∧ k.Asking
  | .done stream k => stream.Ok ∧ k.Ending
  | .body stream _ _ k => stream.Ok ∧ k.Asking
  | .ended _ k => k.Ending
  | .terminal _ | .returned => True
  | .failed _ => False

theorem Ctx.Asking.ending (h : k.Asking) : k.Ending := by
  induction k with
  | terminal => trivial
  | map f returns k ih => exact ih h
  | filter f p k ih => exact ih h
  | «until» f k ih => exact ih h
  | takeRange b a i k ih => exact ih h.1
  | flatMap f adapted done k ih => exact ⟨h.2.1, Or.inr ⟨h.2.2, h.1⟩⟩
  | adaptor outer f inner done k ih => exact ⟨h.2.1, h.2.2.1, Or.inr ⟨h.2.2.2, h.1⟩⟩

theorem ok_stage (h : c.Ok) (stage : Stage α β) : (stage.begin c).Ok := by
  cases stage with
  | map | filter | «until» => exact h
  | takeRange b a => exact ⟨h, Nat.zero_le _⟩
  | flatMap f => exact ⟨h, rfl⟩

theorem ok_start {e : Chain α} {stages : Stages α β} {k : Ctx R β} (hk : k.Beginning) :
    (e.start stages k).Ok := by
  induction e with
  | iterate emits container => exact ⟨rfl, hk⟩
  | map e f returns ih => exact ih
  | filter e f p ih => exact ih
  | «until» e f ih => exact ih
  | takeFirst e amount ih => exact ih
  | flatMap e f ih => exact ih

theorem ok_begin {stages : Stages α β} {k : Ctx R β} (h : c.Ok) (hk : k.Beginning) :
    (stages.begin c k).Ok := by
  cases stages with
  | cons stage stages => exact ⟨ok_stage h stage, hk⟩
  | nil =>
    cases k with
    | terminal k => exact ⟨h, trivial⟩
    | adaptor outer f inner done k =>
      obtain ⟨hk, ho, rfl, hd⟩ := hk
      exact ⟨h, hk, ho, rfl, hd⟩
    | _ => exact hk.elim

theorem ok_next (h : c.Ok) (hk : k.Asking) : (c.next k).Ok ∧ c.violates = false := by
  cases c with
  | iterate emits rest told =>
    refine ⟨?_, h⟩
    cases rest with
    | nil => exact hk.ending
    | cons v rest => exact ⟨h, hk⟩
  | map stream f returns => exact ⟨⟨h, hk⟩, rfl⟩
  | filter stream f p => exact ⟨⟨h, hk⟩, rfl⟩
  | «until» stream f => exact ⟨⟨h, hk⟩, rfl⟩
  | takeRange stream b a i =>
    refine ⟨?_, rfl⟩
    obtain ⟨hs, hi⟩ := h
    simp only [Running.next]
    split
    · exact ⟨hs, hk, hi⟩
    · split
      · exact ⟨hs, hk.ending⟩
      · omega
  | flatMap outer f done => exact ⟨⟨h.1, hk, rfl, h.2⟩, rfl⟩
  | flatMapping outer f adapted inner done =>
    obtain ⟨ho, ha, rfl, hd⟩ := h
    exact ⟨⟨ha, hk, ho, rfl, hd⟩, rfl⟩

theorem ok_done (h : c.Ok) (hk : k.Ending) : (c.done k).Ok := by
  cases c with
  | iterate emits rest told => exact hk
  | map stream f returns => exact ⟨h, hk⟩
  | filter stream f p => exact ⟨h, hk⟩
  | «until» stream f => exact ⟨h, hk⟩
  | takeRange stream b a i => exact ⟨h.1, hk⟩
  | flatMap outer f done => exact ⟨h.1, rfl, Or.inl ⟨rfl, hk⟩⟩
  | flatMapping outer f adapted inner done =>
    obtain ⟨ho, ha, rfl, -⟩ := h
    exact ⟨ha, ho, rfl, Or.inl ⟨rfl, hk⟩⟩

theorem ok_body (h : c.Ok) (hk : k.Asking) (v : α) (category : Category) :
    (k.body c v category).Ok := by
  cases k with
  | terminal k =>
    cases k with
    | collect collection emplace => exact ⟨h, trivial⟩
    | head arg => exact ⟨h, trivial⟩
    | reduce t f =>
      simp only [Ctx.body, Terminal.body]
      split <;> exact ⟨h, trivial⟩
  | map f returns k => exact ⟨h, hk⟩
  | filter f p k =>
    simp only [Ctx.body]
    split <;> exact ⟨h, hk⟩
  | «until» f k =>
    simp only [Ctx.body]
    split
    · exact ⟨h, hk.ending⟩
    · exact ⟨h, hk⟩
  | takeRange b a i k =>
    obtain ⟨hk, hi⟩ := hk
    simp only [Ctx.body]
    split
    · exact ⟨⟨h, by omega⟩, hk⟩
    · split
      · exact ⟨h, hk, by omega⟩
      · split
        · exact ⟨h, hk.ending⟩
        · omega
  | flatMap f adapted done k =>
    obtain ⟨hk, rfl, hd⟩ := hk
    exact ok_start ⟨hk, h, rfl, hd⟩
  | adaptor outer f inner done k => exact ⟨⟨hk.2.1, h, hk.2.2.1, hk.2.2.2⟩, hk.1⟩

theorem ok_ended (hk : k.Ending) : (k.ended c).Ok := by
  cases k with
  | terminal k => trivial
  | map f returns k => exact hk
  | filter f p k => exact hk
  | «until» f k => exact hk
  | takeRange b a i k => exact hk
  | flatMap f adapted done k =>
    obtain ⟨rfl, ⟨-, hk⟩ | ⟨-, hk⟩⟩ := hk
    · exact hk
    · exact hk.ending
  | adaptor outer f inner done k =>
    obtain ⟨ho, rfl, ⟨rfl, hk⟩ | ⟨rfl, hk⟩⟩ := hk
    · exact ⟨ho, rfl, Or.inl ⟨rfl, hk⟩⟩
    · exact ⟨ho, hk, rfl, rfl⟩

structure Inv (s : State R) : Prop where
  control : s.control.Ok
  asked : s.askedAfterDone = false

theorem inv_start (e : Chain α) (k : Terminal α R) : Inv (start e k) :=
  ⟨ok_start trivial, rfl⟩

theorem inv_step {s : State R} (h : Inv s) : Inv (step s) := by
  obtain ⟨control, delivered, asked⟩ := s
  obtain ⟨hc, rfl⟩ := h
  cases control with
  | begin c stages k => exact ⟨ok_begin hc.1 hc.2, rfl⟩
  | next c k =>
    obtain ⟨hn, hv⟩ := ok_next hc.1 hc.2
    exact ⟨hn, hv⟩
  | done c k => exact ⟨ok_done hc.1 hc.2, rfl⟩
  | body c v category k => exact ⟨ok_body hc.1 hc.2 v category, rfl⟩
  | ended c k => exact ⟨ok_ended hc, rfl⟩
  | terminal outcome => exact ⟨trivial, rfl⟩
  | returned => exact ⟨trivial, rfl⟩
  | failed check => exact ⟨hc, rfl⟩

theorem inv_run (e : Chain α) (k : Terminal α R) (n : ℕ) : Inv (step^[n] (start e k)) :=
  Iteration.invariant (inv_start e k) (fun _ => inv_step) n

theorem Inv.not_failed {s : State R} (h : Inv s) (check : Check) :
    s.control ≠ .failed check := by
  intro hc
  have hok := h.control
  rw [hc] at hok
  exact hok

/-- No call is taken back. -/
theorem delivered_step (s : State R) : s.delivered <+: (step s).delivered := by
  unfold step
  split <;> simp

theorem delivered_iterate (s : State R) (n : ℕ) : s.delivered <+: (step^[n] s).delivered :=
  Iteration.invariant (P := fun t => s.delivered <+: t.delivered) (List.prefix_refl _)
    (fun t ht => ht.trans (delivered_step t)) n

end Eventuals.Stream
