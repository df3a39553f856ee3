import Eventuals.OpenSSLReference
import Eventuals.ValueSemanticsOwnership

/-! Whole runs of programs with keys and certificates: what is owned is what the values have and
what has been leaked, and the values are what they would be without any pointers. -/
namespace Eventuals.ValueSemantics

open OpenSSL
open Resumption (Contract Exchange Program)
open Transition (Machine)

variable {M α : Type*} {g g' : Heap M} {s u : State M} {l : Label M} {op : Operation}
  {t : List (Exchange (Heap M) Question Answer)} {xs : List (State M × Label M)}

/-- Besides what the values own there is what has been leaked, and the keys are RSA keys. -/
structure Inv (s : State M) : Prop where
  owned : ∃ leaked : List Pointer, s.heap.owned = owns s.values + (leaked : Multiset Pointer) ∧
    (leaked.map Pointer.kind : List Kind) = s.leaks
  sound : ∀ v ∈ s.values, Sound s.heap.store v

theorem inv_initial (h : (machine M).Initial s) : Inv s := by
  obtain ⟨store, rfl⟩ := h
  exact ⟨⟨[], rfl, rfl⟩, by simp⟩

/-- The change that an operation means for what the values are. -/
def change (s : State M) (l : Label M) : Change M where
  operation := l.operation
  others := l.others.map (content s.heap.store)
  before := l.operation.reads.map (content s.heap.store)
  after := (l.operation.leaves ++ made l.outcome).map (content l.heap.store)

/-- OpenSSL does not fail where failing is not checked. -/
theorem lawful_of_not_starved (h : (documented M).Lawful l.exchanges) (hn : ¬ l.Starved) :
    (contract M l.operation.unchecked).Lawful l.exchanges := by
  intro x hx hp
  obtain ⟨howned, he, -⟩ := h x hx hp
  exact ⟨howned, he, fun hu h0 => hn ⟨x, hx, hu, h0⟩⟩

theorem owned_before (hi : Inv s)
    (hv : s.values = l.others + (l.operation.reads : Multiset Value)) :
    ∃ leaked : List Pointer, (leaked.map Pointer.kind : List Kind) = s.leaks ∧
      s.heap.owned = owns l.others + (leaked : Multiset Pointer) + owns l.operation.reads := by
  obtain ⟨leaked, howned, hleaks⟩ := hi.owned
  refine ⟨leaked, hleaks, ?_⟩
  rw [howned, hv, owns_add, Multiset.add_assoc, Multiset.add_assoc,
    Multiset.add_comm (owns (l.operation.reads : Multiset Value))]

/-- An operation that is not starved leaves the invariant behind, unless it aborts. -/
theorem inv_next (hi : Inv s) (he : (machine M).Enabled s l) (hn : ¬ l.Starved) :
    ¬ ((machine M).next s l).misused ∧ (l.outcome = .aborted → l.operation.MayAbort) ∧
      (l.outcome ≠ .aborted → Inv ((machine M).next s l) ∧
        (values M).Step s.contents (change s l) ((machine M).next s l).contents) := by
  obtain ⟨-, -, htyped, hv, hplays, hlawful⟩ := he
  obtain ⟨leaked, hleaks, howned⟩ := owned_before hi hv
  have hreads : ∀ v ∈ l.operation.reads, Sound s.heap.store v := by
    intro v hm
    exact hi.sound v (by rw [hv]; exact Multiset.mem_add.mpr (.inr hm))
  obtain ⟨hproper, habort, hends⟩ := (wp_operation l.operation howned hreads htyped).plays hplays
    (lawful_of_not_starved hlawful hn)
  refine ⟨?_, habort, fun hne => ?_⟩
  · rintro ⟨x, hx, hx'⟩
    exact hx' (hproper x hx)
  obtain ⟨leaked', hleaks', hend⟩ := hends hne
  have hothers : ∀ v ∈ l.others, v.address ≠ 0 →
      v.pointer ∈ owns l.others + (leaked : Multiset Pointer) := fun v hm h0 =>
    Multiset.mem_add.mpr (.inl (mem_owns hm h0))
  refine ⟨⟨⟨leaked ++ leaked', ?_, ?_⟩, ?_⟩, ⟨?_, hend.means⟩, ?_⟩
  · change l.heap.owned = owns (l.others + _) + _
    rw [hend.owned, owns_add, ← Multiset.coe_add leaked, Multiset.add_assoc, Multiset.add_assoc,
      Multiset.add_assoc, ← Multiset.add_assoc (leaked : Multiset Pointer),
      Multiset.add_comm (leaked : Multiset Pointer), Multiset.add_assoc]
  · change ((leaked ++ leaked').map Pointer.kind : List Kind) = s.leaks + _
    rw [List.map_append, ← Multiset.coe_add, hleaks, hleaks']
  · intro v hm
    rcases Multiset.mem_add.mp hm with hm | hm
    · refine (hi.sound v ?_).kept hend.kept (hothers v hm)
      rw [hv]
      exact Multiset.mem_add.mpr (.inl hm)
    · exact hend.sound v hm
  · change s.values.map _ = _
    rw [hv, Multiset.map_add]
    rfl
  · change (l.others + _).map (content l.heap.store) = _
    rw [Multiset.map_add, Multiset.map_congr rfl fun v hm => content_kept hend.kept (hothers v hm)]
    rfl

/-- Nothing is asked but the calls of the list. -/
theorem plays_calls {os : List Question} {a b : α} (h : (calls os (.done b)).Plays g t a g') :
    ∀ x ∈ t, x.question ∈ os := by
  induction os generalizing g t with
  | nil =>
    obtain ⟨rfl, -, -⟩ := h
    simp
  | cons o os ih =>
    obtain ⟨r, g₁, t', rfl, h⟩ := h
    intro x hx
    rcases List.mem_cons.mp hx with rfl | hx
    · exact List.mem_cons_self
    · exact List.mem_cons_of_mem _ (ih h x hx)

theorem plays_takeOver {old : List Value} {new : α → List Value} {p : Code M α}
    {o : Outcome (List Value)} (h : (takeOver old new p).Plays g t o g') :
    ∃ a g₁ t₁ t₂, t = t₁ ++ t₂ ∧ p.Plays g t₁ a g₁ ∧
      ∀ x ∈ t₂, ∃ v : Value, x.question = v.free := by
  obtain ⟨a, g₁, t₁, t₂, rfl, hp, hq⟩ := Program.plays_bind.mp h
  refine ⟨a, g₁, t₁, t₂, rfl, hp, fun x hx => ?_⟩
  cases a with
  | value a =>
    obtain ⟨v, -, hv⟩ := List.mem_map.mp (plays_calls hq x hx)
    exact ⟨v, hv.symm⟩
  | unexpected error =>
    obtain ⟨rfl, -, -⟩ := hq
    cases hx
  | aborted =>
    obtain ⟨rfl, -, -⟩ := hq
    cases hx

theorem unchecked_free (v w : Value) : w.uncheckedByCopy v.free = false ∧
    PEM.uncheckedByEncode v.free = false := by
  obtain ⟨c, a⟩ := v
  obtain ⟨d, b⟩ := w
  cases c <;> cases d <;> exact ⟨rfl, rfl⟩

/-- What is asked is improper if it needs `nullptr`. -/
theorem not_proper {x : Exchange (Heap M) Question Answer} {p : Pointer}
    (h : p ∈ x.question.uses) (h0 : p.address = 0) :
    ¬ (documented M).Proper x.question x.before :=
  fun hp => (hp p h).1 h0

/-- Whatever is asked is asked after the `CHECK`. -/
theorem plays_checkNotNull {a : ℕ} {p : Code M α} {o : Outcome α}
    {x : Exchange (Heap M) Question Answer} (h : (checkNotNull a p).Plays g t o g')
    (hx : x ∈ t) : p.Plays g t o g' := by
  unfold checkNotNull at h
  split at h
  · obtain ⟨rfl, -, -⟩ := h
    cases hx
  · exact h

/-- A copy hands on what it has not checked. -/
theorem improper_copy {key : ℕ} {o : Outcome ℕ} (h : (RSA.Copy key).Plays g t o g')
    (hx : ∃ x ∈ t, RSA.uncheckedByCopy x.question = true ∧ x.answer.pointer = 0) :
    ∃ x ∈ t, ¬ (documented M).Proper x.question x.before := by
  obtain ⟨x, hx, hu, h0⟩ := hx
  replace h := plays_checkNotNull h hx
  obtain ⟨r, g₁, t, rfl, h⟩ := h
  dsimp only at h
  split at h
  · obtain ⟨rsa, g₂, t, rfl, new, g₃, t, rfl, d, g₄, t, rfl, r', g₅, t, rfl, h⟩ := h
    obtain ⟨r₆, g₆, t, rfl, r₇, g₇, t, rfl, h⟩ := h
    by_cases hnull : new.pointer = 0 ∨ d.pointer = 0
    · refine ⟨⟨.evpPkeySet1RSA new.pointer d.pointer, g₄, r', g₅⟩, by simp, ?_⟩
      rcases hnull with hnull | hnull
      · exact not_proper (p := ⟨.key, new.pointer⟩) (by simp [Question.uses]) hnull
      · exact not_proper (p := ⟨.rsa, d.pointer⟩) (by simp [Question.uses]) hnull
    · exfalso
      have hkey : ∀ y ∈ t, RSA.uncheckedByCopy y.question = false := by
        intro y hy
        replace h := plays_checkNotNull h hy
        obtain ⟨r₈, g₈, t, rfl, h⟩ := h
        dsimp only at h
        split at h <;> obtain ⟨rfl, -, -⟩ := h <;> obtain rfl := List.mem_singleton.mp hy <;> rfl
      simp only [List.mem_cons] at hx
      rcases hx with rfl | rfl | rfl | rfl | rfl | rfl | rfl | hx
      · cases hu
      · cases hu
      · exact hnull (.inl h0)
      · exact hnull (.inr h0)
      · cases hu
      · cases hu
      · cases hu
      · rw [hkey x hx] at hu
        cases hu
  · obtain ⟨rfl, -, -⟩ := h
    obtain rfl := List.mem_singleton.mp hx
    cases hu

/-- What is written is handed a `BIO` that has not been checked. -/
theorem improper_encode {write : ℕ → Question} {error : String} {o : Outcome String}
    (huses : ∀ b, ⟨.bio, b⟩ ∈ (write b).uses)
    (hwrite : ∀ b, PEM.uncheckedByEncode (write b) = false)
    (h : (PEM.Encode write error).Plays g t o g')
    (hx : ∃ x ∈ t, PEM.uncheckedByEncode x.question = true ∧ x.answer.pointer = 0) :
    ∃ x ∈ t, ¬ (documented M).Proper x.question x.before := by
  obtain ⟨x, hx, hu, h0⟩ := hx
  obtain ⟨bio, g₁, t, rfl, r, g₂, t, rfl, h⟩ := h
  by_cases hnull : bio.pointer = 0
  · exact ⟨⟨write bio.pointer, g₁, r, g₂⟩, by simp,
      not_proper (p := ⟨.bio, bio.pointer⟩) (huses _) hnull⟩
  · exfalso
    simp only [List.mem_cons] at hx
    rcases hx with rfl | rfl | hx
    · exact hnull h0
    · rw [hwrite] at hu
      cases hu
    · dsimp only at h
      split at h
      · obtain ⟨rfl, -, -⟩ := h
        cases hx
      · obtain ⟨r₃, g₃, t, rfl, r₄, g₄, t, rfl, rfl, -, -⟩ := h
        simp only [List.mem_cons, List.not_mem_nil, or_false] at hx
        rcases hx with rfl | rfl <;> cases hu

theorem improper_value_copy {v : Value} {o : Outcome ℕ} (h : v.copy.Plays g t o g')
    (hx : ∃ x ∈ t, v.uncheckedByCopy x.question = true ∧ x.answer.pointer = 0) :
    ∃ x ∈ t, ¬ (documented M).Proper x.question x.before := by
  obtain ⟨c, a⟩ := v
  cases c with
  | key => exact improper_copy h hx
  | certificate =>
    obtain ⟨x, -, hu, -⟩ := hx
    cases hu

theorem improper_value_encode {v : Value} {o : Outcome String} (h : v.encode.Plays g t o g')
    (hx : ∃ x ∈ t, PEM.uncheckedByEncode x.question = true ∧ x.answer.pointer = 0) :
    ∃ x ∈ t, ¬ (documented M).Proper x.question x.before := by
  obtain ⟨x, hx, hu⟩ := hx
  obtain ⟨c, a⟩ := v
  cases c with
  | key =>
    exact improper_encode (by simp [Question.uses]) (fun _ => rfl) (plays_checkNotNull h hx)
      ⟨x, hx, hu⟩
  | certificate =>
    exact improper_encode (by simp [Question.uses]) (fun _ => rfl) (plays_checkNotNull h hx)
      ⟨x, hx, hu⟩

theorem improper_takeOver {old : List Value} {new : α → List Value} {p : Code M α}
    {o : Outcome (List Value)} {unchecked : Question → Bool}
    (h : (takeOver old new p).Plays g t o g') (hfree : ∀ v : Value, unchecked v.free = false)
    (hx : ∃ x ∈ t, unchecked x.question = true ∧ x.answer.pointer = 0)
    (hp : ∀ t a g', p.Plays g t a g' →
      (∃ x ∈ t, unchecked x.question = true ∧ x.answer.pointer = 0) →
      ∃ x ∈ t, ¬ (documented M).Proper x.question x.before) :
    ∃ x ∈ t, ¬ (documented M).Proper x.question x.before := by
  obtain ⟨a, g₁, t₁, t₂, rfl, hplays, hfrees⟩ := plays_takeOver h
  obtain ⟨x, hx, hu, h0⟩ := hx
  rcases List.mem_append.mp hx with hx | hx
  · obtain ⟨y, hy, himproper⟩ := hp t₁ a g₁ hplays ⟨x, hx, hu, h0⟩
    exact ⟨y, List.mem_append_left _ hy, himproper⟩
  · obtain ⟨v, hv⟩ := hfrees x hx
    rw [hv, hfree] at hu
    cases hu

/-- Where an allocation fails that is not checked, OpenSSL is given `nullptr`. -/
theorem improper_of_starved {o : Outcome (List Value)} (ht : op.Typed)
    (h : op.program.Plays g t o g')
    (hx : ∃ x ∈ t, op.unchecked x.question = true ∧ x.answer.pointer = 0) :
    ∃ x ∈ t, ¬ (documented M).Proper x.question x.before := by
  cases op with
  | copy v =>
    exact improper_takeOver h (fun w => (unchecked_free w v).1) hx fun _ _ _ => improper_value_copy
  | assignCopy v that =>
    have hof : (that.getD v).of = v.of := by
      cases that with
      | none => rfl
      | some w => exact ht w rfl
    have hunchecked : v.uncheckedByCopy = (that.getD v).uncheckedByCopy := by
      simp only [Value.uncheckedByCopy, hof]
    simp only [Operation.unchecked, hunchecked] at hx
    exact improper_takeOver h (fun w => (unchecked_free w _).1) hx fun _ _ _ => improper_value_copy
  | encode v =>
    exact improper_takeOver h (fun w => (unchecked_free w w).2) hx fun _ _ _ =>
      improper_value_encode
  | _ =>
    obtain ⟨x, -, hu, -⟩ := hx
    simp [Operation.unchecked] at hu

theorem run_stopped (h : s.aborted ∨ s.misused) (hr : (machine M).Run s xs u) :
    xs = [] ∧ u = s := by
  cases hr with
  | refl => exact ⟨rfl, rfl⟩
  | stepL hs _ =>
    obtain ⟨⟨ha, hm, -⟩, -⟩ := hs
    rcases h with h | h
    · exact absurd h ha
    · exact absurd h hm

/-- What a run leaves behind, by whether it goes wrong on its way. -/
theorem run_spec (hi : Inv s) (ha : ¬ s.aborted) (hm : ¬ s.misused)
    (hr : (machine M).Run s xs u) :
    (u.misused ↔ ∃ x ∈ xs, x.2.Starved) ∧
      (¬ u.misused → u.aborted →
        ∃ x, xs.getLast? = some x ∧ x.2.outcome = .aborted ∧ x.2.operation.MayAbort) ∧
      (¬ u.misused → ¬ u.aborted → Inv u ∧
        (values M).Run s.contents (xs.map fun x => (x.1.contents, change x.1 x.2)) u.contents) := by
  induction hr with
  | refl => exact ⟨by simp [hm], fun _ h => absurd h ha, fun _ _ => ⟨hi, .refl⟩⟩
  | @stepL s v u l xs hs hr ih =>
    obtain ⟨he, rfl⟩ := hs
    by_cases hn : l.Starved
    · have hmisused : ((machine M).next s l).misused :=
        improper_of_starved he.2.2.1 he.2.2.2.2.1 hn
      obtain ⟨rfl, rfl⟩ := run_stopped (.inr hmisused) hr
      refine ⟨?_, fun h => absurd hmisused h, fun h => absurd hmisused h⟩
      exact ⟨fun _ => ⟨_, List.mem_cons_self, hn⟩, fun _ => hmisused⟩
    · obtain ⟨hproper, habort, hends⟩ := inv_next hi he hn
      by_cases ho : l.outcome = .aborted
      · obtain ⟨rfl, rfl⟩ := run_stopped (.inl ho) hr
        refine ⟨?_, fun _ _ => ⟨_, rfl, ho, habort ho⟩, fun _ h => absurd ho h⟩
        simpa [hproper] using hn
      · obtain ⟨hinv, hstep⟩ := hends ho
        obtain ⟨hmisused, hmay, hrest⟩ := ih hinv ho hproper
        refine ⟨?_, fun h h' => ?_, fun h h' => ?_⟩
        · rw [hmisused]
          simp [hn]
        · obtain ⟨x, hx, hmay⟩ := hmay h h'
          exact ⟨x, by simp [List.getLast?_cons, hx], hmay⟩
        · exact ⟨(hrest h h').1, .stepL hstep (hrest h h').2⟩

section Reference

/-- An operation of a process whose OpenSSL is the reference. -/
def Operation.label (op : Operation) (s : State ℕ) : Label ℕ :=
  let x := op.program.play reference s.heap
  { operation := op, others := s.values - (op.reads : Multiset Value), exchanges := x.1
    outcome := x.2.1, heap := x.2.2 }

/-- One operation after the other, and the state that they leave. -/
def perform : List Operation → State ℕ → List (State ℕ × Label ℕ) × State ℕ
  | [], s => ([], s)
  | op :: ops, s =>
    let x := perform ops ((machine ℕ).next s (op.label s))
    ((s, op.label s) :: x.1, x.2)

/-- The values that an operation reads are there. -/
def Ready (op : Operation) (s : State ℕ) : Prop :=
  op.Typed ∧ (op.reads : Multiset Value) ≤ s.values

/-- Nothing goes wrong on the way. -/
def Smooth : List Operation → State ℕ → Prop
  | [], _ => True
  | op :: ops, s =>
    (Ready op s ∧ (op.label s).outcome ≠ .aborted ∧
      ∀ x ∈ (op.label s).exchanges, (documented ℕ).Proper x.question x.before) ∧
    Smooth ops ((machine ℕ).next s (op.label s))

instance : DecidablePred Operation.Typed
  | .assignCopy this that | .assignMove this that =>
    inferInstanceAs (Decidable (∀ v ∈ that, v.of = this.of))
  | .buildKey _ _ | .buildCertificate _ | .readCertificate _ | .copy _ | .move _ | .compare _ _
  | .encode _ | .destroy _ => inferInstanceAs (Decidable True)

instance (op : Operation) (s : State ℕ) : Decidable (Ready op s) :=
  inferInstanceAs (Decidable (_ ∧ _))

instance (o : Question) (g : Heap ℕ) : Decidable ((documented ℕ).Proper o g) :=
  inferInstanceAs (Decidable (∀ p ∈ o.uses, p.address ≠ 0 ∧ p ∈ g.owned))

instance Smooth.decidable : ∀ ops s, Decidable (Smooth ops s)
  | [], _ => inferInstanceAs (Decidable True)
  | _ :: ops, _ =>
    have := Smooth.decidable ops
    inferInstanceAs (Decidable (_ ∧ _))

theorem label_step {s : State ℕ} (hr : Ready op s) (ha : ¬ s.aborted) (hm : ¬ s.misused) :
    (machine ℕ).Step s (op.label s) ((machine ℕ).next s (op.label s)) :=
  ⟨⟨ha, hm, hr.1, (Multiset.sub_add_cancel hr.2).symm, Program.plays_play _ _,
    Program.lawful_play answers_reference _ _⟩, rfl⟩

/-- Operations that go smoothly are a run that neither aborts nor misuses OpenSSL. -/
theorem perform_run {ops : List Operation} {s : State ℕ} (h : Smooth ops s) (ha : ¬ s.aborted)
    (hm : ¬ s.misused) :
    (machine ℕ).Run s (perform ops s).1 (perform ops s).2 ∧ ¬ (perform ops s).2.aborted ∧
      ¬ (perform ops s).2.misused := by
  induction ops generalizing s with
  | nil => exact ⟨.refl, ha, hm⟩
  | cons op ops ih =>
    obtain ⟨⟨hready, houtcome, hproper⟩, hrest⟩ := h
    have hm' : ¬ ((machine ℕ).next s (op.label s)).misused := by
      rintro ⟨x, hx, hn⟩
      exact hn (hproper x hx)
    obtain ⟨hrun, haborted, hmisused⟩ := ih hrest houtcome hm'
    exact ⟨.stepL (label_step hready ha hm) hrun, haborted, hmisused⟩

end Reference

section Example

def nothing : State ℕ :=
  ⟨0, ⟨0, fun _ => none, fun _ => none, fun _ => {}, fun _ => [], fun _ => [], fun _ => []⟩, 0,
    False, False⟩

/-- A copy of the key that it certifies signs the first certificate. -/
def loopback : X509.Builder :=
  { subjectKey := 1, signKey := 4, hostname := some "localhost", ip := some (.v4 127 0 0 1) }

/-- The first key signs the certificate of the second key, with the first one for its parent. -/
def host : X509.Builder :=
  { subjectKey := 2, signKey := 1, parentCertificate := some 5, ip := some (.v4 10 0 0 7) }

/-- Nothing but IPv4 is supported. -/
def unsupported : X509.Builder :=
  { subjectKey := 1, signKey := 2, parentCertificate := some 5, ip := some .v6 }

/-- Two keys and two certificates are built, copied, assigned, moved, compared, written and
destroyed; the key cannot be written, and the third certificate cannot be built. -/
def issuing : List Operation :=
  [.buildKey RSA.defaultBits RSA.defaultExponent, .buildKey RSA.defaultBits RSA.defaultExponent,
    .copy ⟨.key, 1⟩, .buildCertificate loopback, .buildCertificate host, .copy ⟨.certificate, 6⟩,
    .assignCopy ⟨.certificate, 7⟩ (some ⟨.certificate, 5⟩), .move ⟨.certificate, 6⟩,
    .assignMove ⟨.key, 4⟩ (some ⟨.key, 2⟩), .compare 1 2, .encode ⟨.key, 1⟩,
    .encode ⟨.certificate, 5⟩, .buildCertificate unsupported, .destroy ⟨.certificate, 8⟩]

theorem issuing_smooth : Smooth issuing nothing := by decide +kernel

theorem nothing_initial : (machine ℕ).Initial nothing := ⟨_, rfl⟩

theorem issuing_run : (machine ℕ).Run nothing (perform issuing nothing).1
      (perform issuing nothing).2 ∧
    ¬ (perform issuing nothing).2.aborted ∧ ¬ (perform issuing nothing).2.misused :=
  perform_run issuing_smooth (fun h => h) fun h => h

end Example

/-- OpenSSL is given `nullptr` exactly if an allocation fails that `Copy` or `Encode` does not
check. Otherwise the process owns what its values point to and what has been leaked, and aborts
only over a value that has been moved from or in a copy. -/
theorem owned_by_values (hi : (machine M).Initial s) (hr : (machine M).Run s xs u) :
    (u.misused ↔ ∃ x ∈ xs, x.2.Starved) ∧
      (¬ u.misused → u.aborted →
        ∃ x, xs.getLast? = some x ∧ x.2.outcome = .aborted ∧ x.2.operation.MayAbort) ∧
      (¬ u.misused → ¬ u.aborted → ∃ leaked : List Pointer,
        u.heap.owned = owns u.values + (leaked : Multiset Pointer) ∧
        (leaked.map Pointer.kind : List Kind) = u.leaks) := by
  have hinv := inv_initial hi
  obtain ⟨store, rfl⟩ := hi
  obtain ⟨hmisused, habort, hends⟩ := run_spec hinv (fun h => h) (fun h => h) hr
  exact ⟨hmisused, habort, fun hm ha => (hends hm ha).1.owned⟩

/-- What cannot be written or built is lost, and to copy what has been moved from aborts. -/
theorem issuing_owned : (∃ xs u, (machine ℕ).Run nothing xs u ∧ ∃ leaked : List Pointer,
      u.heap.owned = owns u.values + (leaked : Multiset Pointer) ∧
      (leaked.map Pointer.kind : List Kind) =
        ({.bio, .string, .name, .stack, .certificate} : Multiset Kind)) ∧
    ∃ xs u, (machine ℕ).Run nothing xs u ∧ u.aborted ∧
      ∃ x, xs.getLast? = some x ∧ x.2.outcome = .aborted ∧ x.2.operation.MayAbort := by
  obtain ⟨hr, ha, hm⟩ := issuing_run
  constructor
  · have hleaks : (perform issuing nothing).2.leaks =
        ({.bio, .string, .name, .stack, .certificate} : Multiset Kind) := by decide +kernel
    have howned := (owned_by_values nothing_initial hr).2.2 hm ha
    rw [hleaks] at howned
    exact ⟨_, _, hr, howned⟩
  · have hready : Ready (.copy ⟨.certificate, 0⟩) (perform issuing nothing).2 := by decide +kernel
    have hrun := hr.append (.stepL (label_step hready ha hm) .refl)
    refine ⟨_, _, hrun, rfl, (owned_by_values nothing_initial hrun).2.1 ?_ rfl⟩
    rintro ⟨x, hx, -⟩
    cases hx

/-- The values are at every moment what they are without pointers. -/
theorem refines_values (hi : (machine M).Initial s) (hr : (machine M).Run s xs u)
    (hm : ¬ u.misused) (ha : ¬ u.aborted) :
    (values M).Run 0 (xs.map fun x => (x.1.contents, change x.1 x.2)) u.contents := by
  have hinv := inv_initial hi
  obtain ⟨store, rfl⟩ := hi
  exact ((run_spec hinv (fun h => h) (fun h => h) hr).2.2 hm ha).2

theorem issuing_refines : ((perform issuing nothing).1.map fun x => x.2.operation) = issuing ∧
    (values ℕ).Run 0 ((perform issuing nothing).1.map fun x => (x.1.contents, change x.1 x.2))
      (perform issuing nothing).2.contents :=
  ⟨rfl, refines_values nothing_initial issuing_run.1 issuing_run.2.2 issuing_run.2.1⟩

section Issuing

/-- What an operation ends with. -/
def Label.results (l : Label M) : List (Content M) :=
  (made l.outcome).map (content l.heap.store)

/-- The keys that have been generated. -/
def Generated (xs : List (State M × Label M)) (m : M) : Prop :=
  ∃ x ∈ xs, (∃ bits exponent, x.2.operation = .buildKey bits exponent) ∧
    .key (some m) ∈ x.2.results

/-- The certificates that have been read from files. -/
def Read (xs : List (State M × Label M)) (c : Certificate M) : Prop :=
  ∃ x ∈ xs, (∃ path, x.2.operation = .readCertificate path) ∧ .certificate (some c) ∈ x.2.results

/-- A builder has ended with the certificate; what it held was then the subject's key, the key that
signs and the parent. -/
def Built (xs : List (State M × Label M)) (b : X509.Builder) (given : List (Content M))
    (c : Certificate M) : Prop :=
  ∃ x ∈ xs, x.2.operation = .buildCertificate b ∧
    (held b).map (content x.1.heap.store) = given ∧ .certificate (some c) ∈ x.2.results

variable {K : M → Prop} {B : X509.Builder → List (Content M) → Certificate M → Prop}
  {R : Certificate M → Prop}

/-- A certificate is from a file, or a builder has ended with it: it says what that builder says of
the key that it was given and is signed as a whole by the other one, and it is issued by itself,
or by a certificate that is one of these. -/
inductive Issued (K : M → Prop) (B : X509.Builder → List (Content M) → Certificate M → Prop)
    (R : Certificate M → Prop) : Certificate M → Prop
  | read {c : Certificate M} (hc : R c) : Issued K B R c
  | selfSigned {b : X509.Builder} {m : M} {hostname : String} (hm : K m)
      (hp : b.parentCertificate = none) (hip : b.ip ≠ some .v6)
      (hh : ∀ h, b.hostname = some h → hostname = h)
      (hb : B b [.key (some m), .key (some m)]
        ⟨b.body m none hostname, some (m, b.body m none hostname)⟩) :
      Issued K B R ⟨b.body m none hostname, some (m, b.body m none hostname)⟩
  | signed {b : X509.Builder} {m n : M} {p : Certificate M} {hostname : String} (hm : K m)
      (hn : K n) (hp : Issued K B R p) (hparent : b.parentCertificate.isSome)
      (hip : b.ip ≠ some .v6) (hh : ∀ h, b.hostname = some h → hostname = h)
      (hb : B b [.key (some m), .key (some n), .certificate (some p)]
        ⟨b.body m (some p.body.subject) hostname,
          some (n, b.body m (some p.body.subject) hostname)⟩) :
      Issued K B R ⟨b.body m (some p.body.subject) hostname,
        some (n, b.body m (some p.body.subject) hostname)⟩

def Authentic (K : M → Prop) (B : X509.Builder → List (Content M) → Certificate M → Prop)
    (R : Certificate M → Prop) : Content M → Prop
  | .key m => ∀ k ∈ m, K k
  | .certificate c => ∀ d ∈ c, Issued K B R d

/-- Where a change comes from. -/
structure Sources (K : M → Prop) (B : X509.Builder → List (Content M) → Certificate M → Prop)
    (R : Certificate M → Prop) (c : Change M) : Prop where
  key : ∀ bits exponent m, c.operation = .buildKey bits exponent → .key (some m) ∈ c.after → K m
  builder : ∀ b d, c.operation = .buildCertificate b →
    c.after = c.before ++ [.certificate (some d)] → B b c.before d
  read : ∀ path d, c.operation = .readCertificate path → .certificate (some d) ∈ c.after → R d

theorem authentic_moved (x : Content M) : Authentic K B R x.moved := by
  cases x <;> simp [Content.moved, Authentic]

theorem authentic_means {c : Change M} (h : Means c.operation c.before c.after)
    (hs : Sources K B R c) (hb : ∀ x ∈ c.before, Authentic K B R x) :
    ∀ x ∈ c.after, Authentic K B R x := by
  obtain ⟨op, others, before, after⟩ := c
  obtain ⟨hkey, hbuilder, hread⟩ := hs
  dsimp only at h hkey hbuilder hread hb ⊢
  cases h with
  | buildKey m =>
    have hm : K m := hkey _ _ m rfl (List.mem_singleton_self _)
    simpa [Authentic] using hm
  | noKey | notRead | destroy x => simp
  | selfSigned m hostname hp hip hh =>
    have hm : K m := by simpa [Authentic] using hb (.key (some m)) (by simp)
    have hc := Issued.selfSigned (R := R) hm hp hip hh (hbuilder _ _ rfl rfl)
    simpa [Authentic, hm] using hc
  | signed m n p hostname hp hip hh =>
    have hm : K m := by simpa [Authentic] using hb (.key (some m)) (by simp)
    have hn : K n := by simpa [Authentic] using hb (.key (some n)) (by simp)
    have hparent : Issued K B R p := by
      simpa [Authentic] using hb (.certificate (some p)) (by simp)
    have hc := Issued.signed hm hn hparent hp hip hh (hbuilder _ _ rfl rfl)
    simpa [Authentic, hm, hn, hparent] using hc
  | readCertificate d =>
    have hd : R d := hread _ d rfl (List.mem_singleton_self _)
    simpa [Authentic] using Issued.read hd
  | notBuilt xs => exact hb
  | compare m n | encode x hx | assignMoveSelf x | assignCopySelf x hx => exact hb
  | copy x hx | assignCopy x y hx =>
    have hx : Authentic K B R x := hb x (by simp)
    simpa using hx
  | move x | assignMove x y =>
    have hx : Authentic K B R x := hb x (by simp)
    simpa [authentic_moved] using hx

theorem authentic_run {cs ds : Multiset (Content M)} {ys : List (Multiset (Content M) × Change M)}
    (hr : (values M).Run cs ys ds) (hs : ∀ y ∈ ys, Sources K B R y.2)
    (hc : ∀ x ∈ cs, Authentic K B R x) : ∀ x ∈ ds, Authentic K B R x := by
  induction hr with
  | refl => exact hc
  | @stepL cs es ds c ys hstep hr ih =>
    obtain ⟨⟨hcs, hmeans⟩, rfl⟩ := hstep
    refine ih (fun y hy => hs y (List.mem_cons_of_mem _ hy)) fun x hx => ?_
    rcases Multiset.mem_add.mp hx with hx | hx
    · exact hc x (by rw [hcs]; exact Multiset.mem_add.mpr (.inl hx))
    · refine authentic_means hmeans (hs _ List.mem_cons_self) (fun y hy => hc y ?_) x hx
      rw [hcs]
      exact Multiset.mem_add.mpr (.inr hy)

theorem sources_of_mem {x : State M × Label M} (hx : x ∈ xs) :
    Sources (Generated xs) (Built xs) (Read xs) (change x.1 x.2) where
  key bits exponent m hop hm := by
    refine ⟨x, hx, ⟨bits, exponent, hop⟩, ?_⟩
    have hleaves : x.2.operation.leaves = [] := by
      rw [show x.2.operation = _ from hop]
      rfl
    simpa [change, hleaves, Label.results] using hm
  builder b d hop hd := by
    have hop : x.2.operation = .buildCertificate b := hop
    have hbefore : (change x.1 x.2).before = (held b).map (content x.1.heap.store) := by
      simp [change, hop, Operation.reads]
    have hafter : (change x.1 x.2).after =
        (held b).map (content x.2.heap.store) ++ x.2.results := by
      simp [change, hop, Operation.leaves, Label.results]
    rw [hafter, hbefore] at hd
    have hresults := (List.append_inj hd (by simp)).2
    refine ⟨x, hx, hop, hbefore.symm, ?_⟩
    rw [hresults]
    exact List.mem_singleton_self _
  read path d hop hd := by
    refine ⟨x, hx, ⟨path, hop⟩, ?_⟩
    have hleaves : x.2.operation.leaves = [] := by
      rw [show x.2.operation = _ from hop]
      rfl
    simpa [change, hleaves, Label.results] using hd

theorem authentic_contents (hi : (machine M).Initial s) (hr : (machine M).Run s xs u)
    (hm : ¬ u.misused) (ha : ¬ u.aborted) :
    ∀ x ∈ u.contents, Authentic (Generated xs) (Built xs) (Read xs) x := by
  have hinv := inv_initial hi
  obtain ⟨store, rfl⟩ := hi
  have hrun := ((run_spec hinv (fun h => h) (fun h => h) hr).2.2 hm ha).2
  refine authentic_run hrun (fun y hy => ?_) (by simp [State.contents])
  obtain ⟨x, hx, rfl⟩ := List.mem_map.mp hy
  exact sources_of_mem hx

/-- Every key of a run has been generated in it, and every certificate has been read or else built,
however often it has been copied and moved since. -/
theorem issued_by_run (hi : (machine M).Initial s) (hr : (machine M).Run s xs u)
    (hm : ¬ u.misused) (ha : ¬ u.aborted) :
    (∀ m, .key (some m) ∈ u.contents → Generated xs m) ∧
      ∀ c, .certificate (some c) ∈ u.contents →
        Issued (Generated xs) (Built xs) (Read xs) c := by
  have hall := authentic_contents hi hr hm ha
  exact ⟨fun m hk => hall _ hk m rfl, fun c hk => hall _ hk c rfl⟩

theorem issuing_issued :
    (∀ m, .key (some m) ∈ (perform issuing nothing).2.contents →
      Generated (perform issuing nothing).1 m) ∧
    ∀ c, .certificate (some c) ∈ (perform issuing nothing).2.contents →
      Issued (Generated (perform issuing nothing).1) (Built (perform issuing nothing).1)
        (Read (perform issuing nothing).1) c :=
  issued_by_run nothing_initial issuing_run.1 issuing_run.2.2 issuing_run.2.1

/-- The address under which a certificate can be found is that of the builder backwards, and so the
right one exactly if that reads the same in both directions. -/
def Named (ip : Option X509.Address) (names : List (List UInt8)) : Prop :=
  match ip with
  | none => names = []
  | some (.v4 p q r s) => names = [[s, r, q, p]] ∧ (names = [[p, q, r, s]] ↔ p = s ∧ q = r)
  | some .v6 => False

theorem named_body {b : X509.Builder} (hip : b.ip ≠ some .v6) (m : M)
    (issuer : Option (List (String × String))) (hostname : String) :
    Named b.ip (b.body m issuer hostname).subjectAltName := by
  cases h : b.ip with
  | none => simp [Named, X509.Builder.body, h]
  | some a =>
    cases a with
    | v6 => exact absurd h hip
    | v4 p q r s =>
      simp only [Named, X509.Builder.body, h, X509.memory_toUlong, true_and]
      constructor
      · intro heq
        simp only [List.cons.injEq, and_true] at heq
        exact ⟨heq.1.symm, heq.2.1.symm⟩
      · rintro ⟨rfl, rfl⟩
        rfl

theorem Issued.named {c : Certificate M} (h : Issued K B R c) :
    R c ∨ ∃ b given, B b given c ∧ Named b.ip c.body.subjectAltName := by
  cases h with
  | read hc => exact .inl hc
  | selfSigned _ _ hip _ hb => exact .inr ⟨_, _, hb, named_body hip ..⟩
  | signed _ _ _ _ hip _ hb => exact .inr ⟨_, _, hb, named_body hip ..⟩

/-- Whatever has been built names the address of the builder that has ended with it, backwards. -/
theorem named_backwards (hi : (machine M).Initial s) (hr : (machine M).Run s xs u)
    (hm : ¬ u.misused) (ha : ¬ u.aborted) {c : Certificate M}
    (hc : .certificate (some c) ∈ u.contents) :
    Read xs c ∨ ∃ b given, Built xs b given c ∧ Named b.ip c.body.subjectAltName := by
  have hissued : Issued (Generated xs) (Built xs) (Read xs) c :=
    authentic_contents hi hr hm ha _ hc c rfl
  exact hissued.named

/-- The certificate for the loopback address is for 1.0.0.127. -/
theorem issuing_named : ∃ c, .certificate (some c) ∈ (perform issuing nothing).2.contents ∧
    (Read (perform issuing nothing).1 c ∨ ∃ b given, Built (perform issuing nothing).1 b given c ∧
      Named b.ip c.body.subjectAltName) ∧
    ¬ Read (perform issuing nothing).1 c ∧ c.body.subjectAltName = [[1, 0, 0, 127]] := by
  have hc : .certificate (some ((perform issuing nothing).2.heap.store.certificate 5)) ∈
      (perform issuing nothing).2.contents :=
    Multiset.mem_map.mpr ⟨⟨.certificate, 5⟩, by decide +kernel, rfl⟩
  refine ⟨_, hc, named_backwards nothing_initial issuing_run.1 issuing_run.2.2 issuing_run.2.1 hc,
    ?_, by decide +kernel⟩
  rintro ⟨x, hx, ⟨path, hpath⟩, -⟩
  have hmem : x.2.operation ∈ issuing := List.mem_map_of_mem (f := fun x => x.2.operation) hx
  rw [hpath] at hmem
  simp [issuing] at hmem

end Issuing

end Eventuals.ValueSemantics
