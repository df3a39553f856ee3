import Eventuals.Lock
import Eventuals.Library.Fifo

/-! The list behind `head_` is a queue whose oldest waiter holds the lock. -/
namespace Eventuals.Lock

open Function (update)
open Intrusive (Chain)

variable {W C : Type*} {s t : State W C} {q : List W} {u v w z : W}

/-- The code between winning the lock and giving it up. -/
def PC.holder : PC W → Bool
  | .fastOwner _ | .fastAcquired _ | .ownCallback | .relinquish | .critical | .releaseAvailable
  | .releaseLoad | .releaseTest _ | .releaseOwner _ | .releaseSwap _ | .releaseWalk _
  | .releaseAcquired _ | .releaseUnlink _ => true
  | _ => false

/-- The lock has been obtained and not yet given up. -/
def PC.obtained : PC W → Bool
  | .fastOwner _ | .fastAcquired _ => false
  | p => p.holder

/-- `owner_` names the holder's context. -/
def PC.owns : PC W → Bool
  | .fastAcquired _ | .ownCallback | .relinquish | .critical | .releaseAvailable => true
  | _ => false

/-- The waiter that `Release` is handing the lock to. -/
def PC.handing : PC W → Option W
  | .handOwner v | .handAcquired v | .handCallback v => some v
  | _ => none

/-- Whoever holds the lock is not handing it over. -/
theorem PC.handing_of_holder {p : PC W} (h : p.holder = true) : p.handing = none := by
  cases p with
  | handOwner | handAcquired | handCallback => simp [PC.holder] at h
  | _ => rfl

/-- `Release` is in progress. -/
def PC.releasing : PC W → Bool
  | .releaseAvailable | .releaseLoad | .releaseTest _ | .releaseOwner _ | .releaseSwap _
  | .releaseWalk _ | .releaseAcquired _ | .releaseUnlink _ | .handOwner _ | .handAcquired _
  | .handCallback _ => true
  | _ => false

/-- The holder runs its critical section. -/
def PC.running : PC W → Bool
  | .ownCallback | .relinquish | .critical => true
  | _ => false

/-- The code between the checks of `AcquireSlow` and winning or joining the list. -/
def PC.enqueuing : PC W → Bool
  | .slowLoad | .slowSwap | .fastChecks .slow | .fastLoad .slow | .fastSwap .slow
  | .fastReset .slow => true
  | _ => false

/-- Callbacks still owed to the waiter. -/
def PC.pending : PC W → ℕ
  | .queued => 1
  | _ => 0

/-- A waiter may be enqueued for the caller of `AcquireFast`. -/
def State.Ready (s : State W C) (w : W) (c : Caller) : Prop :=
  s.context w = some (s.self w) ∧ (c = .slow → s.f w = true)

/-- What a waiter's own fields hold at each instruction. -/
def Facts (s : State W C) (q : List W) (w : W) : Prop :=
  match s.pc w with
  | .idle => s.next w = none ∧ s.acquired w = s.clearing w
  | .fastChecks c | .fastLoad c =>
    s.next w = none ∧ s.acquired w = false ∧ s.clearing w = false ∧ s.Ready w c
  | .fastSwap c | .fastReset c | .fastOwner c | .fastAcquired c =>
    s.acquired w = false ∧ s.clearing w = false ∧ s.Ready w c
  | .storeCallback =>
    s.next w = none ∧ s.acquired w = false ∧ s.clearing w = false ∧ s.Ready w .acquire
  | .slowChecks | .slowLoad =>
    s.next w = none ∧ s.acquired w = false ∧ s.clearing w = false ∧ s.Ready w .slow
  | .slowSwap => s.acquired w = false ∧ s.clearing w = false ∧ s.Ready w .slow
  | .queued =>
    (s.acquired w = true → q.head? = some w) ∧ s.clearing w = false ∧ s.Ready w .slow
  | .ownCallback => s.acquired w = true ∧ s.clearing w = false ∧ s.f w = true
  | .relinquish | .critical | .releaseAvailable | .releaseLoad =>
    s.acquired w = true ∧ s.clearing w = false
  | .releaseTest v => s.acquired w = true ∧ s.clearing w = false ∧ v ∈ q
  | .releaseOwner v | .releaseSwap v => s.acquired w = true ∧ s.clearing w = false ∧ v = w
  | .releaseWalk v => s.acquired w = true ∧ s.clearing w = false ∧ v ∈ q ∧ v ≠ w
  | .releaseAcquired v =>
    s.acquired w = true ∧ s.clearing w = false ∧ ∃ q', q = w :: v :: q'
  | .releaseUnlink v =>
    s.acquired w = false ∧ s.clearing w = false ∧ ∃ q', q = w :: v :: q'
  | .handOwner _ | .handAcquired _ | .handCallback _ =>
    s.next w = none ∧ s.acquired w = false ∧ s.clearing w = false

/-- The queue `q` names the waiters of the list oldest first. -/
structure Inv (s : State W C) (q : List W) : Prop where
  chain : Chain s.next s.head q.reverse
  failed : s.failed = none
  facts : ∀ w, Facts s q w
  holder : ∀ w, (s.pc w).holder = true → q.head? = some w
  queued : ∀ w, s.pc w = .queued → w ∈ q
  member : ∀ w, w ∈ q → (s.pc w).holder = true ∨ s.pc w = .queued
  handing : ∀ u v, (s.pc u).handing = some v → q.head? = some v ∧ s.pc v = .queued
  hander : ∀ u u' v v', (s.pc u).handing = some v → (s.pc u').handing = some v' → u = u'
  front : ∀ v, q.head? = some v → s.pc v = .queued → ∃ u, (s.pc u).handing = some v
  owner : ∀ w, (s.pc w).owns = true → s.owner = some (s.self w)
  handOwner : ∀ u v, s.pc u = .handAcquired v ∨ s.pc u = .handCallback v →
    s.owner = some (s.self v)
  handAcquired : ∀ u v, s.pc u = .handCallback v → s.acquired v = true
  order : s.swaps = s.obtained ++ q.filter fun w => !(s.pc w).obtained
  count : ∀ w, s.enqueues w = s.callbacks w + (s.pc w).pending

theorem inv_initial (self : W → C) : Inv (initial self) [] := by
  constructor <;> simp [initial, Facts, PC.holder, PC.handing, PC.owns, PC.pending]

/-- The fields of a single waiter. -/
def SameAt (s t : State W C) (z : W) : Prop :=
  t.next z = s.next z ∧ t.acquired z = s.acquired z ∧ t.context z = s.context z ∧
    t.f z = s.f z ∧ t.pc z = s.pc z ∧ t.self z = s.self z ∧ t.clearing z = s.clearing z ∧
    t.enqueues z = s.enqueues z ∧ t.callbacks z = s.callbacks z

theorem facts_congr (h : SameAt s t z) : Facts t q z ↔ Facts s q z := by
  obtain ⟨hn, ha, hc, hf, hp, hs, hl, -, -⟩ := h
  simp only [Facts, State.Ready, hn, ha, hc, hf, hp, hs, hl]

theorem owns_holder {p : PC W} (h : p.owns = true) : p.holder = true := by
  cases p <;> simp_all [PC.owns, PC.holder]

theorem pending_eq_zero {p : PC W} (h : p ≠ .queued) : p.pending = 0 := by
  cases p <;> simp_all [PC.pending]

/-- Code that neither holds the lock nor waits for it nor hands it over. -/
def PC.outside (p : PC W) : Prop :=
  p.holder = false ∧ p ≠ .queued ∧ p.handing = none

theorem Inv.not_mem (h : Inv s q) (ho : (s.pc w).outside) : w ∉ q := by
  intro hm
  rcases h.member w hm with hh | hh
  · simp [ho.1] at hh
  · exact ho.2.1 hh

theorem Inv.eq_cons (h : Inv s q) (hw : (s.pc w).holder = true) : ∃ q', q = w :: q' := by
  have hq := h.holder w hw
  cases q with
  | nil => simp at hq
  | cons v q' =>
    simp only [List.head?_cons, Option.some.injEq] at hq
    exact ⟨q', by rw [hq]⟩

/-- While a holder runs, nothing is being handed over. -/
theorem Inv.no_handing (h : Inv s q) (hw : (s.pc w).holder = true) : (s.pc u).handing = none := by
  by_contra hu
  obtain ⟨v, hv⟩ := Option.ne_none_iff_exists'.mp hu
  obtain ⟨hq, hp⟩ := h.handing u v hv
  have he := h.holder w hw
  rw [hq] at he
  rw [Option.some.inj he] at hp
  simp [hp, PC.holder] at hw

theorem Inv.holder_unique (h : Inv s q) (hv : (s.pc v).holder = true)
    (hw : (s.pc w).holder = true) : v = w :=
  Option.some.inj ((h.holder v hv).symm.trans (h.holder w hw))

/-- A step outside the lock changes one waiter that is not in the list. -/
theorem Inv.outside (h : Inv s q) (hw : (s.pc w).outside) (hw' : (t.pc w).outside)
    (hother : ∀ z, z ≠ w → SameAt s t z) (hhead : t.head = s.head) (howner : t.owner = s.owner)
    (hfailed : t.failed = none) (hswaps : t.swaps = s.swaps) (hobtained : t.obtained = s.obtained)
    (hcount : t.enqueues w = s.enqueues w ∧ t.callbacks w = s.callbacks w)
    (hfacts : Facts t q w) : Inv t q := by
  have hwq := h.not_mem hw
  have hpc : ∀ z, z ≠ w → t.pc z = s.pc z := fun z hz => (hother z hz).2.2.2.2.1
  have hself : ∀ z, z ≠ w → t.self z = s.self z := fun z hz => (hother z hz).2.2.2.2.2.1
  have hmem : ∀ z, z ∈ q → z ≠ w := fun z hz he => hwq (he ▸ hz)
  have hhand : ∀ u v, (t.pc u).handing = some v → (s.pc u).handing = some v := by
    intro u v huv
    by_cases hu : u = w
    · simp [hu, hw'.2.2] at huv
    · rwa [hpc u hu] at huv
  constructor
  · rw [hhead]
    refine (Intrusive.segment_congr fun z hz => ?_).mpr h.chain
    exact (hother z (hmem z (List.mem_reverse.mp hz))).1
  · exact hfailed
  · intro z
    by_cases hz : z = w
    · exact hz ▸ hfacts
    · exact (facts_congr (hother z hz)).mpr (h.facts z)
  · intro z hz
    by_cases hzw : z = w
    · simp [hzw, hw'.1] at hz
    · exact h.holder z (hpc z hzw ▸ hz)
  · intro z hz
    by_cases hzw : z = w
    · exact (hw'.2.1 (hzw ▸ hz)).elim
    · exact h.queued z (hpc z hzw ▸ hz)
  · intro z hz
    rw [hpc z (hmem z hz)]
    exact h.member z hz
  · intro u v huv
    obtain ⟨hq, hp⟩ := h.handing u v (hhand u v huv)
    exact ⟨hq, (hpc v (hmem v (h.queued v hp))).trans hp⟩
  · intro u u' v v' hu hu'
    exact h.hander u u' v v' (hhand u v hu) (hhand u' v' hu')
  · intro v hq hp
    have hv := hmem v (List.mem_of_head? hq)
    obtain ⟨u, hu⟩ := h.front v hq ((hpc v hv).symm.trans hp)
    have huw : u ≠ w := by
      rintro rfl
      simp [hw.2.2] at hu
    exact ⟨u, (hpc u huw).symm ▸ hu⟩
  · intro z hz
    by_cases hzw : z = w
    · have := owns_holder hz
      simp [hzw, hw'.1] at this
    · rw [howner, hself z hzw]
      exact h.owner z (hpc z hzw ▸ hz)
  · intro u v huv
    have hvw : v ≠ w := by
      have hu : (t.pc u).handing = some v := by rcases huv with hu | hu <;> simp [hu, PC.handing]
      exact hmem v (h.queued v (h.handing u v (hhand u v hu)).2)
    have huw : u ≠ w := by
      rintro rfl
      rcases huv with hu | hu <;> simp [hu, PC.handing, PC.outside] at hw'
    rw [howner, hself v hvw]
    exact h.handOwner u v (hpc u huw ▸ huv)
  · intro u v hu
    have hvw : v ≠ w := by
      have hh : (t.pc u).handing = some v := by simp [hu, PC.handing]
      exact hmem v (h.queued v (h.handing u v (hhand u v hh)).2)
    have huw : u ≠ w := by
      rintro rfl
      simp [hu, PC.handing, PC.outside] at hw'
    rw [(hother v hvw).2.1]
    exact h.handAcquired u v (hpc u huw ▸ hu)
  · rw [hswaps, hobtained, h.order]
    congr 1
    apply List.filter_congr
    intro z hz
    rw [hpc z (hmem z hz)]
  · intro z
    by_cases hz : z = w
    · rw [hz, hcount.1, hcount.2, h.count w, pending_eq_zero hw.2.1, pending_eq_zero hw'.2.1]
    · obtain ⟨-, -, -, -, hp, -, -, he, hc⟩ := hother z hz
      rw [he, hc, hp]
      exact h.count z

theorem Inv.head_ne_none (h : Inv s q) (hw : (s.pc w).holder = true) : s.head ≠ none := by
  intro hn
  have hq := h.holder w hw
  simp [h.chain.eq_nil_iff.mp hn] at hq

/-- While one waiter holds the lock, no other one is inside `Release`. -/
theorem Inv.not_releasing (h : Inv s q) (hw : (s.pc w).holder = true) (hz : z ≠ w) :
    (s.pc z).releasing = false := by
  by_contra hr
  have hholder : (s.pc z).holder ≠ true := fun hh => hz (h.holder_unique hh hw)
  have hhand := h.no_handing hw (u := z)
  cases hp : s.pc z <;> simp_all [PC.releasing, PC.holder, PC.handing]

theorem Inv.nodup (h : Inv s q) : q.Nodup := List.nodup_reverse.mp h.chain.nodup

/-- A step of the holder that leaves the list alone. -/
theorem Inv.held (h : Inv s q) (hw : (s.pc w).holder = true) (hw' : (t.pc w).holder = true)
    (hother : ∀ z, z ≠ w → SameAt s t z) (hhead : t.head = s.head) (hnext : t.next w = s.next w)
    (hfailed : t.failed = none) (hswaps : t.swaps = s.swaps)
    (howner : (t.pc w).owns = true → t.owner = some (t.self w))
    (hobtained : t.obtained ++ [w].filter (fun z => !(t.pc z).obtained) =
      s.obtained ++ [w].filter fun z => !(s.pc z).obtained)
    (hcount : t.enqueues w = s.enqueues w ∧ t.callbacks w = s.callbacks w)
    (hfacts : Facts t q w) : Inv t q := by
  have hpc : ∀ z, z ≠ w → t.pc z = s.pc z := fun z hz => (hother z hz).2.2.2.2.1
  have hne : ∀ {p : PC W}, p.holder = true → p ≠ .queued := by
    rintro p hp rfl
    simp [PC.holder] at hp
  have hhand : ∀ u, (t.pc u).handing = none := by
    intro u
    by_cases hu : u = w
    · subst hu
      exact PC.handing_of_holder hw'
    · rw [hpc u hu]
      exact h.no_handing hw
  have hholder : ∀ z, (t.pc z).holder = true → z = w := by
    intro z hz
    by_contra hzw
    exact hzw (h.holder_unique (hpc z hzw ▸ hz) hw)
  obtain ⟨q', rfl⟩ := h.eq_cons hw
  have hq' : ∀ z ∈ q', z ≠ w := by
    rintro z hz rfl
    exact (List.nodup_cons.mp h.nodup).1 hz
  constructor
  · rw [hhead]
    refine (Intrusive.segment_congr fun z _ => ?_).mpr h.chain
    by_cases hz : z = w
    · rw [hz, hnext]
    · exact (hother z hz).1
  · exact hfailed
  · intro z
    by_cases hz : z = w
    · exact hz ▸ hfacts
    · exact (facts_congr (hother z hz)).mpr (h.facts z)
  · intro z hz
    rw [hholder z hz]
    rfl
  · intro z hz
    by_cases hzw : z = w
    · exact (hne hw' (hzw ▸ hz)).elim
    · exact h.queued z (hpc z hzw ▸ hz)
  · intro z hz
    by_cases hzw : z = w
    · exact Or.inl (hzw ▸ hw')
    · rw [hpc z hzw]
      exact h.member z hz
  · intro u v huv
    simp [hhand u] at huv
  · intro u u' v v' hu _
    simp [hhand u] at hu
  · intro v hq hp
    simp only [List.head?_cons, Option.some.injEq] at hq
    exact (hne hw' (hq ▸ hp)).elim
  · intro z hz
    have hzw := hholder z (owns_holder hz)
    rw [hzw]
    exact howner (hzw ▸ hz)
  · intro u v huv
    have hu := hhand u
    rcases huv with huv | huv <;> simp [huv, PC.handing] at hu
  · intro u v huv
    have hu := hhand u
    simp [huv, PC.handing] at hu
  · have hfilter : (q'.filter fun z => !(t.pc z).obtained) =
        q'.filter fun z => !(s.pc z).obtained :=
      List.filter_congr fun z hz => by rw [hpc z (hq' z hz)]
    have horder := h.order
    rw [← List.singleton_append, List.filter_append, ← List.append_assoc] at horder ⊢
    rw [hswaps, hobtained, hfilter, horder]
  · intro z
    by_cases hz : z = w
    · rw [hz, hcount.1, hcount.2, h.count w, pending_eq_zero (hne hw), pending_eq_zero (hne hw')]
    · obtain ⟨-, -, -, -, hp, -, -, he, hc⟩ := hother z hz
      rw [he, hc, hp]
      exact h.count z

/-- Facts about other waiters survive a new waiter at the end of the queue. -/
theorem facts_append (h : Facts s q z) (hz : s.pc z = .queued → z ∈ q) :
    Facts s (q ++ [w]) z := by
  cases hp : s.pc z
  case queued =>
    simp only [Facts, hp] at h ⊢
    refine ⟨fun ha => ?_, h.2⟩
    rw [List.head?_append, h.1 ha]
    rfl
  case releaseTest v =>
    simp only [Facts, hp] at h ⊢
    exact ⟨h.1, h.2.1, List.mem_append_left _ h.2.2⟩
  case releaseWalk v =>
    simp only [Facts, hp] at h ⊢
    exact ⟨h.1, h.2.1, List.mem_append_left _ h.2.2.1, h.2.2.2⟩
  case releaseAcquired v =>
    simp only [Facts, hp] at h ⊢
    obtain ⟨ha, hc, q', rfl⟩ := h
    exact ⟨ha, hc, q' ++ [w], rfl⟩
  case releaseUnlink v =>
    simp only [Facts, hp] at h ⊢
    obtain ⟨ha, hc, q', rfl⟩ := h
    exact ⟨ha, hc, q' ++ [w], rfl⟩
  all_goals simpa only [Facts, hp] using h

/-- A successful compare-exchange that puts `w` at the head of the list. -/
theorem Inv.push (h : Inv s q) (hw : (s.pc w).outside) (hnext : s.next w = s.head)
    (hrole : q = [] ∧ (∃ c, t.pc w = .fastOwner c) ∨ q ≠ [] ∧ t.pc w = .queued)
    (hother : ∀ z, z ≠ w → SameAt s t z) (hhead : t.head = some w)
    (hnext' : t.next w = s.next w) (howner : t.owner = s.owner) (hfailed : t.failed = none)
    (hswaps : t.swaps = s.swaps ++ [w]) (hobtained : t.obtained = s.obtained)
    (hcount : t.enqueues w = s.enqueues w + (t.pc w).pending ∧ t.callbacks w = s.callbacks w)
    (hfacts : Facts t (q ++ [w]) w) : Inv t (q ++ [w]) := by
  have hwq := h.not_mem hw
  have hpc : ∀ z, z ≠ w → t.pc z = s.pc z := fun z hz => (hother z hz).2.2.2.2.1
  have hself : ∀ z, z ≠ w → t.self z = s.self z := fun z hz => (hother z hz).2.2.2.2.2.1
  have hmem : ∀ z, z ∈ q → z ≠ w := fun z hz he => hwq (he ▸ hz)
  have hhead? : ∀ z, q.head? = some z → (q ++ [w]).head? = some z := by
    intro z hz
    rw [List.head?_append, hz]
    rfl
  have hhandw : (t.pc w).handing = none := by
    rcases hrole with ⟨-, c, hp⟩ | ⟨-, hp⟩ <;> simp [hp, PC.handing]
  have hhand : ∀ u v, (t.pc u).handing = some v → u ≠ w ∧ (s.pc u).handing = some v := by
    intro u v huv
    by_cases hu : u = w
    · simp [hu, hhandw] at huv
    · exact ⟨hu, hpc u hu ▸ huv⟩
  constructor
  · rw [hhead]
    refine Intrusive.Chain.push ?_ (hnext'.trans hnext)
    refine (Intrusive.segment_congr fun z hz => ?_).mpr h.chain
    exact (hother z (hmem z (List.mem_reverse.mp hz))).1
  · exact hfailed
  · intro z
    by_cases hz : z = w
    · exact hz ▸ hfacts
    · exact (facts_congr (hother z hz)).mpr (facts_append (h.facts z) (h.queued z))
  · intro z hz
    by_cases hzw : z = w
    · rcases hrole with ⟨hq, -⟩ | ⟨-, hp⟩
      · simp [hq, hzw]
      · simp [hzw, hp, PC.holder] at hz
    · exact hhead? z (h.holder z (hpc z hzw ▸ hz))
  · intro z hz
    by_cases hzw : z = w
    · simp [hzw]
    · exact List.mem_append_left _ (h.queued z (hpc z hzw ▸ hz))
  · intro z hz
    by_cases hzw : z = w
    · rcases hrole with ⟨-, c, hp⟩ | ⟨-, hp⟩
      · exact Or.inl (by simp [hzw, hp, PC.holder])
      · exact Or.inr (by rw [hzw, hp])
    · rw [hpc z hzw]
      apply h.member z
      simpa [hzw] using hz
  · intro u v huv
    obtain ⟨hq, hp⟩ := h.handing u v (hhand u v huv).2
    exact ⟨hhead? v hq, (hpc v (hmem v (h.queued v hp))).trans hp⟩
  · intro u u' v v' hu hu'
    exact h.hander u u' v v' (hhand u v hu).2 (hhand u' v' hu').2
  · intro v hq hp
    rcases hrole with ⟨he, c, hpw⟩ | ⟨hne, -⟩
    · have hv : w = v := by simpa [he] using hq
      simp [← hv, hpw] at hp
    · have hqv : q.head? = some v := by
        cases q with
        | nil => exact (hne rfl).elim
        | cons a q' => simpa using hq
      have hv := hmem v (List.mem_of_head? hqv)
      obtain ⟨u, hu⟩ := h.front v hqv ((hpc v hv).symm.trans hp)
      have huw : u ≠ w := by
        rintro rfl
        simp [hw.2.2] at hu
      exact ⟨u, (hpc u huw).symm ▸ hu⟩
  · intro z hz
    by_cases hzw : z = w
    · rcases hrole with ⟨-, c, hp⟩ | ⟨-, hp⟩ <;> simp [hzw, hp, PC.owns] at hz
    · rw [howner, hself z hzw]
      exact h.owner z (hpc z hzw ▸ hz)
  · intro u v huv
    have hu : (t.pc u).handing = some v := by rcases huv with hu | hu <;> simp [hu, PC.handing]
    obtain ⟨huw, hu⟩ := hhand u v hu
    rw [howner, hself v (hmem v (h.queued v (h.handing u v hu).2))]
    exact h.handOwner u v (hpc u huw ▸ huv)
  · intro u v huv
    obtain ⟨huw, hu⟩ := hhand u v (by simp [huv, PC.handing])
    rw [(hother v (hmem v (h.queued v (h.handing u v hu).2))).2.1]
    exact h.handAcquired u v (hpc u huw ▸ huv)
  · have hfilter : (q.filter fun z => !(t.pc z).obtained) =
        q.filter fun z => !(s.pc z).obtained :=
      List.filter_congr fun z hz => by rw [hpc z (hmem z hz)]
    have hobt : (t.pc w).obtained = false := by
      rcases hrole with ⟨-, c, hp⟩ | ⟨-, hp⟩ <;> simp [hp, PC.obtained, PC.holder]
    rw [hswaps, hobtained, List.filter_append, hfilter, h.order]
    simp [hobt]
  · intro z
    by_cases hz : z = w
    · rw [hz, hcount.1, hcount.2, h.count w, pending_eq_zero hw.2.1, Nat.add_zero]
    · obtain ⟨-, -, -, -, hp, -, -, he, hc⟩ := hother z hz
      rw [he, hc, hp]
      exact h.count z

/-- Only the holder and the queued waiters speak of the list. -/
theorem facts_requeue {q' : List W} (hh : (s.pc z).holder = false) (hq : s.pc z ≠ .queued)
    (h : Facts s q z) : Facts s q' z := by
  cases hp : s.pc z
  all_goals simp_all [Facts, PC.holder]

theorem Inv.head_singleton (h : Inv s (w :: q)) (hhead : s.head = some w) : q = [] := by
  have hl := h.chain.head_eq
  rw [hhead, List.head?_reverse] at hl
  cases q with
  | nil => rfl
  | cons v q =>
    rw [List.getLast?_cons_cons] at hl
    exact ((List.nodup_cons.mp h.nodup).1 (List.mem_of_getLast? hl.symm)).elim

theorem Inv.idle_of_clearing (h : Inv s q) (hc : s.clearing w = true) : s.pc w = .idle := by
  have hf := h.facts w
  cases hp : s.pc w <;> simp_all [Facts]

theorem idle_outside (hw : s.pc w = .idle) : (s.pc w).outside := by
  simp [hw, PC.outside, PC.holder, PC.handing]

variable [DecidableEq W]

/-- The list is empty once the only waiter has published the free lock. -/
theorem Inv.publish (h : Inv s q) (hw : s.pc w = .releaseSwap v) (hhead : s.head = some v) :
    Inv (run s w false) [] := by
  have hf := h.facts w
  simp only [Facts, hw] at hf
  obtain ⟨ha, -, rfl⟩ := hf
  have hholder : (s.pc v).holder = true := by rw [hw]; rfl
  obtain ⟨q', rfl⟩ := h.eq_cons hholder
  obtain rfl := h.head_singleton hhead
  have hrun : run s v false =
      { s.goto v .idle with head := none, clearing := update s.clearing v true } := by
    simp [run, hw, State.swaps?, hhead]
  rw [hrun]
  have hnot : ∀ z, z ≠ v → (s.pc z).holder = false ∧ s.pc z ≠ .queued := by
    intro z hz
    constructor
    · by_contra hh
      simp only [Bool.not_eq_false] at hh
      exact hz (h.holder_unique hh hholder)
    · intro hp
      exact hz (List.mem_singleton.mp (h.queued z hp))
  have hnone : ∀ u, (s.pc u).handing = none := fun u => h.no_handing hholder
  have hidle : ∀ z, (update s.pc v PC.idle z).holder = false := by
    intro z
    by_cases hz : z = v
    · simp [hz, PC.holder]
    · simpa [hz] using (hnot z hz).1
  have hhand : ∀ u, (update s.pc v PC.idle u).handing = none := by
    intro u
    by_cases hu : u = v
    · simp [hu, PC.handing]
    · simpa [hu] using hnone u
  constructor
  · rfl
  · exact h.failed
  · intro z
    by_cases hz : z = v
    · simp [Facts, State.goto, hz, h.chain.oldest_next, ha]
    · refine (facts_congr (s := s) ?_).mpr
        (facts_requeue (hnot z hz).1 (hnot z hz).2 (h.facts z))
      simp [SameAt, State.goto, hz]
  · intro z hz
    simp [State.goto, hidle z] at hz
  · intro z hz
    by_cases hzv : z = v
    · simp [State.goto, hzv] at hz
    · exact ((hnot z hzv).2 (by simpa [State.goto, hzv] using hz)).elim
  · intro z hz
    simp at hz
  · intro u x hu
    simp [State.goto, hhand u] at hu
  · intro u u' x x' hu _
    simp [State.goto, hhand u] at hu
  · intro x hx
    simp at hx
  · intro z hz
    have := owns_holder hz
    simp [State.goto, hidle z] at this
  · intro u x hu
    have := hhand u
    rcases hu with hu | hu <;> simp only [State.goto] at hu <;> simp [hu, PC.handing] at this
  · intro u x hu
    have := hhand u
    simp only [State.goto] at hu
    simp [hu, PC.handing] at this
  · have ho := h.order
    simpa [State.goto, hw, PC.obtained, PC.holder] using ho
  · intro z
    by_cases hz : z = v
    · have hc := h.count v
      simpa [State.goto, hz, hw, PC.pending] using hc
    · simpa [State.goto, hz] using h.count z

/-- The next waiter is the oldest of the list once the old holder is unlinked. -/
theorem Inv.unlink (h : Inv s q) (hw : s.pc w = .releaseUnlink v) {b : Bool} :
    ∃ q', q = w :: v :: q' ∧ Inv (run s w b) (v :: q') := by
  have hf := h.facts w
  simp only [Facts, hw] at hf
  obtain ⟨ha, hcl, q', rfl⟩ := hf
  refine ⟨q', rfl, ?_⟩
  have hholder : (s.pc w).holder = true := by rw [hw]; rfl
  have hnd := h.nodup
  simp only [List.nodup_cons, List.mem_cons, not_or] at hnd
  have hrun : run s w b = { s.goto w (.handOwner v) with next := update s.next v none } := by
    simp [run, hw]
  rw [hrun]
  have hnh : ∀ z, z ≠ w → (s.pc z).holder = false := by
    intro z hz
    by_contra hh
    simp only [Bool.not_eq_false] at hh
    exact hz (h.holder_unique hh hholder)
  have hvq : s.pc v = .queued := by
    rcases h.member v (by simp) with hh | hh
    · simp [hnh v (Ne.symm hnd.1.1)] at hh
    · exact hh
  have hhand : ∀ u x, (update s.pc w (PC.handOwner v) u).handing = some x → u = w ∧ x = v := by
    intro u x hu
    by_cases huw : u = w
    · simp only [huw, Function.update_self, PC.handing, Option.some.injEq] at hu
      exact ⟨huw, hu.symm⟩
    · simp [huw, h.no_handing hholder (u := u)] at hu
  constructor
  · exact h.chain.popOldest
  · exact h.failed
  · intro z
    by_cases hz : z = w
    · simp [Facts, State.goto, hz, h.chain.oldest_next, ha, hcl, hnd.1.1]
    · by_cases hp : s.pc z = .queued
      · have hfz := h.facts z
        simp only [Facts, hp] at hfz
        have hza : s.acquired z = false := by
          by_contra hc
          simp only [Bool.not_eq_false] at hc
          have := hfz.1 hc
          simp only [List.head?_cons, Option.some.injEq] at this
          exact hz this.symm
        simpa [Facts, State.goto, State.Ready, hz, hp, hza] using hfz.2
      · have hzv : z ≠ v := fun he => hp (he ▸ hvq)
        refine (facts_congr (s := s) ?_).mpr (facts_requeue (hnh z hz) hp (h.facts z))
        simp [SameAt, State.goto, hz, hzv]
  · intro z hz
    by_cases hzw : z = w
    · simp [State.goto, hzw, PC.holder] at hz
    · simp [State.goto, hzw, hnh z hzw] at hz
  · intro z hz
    by_cases hzw : z = w
    · simp [State.goto, hzw] at hz
    · have := h.queued z (by simpa [State.goto, hzw] using hz)
      simpa [hzw] using this
  · intro z hz
    have hzw : z ≠ w := by
      rintro rfl
      simp [hnd.1.1, hnd.1.2] at hz
    rcases h.member z (List.mem_cons_of_mem _ hz) with hh | hh
    · simp [hnh z hzw] at hh
    · exact Or.inr (by simpa [State.goto, hzw] using hh)
  · intro u x hu
    obtain ⟨-, rfl⟩ := hhand u x (by simpa [State.goto] using hu)
    have hxw : x ≠ w := Ne.symm hnd.1.1
    exact ⟨rfl, by simpa [State.goto, hxw] using hvq⟩
  · intro u u' x x' hu hu'
    rw [(hhand u x (by simpa [State.goto] using hu)).1,
      (hhand u' x' (by simpa [State.goto] using hu')).1]
  · intro x hx _
    simp only [List.head?_cons, Option.some.injEq] at hx
    exact ⟨w, by simp [State.goto, PC.handing, hx]⟩
  · intro z hz
    have hh := owns_holder hz
    by_cases hzw : z = w
    · simp [State.goto, hzw, PC.holder] at hh
    · simp [State.goto, hzw, hnh z hzw] at hh
  · intro u x hu
    have huw := (hhand u x (by rcases hu with hu | hu <;> simp only [State.goto] at hu <;>
      simp [hu, PC.handing])).1
    simp [State.goto, huw] at hu
  · intro u x hu
    have huw := (hhand u x (by simp only [State.goto] at hu; simp [hu, PC.handing])).1
    simp [State.goto, huw] at hu
  · have ho := h.order
    have hfilter : ((v :: q').filter fun z => !(update s.pc w (PC.handOwner v) z).obtained) =
        (v :: q').filter fun z => !(s.pc z).obtained := by
      apply List.filter_congr
      intro z hz
      have hzw : z ≠ w := by
        rintro rfl
        simp [hnd.1.1, hnd.1.2] at hz
      simp [hzw]
    simp only [State.goto, hfilter]
    rw [ho, List.filter_cons_of_neg]
    simp [hw, PC.obtained, PC.holder]
  · intro z
    by_cases hz : z = w
    · have hc := h.count w
      simpa [State.goto, hz, hw, PC.pending] using hc
    · simpa [State.goto, hz] using h.count z

/-- Steps of the hand-over change `owner_` and the new holder's `acquired` only. -/
theorem Inv.hand (h : Inv s q) {p : PC W} (hw : (s.pc w).handing = some v)
    (hp : p = .handAcquired v ∨ p = .handCallback v) (hpc : t.pc = update s.pc w p)
    (hnext : t.next = s.next) (hhead : t.head = s.head) (hfailed : t.failed = none)
    (hctx : t.context = s.context ∧ t.f = s.f ∧ t.self = s.self ∧ t.clearing = s.clearing)
    (hlog : t.swaps = s.swaps ∧ t.obtained = s.obtained ∧ t.enqueues = s.enqueues ∧
      t.callbacks = s.callbacks)
    (howner : t.owner = some (s.self v))
    (hacq : ∀ z, z ≠ v → t.acquired z = s.acquired z)
    (hacqv : p = .handCallback v → t.acquired v = true) : Inv t q := by
  obtain ⟨hq, hv⟩ := h.handing w v hw
  have hwv : w ≠ v := by
    rintro rfl
    simp [hv, PC.handing] at hw
  have hnh : ∀ z, (s.pc z).holder = false := by
    intro z
    by_contra hz
    simp only [Bool.not_eq_false] at hz
    simp [h.no_handing hz (u := w)] at hw
  have hpz : ∀ z, z ≠ w → t.pc z = s.pc z := fun z hz => by simp [hpc, hz]
  have hpw : t.pc w = p := by simp [hpc]
  have hroles : (t.pc w).handing = some v ∧ (t.pc w).holder = false ∧ (t.pc w).owns = false ∧
      (t.pc w).obtained = false ∧ (t.pc w).pending = 0 ∧ t.pc w ≠ .queued := by
    rw [hpw]
    rcases hp with rfl | rfl <;> simp [PC.handing, PC.holder, PC.owns, PC.obtained, PC.pending]
  have hrolesw : s.pc w ≠ .queued ∧ (s.pc w).pending = 0 := by
    cases hsw : s.pc w <;> simp_all [PC.handing, PC.pending]
  have hholder : ∀ z, (t.pc z).holder = false := by
    intro z
    by_cases hz : z = w
    · rw [hz, hroles.2.1]
    · rw [hpz z hz, hnh z]
  have hhand : ∀ u x, (t.pc u).handing = some x ↔ (s.pc u).handing = some x := by
    intro u x
    by_cases hu : u = w
    · rw [hu, hroles.1, hw]
    · rw [hpz u hu]
  have hqueued : ∀ z, t.pc z = .queued ↔ s.pc z = .queued := by
    intro z
    by_cases hz : z = w
    · simp [hz, hroles.2.2.2.2.2, hrolesw.1]
    · rw [hpz z hz]
  have hmem : ∀ z ∈ q, z ≠ w := by
    rintro z hz rfl
    rcases h.member z hz with hh | hh
    · simp [hnh z] at hh
    · exact hrolesw.1 hh
  constructor
  · rw [hnext, hhead]
    exact h.chain
  · exact hfailed
  · intro z
    by_cases hz : z = w
    · have hf := h.facts w
      have hold : s.next w = none ∧ s.acquired w = false ∧ s.clearing w = false := by
        cases hsw : s.pc w <;> simp_all [PC.handing, Facts]
      have hnew : t.next w = none ∧ t.acquired w = false ∧ t.clearing w = false := by
        rw [hnext, hacq w hwv, hctx.2.2.2]
        exact hold
      rw [hz]
      unfold Facts
      rw [hpw]
      rcases hp with rfl | rfl <;> exact hnew
    · by_cases hzv : z = v
      · have hf := h.facts v
        simp only [Facts, hv, State.Ready] at hf
        simp only [hzv, Facts, hpz v (Ne.symm hwv), hv, State.Ready, hctx.1, hctx.2.1,
          hctx.2.2.1, hctx.2.2.2]
        exact ⟨fun _ => hq, hf.2⟩
      · refine (facts_congr (s := s) ?_).mpr (h.facts z)
        simp [SameAt, hnext, hacq z hzv, hctx, hlog, hpz z hz]
  · intro z hz
    simp [hholder z] at hz
  · intro z hz
    exact h.queued z ((hqueued z).mp hz)
  · intro z hz
    rw [hpz z (hmem z hz)]
    exact h.member z hz
  · intro u x hu
    obtain ⟨hx, hpx⟩ := h.handing u x ((hhand u x).mp hu)
    exact ⟨hx, (hqueued x).mpr hpx⟩
  · intro u u' x x' hu hu'
    exact h.hander u u' x x' ((hhand u x).mp hu) ((hhand u' x').mp hu')
  · intro x hx hpx
    obtain ⟨u, hu⟩ := h.front x hx ((hqueued x).mp hpx)
    exact ⟨u, (hhand u x).mpr hu⟩
  · intro z hz
    have hh := owns_holder hz
    simp [hholder z] at hh
  · intro u x hu
    have hux : (s.pc u).handing = some x :=
      (hhand u x).mp (by rcases hu with hu | hu <;> simp [hu, PC.handing])
    obtain rfl := h.hander u w x v hux hw
    rw [howner, hctx.2.2.1, Option.some.inj (hux.symm.trans hw)]
  · intro u x hu
    have hux : (s.pc u).handing = some x := (hhand u x).mp (by simp [hu, PC.handing])
    obtain rfl := h.hander u w x v hux hw
    obtain rfl := Option.some.inj (hux.symm.trans hw)
    exact hacqv (hpw.symm.trans hu)
  · have hfilter : (q.filter fun z => !(t.pc z).obtained) =
        q.filter fun z => !(s.pc z).obtained :=
      List.filter_congr fun z hz => by rw [hpz z (hmem z hz)]
    rw [hlog.1, hlog.2.1, hfilter]
    exact h.order
  · intro z
    rw [hlog.2.2.1, hlog.2.2.2, h.count z]
    by_cases hz : z = w
    · rw [hz, hrolesw.2, hroles.2.2.2.2.1]
    · rw [hpz z hz]

/-- Running the callback makes the waiter the holder. -/
theorem Inv.callback (h : Inv s q) (hw : s.pc w = .handCallback v) {b : Bool} :
    Inv (run s w b) q := by
  have hhw : (s.pc w).handing = some v := by rw [hw]; rfl
  obtain ⟨hq, hv⟩ := h.handing w v hhw
  have hwv : w ≠ v := by
    rintro rfl
    simp [hv] at hw
  have hfv := h.facts v
  have hfw := h.facts w
  simp only [Facts, hv, State.Ready] at hfv
  simp only [Facts, hw] at hfw
  have hrun : run s w b = { (s.goto w .idle).goto v .relinquish with
      f := update s.f v false, obtained := s.obtained ++ [v],
      callbacks := update s.callbacks v (s.callbacks v + 1) } := by
    simp [run, hw, hfv.2.2.2]
  rw [hrun]
  have hpz : ∀ z, z ≠ w → z ≠ v →
      update (update s.pc w PC.idle) v PC.relinquish z = s.pc z := by
    intro z hz hzv
    simp [hz, hzv]
  have hnh : ∀ z, (s.pc z).holder = false := by
    intro z
    by_contra hz
    simp only [Bool.not_eq_false] at hz
    simp [h.no_handing hz (u := w)] at hhw
  have hholder : ∀ z, (update (update s.pc w PC.idle) v PC.relinquish z).holder = true →
      z = v := by
    intro z hz
    by_contra hzv
    by_cases hzw : z = w
    · simp [hzw, hwv, PC.holder] at hz
    · simp [hzv, hzw, hnh z] at hz
  have hhand : ∀ u, (update (update s.pc w PC.idle) v PC.relinquish u).handing = none := by
    intro u
    by_cases huv : u = v
    · simp [huv, PC.handing]
    · by_cases huw : u = w
      · simp [huw, hwv, PC.handing]
      · rw [hpz u huw huv]
        by_contra hu
        obtain ⟨x, hx⟩ := Option.ne_none_iff_exists'.mp hu
        exact huw (h.hander u w x v hx hhw)
  obtain ⟨q', rfl⟩ : ∃ q', q = v :: q' := by
    cases q with
    | nil => simp at hq
    | cons a q' =>
      simp only [List.head?_cons, Option.some.injEq] at hq
      exact ⟨q', by rw [hq]⟩
  have hvq' := (List.nodup_cons.mp h.nodup).1
  have hmem : ∀ z ∈ v :: q', z ≠ w := by
    rintro z hz rfl
    rcases h.member z hz with hh | hh
    · simp [hnh z] at hh
    · simp [hh] at hw
  constructor
  · exact h.chain
  · exact h.failed
  · intro z
    by_cases hzv : z = v
    · subst hzv
      simp [Facts, State.goto, h.handAcquired w z hw, hfv.2.1]
    · by_cases hzw : z = w
      · simp [Facts, State.goto, hzw, hwv, hfw]
      · refine (facts_congr (s := s) ?_).mpr (h.facts z)
        simp [SameAt, State.goto, hzv, hzw]
  · intro z hz
    rw [hholder z (by simpa [State.goto] using hz)]
    rfl
  · intro z hz
    by_cases hzv : z = v
    · simp [hzv]
    · by_cases hzw : z = w
      · simp [State.goto, hzw, hwv] at hz
      · exact h.queued z (by simpa [State.goto, hzv, hzw] using hz)
  · intro z hz
    by_cases hzv : z = v
    · exact Or.inl (by simp [State.goto, hzv, PC.holder])
    · have hzw := hmem z hz
      simpa [State.goto, hzv, hzw] using h.member z hz
  · intro u x hu
    simp [State.goto, hhand u] at hu
  · intro u u' x x' hu _
    simp [State.goto, hhand u] at hu
  · intro x hx hp
    simp only [List.head?_cons, Option.some.injEq] at hx
    simp [State.goto, ← hx] at hp
  · intro z hz
    rw [hholder z (by simpa [State.goto] using owns_holder hz)]
    exact h.handOwner w v (Or.inr hw)
  · intro u x hu
    have hh := hhand u
    rcases hu with hu | hu <;> simp only [State.goto] at hu <;> simp [hu, PC.handing] at hh
  · intro u x hu
    have hh := hhand u
    simp only [State.goto] at hu
    simp [hu, PC.handing] at hh
  · have hfilter : (q'.filter fun z =>
        !(update (update s.pc w PC.idle) v PC.relinquish z).obtained) =
        q'.filter fun z => !(s.pc z).obtained := by
      apply List.filter_congr
      intro z hz
      have hzv : z ≠ v := by
        rintro rfl
        exact hvq' hz
      rw [hpz z (hmem z (List.mem_cons_of_mem _ hz)) hzv]
    have ho := h.order
    rw [List.filter_cons_of_pos (by simp [hv, PC.obtained, PC.holder])] at ho
    simp only [State.goto]
    rw [List.filter_cons_of_neg (by simp [PC.obtained, PC.holder]), hfilter, ho]
    simp
  · intro z
    by_cases hzv : z = v
    · have hc := h.count v
      simpa [State.goto, hzv, hv, PC.pending] using hc
    · by_cases hzw : z = w
      · have hc := h.count w
        simpa [State.goto, hzw, hwv, hw, PC.pending] using hc
      · simpa [State.goto, hzv, hzw] using h.count z

theorem sameAt_goto {p : PC W} (hz : z ≠ w) : SameAt s (s.goto w p) z := by
  simp [SameAt, State.goto, hz]

/-- A waiter that is not in the queue only moves on. -/
theorem Inv.goto_outside (h : Inv s q) {p p' : PC W} (hw : s.pc w = p) (ho : p.outside)
    (ho' : p'.outside) (hfacts : Facts (s.goto w p') q w) : Inv (s.goto w p') q := by
  have hp : (s.goto w p').pc w = p' := Function.update_self ..
  subst hw
  apply h.outside ho
  · rw [hp]
    exact ho'
  · intro z hz
    exact sameAt_goto hz
  · rfl
  · rfl
  · exact h.failed
  · rfl
  · rfl
  · exact ⟨rfl, rfl⟩
  · exact hfacts

/-- The holder only moves on. -/
theorem Inv.goto_held (h : Inv s q) {p p' : PC W} (hw : s.pc w = p) (hh : p.holder = true)
    (hh' : p'.holder = true) (howns : p'.owns = true → p.owns = true)
    (hobtained : p'.obtained = p.obtained) (hfacts : Facts (s.goto w p') q w) :
    Inv (s.goto w p') q := by
  have hp : (s.goto w p').pc w = p' := Function.update_self ..
  subst hw
  apply h.held hh
  · rw [hp]
    exact hh'
  · intro z hz
    exact sameAt_goto hz
  · rfl
  · rfl
  · exact h.failed
  · rfl
  · rw [hp]
    intro ho
    exact h.owner w (howns ho)
  · change s.obtained ++ _ = _
    rw [List.filter_singleton, List.filter_singleton, hp, hobtained]
  · exact ⟨rfl, rfl⟩
  · exact hfacts

/-- What one step does to the queue of waiters. -/
inductive QueueStep (q : List W) : List W → Prop
  | stay : QueueStep q q
  | enqueue {w : W} : w ∉ q → QueueStep q (q ++ [w])
  | dequeue {w : W} {q' : List W} : q = w :: q' → QueueStep q q'

theorem inv_fast (h : Inv s q) {c : Caller} {b : Bool}
    (hw : s.pc w = .fastChecks c ∨ s.pc w = .fastLoad c ∨ s.pc w = .fastReset c) :
    Inv (run s w b) q := by
  have hf := h.facts w
  have ho : (s.pc w).outside := by
    rcases hw with hw | hw | hw <;> simp [hw, PC.outside, PC.holder, PC.handing]
  rcases hw with hw | hw | hw <;> simp only [Facts, hw] at hf
  · have hrun : run s w b = s.goto w (.fastLoad c) := by simp [run, hw, hf.1, hf.2.1]
    rw [hrun]
    refine h.goto_outside hw (hw ▸ ho) (by simp [PC.outside, PC.holder, PC.handing]) ?_
    simpa [Facts, State.goto, State.Ready] using hf
  · have hrun : run s w b = { s.goto w (.fastSwap c) with next := update s.next w s.head } := by
      simp [run, hw]
    rw [hrun]
    apply h.outside ho <;>
      simp +contextual [SameAt, State.goto, Facts, State.Ready, hf, h.failed, PC.outside,
        PC.holder, PC.handing]
    exact hf.2.2.2
  · cases c
    all_goals
      simp only [run, hw]
      apply h.outside ho <;>
        simp +contextual [SameAt, State.goto, Facts, State.Ready, hf, h.failed, PC.outside,
          PC.holder, PC.handing]
    · exact hf.2.2.1
    · simpa [State.Ready] using hf.2.2

theorem inv_fastSwap (h : Inv s q) {c : Caller} {b : Bool} (hw : s.pc w = .fastSwap c) :
    ∃ q', QueueStep q q' ∧ Inv (run s w b) q' := by
  have hf := h.facts w
  simp only [Facts, hw, State.Ready] at hf
  have ho : (s.pc w).outside := by simp [hw, PC.outside, PC.holder, PC.handing]
  cases hn : s.next w with
  | some v =>
    have hrun : run s w b = s.goto w (.fastReset c) := by simp [run, hw, hn]
    rw [hrun]
    refine ⟨q, .stay, h.goto_outside hw (hw ▸ ho) (by simp [PC.outside, PC.holder, PC.handing]) ?_⟩
    simpa [Facts, State.goto, State.Ready] using hf
  | none =>
    by_cases hs : s.swaps? none b = true
    · have hhead : s.head = none := by
        simp only [State.swaps?, Bool.and_eq_true, decide_eq_true_eq] at hs
        exact hs.2
      have hq := h.chain.eq_nil_iff.mp hhead
      refine ⟨q ++ [w], .enqueue (h.not_mem ho), ?_⟩
      simp only [run, hw, hn, hs, if_true]
      apply h.push ho <;>
        simp +contextual [SameAt, State.goto, Facts, State.Ready, hf, h.failed, hn, hhead, hq,
          PC.pending]
    · refine ⟨q, .stay, ?_⟩
      simp only [run, hw, hn, hs]
      apply h.outside ho <;>
        simp +contextual [SameAt, Facts, State.Ready, hf, h.failed, hw, PC.outside, PC.holder,
          PC.handing]

theorem inv_slow (h : Inv s q) {b : Bool}
    (hw : s.pc w = .storeCallback ∨ s.pc w = .slowChecks ∨ s.pc w = .slowLoad) :
    Inv (run s w b) q := by
  have hf := h.facts w
  have ho : (s.pc w).outside := by
    rcases hw with hw | hw | hw <;> simp [hw, PC.outside, PC.holder, PC.handing]
  rcases hw with hw | hw | hw <;> simp only [Facts, hw, State.Ready] at hf
  · simp only [run, hw]
    apply h.outside ho <;>
      simp +contextual [SameAt, State.goto, Facts, State.Ready, hf, h.failed, PC.outside,
        PC.holder, PC.handing]
  · have hrun : run s w b = s.goto w .slowLoad := by simp [run, hw, hf.1, hf.2.1]
    rw [hrun]
    refine h.goto_outside hw (hw ▸ ho) (by simp [PC.outside, PC.holder, PC.handing]) ?_
    simpa [Facts, State.goto, State.Ready] using hf
  · simp only [run, hw]
    apply h.outside ho <;>
      simp +contextual [SameAt, State.goto, Facts, State.Ready, hf, h.failed, PC.outside,
        PC.holder, PC.handing]

theorem inv_slowSwap (h : Inv s q) {b : Bool} (hw : s.pc w = .slowSwap) :
    ∃ q', QueueStep q q' ∧ Inv (run s w b) q' := by
  have hf := h.facts w
  simp only [Facts, hw, State.Ready] at hf
  have ho : (s.pc w).outside := by simp [hw, PC.outside, PC.holder, PC.handing]
  cases hn : s.next w with
  | none =>
    have hrun : run s w b = s.goto w (.fastChecks .slow) := by simp [run, hw, hn]
    rw [hrun]
    refine ⟨q, .stay, h.goto_outside hw (hw ▸ ho) (by simp [PC.outside, PC.holder, PC.handing]) ?_⟩
    simpa [Facts, State.goto, State.Ready, hn] using hf
  | some v =>
    by_cases hs : s.swaps? (some v) b = true
    · have hhead : s.head = some v := by
        simp only [State.swaps?, Bool.and_eq_true, decide_eq_true_eq] at hs
        exact hs.2
      have hq : q ≠ [] := by
        intro hq
        simp [h.chain.eq_nil_iff.mpr hq] at hhead
      refine ⟨q ++ [w], .enqueue (h.not_mem ho), ?_⟩
      simp only [run, hw, hn, hs, if_true]
      apply h.push ho <;>
        simp +contextual [SameAt, State.goto, Facts, State.Ready, hf, h.failed, hn, hhead, hq,
          PC.pending]
    · refine ⟨q, .stay, ?_⟩
      simp only [run, hw, hn, hs]
      apply h.outside ho <;>
        simp +contextual [SameAt, Facts, State.Ready, hf, h.failed, hw, PC.outside, PC.holder,
          PC.handing]

theorem inv_winner (h : Inv s q) {b : Bool} (hw : (∃ c, s.pc w = .fastOwner c) ∨
    (∃ c, s.pc w = .fastAcquired c) ∨ s.pc w = .ownCallback ∨ s.pc w = .relinquish) :
    Inv (run s w b) q := by
  have hf := h.facts w
  have hh : (s.pc w).holder = true := by
    rcases hw with ⟨c, hw⟩ | ⟨c, hw⟩ | hw | hw <;> simp [hw, PC.holder]
  have hown := h.owner w
  rcases hw with ⟨c, hw⟩ | ⟨c, hw⟩ | hw | hw <;>
    simp only [Facts, hw, State.Ready, PC.owns] at hf hown
  · simp only [run, hw, hf.2.2.1]
    apply h.held hh <;>
      simp +contextual [SameAt, State.goto, Facts, State.Ready, hf, h.failed, PC.holder,
        PC.owns, PC.obtained, hw]
  · have hown := hown trivial
    cases c
    all_goals
      simp only [run, hw]
      apply h.held hh <;>
        simp +contextual [SameAt, State.goto, Facts, hf, h.failed, PC.holder,
          PC.owns, PC.obtained, hw, hown]
  · have hrun : run s w b = { s.goto w .relinquish with f := update s.f w false } := by
      simp [run, hw, hf.2.2]
    rw [hrun]
    apply h.held hh <;>
      simp +contextual [SameAt, State.goto, Facts, hf, h.failed, PC.holder, PC.owns,
        PC.obtained, hw, hown]
  · simp only [run, hw]
    apply h.held hh <;>
      simp +contextual [SameAt, State.goto, Facts, hf, h.failed, PC.holder, PC.owns,
        PC.obtained, hw, hown]

theorem inv_release (h : Inv s q) {b : Bool}
    (hw : s.pc w = .releaseAvailable ∨ s.pc w = .releaseLoad ∨
      (∃ v, s.pc w = .releaseTest v) ∨ ∃ v, s.pc w = .releaseOwner v) :
    Inv (run s w b) q := by
  have hf := h.facts w
  have hh : (s.pc w).holder = true := by
    rcases hw with hw | hw | ⟨v, hw⟩ | ⟨v, hw⟩ <;> simp [hw, PC.holder]
  have hq := h.holder w hh
  obtain ⟨x, hx⟩ := Option.ne_none_iff_exists'.mp (h.head_ne_none hh)
  rcases hw with hw | hw | ⟨v, hw⟩ | ⟨v, hw⟩ <;> simp only [Facts, hw] at hf
  · have hrun : run s w b = s.goto w .releaseLoad := by simp [run, hw, hx]
    rw [hrun]
    refine h.goto_held hw rfl rfl (fun _ => rfl) rfl ?_
    simpa [Facts, State.goto] using hf
  · have hrun : run s w b = s.goto w (.releaseTest x) := by simp [run, hw, hx]
    rw [hrun]
    refine h.goto_held hw rfl rfl nofun rfl ?_
    simpa [Facts, State.goto, hf] using h.chain.mem_of_head hx
  · have hnext := h.chain.next_eq_none_iff_oldest hf.2.2
    rw [hq] at hnext
    by_cases hn : s.next v = none
    · have hv : w = v := Option.some.inj (hnext.mp hn)
      have hrun : run s w b = s.goto w (.releaseOwner v) := by simp [run, hw, hn]
      rw [hrun]
      refine h.goto_held hw rfl rfl nofun rfl ?_
      simpa [Facts, State.goto, hf] using hv.symm
    · have hv : v ≠ w := by
        rintro rfl
        exact hn (hnext.mpr rfl)
      have hrun : run s w b = s.goto w (.releaseWalk v) := by simp [run, hw, hn]
      rw [hrun]
      refine h.goto_held hw rfl rfl nofun rfl ?_
      simpa [Facts, State.goto, hf] using hv
  · simp only [run, hw]
    apply h.held hh <;>
      simp +contextual [SameAt, State.goto, Facts, hf, h.failed, PC.holder, PC.owns,
        PC.obtained, hw]

theorem inv_releaseSwap (h : Inv s q) {b : Bool} (hw : s.pc w = .releaseSwap v) :
    ∃ q', QueueStep q q' ∧ Inv (run s w b) q' := by
  have hf := h.facts w
  have hh : (s.pc w).holder = true := by simp [hw, PC.holder]
  simp only [Facts, hw] at hf
  by_cases hs : s.swaps? (some v) b = true
  · simp only [State.swaps?, Bool.and_eq_true, decide_eq_true_eq, Bool.not_eq_true'] at hs
    obtain ⟨q', rfl⟩ := h.eq_cons hh
    obtain rfl := hf.2.2
    obtain rfl := h.head_singleton hs.2
    exact ⟨[], .dequeue rfl, hs.1 ▸ h.publish hw hs.2⟩
  · have hrun : run s w b = s.goto w .releaseLoad := by simp [run, hw, hs]
    rw [hrun]
    refine ⟨q, .stay, h.goto_held hw rfl rfl nofun rfl ?_⟩
    simp [Facts, State.goto, hf]

theorem inv_walk (h : Inv s q) {b : Bool}
    (hw : s.pc w = .releaseWalk v ∨ s.pc w = .releaseAcquired v) : Inv (run s w b) q := by
  have hf := h.facts w
  have hh : (s.pc w).holder = true := by rcases hw with hw | hw <;> simp [hw, PC.holder]
  have hq := h.holder w hh
  rcases hw with hw | hw <;> simp only [Facts, hw] at hf
  · obtain ⟨ha, hc, hv, hvw⟩ := hf
    have hn : s.next v ≠ none := by
      rw [ne_eq, h.chain.next_eq_none_iff_oldest hv, hq]
      exact fun he => hvw (Option.some.inj he).symm
    obtain ⟨u, hu⟩ := Option.ne_none_iff_exists'.mp hn
    have huq := h.chain.next_mem_oldest hv hu
    by_cases hnu : s.next u = none
    · have hrun : run s w b = s.goto w (.releaseAcquired v) := by simp [run, hw, hu, hnu]
      rw [hrun]
      refine h.goto_held hw rfl rfl nofun rfl ?_
      obtain ⟨q', rfl⟩ := h.chain.eq_of_next_oldest hv hu hnu
      obtain rfl := Option.some.inj hq
      simp [Facts, State.goto, ha, hc]
    · have huw : u ≠ w := by
        rintro rfl
        exact hnu ((h.chain.next_eq_none_iff_oldest huq).mpr hq)
      have hrun : run s w b = s.goto w (.releaseWalk u) := by simp [run, hw, hu, hnu]
      rw [hrun]
      refine h.goto_held hw rfl rfl nofun rfl ?_
      simp [Facts, State.goto, ha, hc, huq, huw]
  · obtain ⟨ha, hc, q', rfl⟩ := hf
    have hrun : run s w b =
        { s.goto w (.releaseUnlink v) with acquired := update s.acquired w false } := by
      simp [run, hw, h.chain.second_next]
    rw [hrun]
    apply h.held hh <;>
      simp +contextual [SameAt, State.goto, Facts, hc, h.failed, PC.holder, PC.owns,
        PC.obtained, hw]

theorem inv_hand (h : Inv s q) {b : Bool}
    (hw : s.pc w = .handOwner v ∨ s.pc w = .handAcquired v ∨ s.pc w = .handCallback v) :
    Inv (run s w b) q := by
  have hh : (s.pc w).handing = some v := by
    rcases hw with hw | hw | hw <;> simp [hw, PC.handing]
  obtain ⟨-, hv⟩ := h.handing w v hh
  have hf := h.facts v
  simp only [Facts, hv, State.Ready] at hf
  rcases hw with hw | hw | hw
  · have hrun : run s w b =
        { s.goto w (.handAcquired v) with owner := some (s.self v) } := by
      simp [run, hw, hf.2.2.1]
    rw [hrun]
    exact h.hand hh (Or.inl rfl) rfl rfl rfl h.failed ⟨rfl, rfl, rfl, rfl⟩ ⟨rfl, rfl, rfl, rfl⟩
      rfl (fun _ _ => rfl) (by simp)
  · have hrun : run s w b =
        { s.goto w (.handCallback v) with acquired := update s.acquired v true } := by
      simp [run, hw]
    rw [hrun]
    refine h.hand hh (Or.inr rfl) rfl rfl rfl h.failed ⟨rfl, rfl, rfl, rfl⟩ ⟨rfl, rfl, rfl, rfl⟩
      (h.handOwner w v (Or.inl hw)) (fun z hz => ?_) (fun _ => ?_)
    · simp [hz]
    · simp
  · exact h.callback hw

/-- Every instruction keeps the invariant and does at most one thing to the queue. -/
theorem inv_run (h : Inv s q) (b : Bool) : ∃ q', QueueStep q q' ∧ Inv (run s w b) q' := by
  have stay : ∀ {t : State W C}, Inv t q → ∃ q', QueueStep q q' ∧ Inv t q' :=
    fun ht => ⟨q, .stay, ht⟩
  cases hw : s.pc w with
  | idle | queued | critical =>
    refine stay ?_
    simpa only [run, hw] using h
  | fastChecks c => exact stay (inv_fast h (Or.inl hw))
  | fastLoad c => exact stay (inv_fast h (Or.inr (Or.inl hw)))
  | fastReset c => exact stay (inv_fast h (Or.inr (Or.inr hw)))
  | fastSwap c => exact inv_fastSwap h hw
  | fastOwner c => exact stay (inv_winner h (Or.inl ⟨c, hw⟩))
  | fastAcquired c => exact stay (inv_winner h (Or.inr (Or.inl ⟨c, hw⟩)))
  | ownCallback => exact stay (inv_winner h (Or.inr (Or.inr (Or.inl hw))))
  | relinquish => exact stay (inv_winner h (Or.inr (Or.inr (Or.inr hw))))
  | storeCallback => exact stay (inv_slow h (Or.inl hw))
  | slowChecks => exact stay (inv_slow h (Or.inr (Or.inl hw)))
  | slowLoad => exact stay (inv_slow h (Or.inr (Or.inr hw)))
  | slowSwap => exact inv_slowSwap h hw
  | releaseAvailable => exact stay (inv_release h (Or.inl hw))
  | releaseLoad => exact stay (inv_release h (Or.inr (Or.inl hw)))
  | releaseTest v => exact stay (inv_release h (Or.inr (Or.inr (Or.inl ⟨v, hw⟩))))
  | releaseOwner v => exact stay (inv_release h (Or.inr (Or.inr (Or.inr ⟨v, hw⟩))))
  | releaseSwap v => exact inv_releaseSwap h hw
  | releaseWalk v => exact stay (inv_walk h (Or.inl hw))
  | releaseAcquired v => exact stay (inv_walk h (Or.inr hw))
  | releaseUnlink v =>
    obtain ⟨q', hq, hi⟩ := h.unlink hw (b := b)
    exact ⟨v :: q', .dequeue hq, hi⟩
  | handOwner v => exact stay (inv_hand h (Or.inl hw))
  | handAcquired v => exact stay (inv_hand h (Or.inr (Or.inl hw)))
  | handCallback v => exact stay (inv_hand h (Or.inr (Or.inr hw)))

theorem inv_start (h : Inv s q) {c : C} (hw : s.Free w) : Inv (next s (.start w c)) q := by
  have hf := h.facts w
  simp only [Facts, hw.1, hw.2] at hf
  simp only [next]
  apply h.outside (idle_outside hw.1) <;>
    simp +contextual [SameAt, State.goto, Facts, State.Ready, hf, hw.2, h.failed, PC.outside,
      PC.holder, PC.handing]

theorem inv_enqueue (h : Inv s q) (hw : s.Free w) (hf : s.f w = true)
    (hc : s.context w = some (s.self w)) : Inv (next s (.enqueue w)) q := by
  have hfw := h.facts w
  simp only [Facts, hw.1, hw.2] at hfw
  simp only [next]
  apply h.outside (idle_outside hw.1) <;>
    simp +contextual [SameAt, State.goto, Facts, State.Ready, hfw, hf, hc, hw.2, h.failed,
      PC.outside, PC.holder, PC.handing]

theorem inv_critical (h : Inv s q) (hw : s.pc w = .critical) : Inv (next s (.release w)) q := by
  have hf := h.facts w
  have ho := h.owner w
  simp only [Facts, hw, PC.owns] at hf ho
  simp only [next]
  apply h.held (w := w) (by simp [hw, PC.holder]) <;>
    simp +contextual [SameAt, State.goto, Facts, hf, ho, h.failed, PC.holder, PC.owns,
      PC.obtained, hw]

/-- An idle waiter may be given a context and a callback at any time. -/
theorem inv_arm (h : Inv s q) (hw : s.pc w = .idle) {c : C} :
    Inv { s with context := update s.context w (some c), self := update s.self w c,
                 f := update s.f w true } q := by
  have hf := h.facts w
  simp only [Facts, hw] at hf
  apply h.outside (idle_outside hw) <;>
    simp +contextual [SameAt, Facts, hf, hw, h.failed, PC.outside, PC.holder, PC.handing]

theorem inv_wait (h : Inv s q) (hu : s.pc u = .critical) (hw : w = u ∨ s.pc w = .idle) :
    Inv (next s (.wait u w)) q := by
  have hf := h.facts u
  simp only [Facts, hu] at hf
  simp only [next]
  rcases hw with rfl | hw
  · apply h.held (w := w) (by simp [hu, PC.holder]) <;>
      simp +contextual [SameAt, State.goto, Facts, hf, h.failed, PC.holder, PC.owns,
        PC.obtained, hu]
  · have hwu : u ≠ w := by
      rintro rfl
      simp [hu] at hw
    apply (inv_arm h hw (c := s.self u)).held (w := u) (by simp [hu, PC.holder]) <;>
      simp +contextual [SameAt, State.goto, Facts, hf, h.failed, PC.holder, PC.owns,
        PC.obtained, hu]

theorem inv_clear (h : Inv s q) (hw : s.clearing w = true) : Inv (next s (.clear w)) q := by
  have hi := h.idle_of_clearing hw
  have hf := h.facts w
  simp only [Facts, hi] at hf
  simp only [next]
  apply h.outside (idle_outside hi) <;>
    simp +contextual [SameAt, Facts, hf, hi, h.failed, PC.outside, PC.holder, PC.handing]

/-- Every step keeps the invariant and does at most one thing to the queue. -/
theorem inv_next (h : Inv s q) {l : Label W C} (he : Enabled s l) :
    ∃ q', QueueStep q q' ∧ Inv (next s l) q' := by
  cases l with
  | start w c => exact ⟨q, .stay, inv_start h he.2⟩
  | enqueue w => exact ⟨q, .stay, inv_enqueue h he.2.1 he.2.2.1 he.2.2.2⟩
  | run w b => exact inv_run h b
  | release w => exact ⟨q, .stay, inv_critical h he.2⟩
  | wait u w => exact ⟨q, .stay, inv_wait h he.2.1 he.2.2⟩
  | clear w => exact ⟨q, .stay, inv_clear h he.2⟩

theorem inv_reachable (h : (machine W C).Reachable s) : ∃ q, Inv s q := by
  refine h.invariant (P := fun s => ∃ q, Inv s q) ?_ ?_
  · rintro s ⟨self, rfl⟩
    exact ⟨[], inv_initial self⟩
  · rintro s l ⟨q, hi⟩ he
    obtain ⟨q', -, hi'⟩ := inv_next hi he
    exact ⟨q', hi'⟩

/-- The lock serves its waiters in the order of their compare-exchanges. -/
theorem refines_fifo : Transition.Simulation (machine W C) (Fifo.machine W) Inv := by
  apply Fifo.simulation
  · rintro s ⟨self, rfl⟩
    exact inv_initial self
  · intro s q l h he
    obtain ⟨q', hq, ht⟩ := inv_next h he
    cases hq with
    | stay => exact Or.inl ht
    | enqueue hw => exact Or.inr (Or.inl ⟨_, hw, ht⟩)
    | dequeue hq =>
      refine Or.inr (Or.inr ⟨by simp [hq], ?_⟩)
      rw [hq]
      exact ht

/-- The code run for `v` touches the control, context and callback of another waiter only when
it runs the callback of that waiter. -/
theorem run_frame (b : Bool) (hz : z ≠ v) (hp : s.pc v ≠ .handCallback z) :
    (run s v b).pc z = s.pc z ∧ (run s v b).context z = s.context z ∧
      (run s v b).f z = s.f z ∧ (run s v b).self z = s.self z := by
  unfold run
  cases hv : s.pc v <;> simp only [] <;> repeat' split
  all_goals simp_all [State.goto, State.fail]
  simp [Ne.symm hp, hz]

theorem run_releasing (b : Bool) (hr : (s.pc w).releasing = true)
    (hp : s.pc w ≠ .handCallback w) :
    (((run s w b).pc w).releasing = true ∨ (run s w b).pc w = .idle) ∧
      (run s w b).context w = s.context w ∧ (run s w b).f w = s.f w ∧
      (run s w b).self w = s.self w := by
  unfold run
  cases hw : s.pc w <;> simp only [hw, PC.releasing, Bool.false_eq_true] at hr
  all_goals simp only []
  all_goals repeat' split
  all_goals simp_all [State.goto, State.fail, PC.releasing]
  simp [Ne.symm hp]

theorem run_enqueuing (b : Bool) (hr : (s.pc w).enqueuing = true) :
    (((run s w b).pc w).enqueuing = true ∨ (run s w b).pc w = .queued ∨
      (run s w b).pc w = .fastOwner .slow) ∧
      (run s w b).context w = s.context w ∧ (run s w b).f w = s.f w ∧
      (run s w b).self w = s.self w := by
  unfold run
  cases hw : s.pc w with
  | fastChecks c | fastLoad c | fastSwap c | fastReset c =>
    cases c <;> simp only [hw, PC.enqueuing, Bool.false_eq_true] at hr
    simp only []
    repeat' split
    all_goals simp_all [State.goto, State.fail, PC.enqueuing]
  | slowLoad | slowSwap =>
    simp only []
    repeat' split
    all_goals simp_all [State.goto, PC.enqueuing]
  | _ => simp [hw, PC.enqueuing] at hr

/-- The list behind `head_`, newest waiter first. -/
def State.Listed (s : State W C) (l : List W) : Prop :=
  Chain s.next s.head l

/-- From winning `head_`, or from the callback, up to the end of `Release`. -/
def State.Holds (s : State W C) (w : W) : Prop :=
  (s.pc w).holder = true

/-- The waiter that `Release` is making the owner. -/
def State.HandedTo (s : State W C) (w : W) : Prop :=
  ∃ u, (s.pc u).handing = some w

/-- A `Release` by this waiter, or one that hands it the lock, has not returned. -/
def State.Releasing (s : State W C) (w : W) : Prop :=
  (s.pc w).releasing = true ∨ s.clearing w = true ∨ s.HandedTo w

omit [DecidableEq W] in
theorem Inv.acquired_iff (h : Inv s q) (hw : ¬ s.Releasing w) :
    s.acquired w = true ↔ (s.pc w).running = true := by
  simp only [State.Releasing, not_or, Bool.not_eq_true] at hw
  obtain ⟨hr, hc, hh⟩ := hw
  have hf := h.facts w
  cases hp : s.pc w
  case queued =>
    simp only [Facts, hp] at hf
    simp only [PC.running, Bool.false_eq_true, iff_false]
    exact fun ha => hh (h.front w (hf.1 ha) hp)
  all_goals simp_all [Facts, PC.running, PC.releasing]

/-- What users of the lock rely on. -/
structure Correct (s : State W C) : Prop where
  exclusive : ∀ v w, s.Holds v → s.Holds w → v = w
  order : ∃ waiting, s.swaps = s.obtained ++ waiting
  callbacks : ∀ w, s.enqueues w = s.callbacks w ∨
    s.enqueues w = s.callbacks w + 1 ∧ s.pc w = .queued
  list : ∃ l, s.Listed l ∧ l.Nodup ∧ (∀ w, s.Holds w → l.getLast? = some w) ∧
    (∀ w, s.pc w = .queued → w ∈ l) ∧ ∀ w, l.getLast? = some w → s.Holds w ∨ s.HandedTo w
  checks : s.failed = none
  owner : ∀ w, s.pc w = .critical → s.owner = some (s.self w)

omit [DecidableEq W] in
theorem Inv.correct (h : Inv s q) : Correct s := by
  constructor
  · exact fun v w hv hw => h.holder_unique hv hw
  · exact ⟨_, h.order⟩
  · intro w
    have hc := h.count w
    by_cases hp : s.pc w = .queued
    · rw [hp] at hc
      exact Or.inr ⟨hc, hp⟩
    · rw [pending_eq_zero hp] at hc
      exact Or.inl hc
  · refine ⟨q.reverse, h.chain, h.chain.nodup, ?_, ?_, ?_⟩
    · intro w hw
      rw [List.getLast?_reverse]
      exact h.holder w hw
    · exact fun w hw => List.mem_reverse.mpr (h.queued w hw)
    · intro w hw
      rw [List.getLast?_reverse] at hw
      rcases h.member w (List.mem_of_head? hw) with hh | hp
      · exact Or.inl hh
      · exact Or.inr (h.front w hw hp)
  · exact h.failed
  · intro w hw
    exact h.owner w (by rw [hw]; rfl)

theorem lock_correct (h : (machine W C).Reachable s) : Correct s := by
  obtain ⟨q, hi⟩ := inv_reachable h
  exact hi.correct

/-- One waiter wins the lock while the other one is enqueued behind it. -/
def contention : List (Label Bool Bool) :=
  .flatten [
    [.start false false, .start true true], .replicate 2 (.run true false),
    .replicate 6 (.run false false), .replicate 7 (.run true false)]

theorem contention_correct : ∃ s : State Bool Bool,
    s.pc false = .critical ∧ s.swaps = [false, true] ∧ Correct s := by
  obtain ⟨s, hs, hp⟩ := Transition.Machine.exists_reachable_of_exec (M := machine Bool Bool)
    contention (fun s => decide (s.pc false = .critical ∧ s.swaps = [false, true])) ⟨id, rfl⟩
    (by decide)
  obtain ⟨hc, hw⟩ := of_decide_eq_true hp
  exact ⟨s, hc, hw, lock_correct hs⟩

end Eventuals.Lock
