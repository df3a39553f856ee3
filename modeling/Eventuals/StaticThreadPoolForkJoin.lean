import Mathlib.Algebra.Group.Nat.Defs
import Mathlib.Data.List.Nodup
import Mathlib.Data.List.Range
import Mathlib.Tactic.ByContra
import Eventuals.Library.Transition

/-! `StaticThreadPool::ForkJoin` pins each fork to a CPU of its own (`static-thread-pool.h`). -/
namespace Eventuals.StaticThreadPool

open Transition (Machine)

/-- What `ForkJoin` uses of a container of CPUs. -/
class InsertableContainer (C : Type*) where
  /-- From `begin()` to `end()`. -/
  elems : C → List UInt32
  insert : C → UInt32 → C
  mem_insert (mask : C) (cpu other : UInt32) :
    other ∈ elems (insert mask cpu) ↔ other = cpu ∨ other ∈ elems mask

open InsertableContainer (elems insert mem_insert)

/-- `std::vector`, where `insert` is at the end. -/
instance : InsertableContainer (List UInt32) where
  elems mask := mask
  insert mask cpu := mask ++ [cpu]
  mem_insert mask cpu other := by
    rw [List.mem_append, List.mem_singleton]
    exact or_comm

variable {C : Type*} [InsertableContainer C]

/-- `distribution` is over `int`, and it takes its upper bound as one. -/
def Drawn (hardware_concurrency cpu : UInt32) : Prop :=
  (cpu.toNat : ℤ) ≤ (hardware_concurrency - 1).toInt32.toInt

inductive Pinned
  /-- Every draw so far was in the mask. -/
  | drawing
  /-- `CHECK_LT(cpu, hardware_concurrency)` -/
  | failed
  | cpu (cpu : UInt32)
  deriving DecidableEq

def randomCPU (hardware_concurrency : UInt32) (cpu_mask : C) : List UInt32 → Pinned
  | [] => .drawing
  | cpu :: draws =>
    if cpu ∈ elems cpu_mask then randomCPU hardware_concurrency cpu_mask draws
    else if cpu < hardware_concurrency then .cpu cpu
    else .failed

/-- The subtraction is one of `size_t`. -/
def Checks (hardware_concurrency : UInt32) (cpu_mask : C) (forks : UInt32) : Prop :=
  (∀ cpu ∈ elems cpu_mask, cpu ≤ hardware_concurrency) ∧
    forks.toUInt64 ≤ hardware_concurrency.toUInt64 - UInt64.ofNat (elems cpu_mask).length

structure State (C : Type*) where
  cpu_mask : C
  /-- The CPUs that were selected, one for each fork. -/
  cpus : List UInt32
  failed : Bool

def State.pin (s : State C) : Pinned → State C
  | .drawing => s
  | .failed => { s with failed := true }
  | .cpu cpu => { s with cpu_mask := insert s.cpu_mask cpu, cpus := s.cpus ++ [cpu] }

def start (cpu_mask : C) : State C := ⟨cpu_mask, [], false⟩

/-- The forks are built one after the other; a label has what was drawn for one of them. -/
def machine (hardware_concurrency : UInt32) (cpu_mask : C) (forks : UInt32) :
    Machine (State C) (List UInt32) where
  Initial s := Checks hardware_concurrency cpu_mask forks ∧ s = start cpu_mask
  Enabled s draws := s.failed = false ∧ s.cpus.length < forks.toNat ∧
    (∀ cpu ∈ draws, Drawn hardware_concurrency cpu) ∧
    randomCPU hardware_concurrency s.cpu_mask draws ≠ .drawing
  next s draws := s.pin (randomCPU hardware_concurrency s.cpu_mask draws)

/-- Every fork finds a CPU of its own. -/
structure Selects (hardware_concurrency : UInt32) (cpu_mask : C) (forks : UInt32) : Prop where
  left : ∀ s, (machine hardware_concurrency cpu_mask forks).Reachable s →
    s.cpus.length < forks.toNat → ∃ cpu < hardware_concurrency, cpu ∉ elems s.cpu_mask
  exits : ∀ s, (machine hardware_concurrency cpu_mask forks).Reachable s →
    s.cpus.length < forks.toNat →
      ∃ draws, (machine hardware_concurrency cpu_mask forks).Enabled s draws
  selected : ∀ s draws, (machine hardware_concurrency cpu_mask forks).Reachable s →
    (machine hardware_concurrency cpu_mask forks).Enabled s draws →
      ∃ cpu, randomCPU hardware_concurrency s.cpu_mask draws = .cpu cpu ∧
        cpu < hardware_concurrency ∧ cpu ∉ elems cpu_mask ∧ cpu ∉ s.cpus

def cpus (hardware_concurrency : UInt32) : List UInt32 :=
  (List.range hardware_concurrency.toNat).map UInt32.ofNat

/-- The CPUs that the mask leaves. -/
def free (hardware_concurrency : UInt32) (cpu_mask : C) : List UInt32 :=
  (cpus hardware_concurrency).filter (· ∉ elems cpu_mask)

section Free

variable {hc cpu : UInt32} {mask : C}

theorem toNat_ofNat {n : ℕ} (h : n < hc.toNat) : (UInt32.ofNat n).toNat = n :=
  UInt32.toNat_ofNat_of_lt' (Nat.lt_trans h hc.toNat_lt_size)

theorem mem_cpus : cpu ∈ cpus hc ↔ cpu < hc := by
  rw [cpus, List.mem_map, UInt32.lt_iff_toNat_lt]
  constructor
  · rintro ⟨n, hn, rfl⟩
    have hlt := List.mem_range.mp hn
    rwa [toNat_ofNat hlt]
  · intro hlt
    exact ⟨cpu.toNat, List.mem_range.mpr hlt, UInt32.ofNat_toNat⟩

theorem length_cpus (hc : UInt32) : (cpus hc).length = hc.toNat := by
  rw [cpus, List.length_map, List.length_range]

theorem nodup_cpus (hc : UInt32) : (cpus hc).Nodup := by
  refine List.Nodup.map_on ?_ List.nodup_range
  intro n hn k hk heq
  have hnat := congrArg UInt32.toNat heq
  rwa [toNat_ofNat (List.mem_range.mp hn), toNat_ofNat (List.mem_range.mp hk)] at hnat

theorem mem_free : cpu ∈ free hc mask ↔ cpu < hc ∧ cpu ∉ elems mask := by
  rw [free, List.mem_filter, mem_cpus, decide_eq_true_iff]

theorem nodup_free : (free hc mask).Nodup :=
  (nodup_cpus hc).filter _

/-- No entry of the mask takes more than one CPU. -/
theorem le_length_free (hc : UInt32) (mask : C) :
    hc.toNat ≤ (elems mask).length + (free hc mask).length := by
  have hsubset : cpus hc ⊆ elems mask ++ free hc mask := by
    intro cpu hcpu
    rw [List.mem_append]
    by_cases hm : cpu ∈ elems mask
    · exact .inl hm
    · exact .inr (mem_free.mpr ⟨mem_cpus.mp hcpu, hm⟩)
  have hle := (nodup_cpus hc).length_le_of_subset hsubset
  rwa [length_cpus, List.length_append] at hle

/-- The second `CHECK` counts the CPUs that are left, unless it wraps around. -/
theorem forks_le_free {forks : UInt32} (h : Checks hc mask forks)
    (hsize : (elems mask).length ≤ hc.toNat) : forks.toNat ≤ (free hc mask).length := by
  have hfree := le_length_free hc mask
  have hmax := hc.toNat_lt
  have hle := UInt64.le_iff_toNat_le.mp h.2
  have hlength : (UInt64.ofNat (elems mask).length).toNat = (elems mask).length :=
    UInt64.toNat_ofNat_of_lt' (Nat.lt_of_le_of_lt hsize (Nat.lt_trans hmax (by decide)))
  have hforks : forks.toUInt64.toNat = forks.toNat := rfl
  have hhc : hc.toUInt64.toNat = hc.toNat := rfl
  have hsub : UInt64.ofNat (elems mask).length ≤ hc.toUInt64 := by
    rwa [UInt64.le_iff_toNat_le, hlength]
  rw [UInt64.toNat_sub_of_le _ _ hsub, hlength, hforks, hhc] at hle
  omega

end Free

section Selection

variable {hc forks cpu : UInt32} {mask : C} {s : State C} {draws : List UInt32}

theorem randomCPU_eq_cpu (h : randomCPU hc mask draws = .cpu cpu) :
    cpu ∈ draws ∧ cpu < hc ∧ cpu ∉ elems mask := by
  induction draws with
  | nil => cases h
  | cons other draws ih =>
    unfold randomCPU at h
    split at h
    case isTrue hm =>
      obtain ⟨hin, hrest⟩ := ih h
      exact ⟨List.mem_cons_of_mem _ hin, hrest⟩
    case isFalse hm =>
      split at h
      case isTrue hlt =>
        cases h
        exact ⟨List.mem_cons_self, hlt, hm⟩
      case isFalse => cases h

theorem randomCPU_eq_failed (h : randomCPU hc mask draws = .failed) :
    ∃ cpu ∈ draws, hc ≤ cpu := by
  induction draws with
  | nil => cases h
  | cons other draws ih =>
    unfold randomCPU at h
    split at h
    case isTrue hm =>
      obtain ⟨cpu, hin, hle⟩ := ih h
      exact ⟨cpu, List.mem_cons_of_mem _ hin, hle⟩
    case isFalse hm =>
      split at h
      case isTrue hlt => cases h
      case isFalse hlt => exact ⟨other, List.mem_cons_self, UInt32.not_lt.mp hlt⟩

theorem randomCPU_singleton (hlt : cpu < hc) (hm : cpu ∉ elems mask) :
    randomCPU hc mask [cpu] = .cpu cpu := by
  rw [randomCPU, if_neg hm, if_pos hlt]

/-- The distribution has a value exactly if its upper bound is not negative as an `int`. -/
theorem drawn_iff : Drawn hc cpu ↔ cpu < hc ∧ hc.toNat ≤ 2 ^ 31 := by
  have hmax := hc.toNat_lt
  have hint : (hc - 1).toInt32.toInt = (hc - 1).toBitVec.toInt := rfl
  have hnat : (hc - 1).toBitVec.toNat = (2 ^ 32 - 1 + hc.toNat) % 2 ^ 32 := UInt32.toNat_sub hc 1
  rw [Drawn, hint, BitVec.toInt_eq_toNat_cond, hnat, UInt32.lt_iff_toNat_lt]
  split <;> omega

/-- A draw is a CPU, so the `CHECK_LT` after the loop holds. -/
theorem enabled_cpu (he : (machine hc mask forks).Enabled s draws) :
    ∃ cpu, randomCPU hc s.cpu_mask draws = .cpu cpu ∧ cpu < hc ∧ cpu ∉ elems s.cpu_mask := by
  obtain ⟨-, -, hdrawn, hexit⟩ := he
  cases hp : randomCPU hc s.cpu_mask draws with
  | drawing => exact absurd hp hexit
  | failed =>
    obtain ⟨cpu, hin, hle⟩ := randomCPU_eq_failed hp
    exact absurd (drawn_iff.mp (hdrawn cpu hin)).1 (UInt32.not_lt.mpr hle)
  | cpu cpu => exact ⟨cpu, rfl, (randomCPU_eq_cpu hp).2⟩

theorem machine_next (h : randomCPU hc s.cpu_mask draws = .cpu cpu) :
    (machine hc mask forks).next s draws =
      { s with cpu_mask := insert s.cpu_mask cpu, cpus := s.cpus ++ [cpu] } := by
  change s.pin (randomCPU hc s.cpu_mask draws) = _
  rw [h]
  rfl

/-- The mask has what it had at first and the CPUs that were selected since, all different. -/
structure Inv (hc : UInt32) (mask : C) (forks : UInt32) (s : State C) : Prop where
  checked : Checks hc mask forks
  passed : s.failed = false
  mem : ∀ cpu, cpu ∈ elems s.cpu_mask ↔ cpu ∈ s.cpus ∨ cpu ∈ elems mask
  nodup : s.cpus.Nodup
  subset : s.cpus ⊆ free hc mask
  le : s.cpus.length ≤ forks.toNat

theorem inv_start (h : Checks hc mask forks) : Inv hc mask forks (start mask) where
  checked := h
  passed := rfl
  mem cpu := by simp [start]
  nodup := List.nodup_nil
  subset := List.nil_subset _
  le := Nat.zero_le _

theorem Inv.not_mem (h : Inv hc mask forks s) (hm : cpu ∉ elems s.cpu_mask) :
    cpu ∉ s.cpus ∧ cpu ∉ elems mask := by
  rw [h.mem] at hm
  exact not_or.mp hm

theorem inv_next (h : Inv hc mask forks s) (he : (machine hc mask forks).Enabled s draws) :
    Inv hc mask forks ((machine hc mask forks).next s draws) := by
  obtain ⟨cpu, hcpu, hlt, hm⟩ := enabled_cpu he
  obtain ⟨hcpus, hmask⟩ := h.not_mem hm
  rw [machine_next hcpu]
  refine ⟨h.checked, h.passed, ?_, ?_, ?_, ?_⟩
  · intro other
    rw [mem_insert, h.mem, List.mem_append, List.mem_singleton]
    tauto
  · rw [← List.concat_eq_append]
    exact h.nodup.concat hcpus
  · rw [List.append_subset]
    exact ⟨h.subset, List.cons_subset.mpr ⟨mem_free.mpr ⟨hlt, hmask⟩, List.nil_subset _⟩⟩
  · rw [List.length_append, List.length_singleton]
    exact he.2.1

theorem inv_reachable (h : (machine hc mask forks).Reachable s) : Inv hc mask forks s := by
  refine h.invariant ?_ fun s draws hs he => inv_next hs he
  rintro s ⟨hchecks, rfl⟩
  exact inv_start hchecks

/-- While fewer CPUs were selected than the mask left at first, one is left. -/
theorem Inv.exists_free (h : Inv hc mask forks s) (hlt : s.cpus.length < (free hc mask).length) :
    ∃ cpu < hc, cpu ∉ elems s.cpu_mask := by
  by_contra hnone
  have hsubset : free hc mask ⊆ s.cpus := by
    intro cpu hcpu
    obtain ⟨hcpu, hmask⟩ := mem_free.mp hcpu
    by_contra hcpus
    refine hnone ⟨cpu, hcpu, ?_⟩
    rw [h.mem]
    exact not_or.mpr ⟨hcpus, hmask⟩
  have hle := nodup_free.length_le_of_subset hsubset
  omega

/-- If every loop can exit, all forks are built. -/
theorem reachable_length (h : Selects hc mask forks) (hchecks : Checks hc mask forks) {k : ℕ}
    (hk : k ≤ forks.toNat) : ∃ s, (machine hc mask forks).Reachable s ∧ s.cpus.length = k := by
  induction k with
  | zero => exact ⟨start mask, .initial ⟨hchecks, rfl⟩, rfl⟩
  | succ k ih =>
    obtain ⟨s, hs, hlength⟩ := ih (Nat.le_of_succ_le hk)
    obtain ⟨draws, he⟩ := h.exits s hs (hlength ▸ hk)
    obtain ⟨cpu, hcpu, -⟩ := enabled_cpu he
    refine ⟨_, hs.next he, ?_⟩
    rw [machine_next hcpu, List.length_append, List.length_singleton, hlength]

theorem selects_of_free (h : Checks hc mask forks →
    forks.toNat ≤ (free hc mask).length ∧ (forks = 0 ∨ hc.toNat ≤ 2 ^ 31)) :
    Selects hc mask forks := by
  have hleft : ∀ s, (machine hc mask forks).Reachable s → s.cpus.length < forks.toNat →
      ∃ cpu < hc, cpu ∉ elems s.cpu_mask := by
    intro s hs hlt
    have hinv := inv_reachable hs
    exact hinv.exists_free (Nat.lt_of_lt_of_le hlt (h hinv.checked).1)
  refine ⟨hleft, ?_, ?_⟩
  · intro s hs hlt
    have hinv := inv_reachable hs
    obtain ⟨cpu, hcpu, hm⟩ := hleft s hs hlt
    have hhc : hc.toNat ≤ 2 ^ 31 := by
      refine (h hinv.checked).2.resolve_left ?_
      rintro rfl
      exact Nat.not_lt_zero _ hlt
    refine ⟨[cpu], hinv.passed, hlt, ?_, ?_⟩
    · intro other hother
      obtain rfl := List.mem_singleton.mp hother
      exact drawn_iff.mpr ⟨hcpu, hhc⟩
    · rw [randomCPU_singleton hcpu hm]
      nofun
  · intro s draws hs he
    obtain ⟨cpu, hcpu, hlt, hm⟩ := enabled_cpu he
    obtain ⟨hcpus, hmask⟩ := (inv_reachable hs).not_mem hm
    exact ⟨cpu, hcpu, hlt, hmask, hcpus⟩

/-- The checks are enough where the mask has no more entries than there are CPUs. -/
theorem selects_of_length_le (hsize : (elems mask).length ≤ hc.toNat)
    (hhc : hc.toNat ≤ 2 ^ 31) : Selects hc mask forks :=
  selects_of_free fun hchecks => ⟨forks_le_free hchecks hsize, .inr hhc⟩

/-- When its checks pass, `ForkJoin` finds a CPU for every fork if and only if the mask leaves that
many of those that a draw can find. -/
theorem forkJoin_selects_iff (hc : UInt32) (mask : C) (forks : UInt32) :
    Selects hc mask forks ↔ (Checks hc mask forks →
      forks.toNat ≤ (free hc mask).length ∧ (forks = 0 ∨ hc.toNat ≤ 2 ^ 31)) := by
  refine ⟨fun h hchecks => ⟨?_, ?_⟩, selects_of_free⟩
  · obtain ⟨s, hs, hlength⟩ := reachable_length h hchecks (Nat.le_refl _)
    have hinv := inv_reachable hs
    exact hlength ▸ hinv.nodup.length_le_of_subset hinv.subset
  · by_cases hforks : forks = 0
    · exact .inl hforks
    · have hpos : 0 < forks.toNat := by
        rw [Nat.pos_iff_ne_zero]
        intro hzero
        exact hforks (UInt32.toNat_inj.mp hzero)
      obtain ⟨draws, he⟩ := h.exits (start mask) (.initial ⟨hchecks, rfl⟩) hpos
      obtain ⟨cpu, hcpu, -⟩ := enabled_cpu he
      exact .inr (drawn_iff.mp (he.2.2.1 cpu (randomCPU_eq_cpu hcpu).1)).2

/-- A mask of the only CPU and the one after it makes the difference wrap around. -/
theorem forkJoin_spins : ¬ Selects 1 ([0, 1] : List UInt32) 1 := by
  intro h
  have hchecks : Checks 1 ([0, 1] : List UInt32) 1 := by
    refine ⟨?_, by decide⟩
    rintro cpu (_ | ⟨_, _ | ⟨_, ⟨⟩⟩⟩)
    · decide
    · decide
  obtain ⟨cpu, hcpu, hm⟩ := h.left (start [0, 1]) (.initial ⟨hchecks, rfl⟩) (by decide)
  have hzero : cpu = 0 := by
    rw [UInt32.lt_iff_toNat_lt] at hcpu
    exact UInt32.toNat_inj.mp (Nat.lt_one_iff.mp hcpu)
  exact hm (hzero ▸ List.mem_cons_self)

end Selection

end Eventuals.StaticThreadPool
