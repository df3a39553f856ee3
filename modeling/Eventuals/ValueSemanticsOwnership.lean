import Eventuals.ValueSemantics
import Mathlib.Data.Multiset.Filter

/-! Every value owns what it points to and nothing else is owned, but for what has been leaked. -/
namespace Eventuals.ValueSemantics

open OpenSSL
open Resumption (Contract Exchange Program)
open Transition (Machine)

variable {M α : Type*} {g g₁ g' : Heap M} {rest : Multiset Pointer} {live : List Pointer}
  {s t : Store M} {v w : Value} {op : Operation} {old new : List Value}
  {unchecked : Question → Bool}

/-- What these values own. -/
def owns (vs : Multiset Value) : Multiset Pointer :=
  (vs.filter fun v => v.address ≠ 0).map Value.pointer

def pointers (vs : List Value) : List Pointer :=
  (vs.filter fun v => v.address ≠ 0).map Value.pointer

theorem owns_coe (vs : List Value) : owns (vs : Multiset Value) = (pointers vs : List Pointer) :=
  rfl

theorem owns_add (vs ws : Multiset Value) : owns (vs + ws) = owns vs + owns ws := by
  simp only [owns, Multiset.filter_add, Multiset.map_add]

theorem mem_owns {vs : Multiset Value} (h : v ∈ vs) (h0 : v.address ≠ 0) : v.pointer ∈ owns vs :=
  Multiset.mem_map_of_mem _ (Multiset.mem_filter.mpr ⟨h, h0⟩)

theorem pointer_address (v : Value) : v.pointer.address = v.address := by
  unfold Value.pointer
  split <;> rfl

theorem free_frees (v : Value) : v.free.frees = [v.pointer] := by
  unfold Value.free Value.pointer
  split <;> rfl

theorem pointers_valid {vs : List Value} {p : Pointer} (h : p ∈ pointers vs) : p.address ≠ 0 := by
  obtain ⟨v, hv, rfl⟩ := List.mem_map.mp h
  rw [pointer_address]
  simpa using (List.mem_filter.mp hv).2

/-- A key that has not been moved from is an RSA key. -/
def Sound (s : Store M) (v : Value) : Prop :=
  v.of = .key → v.address ≠ 0 → (s.key v.address).isSome

theorem content_kept (h : Kept rest s t) (hv : v.address ≠ 0 → v.pointer ∈ rest) :
    content t v = content s v := by
  obtain ⟨c, a⟩ := v
  by_cases h0 : a = 0
  · cases c <;> simp [content, h0]
  · have hm := hv h0
    cases c with
    | key => simp [content, h0, h.1 a h0 hm]
    | certificate => simp [content, h0, h.2 a h0 hm]

theorem Sound.kept (hs : Sound s v) (h : Kept rest s t) (hv : v.address ≠ 0 → v.pointer ∈ rest) :
    Sound t v := by
  intro hkey h0
  have hm := hv h0
  simp only [Value.pointer, hkey] at hm
  rw [h.1 _ h0 hm]
  exact hs hkey h0

theorem kept_mono {rest' : Multiset Pointer} (h : Kept rest' s t) (hle : ∀ p ∈ rest, p ∈ rest') :
    Kept rest s t :=
  ⟨fun a h0 hm => h.1 a h0 (hle _ hm), fun a h0 hm => h.2 a h0 (hle _ hm)⟩

/-- Nothing has happened yet. -/
theorem holds_start (h : g.owned = rest + (live : Multiset Pointer))
    (hv : ∀ p ∈ live, p.address ≠ 0) : Holds g rest live g :=
  ⟨h, hv, .refl _ _⟩

/-- What others own can be taken over from them. -/
theorem holds_own {vs : List Value} (h : Holds g (rest + owns vs) live g₁) :
    Holds g rest (pointers vs ++ live) g₁ where
  owned := by
    rw [h.owned, owns_coe, Multiset.add_assoc, Multiset.coe_add]
  valid p hp := by
    rcases List.mem_append.mp hp with hp | hp
    · exact pointers_valid hp
    · exact h.valid p hp
  kept := kept_mono h.kept fun _ hp => Multiset.mem_add.mpr (.inl hp)

/-- How an operation ends that does not abort: with these values, and these leaks. -/
structure Ends (op : Operation) (rest : Multiset Pointer) (g : Heap M) (new : List Value)
    (leaked : List Pointer) (g' : Heap M) : Prop where
  owned : g'.owned = rest + owns (op.leaves ++ new : List Value) + (leaked : Multiset Pointer)
  kept : Kept rest g.store g'.store
  sound : ∀ v ∈ op.leaves ++ new, Sound g'.store v
  means : Means op (op.reads.map (content g.store)) ((op.leaves ++ new).map (content g'.store))

/-- When an operation may abort. -/
def Operation.MayAbort (op : Operation) : Prop :=
  op.Copies ∨ ∃ v ∈ op.needs, v.address = 0

/-- What holds after an operation. -/
def Post (op : Operation) (rest : Multiset Pointer) (g : Heap M) (o : Outcome (List Value))
    (g' : Heap M) : Prop :=
  (o = .aborted → op.MayAbort) ∧
    (o ≠ .aborted → ∃ leaked : List Pointer, leaked.map Pointer.kind = op.leaks o ∧
      Ends op rest g (made o) leaked g')

theorem post_aborted (h : op.MayAbort) : Post op rest g .aborted g' :=
  ⟨fun _ => h, fun hne => absurd rfl hne⟩

theorem post_unexpected {error : String} (leaked : List Pointer)
    (h : leaked.map Pointer.kind = op.leaks (.unexpected error))
    (he : Ends op rest g [] leaked g') : Post op rest g (.unexpected error) g' := by
  constructor
  · intro hne
    cases hne
  · exact fun _ => ⟨leaked, h, he⟩

theorem leaks_value : op.leaks (.value new) = [] := by
  cases op <;> rfl

theorem post_value (he : Ends op rest g new [] g') : Post op rest g (.value new) g' := by
  constructor
  · intro hne
    cases hne
  · exact fun _ => ⟨[], leaks_value.symm, he⟩

/-- What is left of the values that are read is as it was. -/
theorem leaves_kept (h : Kept (rest + owns op.leaves) g.store t) :
    op.leaves.map (content t) = op.leaves.map (content g.store) :=
  List.map_congr_left fun _ hv =>
    content_kept h fun h0 => Multiset.mem_add.mpr (.inr (mem_owns hv h0))

theorem wp_destroyAll (h : Holds g (rest + owns op.leaves + owns old) (pointers new) g₁)
    (hleaves : ∀ v ∈ op.leaves, Sound g.store v) (hnew : ∀ v ∈ new, Sound g₁.store v)
    (hmeans : Means op (op.reads.map (content g.store))
      (op.leaves.map (content g.store) ++ new.map (content g₁.store))) :
    (destroyAll old (.done (.value new)) : Code M _).Wp (contract M unchecked)
      (Post op rest g) g₁ := by
  refine wp_calls (pointers new) (holds_own h) ?_ ?_ fun g₂ hstore h₂ => post_value ?_
  · intro o ho
    obtain ⟨v, -, rfl⟩ := List.mem_map.mp ho
    simp [free_frees]
  · have hfrees : ((old.filter fun v => v.address ≠ 0).map Value.free).flatMap Question.frees =
        pointers old := by
      rw [List.flatMap_map]
      simp only [free_frees]
      exact List.map_eq_flatMap.symm
    rw [hfrees]
    exact List.perm_append_comm
  · have hkept := h₂.kept
    refine ⟨?_, kept_mono hkept fun p hp => Multiset.mem_add.mpr (.inl hp), ?_, ?_⟩
    · rw [h₂.owned, ← Multiset.coe_add op.leaves new, owns_add, owns_coe new, Multiset.add_assoc]
      simp
    · intro v hv
      rcases List.mem_append.mp hv with hv | hv
      · exact (hleaves v hv).kept hkept fun h0 => Multiset.mem_add.mpr (.inr (mem_owns hv h0))
      · rw [hstore]
        exact hnew v hv
    · rw [List.map_append, leaves_kept hkept, hstore]
      exact hmeans

/-- What a function has to end with whose result is taken over. -/
def Given (op : Operation) (rest : Multiset Pointer) (g : Heap M) (old : List Value)
    (f : α → List Value) (o : Outcome α) (g₁ : Heap M) : Prop :=
  match o with
  | .value a =>
    Holds g (rest + owns op.leaves + owns old) (pointers (f a)) g₁ ∧
      (∀ v ∈ f a, Sound g₁.store v) ∧
      Means op (op.reads.map (content g.store))
        (op.leaves.map (content g.store) ++ (f a).map (content g₁.store))
  | .unexpected error => Post op rest g (.unexpected error) g₁
  | .aborted => op.MayAbort

theorem wp_takeOver {p : Code M α} {f : α → List Value}
    (hleaves : ∀ v ∈ op.leaves, Sound g.store v)
    (h : p.Wp (contract M unchecked) (Given op rest g old f) g) :
    (takeOver old f p).Wp (contract M unchecked) (Post op rest g) g := by
  refine Program.Wp.bind (h.mono fun o g₁ ho => ?_)
  cases o with
  | value a => exact wp_destroyAll ho.1 hleaves ho.2.1 ho.2.2
  | unexpected error => exact ho
  | aborted => exact post_aborted ho

/-- What is read is left as it is, and something may be leaked. -/
theorem ends_unchanged {leaked : List Pointer} (hl : op.leaves = op.reads)
    (hs : ∀ v ∈ op.reads, Sound g.store v) (h : Holds g (rest + owns op.reads) leaked g₁)
    (hmeans : Means op (op.reads.map (content g.store)) (op.reads.map (content g.store))) :
    Ends op rest g [] leaked g₁ := by
  have hkept : Kept (rest + owns op.leaves) g.store g₁.store := by
    rw [hl]
    exact h.kept
  refine ⟨?_, kept_mono hkept fun p hp => Multiset.mem_add.mpr (.inl hp), ?_, ?_⟩
  · rw [List.append_nil, hl]
    exact h.owned
  · intro v hv
    rw [List.append_nil] at hv
    rw [hl] at hv hkept
    exact (hs v hv).kept hkept fun h0 => Multiset.mem_add.mpr (.inr (mem_owns hv h0))
  · rw [List.append_nil, leaves_kept hkept, hl]
    exact hmeans

theorem given_unchanged {f : α → List Value} {a : α} (hf : f a = []) (hl : op.leaves = op.reads)
    (h : Holds g (rest + owns op.reads) [] g₁)
    (hmeans : Means op (op.reads.map (content g.store)) (op.reads.map (content g.store))) :
    Given op rest g [] f (.value a) g₁ := by
  simp only [Given, hf, hl]
  exact ⟨by simpa [owns, pointers] using h, by simp, by simpa using hmeans⟩

theorem mem_reads (hv : v ∈ op.reads) (h0 : v.address ≠ 0) : v.pointer ∈ rest + owns op.reads :=
  Multiset.mem_add.mpr (.inr (mem_owns hv h0))

theorem pointers_single (h0 : v.address ≠ 0) : pointers [v] = [v.pointer] := by
  simp [pointers, h0]

/-- A function that is given no values ends with a new one. -/
theorem given_created {f : α → List Value} {a : α} (hf : f a = [v]) (hr : op.reads = [])
    (hl : op.leaves = []) (h : Holds g rest [v.pointer] g₁) (hs : Sound g₁.store v)
    (hmeans : Means op [] [content g₁.store v]) : Given op rest g [] f (.value a) g₁ := by
  have h0 : v.address ≠ 0 := by
    rw [← pointer_address]
    exact h.valid _ (List.mem_singleton_self _)
  simp only [Given, hf, hr, hl]
  refine ⟨?_, by simpa using hs, by simpa using hmeans⟩
  simpa [owns, pointers_single h0] using h

theorem wp_buildKey {bits : ℤ} {exponent : ℕ} (h : g.owned = rest) :
    (Operation.buildKey bits exponent).program.Wp (contract M unchecked)
      (Post (.buildKey bits exponent) rest g) g := by
  have h₀ : Holds g rest [] g := holds_start (by simpa using h) (by simp)
  refine wp_takeOver (by simp [Operation.leaves]) (RSA.wp_build h₀ ?_ ?_)
  · intro error g' h'
    exact post_unexpected [] rfl (ends_unchanged rfl (by simp [Operation.reads])
      (by simpa [Operation.reads, owns] using h') .noKey)
  · intro key m g' h' hkey
    have h0 : key ≠ 0 := h'.valid _ (List.mem_singleton_self _)
    refine given_created (v := ⟨.key, key⟩) rfl rfl rfl h' (by simp [Sound, hkey]) ?_
    simpa [content, h0, hkey] using Means.buildKey m

theorem wp_readCertificate {path : String} (h : g.owned = rest) :
    (Operation.readCertificate path).program.Wp (contract M unchecked)
      (Post (.readCertificate path) rest g) g := by
  have h₀ : Holds g rest [] g := holds_start (by simpa using h) (by simp)
  refine wp_takeOver (by simp [Operation.leaves]) (X509.wp_readCertificate h₀ ?_ ?_)
  · intro error g' h'
    exact post_unexpected [] rfl (ends_unchanged rfl (by simp [Operation.reads])
      (by simpa [Operation.reads, owns] using h') .notRead)
  · intro x g' h'
    have h0 : x ≠ 0 := h'.valid _ (List.mem_singleton_self _)
    refine given_created (v := ⟨.certificate, x⟩) rfl rfl rfl h' (by simp [Sound]) ?_
    simpa [content, h0] using Means.readCertificate _

/-- A value of either class is copied. -/
theorem wp_value_copy {g₀ : Heap M} {Q : Outcome ℕ → Heap M → Prop} (h : Holds g₀ rest [] g)
    (hv : v.address ≠ 0 → v.pointer ∈ rest) (habort : ∀ g', Q .aborted g')
    (hvalue : ∀ a g', Holds g₀ rest (pointers [{ v with address := a }]) g' →
      Sound g'.store { v with address := a } →
      content g'.store { v with address := a } = content g₀.store v →
      (content g₀.store v).Present → Q (.value a) g') :
    v.copy.Wp (contract M v.uncheckedByCopy) Q g := by
  obtain ⟨c, a⟩ := v
  by_cases h0 : a = 0
  · subst h0
    cases c <;> exact habort g
  have hm := hv h0
  cases c with
  | key =>
    refine RSA.wp_copy h (fun _ => hm) habort fun k m g' h' hk hfrom => ?_
    have hk0 : k ≠ 0 := h'.valid _ (List.mem_singleton_self _)
    refine hvalue k g' ?_ (by simp [Sound, hk]) ?_ ?_
    · rwa [pointers_single (v := ⟨.key, k⟩) hk0]
    · simp [content, h0, hk0, hk, hfrom]
    · simp [content, h0, hfrom, Content.Present]
  | certificate =>
    refine X509.wp_copy h (fun _ => hm) habort fun x g' h' hx => ?_
    have hx0 : x ≠ 0 := h'.valid _ (List.mem_singleton_self _)
    refine hvalue x g' ?_ (by simp [Sound]) ?_ ?_
    · rwa [pointers_single (v := ⟨.certificate, x⟩) hx0]
    · simp [content, h0, hx0, hx]
    · simp [content, h0, Content.Present]

/-- A value of either class is written. -/
theorem wp_value_encode {g₀ : Heap M} {Q : Outcome String → Heap M → Prop}
    (h : Holds g₀ rest [] g) (hv : v.address ≠ 0 → v.pointer ∈ rest)
    (habort : v.address = 0 → Q .aborted g)
    (herror : ∀ error bio g', v.address ≠ 0 → Holds g₀ rest [⟨.bio, bio⟩] g' →
      Q (.unexpected error) g')
    (hvalue : ∀ text g', v.address ≠ 0 → Holds g₀ rest [] g' → Q (.value text) g') :
    v.encode.Wp (contract M PEM.uncheckedByEncode) Q g := by
  obtain ⟨c, a⟩ := v
  by_cases h0 : a = 0
  · have := habort h0
    subst h0
    cases c <;> exact this
  have hm := hv h0
  cases c with
  | key =>
    simp only [Value.encode, PEM.EncodeKey, checkNotNull, h0, if_false]
    exact PEM.wp_encode h ⟨h0, hm⟩ (fun _ => rfl) (fun _ => rfl) (fun _ _ => rfl) (fun _ => rfl)
      (fun bio g' => herror _ bio g' h0) fun text g' => hvalue text g' h0
  | certificate =>
    simp only [Value.encode, PEM.EncodeCertificate, checkNotNull, h0, if_false]
    exact PEM.wp_encode h ⟨h0, hm⟩ (fun _ => rfl) (fun _ => rfl) (fun _ _ => rfl) (fun _ => rfl)
      (fun bio g' => herror _ bio g' h0) fun text g' => hvalue text g' h0

@[simp] theorem owns_zero : owns 0 = 0 := rfl

theorem coe_pointers (v : Value) : (pointers [v] : Multiset Pointer) = owns {v} := rfl

theorem owns_pair (v w : Value) : owns ([v, w] : List Value) = owns {w} + owns {v} := by
  rw [Multiset.add_comm, ← owns_add]
  rfl

theorem wp_copy (h : g.owned = rest + owns [v]) (hs : Sound g.store v) :
    (Operation.copy v).program.Wp (contract M (Operation.copy v).unchecked)
      (Post (.copy v) rest g) g := by
  have h₀ : Holds g (rest + owns (Operation.copy v).reads) [] g :=
    holds_start (by simpa [Operation.reads] using h) (by simp)
  refine wp_takeOver (by simpa [Operation.leaves] using hs)
    (wp_value_copy h₀ (mem_reads (by simp [Operation.reads]))
      (fun _ => .inl trivial) fun a g' h' hsound hc hp => ⟨?_, ?_, ?_⟩)
  · simpa [Operation.leaves, Operation.reads] using h'
  · simpa using hsound
  · simpa [Operation.leaves, Operation.reads, hc] using Means.copy (v := v) _ hp

theorem wp_assignCopy {that : Option Value}
    (h : g.owned = rest + owns (Operation.assignCopy v that).reads)
    (hs : ∀ w ∈ that, Sound g.store w) (ht : (Operation.assignCopy v that).Typed) :
    (Operation.assignCopy v that).program.Wp
      (contract M (Operation.assignCopy v that).unchecked)
      (Post (.assignCopy v that) rest g) g := by
  have h₀ : Holds g (rest + owns (Operation.assignCopy v that).reads) [] g :=
    holds_start (by simpa using h) (by simp)
  cases that with
  | none =>
    refine wp_takeOver (by simp [Operation.leaves])
      (wp_value_copy h₀ (mem_reads (by simp [Operation.reads])) (fun _ => .inl trivial)
        fun a g' h' hsound hc hp => ⟨?_, ?_, ?_⟩)
    · simpa [Operation.leaves, Operation.reads] using h'
    · simpa using hsound
    · simpa [Operation.leaves, Operation.reads, hc] using Means.assignCopySelf (v := v) _ hp
  | some w =>
    have hof : w.of = v.of := ht w rfl
    have hunchecked : (Operation.assignCopy v (some w)).unchecked = w.uncheckedByCopy := by
      simp [Operation.unchecked, Value.uncheckedByCopy, hof]
    have hnew : ∀ a, (⟨v.of, a⟩ : Value) = ⟨w.of, a⟩ := by simp [hof]
    rw [hunchecked]
    refine wp_takeOver (by simpa [Operation.leaves] using hs)
      (wp_value_copy h₀ (mem_reads (by simp [Operation.reads])) (fun _ => .inl trivial)
        fun a g' h' hsound hc hp => ⟨?_, ?_, ?_⟩)
    · simpa [Operation.leaves, Operation.reads, hnew, owns_pair, Multiset.add_assoc] using h'
    · simpa [hnew] using hsound
    · simpa [Operation.leaves, Operation.reads, hnew, hc] using
        Means.assignCopy (v := v) (w := w) _ (content g.store v) hp

theorem content_moved (s : Store M) (v : Value) : content s v.moved = (content s v).moved := by
  obtain ⟨c, a⟩ := v
  cases c <;> simp [content, Value.moved, Content.moved]

@[simp] theorem owns_moved (v : Value) : owns {v.moved} = 0 := by
  simp [owns, Value.moved]

theorem sound_moved (v : Value) : Sound s v.moved := fun _ h0 => absurd rfl h0

theorem wp_move (h : g.owned = rest + owns [v]) (hs : Sound g.store v) :
    (Operation.move v).program.Wp (contract M unchecked) (Post (.move v) rest g) g := by
  have h₀ : Holds g (rest + owns [v.moved] + owns ([] : List Value)) (pointers [v]) g :=
    holds_start (by simpa [coe_pointers] using h) fun _ => pointers_valid
  have hwp : (destroyAll [] (.done (.value [v])) : Code M _).Wp (contract M unchecked)
      (Post (.move v) rest g) g := by
    apply wp_destroyAll
    · exact h₀
    · simp [Operation.leaves, sound_moved]
    · simpa using hs
    · simpa [Operation.leaves, Operation.reads, content_moved] using Means.move (v := v) _
  exact hwp

theorem wp_assignMove {that : Option Value}
    (h : g.owned = rest + owns (Operation.assignMove v that).reads)
    (hs : ∀ w ∈ (Operation.assignMove v that).reads, Sound g.store w) :
    (Operation.assignMove v that).program.Wp (contract M unchecked)
      (Post (.assignMove v that) rest g) g := by
  cases that with
  | none =>
    have h₀ : Holds g (rest + owns ([] : List Value) + owns ([] : List Value)) (pointers [v]) g :=
      holds_start (by simpa [Operation.reads, coe_pointers] using h) fun _ => pointers_valid
    have hwp : (destroyAll [] (.done (.value [v])) : Code M _).Wp (contract M unchecked)
        (Post (.assignMove v none) rest g) g := by
      apply wp_destroyAll
      · exact h₀
      · simp [Operation.leaves]
      · exact hs
      · simpa [Operation.leaves, Operation.reads] using Means.assignMoveSelf (v := v) _
    exact hwp
  | some w =>
    have howned : g.owned = rest + owns {v} + owns {w} := by
      rw [h, Multiset.add_assoc, Multiset.add_comm (owns {v}), ← owns_pair]
      rfl
    have h₀ : Holds g (rest + owns [w.moved] + owns [v]) (pointers [w]) g :=
      holds_start (by simpa [coe_pointers] using howned) fun _ => pointers_valid
    refine wp_destroyAll h₀ ?_ ?_ ?_
    · simp [Operation.leaves, sound_moved]
    · simpa using hs w (by simp [Operation.reads])
    · simpa [Operation.leaves, Operation.reads, content_moved] using
        Means.assignMove (v := v) (w := w) (content g.store w) (content g.store v)

theorem wp_destroy (h : g.owned = rest + owns [v]) :
    (Operation.destroy v).program.Wp (contract M unchecked) (Post (.destroy v) rest g) g := by
  have h₀ : Holds g (rest + owns ([] : List Value) + owns [v]) (pointers []) g :=
    holds_start (by simpa [pointers] using h) fun _ => pointers_valid
  refine wp_destroyAll h₀ (by simp [Operation.leaves]) (by simp) ?_
  simpa [Operation.leaves, Operation.reads] using Means.destroy (v := v) (content g.store v)

theorem wp_compare {a b : ℕ} (h : g.owned = rest + owns (Operation.compare a b).reads)
    (hs : ∀ w ∈ (Operation.compare a b).reads, Sound g.store w) :
    (Operation.compare a b).program.Wp (contract M unchecked) (Post (.compare a b) rest g) g := by
  have h₀ : Holds g (rest + owns (Operation.compare a b).reads) [] g :=
    holds_start (by simpa using h) (by simp)
  refine wp_takeOver hs (RSA.wp_equal h₀ (mem_reads (v := ⟨.key, a⟩) (by simp [Operation.reads]))
    (mem_reads (v := ⟨.key, b⟩) (by simp [Operation.reads])) ?_ ?_)
  · rintro (h0 | h0)
    · exact .inr ⟨⟨.key, a⟩, by simp [Operation.needs], h0⟩
    · exact .inr ⟨⟨.key, b⟩, by simp [Operation.needs], h0⟩
  · intro r g' ha hb h'
    obtain ⟨m, hm⟩ := Option.isSome_iff_exists.mp
      (hs ⟨.key, a⟩ (by simp [Operation.reads]) rfl ha)
    obtain ⟨n, hn⟩ := Option.isSome_iff_exists.mp
      (hs ⟨.key, b⟩ (by simp [Operation.reads]) rfl hb)
    refine given_unchanged rfl rfl h' ?_
    simpa [Operation.reads, content, ha, hb, hm, hn] using Means.compare m n

theorem wp_encode (h : g.owned = rest + owns [v]) (hs : Sound g.store v) :
    (Operation.encode v).program.Wp (contract M PEM.uncheckedByEncode)
      (Post (.encode v) rest g) g := by
  have h₀ : Holds g (rest + owns (Operation.encode v).reads) [] g :=
    holds_start (by simpa [Operation.reads] using h) (by simp)
  have hs : ∀ w ∈ (Operation.encode v).reads, Sound g.store w := by simpa [Operation.reads] using hs
  have hmeans : v.address ≠ 0 → Means (.encode v) ((Operation.encode v).reads.map (content g.store))
      ((Operation.encode v).reads.map (content g.store)) := by
    intro h0
    refine .encode _ ?_
    have hv := hs v (by simp [Operation.reads])
    obtain ⟨c, a⟩ := v
    cases c with
    | key => simpa [content, Content.Present, h0] using hv rfl h0
    | certificate => simp [content, Content.Present, h0]
  refine wp_takeOver hs (wp_value_encode h₀ (mem_reads (by simp [Operation.reads])) ?_ ?_ ?_)
  · intro h0
    exact .inr ⟨v, by simp [Operation.needs], h0⟩
  · intro error bio g' h0 h'
    exact post_unexpected [⟨.bio, bio⟩] rfl (ends_unchanged rfl hs h' (hmeans h0))
  · intro text g' h0 h'
    exact given_unchanged rfl rfl h' (hmeans h0)

theorem moved_needs {b : X509.Builder} (h : b.MovedFrom) : ∃ v ∈ held b, v.address = 0 := by
  rcases h with h | h | h
  · exact ⟨⟨.key, b.subjectKey⟩, by simp [held], h⟩
  · exact ⟨⟨.key, b.signKey⟩, by simp [held], h⟩
  · exact ⟨⟨.certificate, 0⟩, by simp [held, h], rfl⟩

theorem wp_buildCertificate {b : X509.Builder} (h : g.owned = rest + owns (held b))
    (hs : ∀ v ∈ held b, Sound g.store v) :
    (Operation.buildCertificate b).program.Wp (contract M unchecked)
      (Post (.buildCertificate b) rest g) g := by
  have h₀ : Holds g (rest + owns (Operation.buildCertificate b).reads) [] g :=
    holds_start (by simpa [Operation.reads] using h) (by simp)
  have hkey : ∀ a, ⟨.key, a⟩ ∈ held b → a ≠ 0 →
      ⟨.key, a⟩ ∈ rest + owns (Operation.buildCertificate b).reads ∧
        ∃ m, g.store.key a = some m := by
    intro a ha h0
    exact ⟨mem_reads (v := ⟨.key, a⟩) ha h0, Option.isSome_iff_exists.mp (hs _ ha rfl h0)⟩
  have hgiven : X509.Given b (rest + owns (Operation.buildCertificate b).reads) g := by
    refine ⟨hkey _ (by simp [held]), hkey _ (by simp [held]), fun a ha h0 => ?_⟩
    have hmem : ⟨.certificate, a⟩ ∈ held b := by simp [held, ha]
    exact mem_reads (v := ⟨.certificate, a⟩) hmem h0
  refine wp_takeOver hs (X509.wp_build h₀ hgiven ?_ ?_ ?_ ?_)
  · intro hmoved g'
    exact .inr (moved_needs hmoved)
  · intro error g' he h'
    exact post_unexpected [] (by simp [Operation.leaks, he])
      (ends_unchanged rfl hs h' (.notBuilt _))
  · intro string name stack x g' h'
    exact post_unexpected [⟨.string, string⟩, ⟨.name, name⟩, ⟨.stack, stack⟩, ⟨.certificate, x⟩]
      (by simp [Operation.leaks]) (ends_unchanged rfl hs h' (.notBuilt _))
  · intro x m n hostname g' hmoved hip h' hm hn hsame hhost hc
    have hx0 : x ≠ 0 := h'.valid _ (List.mem_singleton_self _)
    have hsubject : b.subjectKey ≠ 0 := fun h0 => hmoved (.inl h0)
    have hsign : b.signKey ≠ 0 := fun h0 => hmoved (.inr (.inl h0))
    refine ⟨?_, ?_, ?_⟩
    · simpa [Operation.leaves, Operation.reads, pointers, hx0, Value.pointer] using h'
    · simp [Sound]
    · cases hp : b.parentCertificate with
      | none =>
        obtain rfl := hsame hp
        rw [hp] at hc
        simpa [Operation.leaves, Operation.reads, held, hp, content, hsubject, hsign, hm, hn, hx0,
          hc] using Means.selfSigned m hostname hp hip hhost
      | some a =>
        have ha : a ≠ 0 := fun h0 => hmoved (.inr (.inr (by rw [hp, h0])))
        rw [hp] at hc
        simpa [Operation.leaves, Operation.reads, held, hp, content, hsubject, hsign, hm, hn, hx0,
          ha, hc] using Means.signed m n (g.store.certificate a) hostname (by simp [hp]) hip
            hhost

/-- Every operation ends as it should, where nothing fails that is not checked. -/
theorem wp_operation (op : Operation) (h : g.owned = rest + owns op.reads)
    (hs : ∀ v ∈ op.reads, Sound g.store v) (ht : op.Typed) :
    op.program.Wp (contract M op.unchecked) (Post op rest g) g := by
  cases op with
  | buildKey bits exponent => exact wp_buildKey (by simpa [Operation.reads] using h)
  | buildCertificate b => exact wp_buildCertificate h hs
  | readCertificate path => exact wp_readCertificate (by simpa [Operation.reads] using h)
  | copy v => exact wp_copy h (hs v (by simp [Operation.reads]))
  | move v => exact wp_move h (hs v (by simp [Operation.reads]))
  | assignCopy v that =>
    exact wp_assignCopy h (fun w hw => hs w (by simpa [Operation.reads] using .inr hw)) ht
  | assignMove v that => exact wp_assignMove h hs
  | compare a b => exact wp_compare h hs
  | encode v => exact wp_encode h (hs v (by simp [Operation.reads]))
  | destroy v => exact wp_destroy h

end Eventuals.ValueSemantics
