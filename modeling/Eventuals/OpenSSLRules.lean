import Eventuals.OpenSSL

/-! Rules for code that calls OpenSSL: what is allocated stays alive until it is freed, and what
others own is left as it is. -/
namespace Eventuals.OpenSSL

open Function (update)
open Resumption (Contract Ownership Program)

variable {M α : Type*} {g₀ g g' : Heap M} {rest : Multiset Pointer} {live live' : List Pointer}
  {o : Question} {r : Answer} {s t : Store M} {k : Kind} {unchecked : Question → Bool}
  {Q : Outcome α → Heap M → Prop}

namespace Question

/-- The keys and certificates that are written to, but for new ones. -/
def writes : Question → List Pointer
  | evpPkeyAssignRSA k _ | evpPkeySet1RSA k _ => [⟨.key, k⟩]
  | x509SetVersion x _ | asn1IntegerSet x _ | x509GmtimeAdjNotBefore x _
  | x509GmtimeAdjNotAfter x _ | x509SetPubkey x _ | x509NameAddEntryByTxt x _ _
  | x509SetIssuerName x _ | x509Add1ExtI2d x _ | x509Sign x _ => [⟨.certificate, x⟩]
  | _ => []

/-- A call that frees does nothing else. -/
theorem free_spec (h : o.frees ≠ []) : o.uses = o.frees ∧ o.writes = [] ∧
    (∀ r, o.takes r = o.frees ∧ o.gives r = []) ∧
    ∀ (g : Heap M) (r : Answer) (t : Store M), Effect o g r t → t = g.store := by
  cases o <;> simp_all [frees, uses, takes, gives, allocates, writes, Effect]

end Question

/-- What is owned has what was in it. -/
def Kept (rest : Multiset Pointer) (s t : Store M) : Prop :=
  (∀ a, a ≠ 0 → ⟨.key, a⟩ ∈ rest → t.key a = s.key a) ∧
    ∀ a, a ≠ 0 → ⟨.certificate, a⟩ ∈ rest → t.certificate a = s.certificate a

theorem Kept.refl (rest : Multiset Pointer) (s : Store M) : Kept rest s s :=
  ⟨fun _ _ _ => rfl, fun _ _ _ => rfl⟩

theorem Kept.trans {u : Store M} (h : Kept rest s t) (h' : Kept rest t u) : Kept rest s u :=
  ⟨fun a ha hm => (h'.1 a ha hm).trans (h.1 a ha hm),
    fun a ha hm => (h'.2 a ha hm).trans (h.2 a ha hm)⟩

theorem kept_key {a : ℕ} {m : Option M} (h : a ≠ 0 → ⟨.key, a⟩ ∉ rest) :
    Kept rest s { s with key := update s.key a m } := by
  refine ⟨fun b hb hm => ?_, fun _ _ _ => rfl⟩
  have hba : b ≠ a := by
    rintro rfl
    exact h hb hm
  simp [hba]

theorem kept_certificate {a : ℕ} {c : Certificate M} (h : a ≠ 0 → ⟨.certificate, a⟩ ∉ rest) :
    Kept rest s { s with certificate := update s.certificate a c } := by
  refine ⟨fun _ _ _ => rfl, fun b hb hm => ?_⟩
  have hba : b ≠ a := by
    rintro rfl
    exact h hb hm
  simp [hba]

/-- A call leaves what it is not given as it is. -/
theorem kept_of_effect (h : Effect o g r t) (hrest : ∀ p ∈ rest, p ∈ g.owned)
    (hw : ∀ p ∈ o.writes, p ∉ rest) : Kept rest g.store t := by
  have hfresh : ∀ {p}, Fresh g p → p.address ≠ 0 → p ∉ rest := fun hf h0 hm => hf h0 (hrest _ hm)
  cases o with
  | evpPkeyNew =>
    obtain ⟨hf, rfl⟩ := h
    exact kept_key (hfresh hf)
  | evpPkeyAssignRSA k rsa | evpPkeySet1RSA k rsa =>
    obtain ⟨m, rfl, -⟩ := h
    exact kept_key fun _ => hw _ (List.mem_singleton_self _)
  | x509New | x509Dup x =>
    obtain ⟨hf, rfl⟩ := h
    exact kept_certificate (hfresh hf)
  | pemReadX509 f =>
    obtain ⟨hf, c, rfl⟩ := h
    exact kept_certificate (hfresh hf)
  | x509SetVersion x v | asn1IntegerSet x v | x509GmtimeAdjNotBefore x v
  | x509GmtimeAdjNotAfter x v | x509SetPubkey x v | x509SetIssuerName x v
  | x509Add1ExtI2d x v | x509Sign x v =>
    obtain ⟨c, rfl, -⟩ := h
    exact kept_certificate fun _ => hw _ (List.mem_singleton_self _)
  | x509NameAddEntryByTxt x field value =>
    obtain ⟨c, rfl, -⟩ := h
    exact kept_certificate fun _ => hw _ (List.mem_singleton_self _)
  | rsaGenerateKeyEx rsa bits e =>
    obtain ⟨m, rfl, -⟩ := h
    exact ⟨fun _ _ _ => rfl, fun _ _ _ => rfl⟩
  | evpPkeyId k | evpPkeyCmp k l =>
    obtain ⟨rfl, -⟩ := h
    exact .refl _ _
  | evpPkeyGet1RSA k =>
    obtain ⟨rfl, -⟩ := h
    exact ⟨fun _ _ _ => rfl, fun _ _ _ => rfl⟩
  | skGeneralNamePush stack n | asn1StringSet str data =>
    obtain ⟨l, rfl, -⟩ := h
    exact ⟨fun _ _ _ => rfl, fun _ _ _ => rfl⟩
  | _ =>
    obtain rfl := h
    exact ⟨fun _ _ _ => rfl, fun _ _ _ => rfl⟩

/-- Besides what others own these are alive, and what others own is as it was in `g₀`. -/
structure Holds (g₀ : Heap M) (rest : Multiset Pointer) (live : List Pointer) (g : Heap M) :
    Prop where
  owned : g.owned = rest + (live : Multiset Pointer)
  valid : ∀ p ∈ live, p.address ≠ 0
  kept : Kept rest g₀.store g.store

theorem Holds.perm (h : Holds g₀ rest live g) (hp : live.Perm live') : Holds g₀ rest live' g where
  owned := by rw [h.owned, Multiset.coe_eq_coe.mpr hp]
  valid p hm := h.valid p (hp.mem_iff.mpr hm)
  kept := h.kept

theorem Holds.rest_le (h : Holds g₀ rest live g) {p : Pointer} (hp : p ∈ rest) : p ∈ g.owned := by
  rw [h.owned]
  exact Multiset.mem_add.mpr (.inl hp)

/-- A call may be given what is alive and what others own. -/
theorem wp_ask {p : Answer → Code M α} (h : Holds g₀ rest live g)
    (huses : ∀ p ∈ o.uses, p.address ≠ 0 ∧ (p ∈ rest ∨ p ∈ live))
    (hwrites : ∀ p ∈ o.writes, p ∉ rest)
    (live' : Answer → List Pointer) (hperm : ∀ r, (live ++ o.gives r).Perm (live' r ++ o.takes r))
    (hnext : ∀ r g', Effect o g r g'.store → (unchecked o = true → r.pointer ≠ 0) →
      Holds g₀ rest (live' r) g' → (p r).Wp (contract M unchecked) Q g') :
    (Program.ask o p).Wp (contract M unchecked) Q g := by
  refine Ownership.wp_ask h.owned ?_ live' hperm fun r g' he howned => ?_
  · intro q hq
    obtain ⟨h0, hm⟩ := huses q hq
    refine ⟨h0, Multiset.mem_add.mpr ?_⟩
    simpa using hm
  · refine hnext r g' he.1 he.2 ⟨howned, ?_, ?_⟩
    · intro q hq
      have hm : q ∈ live ++ o.gives r := (hperm r).mem_iff.mpr (List.mem_append_left _ hq)
      rcases List.mem_append.mp hm with hm | hm
      · exact h.valid q hm
      · unfold Question.gives at hm
        split at hm
        · split at hm
          · cases hm
          · next h0 =>
            rw [List.mem_singleton.mp hm]
            exact h0
        · cases hm
    · exact h.kept.trans (kept_of_effect he.1 (fun p hp => h.rest_le hp) hwrites)

/-- Something is allocated where that does not fail. -/
theorem wp_new {p : Answer → Code M α} (k : Kind) (h : Holds g₀ rest live g)
    (hk : o.allocates = some k) (htakes : ∀ r, o.takes r = [])
    (huses : ∀ p ∈ o.uses, p.address ≠ 0 ∧ (p ∈ rest ∨ p ∈ live))
    (hwrites : ∀ p ∈ o.writes, p ∉ rest)
    (h0 : ∀ r t, Effect o g r t → (unchecked o = true → r.pointer ≠ 0) → r.pointer ≠ 0)
    (hnext : ∀ r g', r.pointer ≠ 0 → Effect o g r g'.store →
      Holds g₀ rest (⟨k, r.pointer⟩ :: live) g' → (p r).Wp (contract M unchecked) Q g') :
    (Program.ask o p).Wp (contract M unchecked) Q g := by
  refine wp_ask h huses hwrites (fun r => o.gives r ++ live) (fun r => ?_)
    fun r g' he hr h' => ?_
  · rw [htakes r, List.append_nil]
    exact List.perm_append_comm
  · have hr0 := h0 r g'.store he hr
    rw [Question.gives_of_some hk hr0] at h'
    exact hnext r g' hr0 he h'

/-- A call that neither allocates nor frees. -/
theorem wp_call {p : Answer → Code M α} (h : Holds g₀ rest live g)
    (huses : ∀ p ∈ o.uses, p.address ≠ 0 ∧ (p ∈ rest ∨ p ∈ live))
    (hwrites : ∀ p ∈ o.writes, p ∉ rest)
    (hk : o.allocates = none) (htakes : ∀ r, o.takes r = [])
    (hnext : ∀ r g', Effect o g r g'.store → Holds g₀ rest live g' →
      (p r).Wp (contract M unchecked) Q g') :
    (Program.ask o p).Wp (contract M unchecked) Q g := by
  refine wp_ask h huses hwrites (fun _ => live) (fun r => ?_) fun r g' he _ => hnext r g' he
  rw [Question.gives_of_none hk, htakes r]

/-- Something that is alive is freed, whatever is answered. -/
theorem wp_free {p : Code M α} (live' : List Pointer) (h : Holds g₀ rest live g)
    (ho : o.frees ≠ []) (hperm : live.Perm (live' ++ o.frees))
    (hnext : ∀ g', g'.store = g.store → Holds g₀ rest live' g' →
      p.Wp (contract M unchecked) Q g') :
    (Program.ask o fun _ => p).Wp (contract M unchecked) Q g := by
  obtain ⟨huses, hwrites, hcall, heffect⟩ := Question.free_spec (M := M) ho
  refine wp_ask h ?_ ?_ (fun _ => live') (fun r => ?_) fun r g' he _ h' => ?_
  · intro p hp
    rw [huses] at hp
    have hm : p ∈ live := hperm.mem_iff.mpr (List.mem_append_right _ hp)
    exact ⟨h.valid p hm, .inr hm⟩
  · intro p hp
    rw [hwrites] at hp
    cases hp
  · rw [(hcall r).1, (hcall r).2, List.append_nil]
    exact hperm
  · exact hnext g' (heffect g r g'.store he) h'

/-- What is alive is freed, in any order. -/
theorem wp_calls {os : List Question} {p : Code M α} (live' : List Pointer)
    (h : Holds g₀ rest live g) (hfrees : ∀ o ∈ os, o.frees ≠ [])
    (hperm : live.Perm (live' ++ os.flatMap Question.frees))
    (hnext : ∀ g', g'.store = g.store → Holds g₀ rest live' g' →
      p.Wp (contract M unchecked) Q g') :
    (calls os p).Wp (contract M unchecked) Q g := by
  induction os generalizing live g with
  | nil => exact hnext g rfl (h.perm (by simpa using hperm))
  | cons o os ih =>
    have hsplit : live.Perm ((live' ++ os.flatMap Question.frees) ++ o.frees) := by
      refine hperm.trans ?_
      rw [List.flatMap_cons, List.append_assoc]
      exact List.perm_append_comm.append_left live'
    refine wp_free _ h (hfrees o List.mem_cons_self) hsplit fun g' hstore h' => ?_
    refine ih h' (fun o ho => hfrees o (List.mem_cons_of_mem _ ho)) (.refl _) ?_
    intro g'' hstore'
    exact hnext g'' (hstore'.trans hstore)

/-- What is alive is freed where a call is not `ok`. -/
theorem wp_check {ok : Answer → Bool} {os : List Question} {error : String}
    {p : Answer → Code M α} (h : Holds g₀ rest live g)
    (huses : ∀ p ∈ o.uses, p.address ≠ 0 ∧ (p ∈ rest ∨ p ∈ live))
    (hwrites : ∀ p ∈ o.writes, p ∉ rest)
    (hno : ∀ r, ok r = false → o.gives r = [] ∧ o.takes r = [])
    (hfrees : ∀ o ∈ os, o.frees ≠ []) (hlive : live.Perm (os.flatMap Question.frees))
    (herror : ∀ g', Holds g₀ rest [] g' → Q (.unexpected error) g')
    (live' : Answer → List Pointer)
    (hperm : ∀ r, ok r = true → (live ++ o.gives r).Perm (live' r ++ o.takes r))
    (hnext : ∀ r g', ok r = true → Effect o g r g'.store → Holds g₀ rest (live' r) g' →
      (p r).Wp (contract M unchecked) Q g') :
    (check o ok os error p).Wp (contract M unchecked) Q g := by
  refine wp_ask h huses hwrites (fun r => if ok r then live' r else live) (fun r => ?_) ?_
  · cases hr : ok r with
    | true => simpa [hr] using hperm r hr
    | false => simp [hno r hr]
  · intro r g' he _ h'
    cases hr : ok r with
    | true =>
      simp only [hr, if_true] at h' ⊢
      exact hnext r g' hr he h'
    | false =>
      simp only [hr, Bool.false_eq_true, if_false] at h' ⊢
      exact wp_calls [] h' hfrees (by simpa using hlive) fun g'' _ h'' => herror g'' h''

/-- Something is allocated, and has to be freed from then on. -/
theorem wp_allocate {os : List Question} {error : String} {p : Answer → Code M α} (k : Kind)
    (h : Holds g₀ rest live g) (hk : o.allocates = some k) (htakes : ∀ r, o.takes r = [])
    (huses : ∀ p ∈ o.uses, p.address ≠ 0 ∧ (p ∈ rest ∨ p ∈ live))
    (hwrites : ∀ p ∈ o.writes, p ∉ rest)
    (hfrees : ∀ o ∈ os, o.frees ≠ []) (hlive : live.Perm (os.flatMap Question.frees))
    (herror : ∀ g', Holds g₀ rest [] g' → Q (.unexpected error) g')
    (hnext : ∀ r g', r.pointer ≠ 0 → Effect o g r g'.store →
      Holds g₀ rest (⟨k, r.pointer⟩ :: live) g' → (p r).Wp (contract M unchecked) Q g') :
    (check o Answer.isPointer os error p).Wp (contract M unchecked) Q g := by
  refine wp_check h huses hwrites ?_ hfrees hlive herror (fun r => ⟨k, r.pointer⟩ :: live) ?_ ?_
  · intro r hr
    simp only [Answer.isPointer, bne_eq_false_iff_eq] at hr
    simp [Question.gives, hk, hr, htakes]
  · intro r hr
    simp only [Answer.isPointer, bne_iff_ne, ne_eq] at hr
    simp [Question.gives_of_some hk hr, htakes, List.perm_append_singleton]
  · intro r g' hr he h'
    exact hnext r g' (by simpa [Answer.isPointer] using hr) he h'

/-- What is alive stays alive. -/
theorem wp_require {ok : Answer → Bool} {os : List Question} {error : String}
    {p : Answer → Code M α} (h : Holds g₀ rest live g)
    (hk : o.allocates = none) (htakes : ∀ r, o.takes r = [])
    (huses : ∀ p ∈ o.uses, p.address ≠ 0 ∧ (p ∈ rest ∨ p ∈ live))
    (hwrites : ∀ p ∈ o.writes, p ∉ rest)
    (hfrees : ∀ o ∈ os, o.frees ≠ []) (hlive : live.Perm (os.flatMap Question.frees))
    (herror : ∀ g', Holds g₀ rest [] g' → Q (.unexpected error) g')
    (hnext : ∀ r g', ok r = true → Effect o g r g'.store → Holds g₀ rest live g' →
      (p r).Wp (contract M unchecked) Q g') :
    (check o ok os error p).Wp (contract M unchecked) Q g := by
  refine wp_check h huses hwrites (fun r _ => ⟨Question.gives_of_none hk, htakes r⟩) hfrees hlive
    herror (fun _ => live) ?_ hnext
  intro r _
  rw [Question.gives_of_none hk, htakes r]

end Eventuals.OpenSSL
