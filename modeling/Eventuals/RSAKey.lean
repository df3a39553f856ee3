import Eventuals.OpenSSLRules

/-! `rsa::Key` and `pem::Encode`: keys are built, copied and written (`rsa.h`, `x509.h`). -/
namespace Eventuals.RSA

open OpenSSL
open OpenSSL.Question (uses takes gives allocates frees writes)
open Resumption (Program)

variable {M : Type*}

/-- The constructor of `Key`, which takes over the key. -/
def Key (key : ℕ) : Code M ℕ :=
  checkNotNull key <| .ask (.evpPkeyId key) fun r =>
    if r.value = evpPkeyRSA then .done (.value key) else .done .aborted

/-- `Key::Copy` checks none of the keys that it is given. -/
def Copy (from_ : ℕ) : Code M ℕ :=
  checkNotNull from_ <| .ask (.evpPkeyId from_) fun r =>
    if r.value = evpPkeyRSA then
      .ask (.evpPkeyGet1RSA from_) fun rsa =>
      .ask .evpPkeyNew fun new =>
      .ask (.rsaPrivateKeyDup rsa.pointer) fun duplicate =>
      .ask (.evpPkeySet1RSA new.pointer duplicate.pointer) fun _ =>
      calls [.rsaFree duplicate.pointer, .rsaFree rsa.pointer] (Key new.pointer)
    else .done .aborted

/-- `Key::_Builder::Build`, with the fields `bits_` and `exponent_`. -/
def Build (bits : ℤ) (exponent : ℕ) : Code M ℕ :=
  check .evpPkeyNew Answer.isPointer [] "Failed to allocate key: EVP_PKEY_new" fun r =>
  let key := r.pointer
  check .bnNew Answer.isPointer [.evpPkeyFree key]
    "Failed to allocate exponent: BN_new" fun r =>
  let e := r.pointer
  check (.bnSetWord e exponent) Answer.isOne [.bnFree e, .evpPkeyFree key]
    "Failed to set exponent: BN_set_word" fun _ =>
  check .rsaNew Answer.isPointer [.bnFree e, .evpPkeyFree key]
    "Failed to allocate RSA: RSA_new" fun r =>
  let rsa := r.pointer
  .ask (.rsaGenerateKeyEx rsa bits e) fun r =>
  if r.value = 1 then
    .ask (.bnFree e) fun _ =>
    check (.evpPkeyAssignRSA key rsa) Answer.isOne [.rsaFree rsa, .evpPkeyFree key]
      "Failed to assign RSA key: EVP_PKEY_assign_RSA" fun _ => Key key
  else
    calls [.rsaFree rsa, .bnFree e, .evpPkeyFree key] <|
      .ask .errErrorString fun r => .done (.unexpected r.text)

/-- `operator==` -/
def Equal (a b : ℕ) : Code M Bool :=
  checkNotNull a <| checkNotNull b <| .ask (.evpPkeyCmp a b) fun r => .done (.value (r.value != 0))

/-- The defaults of the fields: `RSA_F4` is 65537. -/
def defaultBits : ℤ := 2048

def defaultExponent : ℕ := 65537

variable {g₀ g : Heap M} {rest : Multiset Pointer} {live : List Pointer} {key : ℕ}
  {unchecked : Question → Bool} {Q : Outcome ℕ → Heap M → Prop}

theorem Fresh.not_mem {p : Pointer} (hf : Fresh g p) (h : Holds g₀ rest live g)
    (h0 : p.address ≠ 0) : p ∉ rest :=
  fun hm => hf h0 (h.rest_le hm)

/-- The constructor takes every key that has an RSA key. -/
theorem wp_key (h : Holds g₀ rest [⟨.key, key⟩] g)
    (habort : g.store.key key = none → ∀ g', Q .aborted g')
    (hvalue : ∀ m g', Holds g₀ rest [⟨.key, key⟩] g' → g'.store.key key = some m →
      g.store.key key = some m → Q (.value key) g') :
    (Key key : Code M ℕ).Wp (contract M unchecked) Q g := by
  have h0 : key ≠ 0 := h.valid _ (List.mem_singleton_self _)
  simp only [Key, checkNotNull, h0, if_false]
  refine wp_call h (by simp [uses, h0]) (by simp [writes]) rfl (fun _ => rfl) fun r g' he h' => ?_
  obtain ⟨hstore, hr⟩ := he
  cases hm : g.store.key key with
  | none =>
    have hne : r.value ≠ evpPkeyRSA := by simpa [hm] using hr
    simp only [hne, if_false]
    exact habort hm g'
  | some m =>
    have hrsa : r.value = evpPkeyRSA := hr.mpr (by simp [hm])
    simp only [hrsa, if_true]
    exact hvalue m g' h' (by rw [hstore, hm]) hm

/-- `Build` ends with a key of its own or frees what it has allocated. -/
theorem wp_build {bits : ℤ} {exponent : ℕ} (h : Holds g₀ rest [] g)
    (herror : ∀ e g', Holds g₀ rest [] g' → Q (.unexpected e) g')
    (hvalue : ∀ key m g', Holds g₀ rest [⟨.key, key⟩] g' → g'.store.key key = some m →
      Q (.value key) g') :
    (Build bits exponent : Code M ℕ).Wp (contract M unchecked) Q g := by
  unfold Build
  refine wp_allocate .key h rfl (fun _ => rfl) (by simp [uses]) (by simp [writes]) (by simp)
    (by simp) (herror _) fun r g₁ hkey he₁ h₁ => ?_
  have hfresh : ⟨.key, r.pointer⟩ ∉ rest := Fresh.not_mem he₁.1 h hkey
  generalize r.pointer = key at *
  refine wp_allocate .bignum h₁ rfl (fun _ => rfl) (by simp [uses]) (by simp [writes])
    (by simp [frees]) (by simp [frees]) (herror _) fun r g₂ hexponent _ h₂ => ?_
  generalize r.pointer = e at *
  refine wp_require h₂ rfl (fun _ => rfl) (by simp [uses, hexponent]) (by simp [writes])
    (by simp [frees]) (by simp [frees]) (herror _) fun r g₃ _ _ h₃ => ?_
  refine wp_allocate .rsa h₃ rfl (fun _ => rfl) (by simp [uses]) (by simp [writes])
    (by simp [frees]) (by simp [frees]) (herror _) fun r g₄ hrsa _ h₄ => ?_
  generalize r.pointer = rsa at *
  refine wp_call h₄ (by simp [uses, hrsa, hexponent]) (by simp [writes]) rfl (fun _ => rfl)
    fun r g₅ he₅ h₅ => ?_
  obtain ⟨m, hstore, hm⟩ := he₅
  split
  · next hr =>
    refine wp_free [⟨.rsa, rsa⟩, ⟨.key, key⟩] h₅ (by simp [frees]) ?_ fun g₆ hg₆ h₆ => ?_
    · exact (List.Perm.swap ..).trans (List.perm_append_singleton ..).symm
    refine wp_check h₆ (by simp [uses, hrsa, hkey]) (by simpa [writes] using hfresh) ?_
      (by simp [frees, hrsa]) (by simp [frees, hrsa]) (herror _) (fun _ => [⟨.key, key⟩]) ?_
      fun r g₇ hr₇ he₇ h₇ => ?_
    · intro r hr
      have hr : r.value ≠ 1 := by simpa [Answer.isOne] using hr
      simp [gives, allocates, takes, hr]
    · intro r hr
      have hr : r.value = 1 := by simpa [Answer.isOne] using hr
      simpa [gives, allocates, takes, hr] using List.Perm.swap ..
    · obtain ⟨m', hstore', hm', -⟩ := he₇
      have hr₇ : r.value = 1 := by simpa [Answer.isOne] using hr₇
      obtain ⟨n, hn⟩ := Option.isSome_iff_exists.mp (hm hr)
      have hrsa' : g₆.store.rsa rsa = some n := by rw [hg₆, hstore]; simp [hn]
      have hkey' : g₇.store.key key = some n := by
        rw [hstore', hm' hr₇ (by simp [hrsa'])]
        simpa using hrsa'
      refine wp_key h₇ (fun hnone => ?_) fun m g' h' hk _ => hvalue key m g' h' hk
      rw [hkey'] at hnone
      cases hnone
  · refine wp_calls [] h₅ (by simp [frees, hrsa]) (by simp [frees, hrsa])
      fun g₆ _ h₆ => ?_
    refine wp_call h₆ (by simp [uses]) (by simp [writes]) rfl (fun _ => rfl) fun r g₇ _ h₇ => ?_
    exact herror _ _ h₇

/-- What `Copy` allocates and does not check. -/
def uncheckedByCopy : Question → Bool
  | .evpPkeyNew | .rsaPrivateKeyDup _ => true
  | _ => false

/-- `Copy` ends with a key of its own that is the same, unless it aborts. -/
theorem wp_copy {from_ : ℕ} (h : Holds g₀ rest [] g) (hfrom : from_ ≠ 0 → ⟨.key, from_⟩ ∈ rest)
    (habort : ∀ g', Q .aborted g')
    (hvalue : ∀ key m g', Holds g₀ rest [⟨.key, key⟩] g' → g'.store.key key = some m →
      g₀.store.key from_ = some m → Q (.value key) g') :
    (Copy from_ : Code M ℕ).Wp (contract M uncheckedByCopy) Q g := by
  by_cases h0 : from_ = 0
  · simp only [Copy, checkNotNull, h0, if_true]
    exact habort g
  have hmem := hfrom h0
  simp only [Copy, checkNotNull, h0, if_false]
  refine wp_call h (by simp [uses, h0, hmem]) (by simp [writes]) rfl (fun _ => rfl)
    fun r g₁ he₁ h₁ => ?_
  split
  · next hr =>
    obtain ⟨m, hm⟩ := Option.isSome_iff_exists.mp (he₁.2.mp hr)
    have hm₁ : g₁.store.key from_ = some m := by rw [he₁.1, hm]
    refine wp_new .rsa h₁ rfl (fun _ => rfl) (by simp [uses, h0, hmem]) (by simp [writes])
      (fun r t he _ => he.2 (by simp [hm₁])) fun rsa g₂ hrsa he₂ h₂ => ?_
    refine wp_new .key h₂ rfl (fun _ => rfl) (by simp [uses]) (by simp [writes])
      (fun r t _ hn => hn rfl) fun new g₃ hnew he₃ h₃ => ?_
    have hfresh : ⟨.key, new.pointer⟩ ∉ rest := Fresh.not_mem he₃.1 h₂ hnew
    refine wp_new .rsa h₃ rfl (fun _ => rfl) (by simp [uses, hrsa]) (by simp [writes])
      (fun r t _ hn => hn rfl) fun d g₄ hdup he₄ h₄ => ?_
    have hstore₄ : g₄.store.key new.pointer = none ∧ g₄.store.rsa d.pointer = some m := by
      have hstore : g₄.store = { g₃.store with
        rsa := Function.update g₃.store.rsa d.pointer (g₃.store.rsa rsa.pointer) } := he₄
      rw [hstore, he₃.2, he₂.1]
      simp [hm₁]
    refine wp_call h₄ (by simp [uses, hnew, hdup]) (by simpa [writes] using hfresh) rfl
      (fun _ => rfl) fun r g₅ he₅ h₅ => ?_
    obtain ⟨n, hstore₅, hset, hunset⟩ := he₅
    refine wp_calls [⟨.key, new.pointer⟩] h₅ (by simp [frees, hrsa, hdup])
      (by simpa [frees, hrsa, hdup] using List.Perm.swap ..) fun g₆ hstore₆ h₆ => ?_
    have hn : g₆.store.key new.pointer = n := by
      rw [hstore₆, hstore₅]
      simp
    refine wp_key h₆ (fun _ => habort) fun m' g' h' hm' hm₆ => ?_
    have hkept : g₀.store.key from_ = some m := by
      rw [← hm]
      exact (h.kept.1 from_ h0 hmem).symm
    refine hvalue new.pointer m' g' h' hm' ?_
    rw [hkept, ← hm₆, hn]
    by_cases hr : r.value = 1
    · rw [hset hr (by simp [hstore₄]), hstore₄.2]
    · rw [hn] at hm₆
      have hnone := hunset hr (by simp [hm₆])
      rw [hstore₄.1, hm₆] at hnone
      cases hnone
  · exact habort g₁

theorem wp_equal {a b : ℕ} {Q : Outcome Bool → Heap M → Prop} (h : Holds g₀ rest [] g)
    (ha : a ≠ 0 → ⟨.key, a⟩ ∈ rest) (hb : b ≠ 0 → ⟨.key, b⟩ ∈ rest)
    (habort : a = 0 ∨ b = 0 → Q .aborted g)
    (hvalue : ∀ r g', a ≠ 0 → b ≠ 0 → Holds g₀ rest [] g' → Q (.value r) g') :
    (Equal a b : Code M Bool).Wp (contract M unchecked) Q g := by
  unfold Equal checkNotNull
  split
  · next h0 => exact habort (.inl h0)
  · next ha0 =>
    split
    · next h0 => exact habort (.inr h0)
    · next hb0 =>
      refine wp_call h ?_ (by simp [writes]) rfl (fun _ => rfl) fun r g' _ h' => ?_
      · simp [uses, ha0, hb0, ha ha0, hb hb0]
      · exact hvalue _ g' ha0 hb0 h'

end Eventuals.RSA

namespace Eventuals.PEM

open OpenSSL
open OpenSSL.Question (uses takes gives allocates frees writes)
open Resumption (Program)

variable {M : Type*}

/-- What both `Encode` functions do, by what writes to the `BIO`. -/
def Encode (write : ℕ → Question) (error : String) : Code M String :=
  .ask .bioNew fun r =>
  let bio := r.pointer
  .ask (write bio) fun r =>
  if r.value ≠ 1 then .done (.unexpected error)
  else
    .ask (.bioGetMemPtr bio) fun r =>
    .ask (.bioFree bio) fun _ => .done (.value r.text)

/-- `Encode` of a key, which is handed on as a pointer. -/
def EncodeKey (key : ℕ) : Code M String :=
  checkNotNull key <|
    Encode (fun bio => .pemWriteBioPrivateKey bio key) "Failed to write private key to memory"

def EncodeCertificate (x509 : ℕ) : Code M String :=
  checkNotNull x509 <|
    Encode (fun bio => .pemWriteBioX509 bio x509) "Failed to write certificate to memory"

def uncheckedByEncode : Question → Bool
  | .bioNew => true
  | _ => false

variable {g₀ g : Heap M} {rest : Multiset Pointer} {Q : Outcome String → Heap M → Prop}

/-- `Encode` frees its `BIO` if it succeeds, and leaks it if it does not. -/
theorem wp_encode {write : ℕ → Question} {error : String} {p : Pointer} (h : Holds g₀ rest [] g)
    (hp : p.address ≠ 0 ∧ p ∈ rest) (huses : ∀ b, (write b).uses = [⟨.bio, b⟩, p])
    (hallocates : ∀ b, (write b).allocates = none) (htakes : ∀ b r, (write b).takes r = [])
    (hwrites : ∀ b, (write b).writes = [])
    (herror : ∀ bio g', Holds g₀ rest [⟨.bio, bio⟩] g' → Q (.unexpected error) g')
    (hvalue : ∀ text g', Holds g₀ rest [] g' → Q (.value text) g') :
    (Encode write error : Code M String).Wp (contract M uncheckedByEncode) Q g := by
  unfold Encode
  refine wp_new .bio h rfl (fun _ => rfl) (by simp [uses]) (by simp [writes])
    (fun r t _ hn => hn rfl) fun r g₁ hbio _ h₁ => ?_
  refine wp_call h₁ (by simp [huses, hbio, hp]) (by simp [hwrites]) (hallocates _) (htakes _)
    fun r g₂ _ h₂ => ?_
  split
  · exact herror _ g₂ h₂
  · refine wp_call h₂ (by simp [uses, hbio]) (by simp [writes]) rfl (fun _ => rfl)
      fun r g₃ _ h₃ => ?_
    exact wp_free [] h₃ (by simp [frees]) (by simp [frees])
      fun g₄ _ h₄ => hvalue _ g₄ h₄

end Eventuals.PEM
