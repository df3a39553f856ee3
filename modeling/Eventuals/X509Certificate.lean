import Eventuals.RSAKey

/-! `x509::Certificate`: certificates are built, copied and read, and what is in one that has been
built (`x509.h`). -/
namespace Eventuals.X509

open Function (update)
open OpenSSL
open OpenSSL.Question (uses takes gives allocates frees writes)
open Resumption (Program)

/-- `asio::ip::address` -/
inductive Address
  | v4 (a b c d : UInt8)
  | v6
  deriving DecidableEq

/-- `to_ulong`: the address as a number. -/
def toUlong (a b c d : UInt8) : ℕ :=
  a.toNat * 16777216 + b.toNat * 65536 + c.toNat * 256 + d.toNat

/-- The bytes of `s_addr` in the memory of a little-endian machine. -/
def memory (n : ℕ) : List UInt8 :=
  [.ofNat n, .ofNat (n / 256), .ofNat (n / 65536), .ofNat (n / 16777216)]

/-- The fields of `_Builder`; a key or a certificate that has been moved from is 0. -/
structure Builder where
  subjectKey : ℕ
  signKey : ℕ
  parentCertificate : Option ℕ := none
  serial : ℤ := 1
  days : ℤ := 365
  hostname : Option String := none
  ip : Option Address := none
  organizationName : String := "Unknown"

variable {M : Type*}

namespace Builder

variable (b : Builder)

/-- Whose name issues the certificate, if it is not its own. -/
def issuerName (p : Option ℕ → Code M ℕ) : Code M ℕ :=
  match b.parentCertificate with
  | none =>
    checkNotNull b.subjectKey <| checkNotNull b.signKey <|
    .ask (.evpPkeyCmp b.subjectKey b.signKey) fun r =>
    if r.value = 0 then .done (.unexpected "Subject vs signing key mismatch") else p none
  | some parent =>
    checkNotNull parent <|
    check (.x509GetSubjectName parent) Answer.isPointer []
      "Failed to get subject name of parent certificate: X509_get_subject_name" fun _ =>
    p (some parent)

def determineHostname (x509 : ℕ) (p : String → Code M ℕ) : Code M ℕ :=
  match b.hostname with
  | some hostname => p hostname
  | none =>
    check .hostName (fun r => r.value == 0) [.x509Free x509] "Failed to determine hostname"
      fun r => p r.text

def setName (x509 : ℕ) (hostname : String) (p : Code M ℕ) : Code M ℕ :=
  check (.x509GetSubjectName x509) Answer.isPointer [.x509Free x509]
    "Failed to get subject name: X509_get_subject_name" fun _ =>
  check (.x509NameAddEntryByTxt x509 "C" "US") Answer.isOne [.x509Free x509]
    "Failed to set country code: X509_NAME_add_entry_by_txt" fun _ =>
  check (.x509NameAddEntryByTxt x509 "O" (cStr b.organizationName)) Answer.isOne [.x509Free x509]
    "Failed to set organization name: X509_NAME_add_entry_by_txt" fun _ =>
  check (.x509NameAddEntryByTxt x509 "CN" (cStr hostname)) Answer.isOne [.x509Free x509]
    "Failed to set common name: X509_NAME_add_entry_by_txt" fun _ => p

/-- The part under `has_ip_`; what is not IPv4 is found out late. -/
def setSubjectAltName (x509 : ℕ) (p : Code M ℕ) : Code M ℕ :=
  match b.ip with
  | none => p
  | some ip =>
    check .skGeneralNameNewNull Answer.isPointer [.x509Free x509]
      "Failed to create a stack: sk_GENERAL_NAME_new_null" fun r =>
    let stack := r.pointer
    check .generalNameNew Answer.isPointer [.skGeneralNamePopFree stack, .x509Free x509]
      "Failed to create GENERAL_NAME: GENERAL_NAME_new" fun r =>
    let name := r.pointer
    .ask (.setType name) fun _ =>
    check .asn1StringNew Answer.isPointer
      [.generalNameFree name, .skGeneralNamePopFree stack, .x509Free x509]
      "Failed to create alternative name: ASN1_STRING_new" fun r =>
    let string := r.pointer
    match ip with
    | .v6 => .done (.unexpected "Only IPv4 is currently supported")
    | .v4 a b c d =>
      check (.asn1StringSet string (memory (toUlong a b c d))) Answer.isNonzero
        [.asn1StringFree string, .generalNameFree name, .skGeneralNamePopFree stack,
          .x509Free x509]
        "Failed to set alternative name: ASN1_STRING_set" fun _ =>
      .ask (.setIPAddress name string) fun _ =>
      check (.skGeneralNamePush stack name) Answer.isNonzero
        [.generalNameFree name, .skGeneralNamePopFree stack, .x509Free x509]
        "Failed to push alternative name: sk_GENERAL_NAME_push" fun _ =>
      check (.x509Add1ExtI2d x509 stack) Answer.isNonzero
        [.skGeneralNamePopFree stack, .x509Free x509]
        "Failed to set subject alternative name: X509_add1_ext_i2d" fun _ =>
      .ask (.skGeneralNamePopFree stack) fun _ => p

/-- `Certificate::_Builder::Build` -/
def Build : Code M ℕ :=
  b.issuerName fun issuerName =>
  check .x509New Answer.isPointer [] "Failed to allocate certification: X509_new" fun r =>
  let x509 := r.pointer
  check (.x509SetVersion x509 2) Answer.isOne [.x509Free x509]
    "Failed to set version: X509_set_version" fun _ =>
  check (.asn1IntegerSet x509 b.serial) Answer.isOne [.x509Free x509]
    "Failed to set serial number: ASN1_INTEGER_set" fun _ =>
  check (.x509GmtimeAdjNotBefore x509 0) Answer.isPointer [.x509Free x509]
    "Failed to set valid days of certificate: X509_gmtime_adj" fun _ =>
  check (.x509GmtimeAdjNotAfter x509 (60 * 60 * 24 * b.days)) Answer.isPointer [.x509Free x509]
    "Failed to set valid days of certificate: X509_gmtime_adj" fun _ =>
  checkNotNull b.subjectKey <|
  check (.x509SetPubkey x509 b.subjectKey) Answer.isOne [.x509Free x509]
    "Failed to set public key: X509_set_pubkey" fun _ =>
  b.determineHostname x509 fun hostname =>
  b.setName x509 hostname <|
  check (.x509SetIssuerName x509 (issuerName.getD x509)) Answer.isOne [.x509Free x509]
    "Failed to set issuer name: X509_set_issuer_name" fun _ =>
  b.setSubjectAltName x509 <|
  checkNotNull b.signKey <|
  check (.x509Sign x509 b.signKey) Answer.isNonzero [.x509Free x509]
    "Failed to sign certificate: X509_sign" fun _ =>
  checkNotNull x509 <| .done (.value x509)

/-- What a certificate says that is built with these keys, by this issuer, at this host. -/
def body (m : M) (issuer : Option (List (String × String))) (hostname : String) : Body M :=
  let subject := [("C", "US"), ("O", cStr b.organizationName), ("CN", cStr hostname)]
  { version := 2
    serial := b.serial
    notBefore := 0
    notAfter := 60 * 60 * 24 * b.days
    publicKey := some m
    subject
    issuer := issuer.getD subject
    subjectAltName :=
      match b.ip with
      | some (.v4 a b c d) => [memory (toUlong a b c d)]
      | _ => [] }

end Builder

/-- `Certificate::Copy`, with the constructor that takes over the copy. -/
def Copy (from_ : ℕ) : Code M ℕ :=
  checkNotNull from_ <| .ask (.x509Dup from_) fun r =>
  checkNotNull r.pointer <| .done (.value r.pointer)

/-- `pem::ReadCertificate` -/
def ReadCertificate (path : String) : Code M ℕ :=
  .ask (.fopen (cStr path)) fun r =>
  let file := r.pointer
  if file = 0 then .done (.unexpected ("Failed to open file '" ++ path ++ "' for reading"))
  else
    .ask (.pemReadX509 file) fun r =>
    let x509 := r.pointer
    .ask (.fclose file) fun _ =>
    if x509 = 0 then
      .done (.unexpected
        ("Failed to read PEM encoded X509 certificate from file '" ++ path ++ "'"))
    else checkNotNull x509 <| .done (.value x509)

/-- In memory the address reads backwards. -/
theorem memory_toUlong (a b c d : UInt8) : memory (toUlong a b c d) = [d, c, b, a] := by
  have ha := a.toNat_lt
  have hb := b.toNat_lt
  have hc := c.toNat_lt
  have hd := d.toNat_lt
  have hofNat : ∀ (x : UInt8) (n : ℕ), n % 256 = x.toNat → UInt8.ofNat n = x := by
    intro x n hn
    apply UInt8.toNat_inj.mp
    simpa using hn
  simp only [memory, toUlong]
  congr 1
  · exact hofNat d _ (by omega)
  congr 1
  · exact hofNat c _ (by omega)
  congr 1
  · exact hofNat b _ (by omega)
  congr 1
  exact hofNat a _ (by omega)

section Specification

variable {g₀ g : Heap M} {rest : Multiset Pointer} {live : List Pointer} {x : ℕ}
  {o : Question} {c : Certificate M} {unchecked : Question → Bool}
  {Q : Outcome ℕ → Heap M → Prop} {s t : Store M}

theorem writes_at {ok : Prop} {f : Body M → Body M} (h : Writes s t x ok f) (hok : ok) :
    t.certificate x = { s.certificate x with body := f (s.certificate x).body } := by
  obtain ⟨c, rfl, hc⟩ := h
  rw [← hc hok]
  simp

/-- A field of the certificate that is built is set. -/
theorem wp_set {ok : Answer → Bool} {error : String} {p : Answer → Code M ℕ}
    (ok' : Answer → Prop) (f : Body M → Body M) (h : Holds g₀ rest [⟨.certificate, x⟩] g)
    (hx : ⟨.certificate, x⟩ ∉ rest) (hc : g.store.certificate x = c)
    (hk : o.allocates = none) (htakes : ∀ r, o.takes r = [])
    (huses : ∀ p ∈ o.uses, p = ⟨.certificate, x⟩ ∨ p.address ≠ 0 ∧ p ∈ rest)
    (hwrites : o.writes = [⟨.certificate, x⟩])
    (he : ∀ r t, Effect o g r t → Writes g.store t x (ok' r) f)
    (hok : ∀ r, ok r = true → ok' r)
    (herror : ∀ g', Holds g₀ rest [] g' → Q (.unexpected error) g')
    (hnext : ∀ r g', Holds g₀ rest [⟨.certificate, x⟩] g' →
      g'.store.certificate x = { c with body := f c.body } →
      (p r).Wp (contract M unchecked) Q g') :
    (check o ok [.x509Free x] error p).Wp (contract M unchecked) Q g := by
  have h0 : x ≠ 0 := h.valid _ (List.mem_singleton_self _)
  refine wp_require h hk htakes ?_ (by simpa [hwrites] using hx) (by simp [frees])
    (by simp [frees]) herror fun r g' hr heff h' => ?_
  · intro p hp
    rcases huses p hp with rfl | ⟨hp0, hm⟩
    · exact ⟨h0, .inr (List.mem_singleton_self _)⟩
    · exact ⟨hp0, .inl hm⟩
  · refine hnext r g' h' ?_
    rw [writes_at (he r _ heff) (hok r hr), hc]

theorem wp_checkNotNull {a : ℕ} {p : Code M ℕ} (habort : a = 0 → ∀ g', Q .aborted g')
    (h : a ≠ 0 → p.Wp (contract M unchecked) Q g) :
    (checkNotNull a p).Wp (contract M unchecked) Q g := by
  unfold checkNotNull
  split
  · next h0 => exact habort h0 g
  · next h0 => exact h h0

/-- The name of the host that is used, as it was given or else as it was found out. -/
theorem wp_determineHostname {b : Builder} {p : String → Code M ℕ}
    (h : Holds g₀ rest [⟨.certificate, x⟩] g)
    (herror : ∀ g', Holds g₀ rest [] g' → Q (.unexpected "Failed to determine hostname") g')
    (hnext : ∀ hostname g', g'.store = g.store → (∀ n, b.hostname = some n → hostname = n) →
      Holds g₀ rest [⟨.certificate, x⟩] g' → (p hostname).Wp (contract M unchecked) Q g') :
    (b.determineHostname x p).Wp (contract M unchecked) Q g := by
  unfold Builder.determineHostname
  cases hb : b.hostname with
  | some n => exact hnext n g rfl (by simp [hb]) h
  | none =>
    refine wp_require h rfl (fun _ => rfl) (by simp [uses]) (by simp [writes]) (by simp [frees])
      (by simp [frees]) herror fun r g' _ he h' => ?_
    exact hnext _ g' he (by simp [hb]) h'

theorem wp_addEntry {field value error : String} {p : Answer → Code M ℕ}
    (h : Holds g₀ rest [⟨.certificate, x⟩] g) (hx : ⟨.certificate, x⟩ ∉ rest)
    (hc : g.store.certificate x = c)
    (herror : ∀ g', Holds g₀ rest [] g' → Q (.unexpected error) g')
    (hnext : ∀ r g', Holds g₀ rest [⟨.certificate, x⟩] g' →
      g'.store.certificate x =
        { c with body := { c.body with subject := c.body.subject ++ [(field, value)] } } →
      (p r).Wp (contract M unchecked) Q g') :
    (check (.x509NameAddEntryByTxt x field value) Answer.isOne [.x509Free x] error p).Wp
      (contract M unchecked) Q g :=
  wp_set (·.value = 1) (fun n => { n with subject := n.subject ++ [(field, value)] }) h hx hc rfl
    (fun _ => rfl) (by simp [uses]) rfl (fun _ _ he => he) (by simp [Answer.isOne]) herror hnext

theorem wp_setName {b : Builder} {hostname : String} {p : Code M ℕ}
    (h : Holds g₀ rest [⟨.certificate, x⟩] g) (hx : ⟨.certificate, x⟩ ∉ rest)
    (hc : g.store.certificate x = c)
    (herror : ∀ e g', e ≠ "Only IPv4 is currently supported" → Holds g₀ rest [] g' →
      Q (.unexpected e) g')
    (hnext : ∀ g', Holds g₀ rest [⟨.certificate, x⟩] g' →
      g'.store.certificate x = { c with body := { c.body with
        subject := c.body.subject ++
          [("C", "US"), ("O", cStr b.organizationName), ("CN", cStr hostname)] } } →
      p.Wp (contract M unchecked) Q g') :
    (b.setName x hostname p).Wp (contract M unchecked) Q g := by
  have h0 : x ≠ 0 := h.valid _ (List.mem_singleton_self _)
  unfold Builder.setName
  refine wp_require h rfl (fun _ => rfl) (by simp [uses, h0]) (by simp [writes])
    (by simp [frees]) (by simp [frees]) (fun g' => herror _ g' (by decide))
    fun r g₁ _ he₁ h₁ => ?_
  have hc₁ : g₁.store.certificate x = c := by
    rw [show g₁.store = g.store from he₁, hc]
  refine wp_addEntry h₁ hx hc₁ (fun g' => herror _ g' (by decide)) fun r g₂ h₂ hc₂ => ?_
  refine wp_addEntry h₂ hx hc₂ (fun g' => herror _ g' (by decide)) fun r g₃ h₃ hc₃ => ?_
  refine wp_addEntry h₃ hx hc₃ (fun g' => herror _ g' (by decide)) fun r g₄ h₄ hc₄ => ?_
  refine hnext g₄ h₄ ?_
  rw [hc₄]
  simp

/-- What the certificate says is the address, if there is one, in the bytes of the memory; what
is not IPv4 leaves everything that has been allocated behind. -/
theorem wp_setSubjectAltName {b : Builder} {p : Code M ℕ}
    (h : Holds g₀ rest [⟨.certificate, x⟩] g) (hx : ⟨.certificate, x⟩ ∉ rest)
    (hc : g.store.certificate x = c)
    (herror : ∀ e g', e ≠ "Only IPv4 is currently supported" → Holds g₀ rest [] g' →
      Q (.unexpected e) g')
    (hleak : ∀ string name stack g', Holds g₀ rest [⟨.string, string⟩, ⟨.name, name⟩,
      ⟨.stack, stack⟩, ⟨.certificate, x⟩] g' →
      Q (.unexpected "Only IPv4 is currently supported") g')
    (hnext : ∀ g', b.ip ≠ some .v6 → Holds g₀ rest [⟨.certificate, x⟩] g' →
      g'.store.certificate x = (match b.ip with
        | some (.v4 a b c' d) =>
          { c with body := { c.body with subjectAltName := [memory (toUlong a b c' d)] } }
        | _ => c) →
      p.Wp (contract M unchecked) Q g') :
    (b.setSubjectAltName x p).Wp (contract M unchecked) Q g := by
  have h0 : x ≠ 0 := h.valid _ (List.mem_singleton_self _)
  unfold Builder.setSubjectAltName
  cases hip : b.ip with
  | none => exact hnext g (by simp [hip]) h (by rw [hc, hip])
  | some ip =>
    refine wp_allocate .stack h rfl (fun _ => rfl) (by simp [uses]) (by simp [writes])
      (by simp [frees]) (by simp [frees]) (fun g' => herror _ g' (by decide))
      fun r g₁ hstack he₁ h₁ => ?_
    have hstore₁ : g₁.store =
      { g.store with stack := update g.store.stack r.pointer [] } := he₁
    generalize r.pointer = stack at *
    refine wp_allocate .name h₁ rfl (fun _ => rfl) (by simp [uses]) (by simp [writes])
      (by simp [frees]) (by simp [frees]) (fun g' => herror _ g' (by decide))
      fun r g₂ hname he₂ h₂ => ?_
    generalize r.pointer = name at *
    refine wp_call h₂ (by simp [uses, hname]) (by simp [writes]) rfl (fun _ => rfl)
      fun r g₃ he₃ h₃ => ?_
    refine wp_allocate .string h₃ rfl (fun _ => rfl) (by simp [uses]) (by simp [writes])
      (by simp [frees]) (by simp [frees]) (fun g' => herror _ g' (by decide))
      fun r g₄ hstring he₄ h₄ => ?_
    generalize r.pointer = string at *
    cases ip with
    | v6 => exact hleak _ _ _ _ h₄
    | v4 a b c' d =>
      have hstore₄ : g₄.store = { g.store with stack := update g.store.stack stack [] } := by
        rw [show g₄.store = g₃.store from he₄, show g₃.store = g₂.store from he₃,
          show g₂.store = g₁.store from he₂]
        exact hstore₁
      refine wp_require h₄ rfl (fun _ => rfl) (by simp [uses, hstring]) (by simp [writes])
        (by simp [frees]) (by simp [frees]) (fun g' => herror _ g' (by decide))
        fun r g₅ hr₅ he₅ h₅ => ?_
      obtain ⟨l, hstore₅, hl⟩ := he₅
      obtain rfl : l = _ := hl (by simpa [Answer.isNonzero] using hr₅)
      refine wp_ask h₅ (by simp [uses, hname, hstring]) (by simp [writes])
        (fun _ => [⟨.name, name⟩, ⟨.stack, stack⟩, ⟨.certificate, x⟩])
        (fun r => (List.perm_append_singleton ..).symm) fun r g₆ hstore₆ _ h₆ => ?_
      refine wp_check h₆ (by simp [uses, hname, hstack]) (by simp [writes]) ?_
        (by simp [frees]) (by simp [frees]) (fun g' => herror _ g' (by decide))
        (fun _ => [⟨.stack, stack⟩, ⟨.certificate, x⟩]) ?_ fun r g₇ hr₇ he₇ h₇ => ?_
      · intro r hr
        have hr : r.value = 0 := by simpa [Answer.isNonzero] using hr
        simp [gives, allocates, takes, hr]
      · intro r hr
        have hr : r.value ≠ 0 := by simpa [Answer.isNonzero] using hr
        simp only [takes, hr, if_false]
        exact (List.perm_append_singleton ..).symm
      obtain ⟨l, hstore₇, hl⟩ := he₇
      obtain rfl : l = _ := hl (by simpa [Answer.isNonzero] using hr₇)
      refine wp_require h₇ rfl (fun _ => rfl) (by simp [uses, h0, hstack])
        (by simpa [writes] using hx) (by simp [frees]) (by simp [frees])
        (fun g' => herror _ g' (by decide)) fun r g₈ hr₈ he₈ h₈ => ?_
      refine wp_free [⟨.certificate, x⟩] h₈ (by simp [frees])
        (List.perm_append_singleton ..).symm fun g₉ hstore₉ h₉ => ?_
      have hwrites : Writes g₇.store g₈.store x (r.value ≠ 0) fun b =>
        { b with subjectAltName := g₇.store.stack stack } := he₈
      refine hnext g₉ (by simp [hip]) h₉ ?_
      rw [hstore₉, writes_at hwrites (by simpa [Answer.isNonzero] using hr₈), hstore₇, hstore₆,
        hstore₅, hstore₄]
      simp [hc, hip]

/-- The keys and the parent are those of somebody else, unless they have been moved from. -/
structure Given (b : Builder) (rest : Multiset Pointer) (g₀ : Heap M) : Prop where
  subjectKey : b.subjectKey ≠ 0 → ⟨.key, b.subjectKey⟩ ∈ rest ∧
    ∃ m, g₀.store.key b.subjectKey = some m
  signKey : b.signKey ≠ 0 → ⟨.key, b.signKey⟩ ∈ rest ∧ ∃ m, g₀.store.key b.signKey = some m
  parent : ∀ a, b.parentCertificate = some a → a ≠ 0 → ⟨.certificate, a⟩ ∈ rest

/-- A key or a certificate that the builder is given has been moved from. -/
def Builder.MovedFrom (b : Builder) : Prop :=
  b.subjectKey = 0 ∨ b.signKey = 0 ∨ b.parentCertificate = some 0

/-- Without a parent the keys are the same. -/
theorem wp_issuerName {b : Builder} {p : Option ℕ → Code M ℕ} (h : Holds g₀ rest [] g)
    (hb : Given b rest g₀) (habort : b.MovedFrom → ∀ g', Q .aborted g')
    (herror : ∀ e g', e ≠ "Only IPv4 is currently supported" → Holds g₀ rest [] g' →
      Q (.unexpected e) g')
    (hnext : ∀ g', Holds g₀ rest [] g' → (∀ a, b.parentCertificate = some a → a ≠ 0) →
      (b.parentCertificate = none →
        g₀.store.key b.subjectKey = g₀.store.key b.signKey) →
      (p b.parentCertificate).Wp (contract M unchecked) Q g') :
    (b.issuerName p).Wp (contract M unchecked) Q g := by
  unfold Builder.issuerName
  cases hparent : b.parentCertificate with
  | none =>
    refine wp_checkNotNull (fun h0 => habort (.inl h0)) fun hsubject => ?_
    refine wp_checkNotNull (fun h0 => habort (.inr (.inl h0))) fun hsign => ?_
    obtain ⟨hm, m, hkey⟩ := hb.subjectKey hsubject
    obtain ⟨hn, n, hkey'⟩ := hb.signKey hsign
    refine wp_call h (by simp [uses, hsubject, hsign, hm, hn]) (by simp [writes]) rfl
      (fun _ => rfl) fun r g' he h' => ?_
    split
    · exact herror _ g' (by decide) h'
    · next hr =>
      rw [hparent] at hnext
      refine hnext g' h' (by simp) fun _ => ?_
      have hsame := he.2 m n ((h.kept.1 _ hsubject hm).trans hkey)
        ((h.kept.1 _ hsign hn).trans hkey')
      rw [hkey, hkey', not_ne_iff.mp (mt hsame.mpr hr)]
  | some a =>
    refine wp_checkNotNull (fun h0 => habort (.inr (.inr (by rw [hparent, h0])))) fun ha => ?_
    refine wp_require h rfl (fun _ => rfl) (by simp [uses, ha, hb.parent a hparent ha])
      (by simp [writes]) (by simp) (by simp) (fun g' => herror _ g' (by decide))
      fun r g' _ _ h' => ?_
    rw [hparent] at hnext
    refine hnext g' h' ?_ (by simp)
    rintro _ ⟨⟩
    exact ha

/-- A certificate that is built says what the builder says, and the key that it has been given
has signed all of it; otherwise nothing is left behind, but for an address that is not IPv4. -/
theorem wp_build {b : Builder} (h : Holds g₀ rest [] g) (hb : Given b rest g₀)
    (habort : b.MovedFrom → ∀ g', Q .aborted g')
    (herror : ∀ e g', e ≠ "Only IPv4 is currently supported" → Holds g₀ rest [] g' →
      Q (.unexpected e) g')
    (hleak : ∀ string name stack x g', Holds g₀ rest [⟨.string, string⟩, ⟨.name, name⟩,
      ⟨.stack, stack⟩, ⟨.certificate, x⟩] g' →
      Q (.unexpected "Only IPv4 is currently supported") g')
    (hvalue : ∀ x m n hostname g', ¬ b.MovedFrom → b.ip ≠ some .v6 →
      Holds g₀ rest [⟨.certificate, x⟩] g' →
      g₀.store.key b.subjectKey = some m → g₀.store.key b.signKey = some n →
      (b.parentCertificate = none → m = n) → (∀ h, b.hostname = some h → hostname = h) →
      (let body := b.body m
        (b.parentCertificate.map fun a => (g₀.store.certificate a).body.subject) hostname
      g'.store.certificate x = ⟨body, some (n, body)⟩) → Q (.value x) g') :
    (b.Build : Code M ℕ).Wp (contract M unchecked) Q g := by
  unfold Builder.Build
  refine wp_issuerName h hb habort herror fun g₁ h₁ hparent hkeys => ?_
  refine wp_allocate .certificate h₁ rfl (fun _ => rfl) (by simp [uses]) (by simp [writes])
    (by simp) (by simp) (fun g' => herror _ g' (by decide)) fun r g₂ h0 he₂ h₂ => ?_
  have hx : ⟨.certificate, r.pointer⟩ ∉ rest := RSA.Fresh.not_mem he₂.1 h₁ h0
  have hc₂ : g₂.store.certificate r.pointer = {} := by
    rw [he₂.2]
    simp
  generalize r.pointer = x at *
  refine wp_set (·.value = 1) (fun n => { n with version := 2 }) h₂ hx hc₂ rfl (fun _ => rfl)
    (by simp [uses]) rfl (fun _ _ he => he) (by simp [Answer.isOne])
    (fun g' => herror _ g' (by decide)) fun r g₃ h₃ hc₃ => ?_
  refine wp_set (·.value = 1) (fun n => { n with serial := b.serial }) h₃ hx hc₃ rfl
    (fun _ => rfl) (by simp [uses]) rfl (fun _ _ he => he) (by simp [Answer.isOne])
    (fun g' => herror _ g' (by decide)) fun r g₄ h₄ hc₄ => ?_
  refine wp_set (·.pointer ≠ 0) (fun n => { n with notBefore := 0 }) h₄ hx hc₄ rfl (fun _ => rfl)
    (by simp [uses]) rfl (fun _ _ he => he) (by simp [Answer.isPointer])
    (fun g' => herror _ g' (by decide)) fun r g₅ h₅ hc₅ => ?_
  refine wp_set (·.pointer ≠ 0) (fun n => { n with notAfter := 60 * 60 * 24 * b.days }) h₅ hx hc₅
    rfl (fun _ => rfl) (by simp [uses]) rfl (fun _ _ he => he) (by simp [Answer.isPointer])
    (fun g' => herror _ g' (by decide)) fun r g₆ h₆ hc₆ => ?_
  refine wp_checkNotNull (fun h0 => habort (.inl h0)) fun hsubject => ?_
  obtain ⟨hm, m, hkey⟩ := hb.subjectKey hsubject
  refine wp_set (·.value = 1) (fun n => { n with publicKey := g₆.store.key b.subjectKey }) h₆ hx
    hc₆ rfl (fun _ => rfl) (by simp [uses, hsubject, hm]) rfl (fun _ _ he => he)
    (by simp [Answer.isOne]) (fun g' => herror _ g' (by decide)) fun r g₇ h₇ hc₇ => ?_
  rw [(h₆.kept.1 _ hsubject hm).trans hkey] at hc₇
  refine wp_determineHostname h₇ (fun g' => herror _ g' (by decide))
    fun hostname g₈ hstore hhost h₈ => ?_
  rw [← hstore] at hc₇
  refine wp_setName h₈ hx hc₇ herror fun g₉ h₉ hc₉ => ?_
  have hissuer : b.parentCertificate = none ∨ ∃ a, b.parentCertificate = some a ∧ a ≠ 0 ∧
      ⟨.certificate, a⟩ ∈ rest ∧
      g₉.store.certificate a = g₀.store.certificate a := by
    cases hp : b.parentCertificate with
    | none => exact .inl rfl
    | some a =>
      have hm := hb.parent a hp (hparent a hp)
      exact .inr ⟨a, rfl, hparent a hp, hm, h₉.kept.2 a (hparent a hp) hm⟩
  refine wp_set (·.value = 1) (fun n => { n with
      issuer := (g₉.store.certificate (b.parentCertificate.getD x)).body.subject }) h₉ hx hc₉ rfl
    (fun _ => rfl) ?_ rfl (fun _ _ he => he) (by simp [Answer.isOne])
    (fun g' => herror _ g' (by decide)) fun r g₁₀ h₁₀ hc₁₀ => ?_
  · rcases hissuer with hp | ⟨a, hp, ha, hm, -⟩ <;> simp [uses, hp]
    exact .inr ⟨ha, hm⟩
  have hbody : g₁₀.store.certificate x = { body := { b.body m
      (b.parentCertificate.map fun a => (g₀.store.certificate a).body.subject) hostname with
      subjectAltName := [] } } := by
    rw [hc₁₀]
    rcases hissuer with hp | ⟨a, hp, -, -, ha⟩
    · simp [hp, hc₉, Builder.body]
    · simp [hp, ha, Builder.body]
  refine wp_setSubjectAltName h₁₀ hx hbody herror (fun s n k => hleak s n k x)
    fun g₁₁ hip h₁₁ hc₁₁ => ?_
  refine wp_checkNotNull (fun h0 => habort (.inr (.inl h0))) fun hsign => ?_
  obtain ⟨hn, n, hkey'⟩ := hb.signKey hsign
  refine wp_require h₁₁ rfl (fun _ => rfl) (by simp [uses, h0, hsign, hn])
    (by simpa [writes] using hx) (by simp [frees]) (by simp [frees])
    (fun g' => herror _ g' (by decide)) fun r g₁₂ hr he h₁₂ => ?_
  refine wp_checkNotNull (fun hzero => absurd hzero h0) fun _ => ?_
  obtain ⟨c, hstore₁₂, hc⟩ := he
  have hc := hc (by simpa [Answer.isNonzero] using hr) n ((h₁₁.kept.1 _ hsign hn).trans hkey')
  refine hvalue x m n hostname g₁₂ ?_ hip h₁₂ hkey hkey' ?_ hhost ?_
  · rintro (h | h | h)
    · exact hsubject h
    · exact hsign h
    · exact hparent 0 h rfl
  · intro hp
    rw [hkeys hp, hkey'] at hkey
    exact (Option.some.inj hkey).symm
  · rw [hstore₁₂, hc]
    simp only [Function.update_self, hc₁₁, Builder.body]
    rcases b.ip with _ | ⟨⟨⟩ | ⟨⟩⟩ <;> rfl

/-- A copy says what the certificate says, and so does its signature. -/
theorem wp_copy {from_ : ℕ} (h : Holds g₀ rest [] g)
    (hfrom : from_ ≠ 0 → ⟨.certificate, from_⟩ ∈ rest) (habort : ∀ g', Q .aborted g')
    (hvalue : ∀ x g', Holds g₀ rest [⟨.certificate, x⟩] g' →
      g'.store.certificate x = g₀.store.certificate from_ → Q (.value x) g') :
    (Copy from_ : Code M ℕ).Wp (contract M unchecked) Q g := by
  unfold Copy
  refine wp_checkNotNull (fun _ => habort) fun h0 => ?_
  refine wp_ask h (by simp [uses, h0, hfrom h0]) (by simp [writes])
    (fun r => Question.gives (.x509Dup from_) r) (fun r => by simp [takes, frees])
    fun r g' he _ h' => ?_
  refine wp_checkNotNull (fun _ => habort) fun hr => ?_
  rw [Question.gives_of_some rfl hr] at h'
  refine hvalue r.pointer g' h' ?_
  rw [he.2, ← h.kept.2 from_ h0 (hfrom h0)]
  simp

/-- The file is closed, whatever has been read from it. -/
theorem wp_readCertificate {path : String} (h : Holds g₀ rest [] g)
    (herror : ∀ e g', Holds g₀ rest [] g' → Q (.unexpected e) g')
    (hvalue : ∀ x g', Holds g₀ rest [⟨.certificate, x⟩] g' → Q (.value x) g') :
    (ReadCertificate path : Code M ℕ).Wp (contract M unchecked) Q g := by
  unfold ReadCertificate
  refine wp_ask h (by simp [uses]) (by simp [writes])
    (fun r => Question.gives (.fopen (cStr path)) r) (fun r => by simp [takes, frees])
    fun r g₁ _ _ h₁ => ?_
  dsimp only
  split
  · next hr =>
    rw [Question.gives_of_zero hr] at h₁
    exact herror _ g₁ h₁
  · next hr =>
    rw [Question.gives_of_some rfl hr] at h₁
    refine wp_ask h₁ (by simp [uses, hr]) (by simp [writes])
      (fun r' => Question.gives (.pemReadX509 r.pointer) r' ++ [⟨.file, r.pointer⟩]) ?_
      fun r' g₂ _ _ h₂ => ?_
    · intro r'
      rw [show takes _ r' = [] from rfl, List.append_nil]
      exact List.perm_append_comm
    refine wp_free _ h₂ (by simp [frees]) (.refl _) fun g₃ _ h₃ => ?_
    split
    · next hr' =>
      rw [Question.gives_of_zero hr'] at h₃
      exact herror _ g₃ h₃
    · next hr' =>
      rw [Question.gives_of_some rfl hr'] at h₃
      exact wp_checkNotNull (fun h0 => absurd h0 hr') fun _ => hvalue _ g₃ h₃

end Specification

end Eventuals.X509
