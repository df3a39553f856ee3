import Eventuals.Library.Contract
import Mathlib.Logic.Function.Basic

/-! OpenSSL as `rsa.h` and `x509.h` call it: what each call needs, takes and gives, and what it
documents about the keys and certificates. -/
namespace Eventuals.OpenSSL

open Function (update)
open Resumption (Contract Exchange Owned Ownership Program)

/-- The types of what has to be freed. -/
inductive Kind
  | key
  | rsa
  | bignum
  | bio
  | certificate
  | stack
  | name
  | string
  | file
  deriving DecidableEq, Repr

/-- `nullptr` has the address 0. -/
structure Pointer where
  kind : Kind
  address : ℕ
  deriving DecidableEq, Repr

/-- A pointer, an `int` or a text, by what has been called. -/
structure Answer where
  pointer : ℕ
  value : ℤ
  text : String
  deriving DecidableEq, Repr

/-- The calls, each with the addresses and values that it is given. `setType` and `setIPAddress`
write into a `GENERAL_NAME`. -/
inductive Question
  | evpPkeyNew
  | evpPkeyId (key : ℕ)
  | evpPkeyAssignRSA (key rsa : ℕ)
  | evpPkeyGet1RSA (key : ℕ)
  | evpPkeySet1RSA (key rsa : ℕ)
  | evpPkeyCmp (a b : ℕ)
  | evpPkeyFree (key : ℕ)
  | bnNew
  | bnSetWord (exponent word : ℕ)
  | bnFree (exponent : ℕ)
  | rsaNew
  | rsaGenerateKeyEx (rsa : ℕ) (bits : ℤ) (exponent : ℕ)
  | rsaPrivateKeyDup (rsa : ℕ)
  | rsaFree (rsa : ℕ)
  | errErrorString
  | bioNew
  | pemWriteBioPrivateKey (bio key : ℕ)
  | pemWriteBioX509 (bio x509 : ℕ)
  | bioGetMemPtr (bio : ℕ)
  | bioFree (bio : ℕ)
  | x509New
  | x509Dup (x509 : ℕ)
  | x509SetVersion (x509 : ℕ) (version : ℤ)
  | asn1IntegerSet (x509 : ℕ) (serial : ℤ)
  | x509GmtimeAdjNotBefore (x509 : ℕ) (adj : ℤ)
  | x509GmtimeAdjNotAfter (x509 : ℕ) (adj : ℤ)
  | x509SetPubkey (x509 key : ℕ)
  | hostName
  | x509GetSubjectName (x509 : ℕ)
  | x509NameAddEntryByTxt (x509 : ℕ) (field value : String)
  | x509SetIssuerName (x509 issuer : ℕ)
  | x509Add1ExtI2d (x509 stack : ℕ)
  | x509Sign (x509 key : ℕ)
  | x509Free (x509 : ℕ)
  | skGeneralNameNewNull
  | skGeneralNamePush (stack name : ℕ)
  | skGeneralNamePopFree (stack : ℕ)
  | generalNameNew
  | setType (name : ℕ)
  | setIPAddress (name string : ℕ)
  | generalNameFree (name : ℕ)
  | asn1StringNew
  | asn1StringSet (string : ℕ) (data : List UInt8)
  | asn1StringFree (string : ℕ)
  | fopen (path : String)
  | pemReadX509 (file : ℕ)
  | fclose (file : ℕ)
  deriving DecidableEq

namespace Question

/-- What is used or written. A name belongs to its certificate. -/
def uses : Question → List Pointer
  | evpPkeyNew | bnNew | rsaNew | errErrorString | bioNew | x509New | hostName
  | skGeneralNameNewNull | generalNameNew | asn1StringNew | fopen _ => []
  | evpPkeyId k | evpPkeyGet1RSA k | evpPkeyFree k => [⟨.key, k⟩]
  | evpPkeyAssignRSA k r | evpPkeySet1RSA k r => [⟨.key, k⟩, ⟨.rsa, r⟩]
  | evpPkeyCmp a b => [⟨.key, a⟩, ⟨.key, b⟩]
  | bnSetWord e _ | bnFree e => [⟨.bignum, e⟩]
  | rsaGenerateKeyEx r _ e => [⟨.rsa, r⟩, ⟨.bignum, e⟩]
  | rsaPrivateKeyDup r => [⟨.rsa, r⟩]
  | rsaFree r => if r = 0 then [] else [⟨.rsa, r⟩]
  | pemWriteBioPrivateKey b k => [⟨.bio, b⟩, ⟨.key, k⟩]
  | pemWriteBioX509 b x => [⟨.bio, b⟩, ⟨.certificate, x⟩]
  | bioGetMemPtr b | bioFree b => [⟨.bio, b⟩]
  | x509Dup x | x509SetVersion x _ | asn1IntegerSet x _ | x509GmtimeAdjNotBefore x _
  | x509GmtimeAdjNotAfter x _ | x509GetSubjectName x | x509NameAddEntryByTxt x _ _
  | x509Free x => [⟨.certificate, x⟩]
  | x509SetPubkey x k | x509Sign x k => [⟨.certificate, x⟩, ⟨.key, k⟩]
  | x509SetIssuerName x y => [⟨.certificate, x⟩, ⟨.certificate, y⟩]
  | x509Add1ExtI2d x s => [⟨.certificate, x⟩, ⟨.stack, s⟩]
  | skGeneralNamePush s n => [⟨.stack, s⟩, ⟨.name, n⟩]
  | skGeneralNamePopFree s => [⟨.stack, s⟩]
  | setType n | generalNameFree n => [⟨.name, n⟩]
  | setIPAddress n s => [⟨.name, n⟩, ⟨.string, s⟩]
  | asn1StringSet s _ | asn1StringFree s => [⟨.string, s⟩]
  | pemReadX509 f | fclose f => [⟨.file, f⟩]

/-- What is freed. -/
def frees : Question → List Pointer
  | evpPkeyFree k => [⟨.key, k⟩]
  | bnFree e => [⟨.bignum, e⟩]
  | rsaFree r => if r = 0 then [] else [⟨.rsa, r⟩]
  | bioFree b => [⟨.bio, b⟩]
  | x509Free x => [⟨.certificate, x⟩]
  | skGeneralNamePopFree s => [⟨.stack, s⟩]
  | generalNameFree n => [⟨.name, n⟩]
  | asn1StringFree s => [⟨.string, s⟩]
  | fclose f => [⟨.file, f⟩]
  | _ => []

/-- What is freed or changes its owner. -/
def takes : Question → Answer → List Pointer
  | evpPkeyAssignRSA _ rsa, r => if r.value = 1 then [⟨.rsa, rsa⟩] else []
  | skGeneralNamePush _ n, r => if r.value = 0 then [] else [⟨.name, n⟩]
  | setIPAddress _ s, _ => [⟨.string, s⟩]
  | o, _ => o.frees

/-- What has to be freed, if it is not `nullptr`, by whoever has called. -/
def allocates : Question → Option Kind
  | evpPkeyNew => some .key
  | evpPkeyGet1RSA _ | rsaNew | rsaPrivateKeyDup _ => some .rsa
  | bnNew => some .bignum
  | bioNew => some .bio
  | x509New | x509Dup _ | pemReadX509 _ => some .certificate
  | skGeneralNameNewNull => some .stack
  | generalNameNew => some .name
  | asn1StringNew => some .string
  | fopen _ => some .file
  | _ => none

def gives (o : Question) (r : Answer) : List Pointer :=
  match o.allocates with
  | some k => if r.pointer = 0 then [] else [⟨k, r.pointer⟩]
  | none => []

theorem gives_of_none {o : Question} {r : Answer} (h : o.allocates = none) : o.gives r = [] := by
  simp [gives, h]

theorem gives_of_zero {o : Question} {r : Answer} (h : r.pointer = 0) : o.gives r = [] := by
  unfold gives
  split <;> simp [h]

theorem gives_of_some {o : Question} {r : Answer} {k : Kind} (h : o.allocates = some k)
    (h0 : r.pointer ≠ 0) : o.gives r = [⟨k, r.pointer⟩] := by
  simp [gives, h, h0]

end Question

def ownership : Ownership Question Answer Pointer where
  Valid p := p.address ≠ 0
  uses := Question.uses
  takes := Question.takes
  gives := Question.gives

/-- What `c_str` hands on: the text up to its first zero. -/
def cStr (s : String) : String :=
  .ofList (s.toList.takeWhile fun c => c.toNat != 0)

/-- What is signed. The times are seconds from when the certificate is made. -/
structure Body (M : Type*) where
  version : ℤ := 0
  serial : ℤ := 0
  notBefore : ℤ := 0
  notAfter : ℤ := 0
  publicKey : Option M := none
  subject : List (String × String) := []
  issuer : List (String × String) := []
  subjectAltName : List (List UInt8) := []

/-- The signature names the key and what it has signed. -/
structure Certificate (M : Type*) where
  body : Body M := {}
  signature : Option (M × Body M) := none

/-- What is at each address; a key without an RSA key is `none`. -/
structure Store (M : Type*) where
  key : ℕ → Option M
  rsa : ℕ → Option M
  certificate : ℕ → Certificate M
  string : ℕ → List UInt8
  name : ℕ → List UInt8
  stack : ℕ → List (List UInt8)

abbrev Heap (M : Type*) := Owned Pointer (Store M)

variable {M : Type*}

/-- What is at an address of a certificate changes, and if the call succeeds then like this. -/
def Writes (s t : Store M) (x : ℕ) (ok : Prop) (f : Body M → Body M) : Prop :=
  ∃ c, t = { s with certificate := update s.certificate x c } ∧
    (ok → c = { s.certificate x with body := f (s.certificate x).body })

/-- What is new has not been there. -/
def Fresh (g : Heap M) (p : Pointer) : Prop :=
  p.address ≠ 0 → p ∉ g.owned

def evpPkeyRSA : ℤ := 6

/-- What a call documents to do to what is in keys and certificates. -/
def Effect (o : Question) (g : Heap M) (r : Answer) (t : Store M) : Prop :=
  let s := g.store
  match o with
  | .evpPkeyNew =>
    Fresh g ⟨.key, r.pointer⟩ ∧ t = { s with key := update s.key r.pointer none }
  | .evpPkeyId k => t = s ∧ (r.value = evpPkeyRSA ↔ (s.key k).isSome)
  | .evpPkeyAssignRSA k rsa | .evpPkeySet1RSA k rsa =>
    ∃ m, t = { s with key := update s.key k m } ∧
      (r.value = 1 → (s.rsa rsa).isSome → m = s.rsa rsa) ∧
      (r.value ≠ 1 → m.isSome → m = s.key k)
  | .evpPkeyGet1RSA k =>
    t = { s with rsa := update s.rsa r.pointer (s.key k) } ∧ ((s.key k).isSome → r.pointer ≠ 0)
  | .evpPkeyCmp a b =>
    t = s ∧ ∀ m n, s.key a = some m → s.key b = some n → (r.value = 0 ↔ m ≠ n)
  | .rsaNew => t = { s with rsa := update s.rsa r.pointer none }
  | .rsaGenerateKeyEx rsa _ _ =>
    ∃ m, t = { s with rsa := update s.rsa rsa m } ∧ (r.value = 1 → m.isSome)
  | .rsaPrivateKeyDup rsa => t = { s with rsa := update s.rsa r.pointer (s.rsa rsa) }
  | .x509New =>
    Fresh g ⟨.certificate, r.pointer⟩ ∧
      t = { s with certificate := update s.certificate r.pointer {} }
  | .x509Dup x =>
    Fresh g ⟨.certificate, r.pointer⟩ ∧
      t = { s with certificate := update s.certificate r.pointer (s.certificate x) }
  | .pemReadX509 _ =>
    Fresh g ⟨.certificate, r.pointer⟩ ∧
      ∃ c, t = { s with certificate := update s.certificate r.pointer c }
  | .x509SetVersion x v => Writes s t x (r.value = 1) fun b => { b with version := v }
  | .asn1IntegerSet x n => Writes s t x (r.value = 1) fun b => { b with serial := n }
  | .x509GmtimeAdjNotBefore x n =>
    Writes s t x (r.pointer ≠ 0) fun b => { b with notBefore := n }
  | .x509GmtimeAdjNotAfter x n =>
    Writes s t x (r.pointer ≠ 0) fun b => { b with notAfter := n }
  | .x509SetPubkey x k => Writes s t x (r.value = 1) fun b => { b with publicKey := s.key k }
  | .x509NameAddEntryByTxt x field value =>
    Writes s t x (r.value = 1) fun b => { b with subject := b.subject ++ [(field, value)] }
  | .x509SetIssuerName x y =>
    Writes s t x (r.value = 1) fun b => { b with issuer := (s.certificate y).body.subject }
  | .x509Add1ExtI2d x stack =>
    Writes s t x (r.value ≠ 0) fun b => { b with subjectAltName := s.stack stack }
  | .x509Sign x k =>
    ∃ c, t = { s with certificate := update s.certificate x c } ∧
      (r.value ≠ 0 → ∀ m, s.key k = some m →
        c = { s.certificate x with signature := some (m, (s.certificate x).body) })
  | .skGeneralNameNewNull => t = { s with stack := update s.stack r.pointer [] }
  | .skGeneralNamePush stack n =>
    ∃ l, t = { s with stack := update s.stack stack l } ∧
      (r.value ≠ 0 → l = s.stack stack ++ [s.name n])
  | .setIPAddress n str => t = { s with name := update s.name n (s.string str) }
  | .asn1StringSet str data =>
    ∃ l, t = { s with string := update s.string str l } ∧ (r.value ≠ 0 → l = data)
  | _ => t = s

/-- OpenSSL keeps to what it documents, and does not fail at what is not checked. -/
def contract (M : Type*) (unchecked : Question → Bool) : Contract (Heap M) Question Answer :=
  ownership.contract fun o g r t => Effect o g r t ∧ (unchecked o = true → r.pointer ≠ 0)

/-- How a function ends: with a value, an `unexpected`, or a `CHECK` that fails. -/
inductive Outcome (α : Type*)
  | value (a : α)
  | unexpected (error : String)
  | aborted
  deriving DecidableEq

abbrev Code (M α : Type*) := Program (Heap M) Question Answer (Outcome α)

/-- One call after the other, whatever they answer. -/
def calls {α : Type*} (os : List Question) (p : Program (Heap M) Question Answer α) :
    Program (Heap M) Question Answer α :=
  os.foldr (fun o p => .ask o fun _ => p) p

/-- What has been allocated is freed, and then the function returns. -/
def fail {α : Type*} (frees : List Question) (error : String) : Code M α :=
  calls frees (.done (.unexpected error))

def Answer.isPointer (r : Answer) : Bool := r.pointer != 0

def Answer.isOne (r : Answer) : Bool := r.value == 1

def Answer.isNonzero (r : Answer) : Bool := r.value != 0

/-- If what a call answers is not `ok`, the function frees and returns an error. -/
def check {α : Type*} (o : Question) (ok : Answer → Bool) (frees : List Question)
    (error : String) (p : Answer → Code M α) : Code M α :=
  .ask o fun r => if ok r then p r else fail frees error

/-- `CHECK_NOTNULL` -/
def checkNotNull {α : Type*} (address : ℕ) (p : Code M α) : Code M α :=
  if address = 0 then .done .aborted else p

end Eventuals.OpenSSL
