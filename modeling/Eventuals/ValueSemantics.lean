import Eventuals.X509Certificate
import Mathlib.Data.Multiset.MapFold

/-! What programs do with the values of `rsa::Key` and `x509::Certificate`: they are built, copied,
moved and destroyed like any other values (`rsa.h`, `x509.h`). -/
namespace Eventuals.ValueSemantics

open OpenSSL
open Resumption (Exchange Program)
open Transition (Machine)

variable {M α : Type*}

/-- The classes that own what their `unique_ptr` points to. -/
inductive Class
  | key
  | certificate
  deriving DecidableEq

/-- A value by the address in its `unique_ptr`, which is 0 once it has been moved from. The fields
of a builder are values too. -/
structure Value where
  of : Class
  address : ℕ
  deriving DecidableEq

namespace Value

variable (v : Value)

def pointer : Pointer :=
  match v.of with
  | .key => ⟨.key, v.address⟩
  | .certificate => ⟨.certificate, v.address⟩

def free : Question :=
  match v.of with
  | .key => .evpPkeyFree v.address
  | .certificate => .x509Free v.address

def copy : Code M ℕ :=
  match v.of with
  | .key => RSA.Copy v.address
  | .certificate => X509.Copy v.address

/-- What `copy` allocates and does not check. -/
def uncheckedByCopy : Question → Bool :=
  match v.of with
  | .key => RSA.uncheckedByCopy
  | .certificate => fun _ => false

def encode : Code M String :=
  match v.of with
  | .key => PEM.EncodeKey v.address
  | .certificate => PEM.EncodeCertificate v.address

/-- What is left of a value that has been moved from. -/
def moved : Value := { v with address := 0 }

end Value

/-- The destructors of `unique_ptr`. -/
def destroyAll (vs : List Value) (p : Code M α) : Code M α :=
  calls ((vs.filter (·.address ≠ 0)).map Value.free) p

/-- What a program does with values. Where `that` is `this` it is `none`. -/
inductive Operation
  | buildKey (bits : ℤ) (exponent : ℕ)
  | buildCertificate (b : X509.Builder)
  | readCertificate (path : String)
  | copy (that : Value)
  | move (that : Value)
  | assignCopy (this : Value) (that : Option Value)
  | assignMove (this : Value) (that : Option Value)
  | compare (a b : ℕ)
  | encode (v : Value)
  | destroy (v : Value)

/-- The keys and the parent that a builder has been given. -/
def held (b : X509.Builder) : List Value :=
  [⟨.key, b.subjectKey⟩, ⟨.key, b.signKey⟩] ++
    b.parentCertificate.toList.map fun a => ⟨.certificate, a⟩

/-- Once a function is done its result is taken over by a value, and what that value had is
destroyed. -/
def takeOver (old : List Value) (new : α → List Value) (p : Code M α) : Code M (List Value) :=
  p.bind fun
    | .value a => destroyAll old (.done (.value (new a)))
    | .unexpected error => .done (.unexpected error)
    | .aborted => .done .aborted

namespace Operation

/-- The values that are read or written. -/
def reads : Operation → List Value
  | buildKey _ _ | readCertificate _ => []
  | buildCertificate b => held b
  | copy v | move v | encode v | destroy v => [v]
  | assignCopy this that | assignMove this that => this :: that.toList
  | compare a b => [⟨.key, a⟩, ⟨.key, b⟩]

/-- What is left of them, besides what the operation ends with. -/
def leaves : Operation → List Value
  | buildKey _ _ | readCertificate _ | destroy _ => []
  | buildCertificate b => held b
  | copy v | encode v => [v]
  | move v => [v.moved]
  | assignCopy _ that => that.toList
  | assignMove _ that => that.toList.map Value.moved
  | compare a b => [⟨.key, a⟩, ⟨.key, b⟩]

/-- The values that an operation ends with. `assignMove` of a value to itself does nothing. -/
def program : Operation → Code M (List Value)
  | buildKey bits exponent => takeOver [] (fun k => [⟨.key, k⟩]) (RSA.Build bits exponent)
  | buildCertificate b => takeOver [] (fun x => [⟨.certificate, x⟩]) b.Build
  | readCertificate path =>
    takeOver [] (fun x => [⟨.certificate, x⟩]) (X509.ReadCertificate path)
  | copy v => takeOver [] (fun a => [{ v with address := a }]) v.copy
  | move v => .done (.value [v])
  | assignCopy this that =>
    takeOver [this] (fun a => [{ this with address := a }]) (that.getD this).copy
  | assignMove this (some that) => destroyAll [this] (.done (.value [that]))
  | assignMove this none => .done (.value [this])
  | compare a b => takeOver [] (fun _ => []) (RSA.Equal a b)
  | encode v => takeOver [] (fun _ => []) v.encode
  | destroy v => destroyAll [v] (.done (.value []))

/-- What is allocated and then not checked. -/
def unchecked : Operation → Question → Bool
  | copy v | assignCopy v _ => v.uncheckedByCopy
  | encode _ => PEM.uncheckedByEncode
  | _ => fun _ => false

/-- What an operation forgets to free, by how it ends. -/
def leaks : Operation → Outcome (List Value) → List Kind
  | encode _, .unexpected _ => [.bio]
  | buildCertificate _, .unexpected error =>
    if error = "Only IPv4 is currently supported" then [.string, .name, .stack, .certificate]
    else []
  | _, _ => []

/-- The values that may not have been moved from. -/
def needs : Operation → List Value
  | buildCertificate b => held b
  | copy v | encode v => [v]
  | assignCopy this that => [that.getD this]
  | compare a b => [⟨.key, a⟩, ⟨.key, b⟩]
  | _ => []

def Copies : Operation → Prop
  | copy _ | assignCopy _ _ => True
  | _ => False

/-- Values are assigned to values of their class. -/
def Typed : Operation → Prop
  | assignCopy this that | assignMove this that => ∀ v ∈ that, v.of = this.of
  | _ => True

end Operation

/-- The values of a process, the heap, what has been leaked by whose types, whether a `CHECK` has
failed, and whether OpenSSL has been given something that it may not be given. -/
structure State (M : Type*) where
  values : Multiset Value
  heap : Heap M
  leaks : Multiset Kind
  aborted : Prop
  misused : Prop

/-- An operation, with the values that it does not touch, what it asks and is answered, and how it
ends. -/
structure Label (M : Type*) where
  operation : Operation
  others : Multiset Value
  exchanges : List (Exchange (Heap M) Question Answer)
  outcome : Outcome (List Value)
  heap : Heap M

/-- An allocation has failed that is not checked. -/
def Label.Starved (l : Label M) : Prop :=
  ∃ x ∈ l.exchanges, l.operation.unchecked x.question = true ∧ x.answer.pointer = 0

def made : Outcome (List Value) → List Value
  | .value vs => vs
  | _ => []

/-- OpenSSL, where any allocation may fail. -/
def documented (M : Type*) : Resumption.Contract (Heap M) Question Answer :=
  contract M fun _ => false

def machine (M : Type*) : Machine (State M) (Label M) where
  Initial s := ∃ store, s = ⟨0, ⟨0, store⟩, 0, False, False⟩
  Enabled s l :=
    ¬ s.aborted ∧ ¬ s.misused ∧ l.operation.Typed ∧
      s.values = l.others + (l.operation.reads : Multiset Value) ∧
      l.operation.program.Plays s.heap l.exchanges l.outcome l.heap ∧
      (documented M).Lawful l.exchanges
  next s l :=
    { values := l.others + (l.operation.leaves ++ made l.outcome : List Value)
      heap := l.heap
      leaks := s.leaks + (l.operation.leaks l.outcome : Multiset Kind)
      aborted := l.outcome = .aborted
      misused := ∃ x ∈ l.exchanges, ¬ (documented M).Proper x.question x.before }

/-- What a value is to the program, if it has not been moved from. -/
inductive Content (M : Type*)
  | key (m : Option M)
  | certificate (c : Option (Certificate M))

namespace Content

def Present : Content M → Prop
  | key m => m.isSome
  | certificate c => c.isSome

def moved : Content M → Content M
  | key _ => key none
  | certificate _ => certificate none

end Content

open Operation in
/-- What the operations mean for what the values are, before and after. -/
inductive Means : Operation → List (Content M) → List (Content M) → Prop
  | buildKey {bits : ℤ} {exponent : ℕ} (m : M) : Means (buildKey bits exponent) [] [.key (some m)]
  | noKey {bits : ℤ} {exponent : ℕ} : Means (buildKey bits exponent) [] []
  /-- Without a parent the certificate is signed by its own key. -/
  | selfSigned {b : X509.Builder} (m : M) (hostname : String) (hp : b.parentCertificate = none)
      (hip : b.ip ≠ some .v6) (hh : ∀ h, b.hostname = some h → hostname = h) :
      Means (buildCertificate b) [.key (some m), .key (some m)]
        [.key (some m), .key (some m),
          .certificate (some ⟨b.body m none hostname, some (m, b.body m none hostname)⟩)]
  /-- Whoever the key belongs to that signs, the issuer is the parent. -/
  | signed {b : X509.Builder} (m n : M) (p : Certificate M) (hostname : String)
      (hp : b.parentCertificate.isSome) (hip : b.ip ≠ some .v6)
      (hh : ∀ h, b.hostname = some h → hostname = h) :
      Means (buildCertificate b) [.key (some m), .key (some n), .certificate (some p)]
        [.key (some m), .key (some n), .certificate (some p),
          .certificate (some ⟨b.body m (some p.body.subject) hostname,
            some (n, b.body m (some p.body.subject) hostname)⟩)]
  | notBuilt {b : X509.Builder} (xs : List (Content M)) : Means (buildCertificate b) xs xs
  | readCertificate {path : String} (c : Certificate M) :
      Means (readCertificate path) [] [.certificate (some c)]
  | notRead {path : String} : Means (readCertificate path) [] []
  | copy {v : Value} (x : Content M) (hx : x.Present) : Means (copy v) [x] [x, x]
  | move {v : Value} (x : Content M) : Means (move v) [x] [x.moved, x]
  | assignCopy {v w : Value} (x y : Content M) (hx : x.Present) :
      Means (assignCopy v (some w)) [y, x] [x, x]
  | assignCopySelf {v : Value} (x : Content M) (hx : x.Present) :
      Means (assignCopy v none) [x] [x]
  | assignMove {v w : Value} (x y : Content M) : Means (assignMove v (some w)) [y, x] [x.moved, x]
  | assignMoveSelf {v : Value} (x : Content M) : Means (assignMove v none) [x] [x]
  | compare {a b : ℕ} (m n : M) :
      Means (compare a b) [.key (some m), .key (some n)] [.key (some m), .key (some n)]
  | encode {v : Value} (x : Content M) (hx : x.Present) : Means (encode v) [x] [x]
  | destroy {v : Value} (x : Content M) : Means (destroy v) [x] []

/-- A step of values that are no pointers: what is read is replaced and the rest is left. -/
structure Change (M : Type*) where
  operation : Operation
  others : Multiset (Content M)
  before : List (Content M)
  after : List (Content M)

/-- The machine that programs can think of. -/
def values (M : Type*) : Machine (Multiset (Content M)) (Change M) where
  Initial s := s = 0
  Enabled s c :=
    s = c.others + (c.before : Multiset (Content M)) ∧ Means c.operation c.before c.after
  next _ c := c.others + (c.after : Multiset (Content M))

/-- What a value points to. -/
def content (s : Store M) (v : Value) : Content M :=
  match v.of with
  | .key => .key (if v.address = 0 then none else s.key v.address)
  | .certificate => .certificate (if v.address = 0 then none else some (s.certificate v.address))

def State.contents (s : State M) : Multiset (Content M) := s.values.map (content s.heap.store)

end Eventuals.ValueSemantics
