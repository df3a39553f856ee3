import Eventuals.OpenSSLRules
import Mathlib.Data.Multiset.Lattice
import Mathlib.Order.Lattice.Nat

/-! An OpenSSL that does what it documents: what it is asked for is at an address that nothing has
had, and every call succeeds but for writing private keys. -/
namespace Eventuals.OpenSSL

open Function (update)

/-- An address behind everything that is owned. -/
def Heap.next (g : Heap ℕ) : ℕ :=
  (g.owned.map Pointer.address).sup + 1

theorem fresh_next (g : Heap ℕ) (k : Kind) : Fresh g ⟨k, g.next⟩ := by
  intro _ hm
  have hle := Multiset.le_sup (Multiset.mem_map_of_mem Pointer.address hm)
  simp only [Heap.next] at hle
  omega

/-- What is answered; the keys that are generated are numbers. -/
def reply (o : Question) (g : Heap ℕ) : Answer :=
  let s := g.store
  match o with
  | .evpPkeyId k => ⟨0, if (s.key k).isSome then evpPkeyRSA else 0, ""⟩
  | .evpPkeyCmp a b => ⟨0, if s.key a = s.key b then 1 else 0, ""⟩
  | .hostName => ⟨0, 0, "localhost"⟩
  | .pemWriteBioPrivateKey _ _ => ⟨0, 0, ""⟩
  | _ => ⟨g.next, 1, ""⟩

/-- A certificate says something else. -/
def Store.write (s : Store ℕ) (x : ℕ) (f : Body ℕ → Body ℕ) : Store ℕ :=
  { s with
    certificate :=
      update s.certificate x { s.certificate x with body := f (s.certificate x).body } }

/-- What is done. -/
def perform (o : Question) (g : Heap ℕ) : Store ℕ :=
  let s := g.store
  let a := g.next
  match o with
  | .evpPkeyNew => { s with key := update s.key a none }
  | .evpPkeyAssignRSA k rsa | .evpPkeySet1RSA k rsa => { s with key := update s.key k (s.rsa rsa) }
  | .evpPkeyGet1RSA k => { s with rsa := update s.rsa a (s.key k) }
  | .rsaNew => { s with rsa := update s.rsa a none }
  | .rsaGenerateKeyEx rsa _ _ => { s with rsa := update s.rsa rsa (some rsa) }
  | .rsaPrivateKeyDup rsa => { s with rsa := update s.rsa a (s.rsa rsa) }
  | .x509New | .pemReadX509 _ => { s with certificate := update s.certificate a {} }
  | .x509Dup x => { s with certificate := update s.certificate a (s.certificate x) }
  | .x509SetVersion x v => s.write x fun b => { b with version := v }
  | .asn1IntegerSet x n => s.write x fun b => { b with serial := n }
  | .x509GmtimeAdjNotBefore x n => s.write x fun b => { b with notBefore := n }
  | .x509GmtimeAdjNotAfter x n => s.write x fun b => { b with notAfter := n }
  | .x509SetPubkey x k => s.write x fun b => { b with publicKey := s.key k }
  | .x509NameAddEntryByTxt x field value =>
    s.write x fun b => { b with subject := b.subject ++ [(field, value)] }
  | .x509SetIssuerName x y =>
    s.write x fun b => { b with issuer := (s.certificate y).body.subject }
  | .x509Add1ExtI2d x stack => s.write x fun b => { b with subjectAltName := s.stack stack }
  | .x509Sign x k =>
    let c := s.certificate x
    let signature := (s.key k).map fun m => (m, c.body)
    { s with certificate := update s.certificate x { c with signature } }
  | .skGeneralNameNewNull => { s with stack := update s.stack a [] }
  | .skGeneralNamePush stack n =>
    { s with stack := update s.stack stack (s.stack stack ++ [s.name n]) }
  | .setIPAddress n str => { s with name := update s.name n (s.string str) }
  | .asn1StringSet str data => { s with string := update s.string str data }
  | _ => s

def reference (o : Question) (g : Heap ℕ) : Answer × Heap ℕ :=
  (reply o g, ⟨g.owned + (o.gives (reply o g) : Multiset Pointer) -
    (o.takes (reply o g) : Multiset Pointer), perform o g⟩)

theorem effect_reference (o : Question) (g : Heap ℕ) : Effect o g (reply o g) (perform o g) := by
  cases o with
  | evpPkeyNew | x509New | x509Dup x => exact ⟨fresh_next g _, rfl⟩
  | pemReadX509 f => exact ⟨fresh_next g _, _, rfl⟩
  | evpPkeyId k =>
    refine ⟨rfl, ?_⟩
    cases hk : g.store.key k <;> simp [reply, evpPkeyRSA, hk]
  | evpPkeyCmp a b =>
    refine ⟨rfl, fun m n hm hn => ?_⟩
    simp [reply, hm, hn]
  | evpPkeyAssignRSA k rsa | evpPkeySet1RSA k rsa =>
    exact ⟨_, rfl, fun _ _ => rfl, fun h => absurd rfl h⟩
  | evpPkeyGet1RSA k => exact ⟨rfl, fun _ => by simp [reply, Heap.next]⟩
  | rsaGenerateKeyEx rsa bits e => exact ⟨_, rfl, fun _ => rfl⟩
  | x509Sign x k =>
    refine ⟨_, rfl, fun _ m hm => ?_⟩
    rw [hm]
    rfl
  | skGeneralNamePush stack n | asn1StringSet str data => exact ⟨_, rfl, fun _ => rfl⟩
  | x509SetVersion x v | asn1IntegerSet x v | x509GmtimeAdjNotBefore x v
  | x509GmtimeAdjNotAfter x v | x509SetPubkey x v | x509SetIssuerName x v
  | x509Add1ExtI2d x v => exact ⟨_, rfl, fun _ => rfl⟩
  | x509NameAddEntryByTxt x field value => exact ⟨_, rfl, fun _ => rfl⟩
  | _ => rfl

/-- At most one thing is taken, and the call needs it. -/
theorem takes_cases (o : Question) (r : Answer) :
    o.takes r = [] ∨ ∃ p ∈ o.uses, o.takes r = [p] := by
  cases o with
  | evpPkeyAssignRSA k rsa =>
    by_cases hr : r.value = 1 <;> simp [Question.takes, Question.uses, hr]
  | skGeneralNamePush stack n =>
    by_cases hr : r.value = 0 <;> simp [Question.takes, Question.uses, hr]
  | rsaFree rsa =>
    by_cases h0 : rsa = 0 <;> simp [Question.takes, Question.frees, Question.uses, h0]
  | _ => simp [Question.takes, Question.frees, Question.uses]

/-- Whatever it may be asked it answers as it documents. -/
theorem answers_reference (o : Question) (g : Heap ℕ)
    (h : (contract ℕ fun _ => false).Proper o g) :
    (contract ℕ fun _ => false).Answers o g (reference o g).1 (reference o g).2 := by
  refine ⟨?_, effect_reference o g, by simp⟩
  refine Multiset.sub_add_cancel ?_
  rcases takes_cases o (reply o g) with ht | ⟨p, hp, ht⟩
  · rw [ht]
    exact Multiset.zero_le _
  · refine le_trans ?_ (Multiset.le_add_right _ _)
    rw [ht]
    exact Multiset.singleton_le.mpr (h p hp).2

end Eventuals.OpenSSL
