import Mathlib.Data.Fintype.Fin
import Alys.Basic.Types
import Alys.Lib.Action

/-!
# Approvals

Model of `app/src/signatures.rs` and of the signing functions of `app/src/block.rs`: individual
approvals, their aggregation over a bit list, and the verification of an aggregate against the
authority list.

The bit list of an aggregate comes from a peer. Two functions read it: `numApprovals` counts all of
its set bits (Rust `num_set_bits`), while `verify` first zips it with the authority list, so that
only the bits below the number of authorities select a key (`selectedKeys`).
-/

namespace Alys
open Lib

/-! ## Bit lists -/

/-- `BitList::get`; `none` is the out-of-bounds error. -/
def BitList.get (l : BitList) (i : Nat) : Option Bool := l.bits[i]?

/-- `BitList::set(i, true)`; `none` is the out-of-bounds error. -/
def BitList.set (l : BitList) (i : Nat) : Option BitList :=
  if i < l.bits.length then some ⟨l.bits.set i true, by simpa using l.length_le⟩ else none

def BitList.numSetBits (l : BitList) : Nat := l.bits.count true

/-- Setting a bit sets that bit and leaves the others. -/
lemma BitList.get_set {l l' : BitList} {i j} (e : l.set i = some l') :
    l'.get j = some true ↔ j = i ∨ l.get j = some true := by
  unfold BitList.set at e
  split at e
  case isTrue lt =>
    cases e
    by_cases eq : i = j
    · subst eq
      simp [BitList.get, lt]
    · simp only [BitList.get, List.getElem?_set_ne eq]
      exact ⟨.inr, fun h => h.resolve_left (Ne.symm eq)⟩
  case isFalse => cases e

lemma BitList.set_length {l l' : BitList} {i} (e : l.set i = some l') :
    l'.bits.length = l.bits.length := by
  unfold BitList.set at e
  split at e
  case isTrue => cases e; simp
  case isFalse => cases e

lemma BitList.numSetBits_eq_card {l : BitList} {S : Finset Nat}
    (h : ∀ j, l.get j = some true ↔ j ∈ S) : l.numSetBits = S.card := by
  have count := Fin.card_filter_univ_eq_vector_get_eq_count true
    (⟨l.bits, rfl⟩ : List.Vector Bool l.bits.length)
  rw [BitList.numSetBits]
  refine count.symm.trans (Finset.card_nbij Fin.val ?_ Fin.val_injective.injOn ?_)
  · intro i hi
    have hi : l.bits[i] = true := (Finset.mem_filter.mp hi).2
    exact (h i).mp (by simpa [BitList.get] using hi)
  · intro j hj
    obtain ⟨lt, hbit⟩ := List.getElem?_eq_some_iff.mp ((h j).mpr hj)
    exact ⟨⟨j, lt⟩, Finset.mem_coe.mpr (Finset.mem_filter.mpr ⟨Finset.mem_univ _, hbit⟩), rfl⟩

/-- The set bits are no more than the members of a set that has their indices. -/
lemma BitList.numSetBits_le_card {l : BitList} {S : Finset Nat}
    (h : ∀ j, l.get j = some true → j ∈ S) : l.numSetBits ≤ S.card := by
  have heq : l.numSetBits = (S.filter fun j => l.get j = some true).card :=
    numSetBits_eq_card fun j => by
      rw [Finset.mem_filter]
      exact ⟨fun hj => ⟨h j hj, hj⟩, And.right⟩
  rw [heq]
  exact Finset.card_filter_le _ _

/-! ## Aggregates -/

/-- The empty aggregate (Rust `AggregateApproval::new`). -/
def AggregateApproval.new (P : Primitives) : AggregateApproval where
  aggregationBits := .new
  aggregateSignature := P.blsEmpty

/-- Adds a checked approval; a repeated authority is ignored (Rust
`AggregateApproval::add_approval`). -/
def AggregateApproval.addApproval (P : Primitives) (a : AggregateApproval)
    (approval : IndividualApproval) : Except Failure AggregateApproval :=
  match a.aggregationBits.get approval.authorityIndex with
  | none => .error (.error .unknownAuthority)
  | some true => .ok a
  | some false =>
    match a.aggregationBits.set approval.authorityIndex with
    | none => .error (.error .unknownAuthority)
    | some bits =>
      .ok ⟨bits, P.blsAddAssign a.aggregateSignature approval.signature⟩

/-- The keys that the set bits select, in order (the `zip` and `filter_map` of Rust
`AggregateApproval::verify`). -/
def AggregateApproval.selectedKeys (a : AggregateApproval) (authorities : List PublicKey) :
    List PublicKey :=
  (a.aggregationBits.bits.zip authorities).filterMap fun (isPresent, pubkey) =>
    if isPresent then some pubkey else none

/-- Verifies the aggregate against the authority list (Rust `AggregateApproval::verify`). -/
def AggregateApproval.verify (P : Primitives) (a : AggregateApproval)
    (authorities : List PublicKey) (data : Hash256) : Bool :=
  P.blsVerifyMultiple a.aggregateSignature (a.selectedKeys authorities) data

def AggregateApproval.numApprovals (a : AggregateApproval) : Nat := a.aggregationBits.numSetBits

def AggregateApproval.isSignedBy (a : AggregateApproval) (authorityIndex : Nat) : Bool :=
  (a.aggregationBits.get authorityIndex).getD false

/-- A selected key is an authority. -/
lemma AggregateApproval.selectedKeys_subset {a : AggregateApproval} {authorities k}
    (mem : k ∈ a.selectedKeys authorities) : k ∈ authorities := by
  obtain ⟨⟨p, k'⟩, hz, e⟩ := List.mem_filterMap.mp mem
  cases p with
  | false => cases e
  | true =>
    cases e
    exact (List.of_mem_zip hz).2

/-- Setting a bit inserts the authority's key among the selected ones. -/
lemma AggregateApproval.selectedKeys_set {a : AggregateApproval} {authorities : List PublicKey}
    {i : Nat} {bits : BitList} {pubkey : PublicKey} (hi : a.aggregationBits.get i = some false)
    (hset : a.aggregationBits.set i = some bits) (hkey : authorities[i]? = some pubkey)
    (signature : Bytes) :
    ∃ before after, a.selectedKeys authorities = before ++ after ∧
      AggregateApproval.selectedKeys ⟨bits, signature⟩ authorities = before ++ pubkey :: after := by
  have hbits : bits.bits = a.aggregationBits.bits.set i true := by
    unfold BitList.set at hset
    split at hset
    case isTrue => cases hset; rfl
    case isFalse => cases hset
  simp only [AggregateApproval.selectedKeys, BitList.get, hbits] at hi ⊢
  generalize a.aggregationBits.bits = l at hi
  clear hset hbits
  induction i generalizing l authorities with
  | zero =>
    cases l with
    | nil => cases hi
    | cons present l =>
      cases authorities with
      | nil => cases hkey
      | cons key authorities =>
        cases hi
        cases hkey
        exact ⟨[], _, rfl, rfl⟩
  | succ i ih =>
    cases l with
    | nil => cases hi
    | cons present l =>
      cases authorities with
      | nil => cases hkey
      | cons key authorities =>
        obtain ⟨before, after, e, e'⟩ := ih hkey l hi
        simp only [List.set_cons_succ, List.zip_cons_cons, List.filterMap_cons, e, e']
        cases present with
        | false => exact ⟨before, after, rfl, rfl⟩
        | true => exact ⟨key :: before, after, rfl, rfl⟩

/-! ## Individual approvals -/

/-- Checks an approval received from a peer (Rust `IndividualApproval::check`). -/
def IndividualApproval.check (P : Primitives) (a : IndividualApproval) (data : Hash256)
    (authorities : List PublicKey) : Except Failure IndividualApproval :=
  match authorities[a.authorityIndex]? with
  | none => .error (.error .unknownAuthority)
  | some pubkey =>
    if P.blsVerify a.signature pubkey data then .ok a else .error (.error .invalidSignature)

/-- A checked approval is the given one. -/
lemma IndividualApproval.check_eq {P a data authorities a'}
    (e : IndividualApproval.check P a data authorities = .ok a') : a' = a := by
  unfold IndividualApproval.check at e
  split at e
  · cases e
  · split at e
    · cases e; rfl
    · cases e

lemma IndividualApproval.check_ok {P a data authorities}
    (e : IndividualApproval.check P a data authorities = .ok a) :
    ∃ pubkey, authorities[a.authorityIndex]? = some pubkey ∧
      P.blsVerify a.signature pubkey data = true := by
  unfold IndividualApproval.check at e
  split at e
  case h_1 => cases e
  case h_2 pubkey hkey =>
    split at e
    case isTrue h => exact ⟨pubkey, hkey, h⟩
    case isFalse => cases e

/-- What adding an approval does: the authority was counted already and nothing changes, or its bit
is set and its signature added. -/
lemma AggregateApproval.addApproval_cases {P a approval a'}
    (e : AggregateApproval.addApproval P a approval = .ok a') :
    (a.aggregationBits.get approval.authorityIndex = some true ∧ a' = a) ∨
    (∃ bits, a.aggregationBits.get approval.authorityIndex = some false ∧
      a.aggregationBits.set approval.authorityIndex = some bits ∧
      a' = ⟨bits, P.blsAddAssign a.aggregateSignature approval.signature⟩) := by
  unfold AggregateApproval.addApproval at e
  split at e
  case h_1 => cases e
  case h_2 h => cases e; exact .inl ⟨h, rfl⟩
  case h_3 h =>
    split at e
    case h_1 => cases e
    case h_2 bits hs => cases e; exact .inr ⟨bits, h, hs, rfl⟩

lemma AggregateApproval.get_addApproval {P a approval a' j}
    (e : AggregateApproval.addApproval P a approval = .ok a') :
    a'.aggregationBits.get j = some true ↔
      j = approval.authorityIndex ∨ a.aggregationBits.get j = some true := by
  obtain ⟨h, rfl⟩ | ⟨bits, _, hs, rfl⟩ := AggregateApproval.addApproval_cases e
  · refine ⟨.inr, ?_⟩
    rintro (rfl | hj)
    · exact h
    · exact hj
  · exact BitList.get_set hs

/-- Adding an approval fails exactly when the bit list is too short for its authority. -/
lemma AggregateApproval.addApproval_ok_iff {P a approval} :
    (∃ a', AggregateApproval.addApproval P a approval = .ok a') ↔
      approval.authorityIndex < a.aggregationBits.bits.length := by
  unfold AggregateApproval.addApproval BitList.get BitList.set
  by_cases lt : approval.authorityIndex < a.aggregationBits.bits.length
  · rw [List.getElem?_eq_getElem lt]
    cases a.aggregationBits.bits[approval.authorityIndex] <;> simp [lt]
  · rw [List.getElem?_eq_none (by omega)]
    simp [lt]

/-! ## Signing -/

/-- The signer of an authority and its place in the authority list (Rust `Authority`). -/
structure Authority where
  signer : Bytes
  index : Nat

/-- The node's own approval of a block (Rust `ConsensusBlock::sign`). -/
def ConsensusBlock.sign (P : Primitives) (b : ConsensusBlock) (authority : Authority) :
    IndividualApproval where
  signature := P.blsSign authority.signer (P.signingRoot b)
  authorityIndex := authority.index

/-- An aggregate of one approval (Rust `CheckedIndividualApproval::into_aggregate`); the `unwrap`
panics when the index is out of range. -/
def IndividualApproval.intoAggregate (P : Primitives) (a : IndividualApproval) :
    Except Failure AggregateApproval :=
  match (AggregateApproval.new P).addApproval P a with
  | .ok aggregate => .ok aggregate
  | .error _ => .error .panic

/-- Signs a block with the proposer's key (Rust `ConsensusBlock::sign_block`). -/
def ConsensusBlock.signBlock (P : Primitives) (b : ConsensusBlock) (authority : Authority) :
    Except Failure SignedConsensusBlock := do
  let approval ← (b.sign P authority).intoAggregate P
  return ⟨b, approval⟩

/-- A signed block has the signer's bit only. -/
lemma ConsensusBlock.signBlock_eq_ok {P authority} {m : ConsensusBlock} {b : SignedConsensusBlock}
    (e : m.signBlock P authority = .ok b) :
    b.message = m ∧ ∀ j, b.signature.aggregationBits.get j = some true → j = authority.index := by
  obtain ⟨approval, h, e⟩ := bind_eq_ok_iff.mp e
  cases e
  unfold IndividualApproval.intoAggregate at h
  split at h
  case h_2 => cases h
  case h_1 aggregate h' =>
    cases h
    refine ⟨rfl, fun j hj => ?_⟩
    rcases (AggregateApproval.get_addApproval h').mp hj with rfl | hj
    · rfl
    · simp [AggregateApproval.new, BitList.new, BitList.get, List.getElem?_replicate] at hj

def SignedConsensusBlock.verifySignature (P : Primitives) (b : SignedConsensusBlock)
    (publicKeys : List PublicKey) : Bool :=
  b.signature.verify P publicKeys (P.signingRoot b.message)

def SignedConsensusBlock.numApprovals (b : SignedConsensusBlock) : Nat := b.signature.numApprovals

def SignedConsensusBlock.addApproval (P : Primitives) (b : SignedConsensusBlock)
    (approval : IndividualApproval) : Except Failure SignedConsensusBlock := do
  let signature ← b.signature.addApproval P approval
  return { b with signature }

/-- Adding an approval to a block changes its signature only. -/
lemma SignedConsensusBlock.addApproval_cases {P approval} {b b' : SignedConsensusBlock}
    (e : b.addApproval P approval = .ok b') :
    ∃ signature, b.signature.addApproval P approval = .ok signature ∧
      b' = { b with signature } := by
  obtain ⟨signature, h, e⟩ := bind_eq_ok_iff.mp e
  exact ⟨signature, h, (Except.ok.inj e).symm⟩

end Alys
