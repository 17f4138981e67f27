import Alys.Aura.Signatures
import Mathlib.Algebra.Order.Floor.Div
import Mathlib.Data.Finset.Card
import Mathlib.GroupTheory.GroupAction.Ring

/-!
# Aura

Model of `app/src/aura.rs`: the slot arithmetic, the signature check of an incoming block
(`check_signed_by_author`) and the two-thirds majority of its approvals (`majority_approved`).

The slot worker is in `Aura.Worker`. `checkSlot` names the part of `check_signed_by_author` that
comes before the signature: the drift of the slot against the payload's timestamp and the lookup of
the slot's author, whose result the source discards.

`majorityApproved_sound_iff` says for which blocks an accepted majority is one: the count reads all
set bits of the peer's bit list while the verification reads those below the number of authorities,
so the two agree on a quorum only when the bits in range are enough.
-/

namespace Alys

/-! ## Slots -/

/-- `slot_from_timestamp`; the division panics for a slot duration of zero. -/
def slotFromTimestamp (timestamp slotDuration : Nat) : Except Failure Nat :=
  if slotDuration = 0 then .error .panic else .ok (timestamp / slotDuration)

/-- The author of a slot and its index, cast to `u8` (Rust `slot_author`). -/
def slotAuthor (slot : Nat) (authorities : List PublicKey) : Option (Nat × PublicKey) :=
  authorities[slot % authorities.length]?.map fun author =>
    (slot % authorities.length % 256, author)

structure Aura where
  authorities : List PublicKey
  slotDuration : Nat
  authority : Option Authority

/-- The signer's place is its first position in the authority list, cast to `u8`; a signer that is
not listed is a panic (Rust `Aura::new`). A signer is its public and its secret key. -/
def Aura.new (authorities : List PublicKey) (slotDuration : Nat)
    (maybeSigner : Option (PublicKey × Bytes)) : Except Failure Aura :=
  match maybeSigner with
  | none => .ok ⟨authorities, slotDuration, none⟩
  | some (pk, sk) =>
    match authorities.findIdx? (pk = ·) with
    | none => .error .panic
    | some index => .ok ⟨authorities, slotDuration, some ⟨sk, index % 256⟩⟩

/-- The checks of `check_signed_by_author` that come before the signature. -/
def Aura.checkSlot (A : Aura) (b : SignedConsensusBlock) : Except Failure Unit := do
  let timestamp := b.message.executionPayload.timestamp * 1000 % 2 ^ 64
  let slot := b.message.slot
  let slotNow ← slotFromTimestamp timestamp A.slotDuration
  let slotWith3000Duration ← slotFromTimestamp timestamp 3000
  let drift ← checkedU64 (slotNow + 1)
  if drift < slot ∧ slotWith3000Duration + 1 < slot then
    .error (.error (.auraError .slotIsInFuture))
  else if (slotAuthor slot A.authorities).isNone then
    .error (.error (.auraError .slotAuthorNotFound))
  else
    .ok ()

def Aura.checkSignedByAuthor (P : Primitives) (A : Aura) (b : SignedConsensusBlock) :
    Except Failure Unit := do
  A.checkSlot b
  if b.verifySignature P A.authorities then
    .ok ()
  else
    .error (.error (.auraError .badSignature))

/-- `((authorities.len() * 2) + 2) / 3`. -/
def requiredSignatures (n : Nat) : Nat := (n * 2 + 2) / 3

def Aura.majorityApproved (P : Primitives) (A : Aura) (b : SignedConsensusBlock) :
    Except Failure Bool := do
  A.checkSignedByAuthor P b
  if b.numApprovals < requiredSignatures A.authorities.length then
    .ok false
  else if b.verifySignature P A.authorities then
    .ok true
  else
    .error (.error (.auraError .badSignature))

/-- The required number is two thirds, rounded up. -/
lemma requiredSignatures_eq_ceilDiv (n : Nat) : requiredSignatures n = (2 * n) ⌈/⌉ 3 := by
  rw [Nat.ceilDiv_eq_add_pred_div, requiredSignatures]
  omega

/-! ## Majorities -/

variable {b : SignedConsensusBlock}

lemma Aura.checkSignedByAuthor_ok_iff {P} {A : Aura} :
    A.checkSignedByAuthor P b = .ok () ↔
      A.checkSlot b = .ok () ∧ b.verifySignature P A.authorities = true := by
  unfold Aura.checkSignedByAuthor
  cases A.checkSlot b with
  | error e => simp [bind, Except.bind]
  | ok u => cases h : b.verifySignature P A.authorities <;> simp [bind, Except.bind]

/-- What a majority is. -/
lemma Aura.majorityApproved_true_iff {P} {A : Aura} :
    A.majorityApproved P b = .ok true ↔
      A.checkSlot b = .ok () ∧ b.verifySignature P A.authorities = true ∧
        requiredSignatures A.authorities.length ≤ b.numApprovals := by
  unfold Aura.majorityApproved
  cases h : A.checkSignedByAuthor P b with
  | error e =>
    have neg := mt Aura.checkSignedByAuthor_ok_iff.mpr (by rw [h]; exact nofun)
    simp only [bind, Except.bind]
    exact ⟨nofun, fun ⟨hs, hv, _⟩ => absurd ⟨hs, hv⟩ neg⟩
  | ok u =>
    obtain ⟨hs, hv⟩ := Aura.checkSignedByAuthor_ok_iff.mp h
    simp only [bind, Except.bind, hs, hv, true_and, if_true]
    split
    case isTrue lt => exact ⟨nofun, fun le => absurd lt (by omega)⟩
    case isFalse ge => exact ⟨fun _ => by omega, fun _ => rfl⟩

/-- What is assumed of the verification of an aggregate signature: it succeeds only if every listed
key signed the message, and it rejects an empty list of keys. -/
structure AggregateSound (verify : Bytes → List PublicKey → Hash256 → Bool)
    (signed : PublicKey → Hash256 → Prop) : Prop where
  all_signed : ∀ sig keys data, verify sig keys data = true → ∀ k ∈ keys, signed k data
  nonempty : ∀ sig data, verify sig [] data = false

/-- At least two thirds of the authorities, as distinct keys, signed the message. -/
def QuorumSigned (authorities : List PublicKey) (signed : PublicKey → Hash256 → Prop)
    (data : Hash256) : Prop :=
  ∃ S : Finset PublicKey, (∀ k ∈ S, k ∈ authorities ∧ signed k data) ∧
    (2 * authorities.length) ⌈/⌉ 3 ≤ S.card

/-- An accepted majority of a block is a quorum of signers, whatever the BLS library is. -/
def MajoritySound (P : Primitives) (A : Aura) (b : SignedConsensusBlock) : Prop :=
  ∀ verify signed, AggregateSound verify signed →
    A.majorityApproved { P with blsVerifyMultiple := verify } b = .ok true →
    QuorumSigned A.authorities signed (b.canonicalRoot P)

/-- The selected keys signed, so a quorum among them is one among the authorities. -/
lemma QuorumSigned.of_selectedKeys {authorities signed data} {a : AggregateApproval}
    (hs : ∀ k ∈ a.selectedKeys authorities, signed k data)
    (le : requiredSignatures authorities.length ≤ (a.selectedKeys authorities).toFinset.card) :
    QuorumSigned authorities signed data := by
  refine ⟨(a.selectedKeys authorities).toFinset, ?_, ?_⟩
  · intro k mem
    have mem := List.mem_toFinset.mp mem
    exact ⟨AggregateApproval.selectedKeys_subset mem, hs k mem⟩
  · rwa [← requiredSignatures_eq_ceilDiv]

/-- The library that accepts exactly the non-empty lists of the given keys, which all signed. -/
lemma AggregateSound.of_keys (keys : List PublicKey) :
    AggregateSound (fun _ ks _ => !ks.isEmpty && ks.all (· ∈ keys)) (fun k _ => k ∈ keys) where
  all_signed := by
    intro _ ks _ hv k mem
    have hall := (Bool.and_eq_true_iff.mp hv).2
    exact of_decide_eq_true (List.all_eq_true.mp hall k mem)
  nonempty := fun _ _ => rfl

/-- An accepted majority is a quorum of signers exactly when the block is rejected for its slot, has
too few set bits in all, selects no key at all, or selects a quorum of distinct keys. -/
theorem Aura.majorityApproved_sound_iff (P : Primitives) (A : Aura) (b : SignedConsensusBlock) :
    MajoritySound P A b ↔
      A.checkSlot b ≠ .ok () ∨
      b.numApprovals < requiredSignatures A.authorities.length ∨
      b.signature.selectedKeys A.authorities = [] ∨
      requiredSignatures A.authorities.length ≤
        (b.signature.selectedKeys A.authorities).toFinset.card := by
  constructor
  · -- the library of `of_keys` accepts the block, and only the selected keys signed it
    intro sound
    by_contra neg
    simp only [not_or, not_not, not_lt, not_le] at neg
    obtain ⟨hslot, hnum, hne, hlt⟩ := neg
    have hs := AggregateSound.of_keys (b.signature.selectedKeys A.authorities)
    obtain ⟨S, hS, hcard⟩ := sound _ _ hs <| by
      rw [Aura.majorityApproved_true_iff]
      refine ⟨hslot, ?_, hnum⟩
      simp [SignedConsensusBlock.verifySignature, AggregateApproval.verify, hne]
    rw [← requiredSignatures_eq_ceilDiv] at hcard
    have hsub : S ⊆ (b.signature.selectedKeys A.authorities).toFinset := by
      intro k mem
      exact List.mem_toFinset.mpr (hS k mem).2
    have := Finset.card_le_card hsub
    omega
  · intro h verify signed hs hmaj
    obtain ⟨hslot, hver, hnum⟩ := Aura.majorityApproved_true_iff.mp hmaj
    have hsel := hs.all_signed _ _ _ hver
    rcases h with h | h | h | h
    · exact absurd hslot h
    · exact absurd hnum (by omega)
    · have hver : verify _ (b.signature.selectedKeys A.authorities) _ = true := hver
      rw [h, hs.nonempty] at hver
      cases hver
    · exact .of_selectedKeys hsel h

/-- Three authorities, of which two are required. A peer sets the bits 0 and 3 of a block at slot 0:
only the first authority's key is verified, yet two approvals are counted. -/
theorem Aura.majorityApproved_unsound :
    ¬ ∀ (P : Primitives) (A : Aura) (b : SignedConsensusBlock),
      A.authorities.length ≤ maxValidators → MajoritySound P A b := by
  intro sound
  let A : Aura := ⟨[[10], [11], [12]], 2000, none⟩
  let b : SignedConsensusBlock :=
    { SignedConsensusBlock.toy 1 0 with signature := ⟨⟨[true, false, false, true], by decide⟩, []⟩ }
  obtain ⟨S, hS, hcard⟩ :=
    sound .toy A b (by decide) _ _ (AggregateSound.of_keys [[10]]) (by decide)
  have hsub : S ⊆ {[10]} := by
    intro k mem
    exact Finset.mem_singleton.mpr (List.mem_singleton.mp (hS k mem).2)
  have hle := Finset.card_le_card hsub
  rw [← requiredSignatures_eq_ceilDiv] at hcard
  exact absurd (hcard.trans hle) (by decide)

end Alys
