import Alys.Candidate.Cache

/-!
# Coherence of the candidate cache

An approval is a signature of one block's root, but `add_approval` finds the candidate to add it to
by way of a height: it looks up the height of the root and adds the approval to whatever block is
kept there (while the node is synced it does not compare the roots). That the right block is kept
there is an invariant of the cache as a whole, `Coherent`: above the placeholder height 0 there are
only blocks, a hash that is filed under such a height is the root of the block there, and at height
0 there are only queues.

`Coherent` carries a relation `S` between roots and authorities along: every set bit of a kept block
is that of an authority related to the block's root. So if the inserted blocks and the added
approvals are signed by whom they say, then so are the candidates at all times.
-/

namespace Alys
open Lib

variable {P : Primitives} {S : Hash256 → Nat → Prop}

/-- Every authority whose bit is set is related to the block's root. -/
def SignedConsensusBlock.SignedBy (P : Primitives) (S : Hash256 → Nat → Prop)
    (b : SignedConsensusBlock) : Prop :=
  ∀ j, b.signature.aggregationBits.get j = some true → S (b.canonicalRoot P) j

/-- Adding an approval of a related authority. -/
lemma SignedConsensusBlock.SignedBy.addApproval {b b' : SignedConsensusBlock} {approval}
    (h : b.SignedBy P S) (hS : S (b.canonicalRoot P) approval.authorityIndex)
    (e : b.addApproval P approval = .ok b') : b'.SignedBy P S := by
  obtain ⟨signature, hadd, rfl⟩ := SignedConsensusBlock.addApproval_cases e
  intro j hj
  rcases (AggregateApproval.get_addApproval hadd).mp hj with rfl | hj
  · exact hS
  · exact h j hj

namespace BlockCandidateCache

/-- Above height 0 there are blocks, each filed under its root and signed by related authorities,
and at height 0 there are queues. -/
structure Coherent (P : Primitives) (S : Hash256 → Nat → Prop) (c : BlockCandidateCache) :
    Prop where
  block : ∀ {height state}, height ≠ 0 → c.candidatesByHeight.lookup height = some state →
    ∃ b, state = .checkedBlock b ∧ b.SignedBy P S
  queue : ∀ {state}, c.candidatesByHeight.lookup 0 = some state →
    ∃ approvals, state = .queuedApprovals approvals
  filed : ∀ {hash height}, height ≠ 0 → c.hashToHeight.lookup hash = some height →
    ∃ b, c.candidatesByHeight.lookup height = some (.checkedBlock b) ∧ b.canonicalRoot P = hash

lemma coherent_empty : empty.Coherent P S := ⟨nofun, nofun, nofun⟩

namespace Coherent

variable {c : BlockCandidateCache} {b : SignedConsensusBlock} {hashes : Map Hash256 Nat}

section

variable (h : c.Coherent P S)

include h

/-- The relation may grow. -/
lemma mono {S' : Hash256 → Nat → Prop} (sub : ∀ root j, S root j → S' root j) :
    c.Coherent P S' where
  block := by
    intro height state hz e
    obtain ⟨b, rfl, hb⟩ := h.block hz e
    exact ⟨b, rfl, fun j hj => sub _ j (hb j hj)⟩
  queue := h.queue
  filed := h.filed

lemma getBlock {hash b} (e : c.getBlock hash = some b) : b.SignedBy P S := by
  obtain ⟨height, e⟩ := getBlock_caches e
  by_cases hz : height = 0
  · subst hz
    obtain ⟨_, e'⟩ := h.queue e
    cases e'
  · obtain ⟨b', e', hb⟩ := h.block hz e
    cases e'
    exact hb

/-- A block is put at a height under its root, once the root of the block that was there is gone. -/
lemma put {height : Nat} (hz : height ≠ 0) (hb : b.SignedBy P S)
    (hashes_sub : ∀ {hash}, hashes.lookup hash = some height → hash = b.canonicalRoot P)
    (hashes_old : ∀ {hash height'}, height' ≠ height → hashes.lookup hash = some height' →
      c.hashToHeight.lookup hash = some height') :
    Coherent P S ⟨c.candidatesByHeight.insert height (.checkedBlock b), hashes⟩ where
  block := by
    intro height' state hz' e
    rcases lookup_insert_eq_some.mp e with ⟨_, eq⟩ | ⟨_, e⟩
    · exact ⟨b, eq, hb⟩
    · exact h.block hz' e
  queue := by
    intro state e
    rw [Finmap.lookup_insert_of_ne _ hz.symm] at e
    exact h.queue e
  filed := by
    intro hash height' hz' e
    by_cases eq : height' = height
    · subst eq
      exact ⟨b, Finmap.lookup_insert _, (hashes_sub e).symm⟩
    · rw [Finmap.lookup_insert_of_ne _ eq]
      exact h.filed hz' (hashes_old eq e)

/-- A block is put at a height and filed under its root, in a map in which no other hash has that
height. -/
lemma file {height : Nat} (hz : height ≠ 0) (hb : b.SignedBy P S)
    (free : ∀ {hash}, hashes.lookup hash ≠ some height)
    (old : ∀ {hash height'}, hashes.lookup hash = some height' →
      c.hashToHeight.lookup hash = some height') :
    Coherent P S ⟨c.candidatesByHeight.insert height (.checkedBlock b),
      hashes.insert (b.canonicalRoot P) height⟩ := by
  refine h.put hz hb (fun {hash} e => ?_) (fun {hash height'} ne e => ?_)
  · by_contra neg
    rw [Finmap.lookup_insert_of_ne _ neg] at e
    exact free e
  · rcases lookup_insert_eq_some.mp e with ⟨_, e⟩ | ⟨_, e⟩
    · exact absurd e ne
    · exact old e

/-- A block whose approvals are signed. -/
lemma insert {isSyncing : Bool} (hz : b.number ≠ 0) (hb : b.SignedBy P S) :
    (BlockCandidateCache.insert P b isSyncing c).2.Coherent P S := by
  cases hs : c.candidatesByHeight.lookup b.number with
  | none =>
    simp only [BlockCandidateCache.insert, hs]
    refine h.file hz hb (fun {hash} e => ?_) id
    obtain ⟨_, e', _⟩ := h.filed hz e
    rw [hs] at e'
    cases e'
  | some state =>
    obtain ⟨existing, rfl, _⟩ := h.block hz hs
    simp only [BlockCandidateCache.insert, hs, CandidateState.getBlock]
    split
    case isFalse => exact h
    case isTrue =>
      refine h.file hz hb (fun {hash} e => ?_) fun e => (lookup_erase_eq_some.mp e).2
      -- only the root of the replaced block was filed under this height
      obtain ⟨ne, e⟩ := lookup_erase_eq_some.mp e
      obtain ⟨_, e', hroot⟩ := h.filed hz e
      rw [hs] at e'
      cases e'
      exact ne hroot.symm

lemma putQueue {approvals} (old : ∀ {hash height}, height ≠ 0 → hashes.lookup hash = some height →
      c.hashToHeight.lookup hash = some height) :
    Coherent P S ⟨c.candidatesByHeight.insert 0 (.queuedApprovals approvals), hashes⟩ where
  block := by
    intro height state hz e
    rw [Finmap.lookup_insert_of_ne _ hz] at e
    exact h.block hz e
  queue := by
    intro state e
    rw [Finmap.lookup_insert, Option.some.injEq] at e
    exact ⟨approvals, e.symm⟩
  filed := by
    intro hash height hz e
    rw [Finmap.lookup_insert_of_ne _ hz]
    exact h.filed hz (old hz e)

end

end Coherent

end BlockCandidateCache

/-- An approval that arrives at a block leaves the block, with the approval added or not. -/
lemma CandidateState.addUncheckedApproval_block {approval authorities} (b : SignedConsensusBlock) :
    ∃ b', ((CandidateState.checkedBlock b).addUncheckedApproval P approval authorities).2 =
      .checkedBlock b' ∧ (b' = b ∨ b.addApproval P approval.signature = .ok b') := by
  simp only [addUncheckedApproval, Action.bind_apply, Action.lift_apply]
  cases h : approval.signature.check P approval.blockHash authorities with
  | error e => exact ⟨b, rfl, .inl rfl⟩
  | ok approval' =>
    cases IndividualApproval.check_eq h
    simp only [addCheckedApproval]
    cases h' : b.addApproval P approval.signature with
    | error e => exact ⟨b, rfl, .inl rfl⟩
    | ok b' => exact ⟨b', rfl, .inr rfl⟩

lemma CandidateState.addUncheckedApproval_queue {approval authorities}
    (queue : List IndividualApproval) :
    ∃ queue', (addUncheckedApproval P approval authorities (.queuedApprovals queue)).2 =
      .queuedApprovals queue' := by
  cases h : (addUncheckedApproval P approval authorities (.queuedApprovals queue)).2 with
  | queuedApprovals queue' => exact ⟨queue', rfl⟩
  | checkedBlock b =>
    obtain ⟨_, e, _⟩ := addUncheckedApproval_getBlock h
    cases e

namespace BlockCandidateCache.Coherent

variable {c : BlockCandidateCache}

lemma parkApproval {approval authorities} (h : c.Coherent P S) :
    (BlockCandidateCache.parkApproval P approval authorities c).2.Coherent P S := by
  unfold BlockCandidateCache.parkApproval
  split
  case h_2 => exact h
  case h_1 _ state e =>
    obtain ⟨queue, e'⟩ := @CandidateState.addUncheckedApproval_queue P approval authorities []
    cases (congrArg Prod.snd e).symm.trans e'
    refine h.putQueue fun {hash height} hz e => ?_
    rcases lookup_insert_eq_some.mp e with ⟨_, e⟩ | ⟨_, e⟩
    · exact absurd e hz
    · exact e

/-- An approval of a block that its authority signed. -/
lemma addApproval {approval authorities isSyncing} (h : c.Coherent P S)
    (hS : S approval.blockHash approval.signature.authorityIndex) :
    (BlockCandidateCache.addApproval P approval authorities isSyncing c).2.Coherent P S := by
  unfold BlockCandidateCache.addApproval
  split
  case h_2 => exact h.parkApproval
  case h_1 height hheight =>
    by_cases hz : height = 0
    · subst hz
      split
      case h_2 => exact h.parkApproval
      case h_1 state hs =>
        obtain ⟨queue, rfl⟩ := h.queue hs
        obtain ⟨queue', e⟩ :=
          @CandidateState.addUncheckedApproval_queue P approval authorities queue
        simp only [CandidateState.getBlock, addApprovalAt, e]
        exact h.putQueue fun _ e => e
    · -- the block at that height is the approved one
      obtain ⟨b, hs, hroot⟩ := h.filed hz hheight
      obtain ⟨_, e, hb⟩ := h.block hz hs
      cases e
      simp only [hs, CandidateState.getBlock, hroot, ne_eq, not_true_eq_false, false_and, if_false,
        addApprovalAt]
      obtain ⟨b', e, h'⟩ := @CandidateState.addUncheckedApproval_block P approval authorities b
      have hroot' : b'.canonicalRoot P = approval.blockHash ∧ b'.SignedBy P S := by
        rcases h' with rfl | hadd
        · exact ⟨hroot, hb⟩
        · refine ⟨?_, hb.addApproval (hroot ▸ hS) hadd⟩
          obtain ⟨_, _, rfl⟩ := SignedConsensusBlock.addApproval_cases hadd
          exact hroot
      rw [e]
      refine h.put hz hroot'.2 (fun {hash} e => ?_) fun _ e => e
      obtain ⟨_, e', hroot₂⟩ := h.filed hz e
      rw [hs] at e'
      cases e'
      rw [hroot'.1, ← hroot₂, hroot]

end BlockCandidateCache.Coherent

end Alys
