import Alys.Candidate.Coherence
import Alys.Lib.Run

/-!
# The representation invariant of the candidate cache

What holds of the cache after any sequence of its operations, `remove` and `clear` included: on top
of `Coherent`, a block is kept at the height of its number and its aggregate approval verifies for
its own root. An approval is checked against the root that it names, and the block that it is added
to is the one with that root, so that the aggregate signature of a block never takes in a signature
of another root.
-/

namespace Alys
open Lib

/-- What is assumed of BLS: a valid signature of a further key can be added to an aggregate. -/
def BlsAggregates (P : Primitives) : Prop :=
  ∀ aggregate signature before pubkey after data,
    P.blsVerifyMultiple aggregate (before ++ after) data = true →
    P.blsVerify signature pubkey data = true →
    P.blsVerifyMultiple (P.blsAddAssign aggregate signature) (before ++ pubkey :: after) data = true

/-- A checked approval of a block's root keeps the block's aggregate valid. -/
lemma SignedConsensusBlock.verifySignature_addApproval {P approval authorities}
    {b b' : SignedConsensusBlock} (hbls : BlsAggregates P)
    (hcheck : IndividualApproval.check P approval (b.canonicalRoot P) authorities = .ok approval)
    (hadd : b.addApproval P approval = .ok b') (h : b.verifySignature P authorities = true) :
    b'.verifySignature P authorities = true := by
  obtain ⟨signature, e, rfl⟩ := SignedConsensusBlock.addApproval_cases hadd
  obtain ⟨_, rfl⟩ | ⟨bits, hfalse, hset, rfl⟩ := AggregateApproval.addApproval_cases e
  · exact h
  · obtain ⟨pubkey, hkey, hvalid⟩ := IndividualApproval.check_ok hcheck
    obtain ⟨before, after, e₁, e₂⟩ := AggregateApproval.selectedKeys_set hfalse hset hkey
      (P.blsAddAssign b.signature.aggregateSignature approval.signature)
    simp only [verifySignature, AggregateApproval.verify, e₁, e₂] at h ⊢
    exact hbls _ _ _ _ _ _ h hvalid

namespace BlockCandidateCache

variable {P : Primitives} {S : Hash256 → Nat → Prop} {c : BlockCandidateCache}
  {b : SignedConsensusBlock} {authorities : List PublicKey}

lemma lookup_put {height height' state blk} {hashes : Map Hash256 Nat}
    (e : (BlockCandidateCache.mk (c.candidatesByHeight.insert height state)
      hashes).candidatesByHeight.lookup height' = some (.checkedBlock blk)) :
    c.candidatesByHeight.lookup height' = some (.checkedBlock blk) ∨
      height' = height ∧ state = .checkedBlock blk := by
  rcases lookup_insert_eq_some.mp e with ⟨eq, e⟩ | ⟨_, e⟩
  · exact .inr ⟨eq, e.symm⟩
  · exact .inl e

/-- The candidates after a block was inserted: those before, and the block at its height. -/
lemma lookup_insert_cases {isSyncing height blk} (h : c.Coherent P S) (hz : b.number ≠ 0)
    (e : (insert P b isSyncing c).2.candidatesByHeight.lookup height = some (.checkedBlock blk)) :
    c.candidatesByHeight.lookup height = some (.checkedBlock blk) ∨
      height = b.number ∧ blk = b := by
  have hput : ∀ {hashes : Map Hash256 Nat},
      (BlockCandidateCache.mk (c.candidatesByHeight.insert b.number (.checkedBlock b))
        hashes).candidatesByHeight.lookup height = some (.checkedBlock blk) →
      c.candidatesByHeight.lookup height = some (.checkedBlock blk) ∨
        height = b.number ∧ blk = b := by
    intro hashes e
    rcases lookup_put e with e | ⟨eq, e⟩
    · exact .inl e
    · cases e
      exact .inr ⟨eq, rfl⟩
  cases hs : c.candidatesByHeight.lookup b.number with
  | none =>
    simp only [insert, hs] at e
    exact hput e
  | some state =>
    obtain ⟨existing, rfl, _⟩ := h.block hz hs
    simp only [insert, hs, CandidateState.getBlock] at e
    split at e
    case isTrue => exact hput e
    case isFalse => exact .inl e

lemma lookup_parkApproval {approval height blk}
    (e : (parkApproval P approval authorities c).2.candidatesByHeight.lookup height =
      some (.checkedBlock blk)) :
    c.candidatesByHeight.lookup height = some (.checkedBlock blk) := by
  unfold parkApproval at e
  split at e
  case h_1 _ state hstate =>
    rcases lookup_put e with e | ⟨_, rfl⟩
    · exact e
    · obtain ⟨_, e', _⟩ := CandidateState.addUncheckedApproval_getBlock (congrArg Prod.snd hstate)
      cases e'
  case h_2 => exact e

/-- The candidates after an approval: those before, one of which, with the root that the approval
names, may have the approval added. -/
lemma lookup_addApproval_cases {approval isSyncing height blk} (h : c.Coherent P S)
    (e : (addApproval P approval authorities isSyncing c).2.candidatesByHeight.lookup height =
      some (.checkedBlock blk)) :
    ∃ blk₀, c.candidatesByHeight.lookup height = some (.checkedBlock blk₀) ∧
      (blk = blk₀ ∨ blk₀.canonicalRoot P = approval.blockHash ∧
        approval.signature.check P approval.blockHash authorities = .ok approval.signature ∧
        blk₀.addApproval P approval.signature = .ok blk) := by
  cases hheight : c.hashToHeight.lookup approval.blockHash with
  | none =>
    simp only [addApproval, hheight] at e
    exact ⟨blk, lookup_parkApproval e, .inl rfl⟩
  | some found =>
    cases hs : c.candidatesByHeight.lookup found with
    | none =>
      simp only [addApproval, hheight, hs] at e
      exact ⟨blk, lookup_parkApproval e, .inl rfl⟩
    | some state =>
      have hat : (addApprovalAt P approval authorities found state c).2.candidatesByHeight.lookup
          height = some (.checkedBlock blk) → ∃ blk₀,
          c.candidatesByHeight.lookup height = some (.checkedBlock blk₀) ∧
          (blk = blk₀ ∨ blk₀.canonicalRoot P = approval.blockHash ∧
            approval.signature.check P approval.blockHash authorities = .ok approval.signature ∧
            blk₀.addApproval P approval.signature = .ok blk) := by
        intro e
        rcases lookup_put e with e | ⟨eq, hstate⟩
        · exact ⟨blk, e, .inl rfl⟩
        · subst eq
          obtain ⟨blk₀, rfl, h'⟩ := CandidateState.addUncheckedApproval_getBlock hstate
          refine ⟨blk₀, hs, h'.imp id fun h' => ⟨?_, h'⟩⟩
          -- a block is never kept at the placeholder height
          have hz : height ≠ 0 := by
            rintro rfl
            obtain ⟨_, e'⟩ := h.queue hs
            cases e'
          obtain ⟨b, e', hroot⟩ := h.filed hz hheight
          rw [hs] at e'
          cases e'
          exact hroot
      simp only [addApproval, hheight, hs] at e
      split at e
      case h_1 =>
        split at e
        case isTrue => exact ⟨blk, e, .inl rfl⟩
        case isFalse => exact hat e
      case h_2 => exact hat e

/-! ## The invariant -/

/-- Besides coherence: a block is kept at the height of its number and its aggregate verifies. -/
structure Represented (P : Primitives) (authorities : List PublicKey) (c : BlockCandidateCache) :
    Prop where
  coherent : c.Coherent P fun _ _ => True
  kept : ∀ {height b}, c.candidatesByHeight.lookup height = some (.checkedBlock b) →
    b.number = height ∧ b.verifySignature P authorities = true

namespace Represented

lemma empty : Represented P authorities .empty := ⟨coherent_empty, nofun⟩

section

variable (h : Represented P authorities c)

include h

lemma insert (isSyncing : Bool) (hz : b.number ≠ 0) (hb : b.verifySignature P authorities = true) :
    Represented P authorities (BlockCandidateCache.insert P b isSyncing c).2 := by
  refine ⟨h.coherent.insert hz fun _ _ => trivial, fun e => ?_⟩
  rcases lookup_insert_cases h.coherent hz e with e | ⟨rfl, rfl⟩
  · exact h.kept e
  · exact ⟨rfl, hb⟩

lemma addApproval (hbls : BlsAggregates P) (approval : ApproveBlock) (isSyncing : Bool) :
    Represented P authorities
      (BlockCandidateCache.addApproval P approval authorities isSyncing c).2 := by
  refine ⟨h.coherent.addApproval trivial, fun e => ?_⟩
  obtain ⟨blk₀, e₀, rfl | ⟨hroot, hcheck, hadd⟩⟩ := lookup_addApproval_cases h.coherent e
  · exact h.kept e₀
  · obtain ⟨hnumber, hverify⟩ := h.kept e₀
    rw [← hroot] at hcheck
    refine ⟨?_, SignedConsensusBlock.verifySignature_addApproval hbls hcheck hadd hverify⟩
    obtain ⟨_, _, rfl⟩ := SignedConsensusBlock.addApproval_cases hadd
    exact hnumber

/-- A removal takes out a block together with its root, or the queue of the placeholder height. -/
lemma remove (hash : Hash256) :
    Represented P authorities (BlockCandidateCache.remove hash c).2 := by
  unfold BlockCandidateCache.remove
  split
  case h_2 => exact h
  case h_1 height hheight =>
    have old : ∀ {height' state}, (c.candidatesByHeight.erase height).lookup height' = some state →
        c.candidatesByHeight.lookup height' = some state :=
      fun e => (lookup_erase_eq_some.mp e).2
    refine ⟨⟨fun hz e => h.coherent.block hz (old e), fun e => h.coherent.queue (old e), ?_⟩,
      fun e => h.kept (old e)⟩
    intro hash' height' hz e
    obtain ⟨ne, e⟩ := lookup_erase_eq_some.mp e
    obtain ⟨b, hb, hroot⟩ := h.coherent.filed hz e
    refine ⟨b, ?_, hroot⟩
    rw [Finmap.lookup_erase_ne ?_]
    · exact hb
    · -- a second hash at the same height would be the root of the same block
      rintro rfl
      obtain ⟨b', hb', hroot'⟩ := h.coherent.filed hz hheight
      rw [hb] at hb'
      cases hb'
      exact ne (hroot.symm.trans hroot')

/-- What a lookup by hash returns. -/
lemma getBlock {hash} (e : c.getBlock hash = some b) :
    b.canonicalRoot P = hash ∧ c.hashToHeight.lookup hash = some b.number := by
  simp only [BlockCandidateCache.getBlock, bind, Option.bind_eq_some_iff] at e
  obtain ⟨height, hheight, state, hs, hb⟩ := e
  cases state with
  | queuedApprovals => cases hb
  | checkedBlock b' =>
    cases hb
    have hz : height ≠ 0 := by
      rintro rfl
      obtain ⟨_, e⟩ := h.coherent.queue hs
      cases e
    obtain ⟨b', hb', hroot⟩ := h.coherent.filed hz hheight
    rw [hs] at hb'
    cases hb'
    exact ⟨hroot, by rw [hheight, (h.kept hs).1]⟩

end

end Represented

/-! ## Runs -/

/-- The operations that change the cache. -/
inductive Op where
  | insert (block : SignedConsensusBlock) (isSyncing : Bool)
  | addApproval (approval : ApproveBlock) (isSyncing : Bool)
  | remove (hash : Hash256)
  | clear

/-- The cache after an operation. -/
def Op.apply (P : Primitives) (authorities : List PublicKey) :
    Op → BlockCandidateCache → BlockCandidateCache
  | .insert block isSyncing, c => (BlockCandidateCache.insert P block isSyncing c).2
  | .addApproval approval isSyncing, c =>
    (BlockCandidateCache.addApproval P approval authorities isSyncing c).2
  | .remove hash, c => (BlockCandidateCache.remove hash c).2
  | .clear, _ => .empty

/-- An inserted block has a number above 0 and its aggregate approval verifies for its own root. -/
def Op.Valid (P : Primitives) (authorities : List PublicKey) : Op → Prop
  | .insert block _ => 0 < block.number ∧ block.verifySignature P authorities = true
  | _ => True

/-- A sequence of operations keeps the invariant. -/
lemma Represented.run (hbls : BlsAggregates P)
    (run : Run (Op.apply P authorities) (fun _ op => op.Valid P authorities) .empty c) :
    Represented P authorities c := by
  refine run.invariant Represented.empty fun c op h ok => ?_
  cases op with
  | insert block isSyncing => exact h.insert isSyncing ok.1.ne' ok.2
  | addApproval approval isSyncing => exact h.addApproval hbls approval isSyncing
  | remove hash => exact h.remove hash
  | clear => exact Represented.empty

/-- After any sequence of operations there is at most one candidate and one hash for each height
above 0, a lookup by hash returns a block with that root whose number is the height of the hash, and
the aggregate approval of every cached block verifies for its own root. -/
theorem cache_representation (hbls : BlsAggregates P)
    (run : Run (Op.apply P authorities) (fun _ op => op.Valid P authorities) .empty c) :
    (∀ b b', c.Caches b → c.Caches b' → b.number = b'.number → b = b') ∧
    (∀ hash hash' height, 0 < height → c.hashToHeight.lookup hash = some height →
      c.hashToHeight.lookup hash' = some height → hash = hash') ∧
    (∀ hash b, c.getBlock hash = some b →
      b.canonicalRoot P = hash ∧ c.hashToHeight.lookup hash = some b.number) ∧
    ∀ b, c.Caches b → 0 < b.number ∧ b.verifySignature P authorities = true := by
  have h := Represented.run hbls run
  refine ⟨?_, ?_, fun hash b e => h.getBlock e, ?_⟩
  · rintro b b' ⟨height, e⟩ ⟨height', e'⟩ eq
    rw [(h.kept e).1, (h.kept e').1] at eq
    subst eq
    rw [e] at e'
    cases e'
    rfl
  · intro hash hash' height pos e e'
    obtain ⟨b, hb, rfl⟩ := h.coherent.filed pos.ne' e
    obtain ⟨b', hb', rfl⟩ := h.coherent.filed pos.ne' e'
    rw [hb] at hb'
    cases hb'
    rfl
  · rintro b ⟨height, e⟩
    obtain ⟨rfl, hverify⟩ := h.kept e
    refine ⟨Nat.pos_of_ne_zero fun hz => ?_, hverify⟩
    rw [hz] at e
    obtain ⟨_, e'⟩ := h.coherent.queue e
    cases e'

end BlockCandidateCache

lemma Primitives.toy_blsAggregates : BlsAggregates .toy := fun _ _ _ _ _ _ _ _ => rfl

/-- An approval that arrives before its block, the block, and a second approval of it. -/
theorem cache_representation_late_block :
    let c := BlockCandidateCache.Op.apply .toy [[1], [2]] (.addApproval ⟨toyRoot 1 0, ⟨[], 1⟩⟩ true)
      (BlockCandidateCache.Op.apply .toy [[1], [2]] (.insert (.toy 1 0) true)
        (BlockCandidateCache.Op.apply .toy [[1], [2]]
          (.addApproval ⟨toyRoot 1 0, ⟨[], 0⟩⟩ true) .empty))
    (c.getBlock (toyRoot 1 0)).map (·.numApprovals) = some 1 ∧
      ∀ b, c.Caches b → 0 < b.number ∧ b.verifySignature .toy [[1], [2]] = true := by
  intro c
  have run : Run (BlockCandidateCache.Op.apply .toy [[1], [2]])
      (fun _ op => op.Valid .toy [[1], [2]]) .empty c :=
    .snoc (.snoc (.snoc .refl _ trivial) _ ⟨by decide, rfl⟩) _ trivial
  exact ⟨by decide,
    (BlockCandidateCache.cache_representation Primitives.toy_blsAggregates run).2.2.2⟩

end Alys
