import Alys.Candidate.Coherence
import Alys.Chain.Steps

/-!
# Candidates of one height

Which of several blocks of one height the cache keeps. The cache itself prefers the block with the
higher slot (`BlockCandidateCache::insert`), unless its last argument says that the node is syncing.
`process_block` passes `sync_status.is_synced()` there, so on a synced node every valid block
replaces the one before, and the last to arrive is kept.
-/

namespace Alys
open Lib

/-! ## The cache -/

namespace BlockCandidateCache

/-- A block is the candidate at its height, and found by its root. -/
structure Files (P : Primitives) (b : SignedConsensusBlock) (c : BlockCandidateCache) : Prop where
  candidate : ∃ blk, c.candidatesByHeight.lookup b.number = some (.checkedBlock blk) ∧
    blk.message = b.message
  root : c.hashToHeight.lookup (b.canonicalRoot P) = some b.number

section Files

variable {P : Primitives} {b : SignedConsensusBlock} {c c' : BlockCandidateCache}

/-- A block that is filed is in the cache. -/
lemma files_fileBlock {state : CandidateState} (e : fileBlock P b state c = (.ok (), c')) :
    c'.Files P b := by
  unfold fileBlock at e
  split at e
  case h_1 _ state' hstate =>
    cases e
    have hmessage : ∃ blk, state' = .checkedBlock blk ∧ blk.message = b.message := by
      unfold CandidateState.addCheckedBlock at hstate
      split at hstate
      case h_1 queue =>
        split at hstate
        case h_1 blk hfold =>
          cases hstate
          exact ⟨blk, rfl, SignedConsensusBlock.foldlM_addApproval_message hfold⟩
        case h_2 => cases hstate
      case h_2 =>
        cases hstate
        exact ⟨b, rfl, rfl⟩
    obtain ⟨blk, rfl, hmessage⟩ := hmessage
    exact ⟨⟨blk, Finmap.lookup_insert _, hmessage⟩, Finmap.lookup_insert _⟩
  case h_2 => cases e

/-- With the flag set the block is filed whatever is there. -/
lemma files_insert (e : insert P b true c = (.ok (), c')) : c'.Files P b := by
  unfold insert at e
  split at e
  case h_1 state _ =>
    split at e
    case h_1 existing _ =>
      rw [if_pos (.inr rfl)] at e
      exact files_fileBlock e
    case h_2 => exact files_fileBlock e
  case h_2 => exact files_fileBlock e

/-- An approval of the block is added to it. -/
lemma Files.addApproval {approval : IndividualApproval} {authorities : List PublicKey}
    {isSyncing : Bool} (h : c.Files P b) :
    (BlockCandidateCache.addApproval P ⟨b.canonicalRoot P, approval⟩ authorities isSyncing
      c).2.Files P b := by
  obtain ⟨blk, hblk, hmessage⟩ := h.candidate
  have hroot : blk.canonicalRoot P = b.canonicalRoot P := congrArg P.signingRoot hmessage
  have hadd : BlockCandidateCache.addApproval P ⟨b.canonicalRoot P, approval⟩ authorities isSyncing
      c = addApprovalAt P ⟨b.canonicalRoot P, approval⟩ authorities b.number (.checkedBlock blk)
        c := by
    simp [BlockCandidateCache.addApproval, h.root, hblk, CandidateState.getBlock, hroot]
  rw [hadd]
  obtain ⟨blk', hstate, hblk'⟩ := @CandidateState.addUncheckedApproval_block P
    ⟨b.canonicalRoot P, approval⟩ authorities blk
  have hmessage' : blk'.message = blk.message := by
    rcases hblk' with rfl | hadded
    · rfl
    · obtain ⟨_, _, rfl⟩ := SignedConsensusBlock.addApproval_cases hadded
      rfl
  refine ⟨⟨blk', ?_, hmessage'.trans hmessage⟩, h.root⟩
  simp only [addApprovalAt, hstate, Finmap.lookup_insert]

end Files

end BlockCandidateCache

/-! ## Offered blocks -/

/-- A synced node processes a valid block of the given height, and the candidate that it stores does
not have the approvals of a majority. -/
structure Offer (P : Primitives) (cfg : ChainConfig) (height : Nat) (c : Chain) (env : Env)
    (b : SignedConsensusBlock) (c' : Chain) : Prop where
  height : b.number = height
  synced : c.syncStatus = .synced
  processed : ∃ ourApproval, processBlock P cfg env b c = (.ok ourApproval, c')
  minority : ∀ blk ∈ (storeCandidate P cfg b
    (validateBlock P cfg env b c).2).2.blockCandidates.getBlock (b.canonicalRoot P),
      cfg.aura.majorityApproved P blk ≠ .ok true

/-- A sequence of such blocks. -/
inductive Offers (P : Primitives) (cfg : ChainConfig) (height : Nat) (c : Chain) :
    List SignedConsensusBlock → Chain → Prop where
  | nil : Offers P cfg height c [] c
  | snoc {l c₁ env b c₂} :
    Offers P cfg height c l c₁ →
    Offer P cfg height c₁ env b c₂ →
    Offers P cfg height c (l ++ [b]) c₂

/-- The candidate of a height is one of the given blocks, and none of them has a higher slot. -/
def KeepsHighestSlot (c : Chain) (height : Nat) (l : List SignedConsensusBlock) : Prop :=
  ∃ blk, c.blockCandidates.candidatesByHeight.lookup height = some (.checkedBlock blk) ∧
    (∃ b ∈ l, blk.message = b.message) ∧ ∀ b ∈ l, b.message.slot ≤ blk.message.slot

section Offers

variable {P : Primitives} {cfg : ChainConfig} {height : Nat} {c c' : Chain}

/-- On a synced node a stored candidate is filed. -/
lemma storeCandidate_files {b : SignedConsensusBlock} {ourApproval : Option IndividualApproval}
    (synced : c.syncStatus = .synced) (e : storeCandidate P cfg b c = (.ok ourApproval, c')) :
    c'.blockCandidates.Files P b := by
  simp only [storeCandidate, Action.bind_ok_iff] at e
  obtain ⟨_, _, hget, _, c₁, hinsert, e⟩ := e
  cases hget
  have filed : c₁.blockCandidates.Files P b := by
    rw [synced] at hinsert
    obtain ⟨cache, hcache, rfl⟩ := Action.zoom_ok_iff.mp hinsert
    exact BlockCandidateCache.files_insert hcache
  cases ha : cfg.aura.authority with
  | none =>
    rw [ha] at e
    cases e
    exact filed
  | some authority =>
    rw [ha] at e
    simp only [Action.bind_ok_iff] at e
    obtain ⟨_, _, happrove, e⟩ := e
    cases e
    obtain ⟨cache, hcache, rfl⟩ := Action.zoom_ok_iff.mp happrove
    have kept : (BlockCandidateCache.addApproval P ⟨b.canonicalRoot P, b.message.sign P authority⟩
        cfg.aura.authorities c.syncStatus.isSynced c₁.blockCandidates).2.Files P b :=
      filed.addApproval
    rw [hcache] at kept
    exact kept

/-- The block that was offered last is kept. -/
lemma Offer.files {env b} (h : Offer P cfg height c env b c') : c'.blockCandidates.Files P b := by
  obtain ⟨ourApproval, e⟩ := h.processed
  simp only [processBlock, Action.bind_ok_iff] at e
  obtain ⟨_, c₁, hvalid, _, c₂, hstore, _, c₃, haccept, e⟩ := e
  cases e
  have synced : c₁.syncStatus = .synced := by
    obtain ⟨missing, _, e⟩ | ⟨_, missing, _, e⟩ := @validateBlock_cases P cfg env b c
    · rw [hvalid] at e
      cases e
      exact h.synced
    · rw [hvalid] at e
      cases e
  have filed := storeCandidate_files synced hstore
  have hminority := h.minority
  rw [hvalid, hstore] at hminority
  obtain e | ⟨blk, hblk, hmajority, _⟩ :=
    @maybeAcceptBlock_cases P cfg env (b.canonicalRoot P) c₂
  · rw [haccept] at e
    cases e
    exact filed
  · exact absurd hmajority (hminority blk hblk)

/-- After a sequence of blocks the last one is kept. -/
lemma Offers.files {l b} (run : Offers P cfg height c (l ++ [b]) c') :
    c'.blockCandidates.Files P b ∧ b.number = height := by
  generalize e : l ++ [b] = m at run
  cases run with
  | nil => simp at e
  | snoc _ offer =>
    obtain ⟨_, h⟩ := List.append_inj' e rfl
    cases h
    exact ⟨offer.files, offer.height⟩

end Offers

/-- The highest slot is kept exactly if the last block has it. -/
theorem offers_keepsHighestSlot_iff {P : Primitives} {cfg : ChainConfig} {height : Nat}
    {c c' : Chain} {l : List SignedConsensusBlock} {b : SignedConsensusBlock}
    (run : Offers P cfg height c (l ++ [b]) c') :
    KeepsHighestSlot c' height (l ++ [b]) ↔ ∀ x ∈ l, x.message.slot ≤ b.message.slot := by
  obtain ⟨filed, hheight⟩ := run.files
  obtain ⟨blk, hblk, hmessage⟩ := filed.candidate
  rw [hheight] at hblk
  constructor
  · rintro ⟨blk', hblk', _, highest⟩ x mem
    rw [hblk] at hblk'
    cases hblk'
    rw [← hmessage]
    exact highest x (List.mem_append_left _ mem)
  · intro highest
    refine ⟨blk, hblk, ⟨b, by simp, hmessage⟩, fun x mem => ?_⟩
    rw [hmessage]
    rcases List.mem_append.mp mem with mem | mem
    · exact highest x mem
    · rw [List.mem_singleton.mp mem]

/-- A validator of four that is offered blocks of height 1 with the given slots. -/
def Chain.toyOffered (slots : List Nat) : Chain :=
  slots.foldl (fun c slot => (processBlock .toy (.toy 4 0) .toy (.toy 1 slot) c).2)
    (Chain.new .toy .empty)

lemma Chain.toyOffered_snoc (slots : List Nat) (slot : Nat)
    (synced : (Chain.toyOffered slots).syncStatus = .synced)
    (processed : ∃ ourApproval, (processBlock .toy (.toy 4 0) .toy (.toy 1 slot)
      (Chain.toyOffered slots)).1 = .ok ourApproval)
    (minority : ∀ blk ∈ (storeCandidate .toy (.toy 4 0) (.toy 1 slot) (validateBlock .toy (.toy 4 0)
      .toy (.toy 1 slot) (Chain.toyOffered slots)).2).2.blockCandidates.getBlock (toyRoot 1 slot),
        (ChainConfig.toy 4 0).aura.majorityApproved .toy blk ≠ .ok true) :
    Offer .toy (.toy 4 0) 1 (Chain.toyOffered slots) .toy (.toy 1 slot)
      (Chain.toyOffered (slots ++ [slot])) where
  height := rfl
  synced := synced
  processed := by
    obtain ⟨ourApproval, e⟩ := processed
    refine ⟨ourApproval, Prod.ext e ?_⟩
    rw [toyOffered, toyOffered, List.foldl_append]
    rfl
  minority := minority

/-- The slots in ascending order. -/
theorem offers_keepsHighestSlot_ascending :
    KeepsHighestSlot (Chain.toyOffered [0, 1]) 1 [.toy 1 0, .toy 1 1] := by
  have run : Offers .toy (.toy 4 0) 1 (Chain.new .toy .empty) ([.toy 1 0] ++ [.toy 1 1])
      (Chain.toyOffered [0, 1]) :=
    .snoc (l := [.toy 1 0]) (.snoc .nil (Chain.toyOffered_snoc [] 0 rfl ⟨_, rfl⟩ (by decide)))
      (Chain.toyOffered_snoc [0] 1 rfl ⟨_, rfl⟩ (by decide))
  exact (offers_keepsHighestSlot_iff run).mpr (by decide)

/-- The slots in descending order: the block with the lower slot replaces the other. -/
theorem offers_keepsHighestSlot_fails :
    ¬ ∀ (P : Primitives) (cfg : ChainConfig) (height : Nat) (c c' : Chain)
      (l : List SignedConsensusBlock), l ≠ [] → c.blockCandidates = .empty →
      Offers P cfg height c l c' → KeepsHighestSlot c' height l := by
  intro all
  have run : Offers .toy (.toy 4 0) 1 (Chain.new .toy .empty) ([.toy 1 1] ++ [.toy 1 0])
      (Chain.toyOffered [1, 0]) :=
    .snoc (l := [.toy 1 1]) (.snoc .nil (Chain.toyOffered_snoc [] 1 rfl ⟨_, rfl⟩ (by decide)))
      (Chain.toyOffered_snoc [1] 0 rfl ⟨_, rfl⟩ (by decide))
  obtain ⟨blk, hblk, _, highest⟩ := all _ _ _ _ _ _ (by simp) rfl run
  have kept : (Chain.toyOffered [1, 0]).blockCandidates.candidatesByHeight.lookup 1 =
      some (.checkedBlock blk) → blk.message.slot = 0 := by
    intro e
    cases e
    rfl
  exact absurd (highest (.toy 1 1) (by simp)) (by rw [kept hblk]; decide)

end Alys
