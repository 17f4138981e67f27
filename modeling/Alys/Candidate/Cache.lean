import Alys.Lib.Action
import Alys.Lib.Maps
import Alys.Aura.Signatures

/-!
# The block candidate cache

Model of `app/src/block_candidate`: the state of one candidate (`candidate_state.rs`), the cache of
candidates by height (`block_candidate_cache.rs`) and the lookup of the thread-safe wrapper
(`mod.rs`), whose lock makes every operation atomic.

The last argument of `insert` and `addApproval` is called `is_syncing` in the cache and `is_synced`
in the wrapper's `insert`; the callers in `chain.rs` pass `sync_status.is_synced()`. It is called
`isSyncing` here, after the code that reads it.
-/

namespace Alys
open Lib

inductive CandidateState where
  /-- the block was received and checked -/
  | checkedBlock (block : SignedConsensusBlock)
  /-- approvals were received before the block -/
  | queuedApprovals (approvals : List IndividualApproval)

namespace CandidateState

def default : CandidateState := .queuedApprovals []

def getBlock : CandidateState → Option SignedConsensusBlock
  | .checkedBlock block => some block
  | .queuedApprovals _ => none

def addCheckedApproval (P : Primitives) (approval : IndividualApproval) :
    Action CandidateState Failure Unit
  | .checkedBlock block =>
    match block.addApproval P approval with
    | .ok block' => (.ok (), .checkedBlock block')
    | .error e => (.error e, .checkedBlock block)
  | .queuedApprovals queue => (.ok (), .queuedApprovals (queue ++ [approval]))

def addUncheckedApproval (P : Primitives) (approval : ApproveBlock) (authorities : List PublicKey) :
    Action CandidateState Failure Unit := do
  let checkedApproval ← Action.lift (approval.signature.check P approval.blockHash authorities)
  addCheckedApproval P checkedApproval

/-- `CandidateState::add_checked_block`. The queue is drained even if one of its approvals does not
fit the block's bit list. -/
def addCheckedBlock (P : Primitives) (block : SignedConsensusBlock) :
    Action CandidateState Failure Unit
  | .queuedApprovals queue =>
    match queue.foldlM (fun b approval => b.addApproval P approval) block with
    | .ok block' => (.ok (), .checkedBlock block')
    | .error e => (.error e, .queuedApprovals [])
  | .checkedBlock _ => (.ok (), .checkedBlock block)

end CandidateState

structure BlockCandidateCache where
  candidatesByHeight : Map Nat CandidateState
  hashToHeight : Map Hash256 Nat

namespace BlockCandidateCache

/-- `BlockCandidateCache::new`, and the result of `clear`. -/
def empty : BlockCandidateCache := ⟨∅, ∅⟩

/-- Stores the result of adding a block to the candidate at a height, and on success maps the
block's hash to that height. -/
def fileBlock (P : Primitives) (block : SignedConsensusBlock) (state : CandidateState) :
    Action BlockCandidateCache Failure Unit := fun c =>
  match state.addCheckedBlock P block with
  | (.ok _, state') =>
    (.ok (),
      ⟨c.candidatesByHeight.insert block.number state',
        c.hashToHeight.insert (block.canonicalRoot P) block.number⟩)
  | (.error e, state') =>
    (.error e, { c with candidatesByHeight := c.candidatesByHeight.insert block.number state' })

def insert (P : Primitives) (block : SignedConsensusBlock) (isSyncing : Bool) :
    Action BlockCandidateCache Failure Unit := fun c =>
  match c.candidatesByHeight.lookup block.number with
  | some state =>
    match state.getBlock with
    | some existing =>
      if existing.message.slot < block.message.slot ∨ isSyncing then
        fileBlock P block state
          { c with hashToHeight := c.hashToHeight.erase (existing.canonicalRoot P) }
      else
        -- the block has a lower slot than the one kept
        (.ok (), c)
    | none => fileBlock P block state c
  | none => fileBlock P block .default c

/-- The end of `add_approval`, for a hash whose block is not known: the approval is queued in a new
candidate at the placeholder height 0. -/
def parkApproval (P : Primitives) (approval : ApproveBlock) (authorities : List PublicKey) :
    Action BlockCandidateCache Failure Unit := fun c =>
  match CandidateState.default.addUncheckedApproval P approval authorities with
  | (.ok _, state) =>
    (.ok (), ⟨c.candidatesByHeight.insert 0 state, c.hashToHeight.insert approval.blockHash 0⟩)
  | (.error e, _) => (.error e, c)

/-- Adds an approval to the candidate found at a height. -/
def addApprovalAt (P : Primitives) (approval : ApproveBlock) (authorities : List PublicKey)
    (height : Nat) (state : CandidateState) : Action BlockCandidateCache Failure Unit := fun c =>
  match state.addUncheckedApproval P approval authorities with
  | (r, state') => (r, { c with candidatesByHeight := c.candidatesByHeight.insert height state' })

def addApproval (P : Primitives) (approval : ApproveBlock) (authorities : List PublicKey)
    (isSyncing : Bool) : Action BlockCandidateCache Failure Unit := fun c =>
  match c.hashToHeight.lookup approval.blockHash with
  | some height =>
    match c.candidatesByHeight.lookup height with
    | some state =>
      match state.getBlock with
      | some current =>
        if current.canonicalRoot P ≠ approval.blockHash ∧ !isSyncing then
          -- the hash is that of a block that was replaced
          (.ok (), { c with hashToHeight := c.hashToHeight.erase approval.blockHash })
        else
          addApprovalAt P approval authorities height state c
      | none => addApprovalAt P approval authorities height state c
    | none => parkApproval P approval authorities c
  | none => parkApproval P approval authorities c

/-- Removes and returns the candidate of a hash (Rust `BlockCandidateCache::remove`). -/
def remove (hash : Hash256) (c : BlockCandidateCache) :
    Option CandidateState × BlockCandidateCache :=
  match c.hashToHeight.lookup hash with
  | some height =>
    (c.candidatesByHeight.lookup height,
      ⟨c.candidatesByHeight.erase height, c.hashToHeight.erase hash⟩)
  | none => (none, c)

/-- `BlockCandidates::get_block`. -/
def getBlock (c : BlockCandidateCache) (hash : Hash256) : Option SignedConsensusBlock := do
  let height ← c.hashToHeight.lookup hash
  let state ← c.candidatesByHeight.lookup height
  state.getBlock

/-- A block that is filed in an empty cache is found. -/
lemma getBlock_insert_empty {P} {b : SignedConsensusBlock} (isSyncing : Bool) :
    (insert P b isSyncing empty).2.getBlock (b.canonicalRoot P) = some b := by
  have e : insert P b isSyncing empty = (.ok (),
    ⟨Finmap.insert b.number (.checkedBlock b) ∅,
      Finmap.insert (b.canonicalRoot P) b.number ∅⟩) := rfl
  simp [e, getBlock, CandidateState.getBlock, Finmap.lookup_insert]

/-! ## The cached blocks -/

/-- The cache holds a block as a candidate. -/
def Caches (c : BlockCandidateCache) (block : SignedConsensusBlock) : Prop :=
  ∃ height, c.candidatesByHeight.lookup height = some (.checkedBlock block)

/-- Every candidate's message has a property. -/
def Holds (c : BlockCandidateCache) (M : ConsensusBlock → Prop) : Prop :=
  ∀ block, c.Caches block → M block.message

lemma holds_empty {M} : empty.Holds M := by
  rintro block ⟨height, e⟩
  cases e

end BlockCandidateCache

/-- Adding approvals keeps the message. -/
lemma SignedConsensusBlock.foldlM_addApproval_message {P} {queue : List IndividualApproval}
    {b b' : SignedConsensusBlock}
    (e : queue.foldlM (fun b approval => b.addApproval P approval) b = .ok b') :
    b'.message = b.message := by
  induction queue generalizing b with
  | nil => cases e; rfl
  | cons approval queue ih =>
    rw [List.foldlM_cons] at e
    obtain ⟨b₁, h, e⟩ := bind_eq_ok_iff.mp e
    obtain ⟨signature, _, rfl⟩ := SignedConsensusBlock.addApproval_cases h
    exact (ih e).trans rfl

lemma CandidateState.addCheckedBlock_getBlock {P b blk} {state : CandidateState}
    (e : (state.addCheckedBlock P b).2 = .checkedBlock blk) : blk.message = b.message := by
  unfold addCheckedBlock at e
  split at e
  case h_1 queue =>
    split at e
    case h_1 b' h => cases e; exact SignedConsensusBlock.foldlM_addApproval_message h
    case h_2 => cases e
  case h_2 => cases e; rfl

namespace BlockCandidateCache

variable {c : BlockCandidateCache}

lemma getBlock_caches {hash blk} (e : c.getBlock hash = some blk) :
    c.Caches blk := by
  simp only [getBlock, bind, Option.bind_eq_some_iff] at e
  obtain ⟨height, _, state, hs, hb⟩ := e
  refine ⟨height, ?_⟩
  cases state with
  | checkedBlock block => cases hb; exact hs
  | queuedApprovals => cases hb

lemma caches_of_put {hashes height state blk}
    (h : Caches ⟨c.candidatesByHeight.insert height state, hashes⟩ blk) :
    c.Caches blk ∨ state = .checkedBlock blk := by
  obtain ⟨height', e⟩ := h
  rcases lookup_insert_eq_some.mp e with ⟨_, e⟩ | ⟨_, e⟩
  · exact .inr e.symm
  · exact .inl ⟨height', e⟩

lemma caches_fileBlock {P b state blk} (h : (fileBlock P b state c).2.Caches blk) :
    c.Caches blk ∨ blk.message = b.message := by
  unfold fileBlock at h
  split at h
  case h_1 _ state' e =>
    rcases caches_of_put h with h | rfl
    · exact .inl h
    · exact .inr (CandidateState.addCheckedBlock_getBlock (congrArg Prod.snd e))
  case h_2 _ state' e =>
    rcases caches_of_put h with h | rfl
    · exact .inl h
    · exact .inr (CandidateState.addCheckedBlock_getBlock (congrArg Prod.snd e))

lemma caches_insert {P b isSyncing blk} (h : (insert P b isSyncing c).2.Caches blk) :
    c.Caches blk ∨ blk.message = b.message := by
  unfold insert at h
  split at h
  case h_1 =>
    split at h
    case h_1 =>
      split at h
      case isTrue =>
        have := caches_fileBlock h
        exact this
      case isFalse => exact .inl h
    case h_2 => exact caches_fileBlock h
  case h_2 => exact caches_fileBlock h

end BlockCandidateCache

/-- The block of a candidate after an approval arrived: the one before, or it with the approval,
which then was valid. -/
lemma CandidateState.addUncheckedApproval_getBlock {P approval authorities blk}
    {state : CandidateState}
    (e : (state.addUncheckedApproval P approval authorities).2 = .checkedBlock blk) :
    ∃ blk₀, state = .checkedBlock blk₀ ∧
      (blk = blk₀ ∨
        approval.signature.check P approval.blockHash authorities = .ok approval.signature ∧
          blk₀.addApproval P approval.signature = .ok blk) := by
  unfold addUncheckedApproval at e
  cases h : approval.signature.check P approval.blockHash authorities with
  | error e' =>
    simp only [bind, Action.lift, h] at e
    exact ⟨blk, e, .inl rfl⟩
  | ok approval' =>
    cases IndividualApproval.check_eq h
    simp only [bind, Action.lift, h, addCheckedApproval] at e
    split at e
    case h_1 blk₀ =>
      split at e
      case h_1 blk' h' => cases e; exact ⟨blk₀, rfl, .inr ⟨rfl, h'⟩⟩
      case h_2 => cases e; exact ⟨blk, rfl, .inl rfl⟩
    case h_2 => cases e

namespace BlockCandidateCache

variable {c : BlockCandidateCache}

lemma caches_parkApproval {P approval authorities blk}
    (h : (parkApproval P approval authorities c).2.Caches blk) : c.Caches blk := by
  unfold parkApproval at h
  split at h
  case h_1 _ state e =>
    rcases caches_of_put h with h | rfl
    · exact h
    · obtain ⟨_, e', _⟩ := CandidateState.addUncheckedApproval_getBlock (congrArg Prod.snd e)
      cases e'
  case h_2 => exact h

/-- The candidates after an approval: each is one of those before, or one with a valid approval
added. -/
lemma caches_addApproval {P approval authorities isSyncing blk}
    (h : (addApproval P approval authorities isSyncing c).2.Caches blk) :
    ∃ blk₀, c.Caches blk₀ ∧
      (blk = blk₀ ∨
        approval.signature.check P approval.blockHash authorities = .ok approval.signature ∧
          blk₀.addApproval P approval.signature = .ok blk) := by
  have hat : ∀ height state, c.candidatesByHeight.lookup height = some state →
      (addApprovalAt P approval authorities height state c).2.Caches blk →
      ∃ blk₀, c.Caches blk₀ ∧
        (blk = blk₀ ∨
          approval.signature.check P approval.blockHash authorities = .ok approval.signature ∧
            blk₀.addApproval P approval.signature = .ok blk) := by
    intro height state hs h
    unfold addApprovalAt at h
    rcases caches_of_put h with h | e
    · exact ⟨blk, h, .inl rfl⟩
    · obtain ⟨blk₀, rfl, h'⟩ := CandidateState.addUncheckedApproval_getBlock e
      exact ⟨blk₀, ⟨height, hs⟩, h'⟩
  unfold addApproval at h
  split at h
  case h_1 height _ =>
    split at h
    case h_1 state hs =>
      split at h
      case h_1 =>
        split at h
        case isTrue => exact ⟨blk, h, .inl rfl⟩
        case isFalse => exact hat height state hs h
      case h_2 => exact hat height state hs h
    case h_2 => exact ⟨blk, caches_parkApproval h, .inl rfl⟩
  case h_2 => exact ⟨blk, caches_parkApproval h, .inl rfl⟩

lemma Holds.insert {P b isSyncing M} (h : c.Holds M) (hb : M b.message) :
    (BlockCandidateCache.insert P b isSyncing c).2.Holds M := by
  intro blk hblk
  rcases caches_insert hblk with hblk | e
  · exact h blk hblk
  · rw [e]
    exact hb

lemma Holds.addApproval {P approval authorities isSyncing M} (h : c.Holds M) :
    (BlockCandidateCache.addApproval P approval authorities isSyncing c).2.Holds M := by
  intro blk hblk
  obtain ⟨blk₀, hblk₀, rfl | ⟨_, e⟩⟩ := caches_addApproval hblk
  · exact h blk hblk₀
  · obtain ⟨signature, _, rfl⟩ := SignedConsensusBlock.addApproval_cases e
    exact h blk₀ hblk₀

end BlockCandidateCache

end Alys
