import Alys.Basic.Types
import Alys.Lib.Action

/-!
# The block store

Model of `app/src/store.rs` and of the functions of `app/src/chain.rs` that walk over stored blocks.
A column of the key-value store is a finite map, and a list of operations is applied at once. The
column of AuxPow heights is never read and is left out, and so are the scan height of the Bitcoin
monitor and the failures of a read.

The walks follow parent hashes until they meet a given hash or a block that is not stored. They have
no other bound, so on a cyclic store they never end. Their fuel is one more than the number of
stored blocks: a walk that visits more of them has met one twice and goes on for ever.
-/

namespace Alys
open Lib

/-- `Storage`, by its columns. -/
structure Storage where
  blocks : Map Hash256 SignedConsensusBlock
  blockByHeight : Map Nat Hash256
  blockFees : Map Hash256 Nat
  head : Option BlockRef
  latestPowBlock : Option BlockRef

/-- An `Option` with the error for `none` (Rust `ok_or`). -/
def okOr {α : Type} (o : Option α) (e : Failure) : Except Failure α :=
  match o with
  | some a => .ok a
  | none => .error e

@[simp] lemma okOr_eq_ok_iff {α : Type} {o : Option α} {e : Failure} {a : α} :
    okOr o e = .ok a ↔ o = some a := by
  cases o <;> simp [okOr]

/-! ## Operations -/

/-- `KeyValueStoreOp`, one constructor for each key that is written. -/
inductive StoreOp where
  | putBlock (root : Hash256) (block : SignedConsensusBlock)
  | putBlockByHeight (height : Nat) (root : Hash256)
  | putBlockFees (root : Hash256) (fees : Nat)
  | putHead (head : BlockRef)
  | putLatestPowBlock (ref : BlockRef)

namespace Storage

/-- An empty store. -/
def empty : Storage := ⟨∅, ∅, ∅, none, none⟩

/-- The effect of one operation. -/
def applyOp (s : Storage) : StoreOp → Storage
  | .putBlock root block => { s with blocks := s.blocks.insert root block }
  | .putBlockByHeight height root =>
    { s with blockByHeight := s.blockByHeight.insert height root }
  | .putBlockFees root fees => { s with blockFees := s.blockFees.insert root fees }
  | .putHead head => { s with head := some head }
  | .putLatestPowBlock ref => { s with latestPowBlock := some ref }

/-- The effect of a committed list of operations. -/
def applyOps (s : Storage) (ops : List StoreOp) : Storage := ops.foldl applyOp s

def putBlock (blockRoot : Hash256) (block : SignedConsensusBlock) : List StoreOp :=
  [.putBlock blockRoot block, .putBlockByHeight block.number blockRoot]

def getBlock (s : Storage) (blockRoot : Hash256) : Option SignedConsensusBlock :=
  s.blocks.lookup blockRoot

/-- `Chain::get_parent`. -/
def getParent (s : Storage) (unverifiedBlock : SignedConsensusBlock) :
    Except Failure SignedConsensusBlock :=
  okOr (s.getBlock unverifiedBlock.message.parentHash) (.error .missingParent)

/-- The stored head block (Rust `ChainManager::get_head`). -/
def getHead (s : Storage) : Except Failure SignedConsensusBlock := do
  let head ← okOr s.head (.error .chainError)
  okOr (s.getBlock head.hash) (.error .chainError)

/-- The fees up to the parent (Rust `Chain::queued_fees`); there has to be an entry. -/
def queuedFees (s : Storage) (parentBlockHash : Hash256) : Except Failure Nat :=
  okOr (s.blockFees.lookup parentBlockHash) .panic

/-! ## Walks -/

/-- The fuel of a walk. -/
def fuel (s : Storage) : Nat := s.blocks.keys.card + 1

/-- The loop of `get_bitcoin_payment_proposals_in_range`. -/
def proposalsLoop (s : Storage) (start : Hash256) :
    Nat → Hash256 → List Transaction → Except Failure (List Transaction)
  | 0, _, _ => .error .diverge
  | fuel + 1, current, ret =>
    match s.getBlock current with
    | none => .error (.error .invalidBlockRange)
    | some block =>
      let ret := ret ++ block.message.pegoutPaymentProposal.toList
      if current = start then .ok ret.reverse
      else s.proposalsLoop start fuel block.message.parentHash ret

/-- The peg-out proposals of the blocks `start` to `stop`, both inclusive (Rust
`Chain::get_bitcoin_payment_proposals_in_range`). -/
def getBitcoinPaymentProposalsInRange (s : Storage) (start stop : Hash256) :
    Except Failure (List Transaction) :=
  s.proposalsLoop start s.fuel stop []

/-- The loop of `get_hashes`. -/
def hashesLoop (s : Storage) (start : Hash256) :
    Nat → Hash256 → List Hash256 → Except Failure (List Hash256)
  | 0, _, _ => .error .diverge
  | fuel + 1, current, hashes =>
    if current = start then
      .ok hashes.reverse
    else
      match s.getBlock current with
      | none => .error (.error .invalidBlockRange)
      | some block => s.hashesLoop start fuel block.message.parentHash (hashes ++ [current])

/-- The hashes from `start`, exclusive, to `stop`, inclusive (Rust `Chain::get_hashes`). A range
that is not ascending gives `start` alone. -/
def getHashes (s : Storage) (start stop : Hash256) : Except Failure (List Hash256) := do
  let startBlock ← okOr (s.getBlock start) (.error .missingBlock)
  let stopBlock ← okOr (s.getBlock stop) (.error .missingBlock)
  if stopBlock.number ≤ startBlock.number then
    return [start]
  s.hashesLoop start s.fuel stop []

/-- The block up to which the latest AuxPow finalizes (Rust
`Chain::get_latest_finalized_block_ref`). An AuxPow height of zero marks the genesis block, which
finalizes itself. -/
def getLatestFinalizedBlockRef (P : Primitives) (s : Storage) : Except Failure (Option BlockRef) :=
  match s.latestPowBlock with
  | none => .ok none
  | some blockref =>
    match s.getBlock blockref.hash with
    | none => .error (.error .invalidBlockRange)
    | some powBlock =>
      match powBlock.message.auxpowHeader with
      | none => .error (.error .invalidBlockRange)
      | some pow =>
        if pow.height ≠ 0 then
          match s.getBlock pow.rangeEnd with
          | none => .error (.error .invalidBlockRange)
          | some block => .ok (some (block.blockRef P))
        else
          .ok (some blockref)

end Storage

end Alys
