import Alys.Chain.Process
import Alys.Lib.Run

/-!
# A federation of nodes

The nodes of a federation propose blocks and exchange them and their approvals. This follows
`produce_block` and the two handlers for `ConsensusBlock` and `ApproveBlock` messages in
`app/src/chain.rs`: a proposer signs its block, processes it and publishes it if that succeeds; a
node that receives a block processes it and publishes its approval; a node that receives an approval
processes it if it is synced. Each of these is one step of one node. A message that was published
can be delivered to any node, at any later time, any number of times or never. How the proposer
builds the block's content is left open, and so is the download of missing blocks.

`signed` is not part of the nodes: it records what each of them has signed, but for the proposals
that do not pass the proposer's own checks, whose signatures nobody gets.
-/

namespace Alys
open Lib

/-- The configurations of `n` nodes that know the same number of authorities, each with its own
place among them. -/
structure Nodes (n : Nat) where
  cfg : Fin n → ChainConfig
  signer : Fin n → Bytes
  length_eq : ∀ i, (cfg i).aura.authorities.length = n
  authority_eq : ∀ i, (cfg i).aura.authority = some ⟨signer i, i⟩

/-- The nodes, the messages that were published, the next slot for a proposal, and what was signed.
-/
structure World (n : Nat) where
  nodes : Fin n → Chain
  blocks : List SignedConsensusBlock
  approvals : List ApproveBlock
  slot : Nat
  signed : Fin n → List ConsensusBlock

namespace World

variable {n : Nat}

/-- The nodes start on their stores, with nothing published. -/
def start (stores : Fin n → Storage) (wallets : Fin n → UtxoManager) : World n where
  nodes i := Chain.new (stores i) (wallets i)
  blocks := []
  approvals := []
  slot := 0
  signed _ := []

/-- A node takes a step. -/
def setNode (w : World n) (i : Fin n) (c : Chain) : World n :=
  { w with nodes := Function.update w.nodes i c }

/-- A node signs a block. -/
def sign (w : World n) (i : Fin n) (m : ConsensusBlock) : World n :=
  { w with signed := Function.update w.signed i (m :: w.signed i) }

variable {w : World n} {b : SignedConsensusBlock}

lemma mem_signed_sign {i j : Fin n} {m m' : ConsensusBlock} :
    m' ∈ (w.sign i m).signed j ↔ m' ∈ w.signed j ∨ j = i ∧ m' = m := by
  by_cases eq : j = i
  · subst eq
    simp [sign, or_comm]
  · simp [sign, eq]

/-- Whether a block passes the checks of a node. -/
def passes (P : Primitives) (N : Nodes n) (w : World n) (i : Fin n) (env : Env)
    (b : SignedConsensusBlock) : Bool :=
  (validateBlock P (N.cfg i) env b (w.nodes i)).1.isOk

/-- A node processes a block, and signs it once it has passed the checks. -/
def process (P : Primitives) (N : Nodes n) (i : Fin n) (env : Env) (b : SignedConsensusBlock)
    (w : World n) : World n :=
  let c := (processBlock P (N.cfg i) env b (w.nodes i)).2
  if w.passes P N i env b then (w.setNode i c).sign i b.message else w.setNode i c

lemma process_blocks {P : Primitives} {N : Nodes n} {i : Fin n} {env : Env} :
    (w.process P N i env b).blocks = w.blocks := by
  unfold process
  split
  · rfl
  · rfl

lemma process_approvals {P : Primitives} {N : Nodes n} {i : Fin n} {env : Env} :
    (w.process P N i env b).approvals = w.approvals := by
  unfold process
  split
  · rfl
  · rfl

/-- Whether the block that a node proposes passes its own checks. -/
def proposes (P : Primitives) (N : Nodes n) (w : World n) (i : Fin n) (env : Env)
    (m : ConsensusBlock) : Bool :=
  match m.signBlock P ⟨N.signer i, i⟩ with
  | .ok b => w.passes P N i env b
  | .error _ => false

/-- Publishes a block. -/
def publishBlock (w : World n) (b : SignedConsensusBlock) : World n :=
  { w with blocks := w.blocks ++ [b] }

/-- Publishes an approval. -/
def publishApproval (w : World n) (a : ApproveBlock) : World n :=
  { w with approvals := w.approvals ++ [a] }

end World

/-- The steps of the nodes. -/
inductive NetEvent (n : Nat) where
  | propose (i : Fin n) (env : Env) (m : ConsensusBlock)
  | deliverBlock (i : Fin n) (env : Env) (b : SignedConsensusBlock)
  | deliverApproval (i : Fin n) (env : Env) (a : ApproveBlock)

namespace NetEvent

variable {n : Nat}

/-- A proposal (the end of Rust `Chain::produce_block`); a signer whose place does not fit the bit
list panics. -/
def propose.run (P : Primitives) (N : Nodes n) (i : Fin n) (env : Env) (m : ConsensusBlock)
    (w : World n) : World n :=
  match m.signBlock P ⟨N.signer i, i⟩ with
  | .error _ => w
  | .ok b =>
    let w' := { w.process P N i env b with slot := m.slot + 1 }
    match (processBlock P (N.cfg i) env b (w.nodes i)).1 with
    | .ok _ => w'.publishBlock b
    | .error _ => w'

/-- The handler for `ConsensusBlock`. -/
def deliverBlock.run (P : Primitives) (N : Nodes n) (i : Fin n) (env : Env)
    (b : SignedConsensusBlock) (w : World n) : World n :=
  match (processBlock P (N.cfg i) env b (w.nodes i)).1 with
  | .ok (some approval) => (w.process P N i env b).publishApproval ⟨b.canonicalRoot P, approval⟩
  | _ => w.process P N i env b

/-- The handler for `ApproveBlock`. -/
def deliverApproval.run (P : Primitives) (N : Nodes n) (i : Fin n) (env : Env) (a : ApproveBlock)
    (w : World n) : World n :=
  w.setNode i (processApproval P (N.cfg i) env a (w.nodes i)).2

/-- The world after a step. -/
def apply (P : Primitives) (N : Nodes n) : NetEvent n → World n → World n
  | .propose i env m => propose.run P N i env m
  | .deliverBlock i env b => deliverBlock.run P N i env b
  | .deliverApproval i env a => deliverApproval.run P N i env a

/-- The steps that can happen: the author of a slot that was not used yet proposes a block on its
head, and published messages are delivered, approvals only to a synced node. -/
def Possible (N : Nodes n) (w : World n) : NetEvent n → Prop
  | .propose i _ m =>
    (w.nodes i).syncStatus.isSynced ∧ w.slot ≤ m.slot ∧
    (slotAuthor m.slot (N.cfg i).aura.authorities).map (·.1) = some i.val ∧
    ∃ head ∈ (w.nodes i).head, m.parentHash = head.hash ∧
      m.executionPayload.blockNumber = head.height + 1
  | .deliverBlock _ _ b => b ∈ w.blocks
  | .deliverApproval i _ a => (w.nodes i).syncStatus.isSynced ∧ a ∈ w.approvals

instance {N : Nodes n} {w : World n} : DecidablePred (Possible N w)
  | .propose .. => inferInstanceAs (Decidable (_ ∧ _))
  | .deliverBlock _ _ b => inferInstanceAs (Decidable (b ∈ w.blocks))
  | .deliverApproval .. => inferInstanceAs (Decidable (_ ∧ _))

end NetEvent

end Alys
