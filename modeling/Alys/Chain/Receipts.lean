import Alys.Chain.Steps

/-!
# Receipts

`Chain::get_block_and_receipts` of `app/src/chain.rs` queries the receipt of each transaction of an
execution block. A query that fails is skipped, and so is one that finds no receipt. The fees pair
the receipts that are left with the transactions by position, and the peg-outs are taken from them.
Two nodes whose queries fail in different places so disagree on both
(`receipts_complete_fails`), unless every query is answered (`receipts_complete_iff`).
-/

namespace Alys
open Lib

/-! ## The queries -/

/-- `ENGINE_API_QUERY_RETRY_COUNT`. -/
def engineApiQueryRetryCount : Nat := 1

/-- The outcomes of the queries for receipts, by transaction and attempt: `none` for an error, and
`some none` if there is no receipt. -/
abbrev ReceiptQueries := Hash256 → Nat → Option (Option TransactionReceipt)

/-- `Engine::get_transaction_receipt` in `app/src/engine.rs`: the outcome of the first attempt that
does not fail. -/
def ReceiptQueries.getTransactionReceipt (queries : ReceiptQueries) (hash : Hash256) :
    Option (Option TransactionReceipt) :=
  (List.range engineApiQueryRetryCount).findSome? (queries hash)

/-- The environment of a node with these queries. -/
def Env.querying (env : Env) (queries : ReceiptQueries) : Env :=
  { env with getTransactionReceipt := fun hash => (queries.getTransactionReceipt hash).join }

/-! ## What the answers stand for -/

/-- The blocks and receipts that the execution layers of all nodes agree on. -/
structure ExecutionLayer where
  block : ExecutionBlockHash → ExecutionBlock
  receipt : Hash256 → TransactionReceipt

/-- What the tip of a transaction is, without the checks. -/
def ExecutionTransaction.tip (tx : ExecutionTransaction) (baseFee : Nat) : Nat :=
  min (tx.maxPriorityFeePerGas.getD (tx.gasPrice.getD 0))
    (tx.maxFeePerGas.getD (tx.gasPrice.getD 0) - baseFee)

/-- What a transaction pays, with its receipt: the gas used times the tip. -/
def ExecutionTransaction.fee (baseFeePerGas : Option Nat) (tx : ExecutionTransaction)
    (receipt : TransactionReceipt) : Nat :=
  receipt.gasUsed.getD 0 * tx.tip (baseFeePerGas.getD 0)

namespace ExecutionLayer

/-- The receipts of a block, in the order of its transactions. -/
def receipts (el : ExecutionLayer) (hash : ExecutionBlockHash) : List TransactionReceipt :=
  (el.block hash).transactions.map fun tx => el.receipt tx.hash

/-- The fees of a block. -/
def fees (el : ExecutionLayer) (hash : ExecutionBlockHash) : Nat :=
  ((el.block hash).transactions.map fun tx =>
    tx.fee (el.block hash).baseFeePerGas (el.receipt tx.hash)).sum

/-- A node may get errors and miss receipts, but what it gets is right. -/
structure Answers (el : ExecutionLayer) (env : Env) (queries : ReceiptQueries) : Prop where
  block : ∀ hash block, env.getBlockWithTxs hash = .ok (some block) → block = el.block hash
  receipt : ∀ hash i receipt, queries hash i = some (some receipt) → receipt = el.receipt hash

end ExecutionLayer

/-- A node that gets a block gets one receipt for each transaction, in their order, and the fees
that it stores are those of the transactions, on top of the fees at the parent. -/
structure ReceiptsComplete (el : ExecutionLayer) (env : Env) (hash : ExecutionBlockHash) :
    Prop where
  receipts : ∀ block receipts, env.getBlockAndReceipts hash = .ok (block, receipts) →
    block = el.block hash ∧ receipts = el.receipts hash
  fees : ∀ P s b block receipts ops, env.getBlockAndReceipts hash = .ok (block, receipts) →
    accumulateFees P s b block receipts = .ok ops →
    ops = [.putBlockFees (b.canonicalRoot P) ((if b.message.auxpowHeader.isSome then 0
      else (s.blockFees.lookup b.message.parentHash).getD 0) + el.fees hash)]

/-- Two nodes that get a block see the same peg-outs, and store the same fees for it if they have
the same at the parent. -/
structure ReceiptsAgree (env env' : Env) (hash : ExecutionBlockHash) : Prop where
  stored : ∀ P s s' b block block' receipts receipts' ops ops',
    env.getBlockAndReceipts hash = .ok (block, receipts) →
    env'.getBlockAndReceipts hash = .ok (block', receipts') →
    s.blockFees.lookup b.message.parentHash = s'.blockFees.lookup b.message.parentHash →
    accumulateFees P s b block receipts = .ok ops →
    accumulateFees P s' b block' receipts' = .ok ops' → ops = ops'
  pegouts : ∀ P block block' receipts receipts',
    env.getBlockAndReceipts hash = .ok (block, receipts) →
    env'.getBlockAndReceipts hash = .ok (block', receipts') →
    filterPegouts P receipts = filterPegouts P receipts'

/-- Every query for a transaction of the block finds a receipt. -/
def Answered (env : Env) (queries : ReceiptQueries) (hash : ExecutionBlockHash) : Prop :=
  ∀ block, env.getBlockWithTxs hash = .ok (some block) → ∀ tx ∈ block.transactions,
    ∃ receipt, queries.getTransactionReceipt tx.hash = some (some receipt)

/-! ## The fees -/

lemma effectiveGasTip_ok {tx : ExecutionTransaction} {baseFee tip : Nat}
    (e : tx.effectiveGasTip baseFee = .ok tip) : tip = tx.tip baseFee := by
  simp only [ExecutionTransaction.effectiveGasTip, bind_eq_ok_iff, guard_eq_ok_iff,
    okOr_eq_ok_iff] at e
  obtain ⟨gasPrice, hprice, _, e⟩ := e
  cases e
  rw [ExecutionTransaction.tip, hprice, Option.getD_some]

/-- The fees are the sum over the receipts. -/
lemma totalFees_ok {block : ExecutionBlock} {receipts : List TransactionReceipt} {fees : Nat}
    (e : totalFees block receipts = .ok fees) :
    fees =
      ((block.transactions.zip receipts).map fun x => x.1.fee block.baseFeePerGas x.2).sum := by
  refine foldlM_invariant (I := fun before fees =>
    fees = (before.map fun x => x.1.fee block.baseFeePerGas x.2).sum) e rfl ?_
  rintro before ⟨tx, receipt⟩ sum sum' hsum hnext
  simp only [bind_eq_ok_iff, okOr_eq_ok_iff] at hnext
  obtain ⟨baseFee, hbase, tip, htip, gasUsed, hgas, fee, hfee, hnext⟩ := hnext
  rw [checkedU256_eq_ok hnext, checkedU256_eq_ok hfee, effectiveGasTip_ok htip, hsum]
  simp [ExecutionTransaction.fee, hbase, hgas]

/-- With its receipt for each transaction the fees are those of the block. -/
lemma totalFees_receipts {el : ExecutionLayer} {hash : ExecutionBlockHash} {fees : Nat}
    (e : totalFees (el.block hash) (el.receipts hash) = .ok fees) : fees = el.fees hash := by
  rw [totalFees_ok e, ExecutionLayer.receipts, ExecutionLayer.fees, List.map_zip_eq_zipWith,
    List.zipWith_map_right, List.zipWith_self]
  rfl

/-! ## The receipts -/

section

variable {el : ExecutionLayer} {env env' : Env} {queries queries' : ReceiptQueries}
  {hash : ExecutionBlockHash}

lemma Env.getBlockAndReceipts_eq_ok_iff {block receipts} :
    env.getBlockAndReceipts hash = .ok (block, receipts) ↔
      env.getBlockWithTxs hash = .ok (some block) ∧
        receipts = block.transactions.filterMap fun tx => env.getTransactionReceipt tx.hash := by
  simp only [getBlockAndReceipts, bind_eq_ok_iff, okOr_eq_ok_iff]
  constructor
  · rintro ⟨_, hblock, block', rfl, e⟩
    cases e
    exact ⟨hblock, rfl⟩
  · rintro ⟨hblock, rfl⟩
    exact ⟨_, hblock, block, rfl, rfl⟩

/-- What a query finds is the receipt of the transaction. -/
lemma ExecutionLayer.Answers.found (h : el.Answers env queries) {txHash : Hash256}
    {receipt : TransactionReceipt}
    (e : queries.getTransactionReceipt txHash = some (some receipt)) :
    receipt = el.receipt txHash := by
  obtain ⟨i, _, hi⟩ := List.exists_of_findSome?_eq_some e
  exact h.receipt txHash i receipt hi

/-- The list is complete if and only if no query was skipped. -/
lemma receipts_eq_iff (h : el.Answers env queries) {block}
    (hblock : env.getBlockWithTxs hash = .ok (some block)) :
    (block.transactions.filterMap fun tx => (queries.getTransactionReceipt tx.hash).join) =
        el.receipts hash ↔
      ∀ tx ∈ block.transactions,
        ∃ receipt, queries.getTransactionReceipt tx.hash = some (some receipt) := by
  have hreceipts : el.receipts hash =
      block.transactions.filterMap fun tx => some (el.receipt tx.hash) := by
    rw [ExecutionLayer.receipts, h.block hash block hblock, List.filterMap_eq_map']
  have hskip : ∀ tx ∈ block.transactions, (queries.getTransactionReceipt tx.hash).join = none ∨
      (queries.getTransactionReceipt tx.hash).join = some (el.receipt tx.hash) := by
    intro tx _
    rcases e : queries.getTransactionReceipt tx.hash with _ | _ | receipt
    · exact .inl rfl
    · exact .inl rfl
    · exact .inr (congrArg some (h.found e))
  rw [hreceipts]
  constructor
  · intro e tx mem
    have hfound := filterMap_eq_of_imp hskip e tx mem
    exact ⟨_, Option.join_eq_some_iff.mp hfound⟩
  · intro answered
    refine List.filterMap_congr fun tx mem => ?_
    obtain ⟨receipt, e⟩ := answered tx mem
    rw [e, ← h.found e]
    rfl

/-- A node gets the receipts of the block, with its fees, if and only if its queries are answered.
-/
lemma receiptsComplete_iff_answered (h : el.Answers env queries) :
    ReceiptsComplete el (env.querying queries) hash ↔ Answered env queries hash := by
  constructor
  · intro complete block hblock
    refine (receipts_eq_iff h hblock).mp ?_
    exact (complete.receipts block _ (Env.getBlockAndReceipts_eq_ok_iff.mpr ⟨hblock, rfl⟩)).2
  · intro answered
    have hreceipts : ∀ block receipts,
        (env.querying queries).getBlockAndReceipts hash = .ok (block, receipts) →
        block = el.block hash ∧ receipts = el.receipts hash := by
      intro block receipts e
      obtain ⟨hblock, rfl⟩ := Env.getBlockAndReceipts_eq_ok_iff.mp e
      exact ⟨h.block hash block hblock, (receipts_eq_iff h hblock).mpr (answered block hblock)⟩
    refine ⟨hreceipts, fun P s b block receipts ops e hops => ?_⟩
    obtain ⟨rfl, rfl⟩ := hreceipts block receipts e
    obtain ⟨fees, rfl⟩ := accumulateFees_ok hops
    obtain ⟨blockFees, htotal, rfl⟩ := accumulateFees_eq_ok hops
    rw [totalFees_receipts htotal]

/-- Nodes with complete receipts agree. -/
lemma ReceiptsComplete.agree {env env' : Env} (h : ReceiptsComplete el env hash)
    (h' : ReceiptsComplete el env' hash) : ReceiptsAgree env env' hash where
  stored P s s' b block block' receipts receipts' ops ops' e e' hfees hops hops' := by
    rw [h.fees P s b block receipts ops e hops, h'.fees P s' b block' receipts' ops' e' hops',
      hfees]
  pegouts P block block' receipts receipts' e e' := by
    rw [(h.receipts block receipts e).2, (h'.receipts block' receipts' e').2]

end

/-- Both nodes get complete receipts and agree if and only if all queries of both are answered. -/
theorem receipts_complete_iff {el : ExecutionLayer} {env env' : Env}
    {queries queries' : ReceiptQueries} (hash : ExecutionBlockHash)
    (h : el.Answers env queries) (h' : el.Answers env' queries') :
    (ReceiptsComplete el (env.querying queries) hash ∧
        ReceiptsComplete el (env'.querying queries') hash ∧
        ReceiptsAgree (env.querying queries) (env'.querying queries') hash) ↔
      Answered env queries hash ∧ Answered env' queries' hash := by
  constructor
  · rintro ⟨complete, complete', _⟩
    exact ⟨(receiptsComplete_iff_answered h).mp complete,
      (receiptsComplete_iff_answered h').mp complete'⟩
  · rintro ⟨answered, answered'⟩
    have complete := (receiptsComplete_iff_answered h).mpr answered
    have complete' := (receiptsComplete_iff_answered h').mpr answered'
    exact ⟨complete, complete', complete.agree complete'⟩

/-- An execution layer for closed examples: a block with two transactions, which use one gas each at
prices of 3 and 5. -/
def ExecutionLayer.toy : ExecutionLayer where
  block _ := ⟨some 0, [⟨[1], some 3, none, none⟩, ⟨[2], some 5, none, none⟩]⟩
  receipt _ := ⟨none, [], some 1⟩

/-- A node that gets its block. -/
def Env.toyBlock : Env :=
  { Env.toy with getBlockWithTxs := fun hash => .ok (some (ExecutionLayer.toy.block hash)) }

/-- Queries that are answered, but for the transactions for which they fail. -/
def ReceiptQueries.toy (fails : Hash256 → Bool) : ReceiptQueries := fun hash _ =>
  if fails hash then none else some (some (ExecutionLayer.toy.receipt hash))

lemma ExecutionLayer.toy_answers (fails : Hash256 → Bool) :
    ExecutionLayer.toy.Answers .toyBlock (.toy fails) where
  block hash block e := by
    cases e
    rfl
  receipt hash i receipt e := by
    unfold ReceiptQueries.toy at e
    split at e
    case isTrue => cases e
    case isFalse =>
      cases e
      rfl

/-- Two nodes whose queries are answered. -/
theorem receipts_complete_answered :
    let env := Env.toyBlock.querying (.toy fun _ => false)
    ReceiptsComplete .toy env [0] ∧ ReceiptsComplete .toy env [0] ∧ ReceiptsAgree env env [0] := by
  have answered : Answered .toyBlock (.toy fun _ => false) [0] := fun block _ tx _ => ⟨_, rfl⟩
  have h := ExecutionLayer.toy_answers fun _ => false
  exact (receipts_complete_iff [0] h h).mpr ⟨answered, answered⟩

/-- The query of one node for the first receipt fails: it pairs the second receipt with the first
transaction and stores fees of 3, the other node fees of 8. -/
theorem receipts_complete_fails :
    ¬ ∀ (el : ExecutionLayer) (env env' : Env) (queries queries' : ReceiptQueries)
      (hash : ExecutionBlockHash), el.Answers env queries → el.Answers env' queries' →
      ReceiptsComplete el (env.querying queries) hash ∧
        ReceiptsComplete el (env'.querying queries') hash ∧
        ReceiptsAgree (env.querying queries) (env'.querying queries') hash := by
  intro all
  obtain ⟨_, _, agree⟩ := all .toy .toyBlock .toyBlock (.toy (· = [1])) (.toy fun _ => false)
    [0] (ExecutionLayer.toy_answers _) (ExecutionLayer.toy_answers _)
  have same := agree.stored .toy .toy .toy (.toy 1 0) _ _ _ _
    [.putBlockFees (toyRoot 1 0) 3] [.putBlockFees (toyRoot 1 0) 8] rfl rfl rfl rfl rfl
  simp at same

end Alys
