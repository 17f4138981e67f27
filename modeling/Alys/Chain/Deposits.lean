import Alys.Chain.Steps

/-!
# Deposits

A deposit is credited when a block that lists its transaction is imported. Validation refuses a
listed transaction that the wallet knows, and the import registers every listed transaction, also
when it fails later. Since an import clears the cached candidates, no transaction is credited by two
imports of a validator. Nothing compares the entries of one block with each other, though, so a
transaction can be credited twice by one import (`credited_nodup_iff`).
-/

namespace Alys
open Lib

/-- The transactions whose deposits a block credits. -/
def ConsensusBlock.peginTxids (m : ConsensusBlock) : List Txid := m.pegins.map (·.1)

/-- The transactions credited by imports, one entry for each credit. -/
def credited (imported : List Import) : List Txid :=
  imported.flatMap fun i => i.block.message.peginTxids

/-- The Bitcoin node returns for a hash the transaction with that hash. -/
def BitcoinRpc.Faithful (P : Primitives) (rpc : BitcoinRpc) : Prop :=
  ∀ txid blockHash tx, rpc.getRawTransaction txid blockHash = some tx → P.txid tx = txid

/-! ## The transactions that a wallet knows -/

namespace UtxoManager

/-- The wallet knows the given transactions. -/
def Knows (txids : List Txid) (w : UtxoManager) : Prop := ∀ txid ∈ txids, txid ∈ w.rawTxs

variable {w : UtxoManager}

lemma Knows.left {txids txids' : List Txid} (h : w.Knows (txids ++ txids')) :
    w.Knows txids :=
  fun txid mem => h txid (List.mem_append_left _ mem)

@[simp] lemma rawTxs_registerUtxos {utxos : List LocalUtxo} {w : UtxoManager} :
    (w.registerUtxos utxos).rawTxs = w.rawTxs := by
  unfold registerUtxos
  induction utxos generalizing w with
  | nil => rfl
  | cons utxo utxos ih => rw [List.foldl_cons, ih]; rfl

lemma mem_registerUtxos {utxos : List LocalUtxo} {o} (h : o ∈ w.utxos) :
    o ∈ (w.registerUtxos utxos).utxos := by
  induction utxos generalizing w with
  | nil => exact h
  | cons utxo utxos ih => exact ih (Finmap.mem_insert.mpr (.inr h))

lemma getTx_eq_none_iff {txid} : w.getTx txid = none ↔ txid ∉ w.rawTxs :=
  Finmap.lookup_eq_none

lemma Knows.setRawTx {P txids tx} (h : w.Knows txids) :
    (w.setRawTx P tx).Knows txids :=
  fun txid mem => Finmap.mem_insert.mpr (.inr (h txid mem))

/-- Registering a deposit makes its transaction known. -/
lemma Knows.registerPegin {P F txids tx} (h : w.Knows txids) :
    (w.registerPegin P F tx).Knows (txids ++ [P.txid tx]) := by
  intro txid mem
  simp only [UtxoManager.registerPegin, registerOutputsFrom, rawTxs_registerUtxos]
  rcases List.mem_append.mp mem with mem | mem
  · exact h.setRawTx txid mem
  · exact Finmap.mem_insert.mpr (.inl (List.mem_singleton.mp mem))

lemma registerPegout_keeps {P F txids tx} :
    Action.Keeps (Knows txids) (registerPegout P F tx) := by
  refine .bind (.modify fun w h => h.setRawTx) fun _ => ?_
  refine .bind (.forEach fun input _ w h => ?_) fun _ => .modify fun w h => ?_
  · unfold markSpent
    split <;> exact h
  · intro txid mem
    rw [registerOutputsFrom, rawTxs_registerUtxos]
    exact h txid mem

lemma importPegout_keeps {P F txids pegout} :
    Action.Keeps (Knows txids) (importPegout P F pegout) := by
  cases pegout with
  | none => exact .pure
  | some tx => exact .zoom registerPegout_keeps

/-- All peg-ins are registered. -/
lemma forEach_importPegin_knows {P F rpc txids} {pegins : List (Txid × BlockHash)}
    (hrpc : rpc.Faithful P) :
    Action.Triple (Knows txids) (Action.forEach pegins (importPegin P F rpc))
      (fun _ => Knows (txids ++ pegins.map (·.1))) (Knows txids) := by
  refine .of_pre (.forEach (I := fun before : List (Txid × BlockHash) =>
    Knows (txids ++ before.map (·.1))) ?_) (by simp)
  intro before pegin after _
  refine .lift_bind (fun tx e => .modify fun w h => ?_) fun w h => h.left
  have htxid : P.txid tx = pegin.1 := by
    unfold okOr at e
    split at e
    case h_1 tx' e' => cases e; exact hrpc _ _ _ e'
    case h_2 => cases e
  rw [List.map_append, ← List.append_assoc, List.map_singleton, ← htxid]
  exact h.registerPegin

/-- An import makes the transactions of the block's peg-ins known, and forgets none when it fails.
-/
lemma importPegs_knows {P F rpc txids} {m : ConsensusBlock} (hrpc : rpc.Faithful P) :
    Action.Triple (Knows txids) (importPegs P F rpc m) (fun _ => Knows (txids ++ m.peginTxids))
      (Knows txids) := by
  refine .bind (forEach_importPegin_knows hrpc) fun _ => ?_
  exact .weaken (.of_keeps importPegout_keeps) (fun _ h => h) (fun _ _ h => h) fun _ h => h.left

end UtxoManager

/-! ## Runs -/

lemma checkWithdrawals_unknown {P cfg rpc s w b} (e : checkWithdrawals P cfg rpc s w b = .ok ()) :
    ∀ txid ∈ b.message.peginTxids, txid ∉ w.rawTxs := by
  simp only [checkWithdrawals, bind_eq_ok_iff] at e
  obtain ⟨_, _, _, he, _⟩ := e
  intro txid mem
  obtain ⟨pegin, hp, rfl⟩ := List.mem_map.mp mem
  rw [← UtxoManager.getTx_eq_none_iff]
  refine forall_of_foldlM_eq_ok (p := fun pegin => w.getTx pegin.1 = none) he
    (fun _ pegin _ e' => ?_) pegin hp
  unfold expectPegin at e'
  split at e'
  case isTrue => cases e'
  case isFalse h => simpa using h

/-- Different imports credit different transactions, and the wallet knows all of them. -/
structure CreditedOnce (k : Core) : Prop where
  disjoint : k.imported.Pairwise fun i j =>
    List.Disjoint i.block.message.peginTxids j.block.message.peginTxids
  known : k.bitcoinWallet.Knows (credited k.imported)

/-- A cached block lists transactions that the wallet does not know. -/
def Uncredited (k : Core) (m : ConsensusBlock) : Prop :=
  ∀ txid ∈ m.peginTxids, txid ∉ k.bitcoinWallet.rawTxs

lemma importWallet_knows {P cfg env txids m} (hv : cfg.isValidator = true)
    (hrpc : env.rpc.Faithful P) :
    Action.Triple (UtxoManager.Knows txids) (importWallet P cfg env m)
      (fun _ => UtxoManager.Knows (txids ++ m.peginTxids)) (UtxoManager.Knows txids) := by
  rw [importWallet, if_pos hv]
  exact UtxoManager.importPegs_knows hrpc

/-- Every step of a validator keeps these properties. -/
lemma upholds_creditedOnce {P cfg} (hv : cfg.isValidator = true) :
    Upholds P cfg (fun env => env.rpc.Faithful P) (fun _ _ _ => True) CreditedOnce Uncredited where
  fetch := by
    intro k env b missing _ h _
    refine ⟨⟨h.disjoint, fun txid mem => ?_⟩, fun m hm txid mem => ?_⟩
    · simpa [Core.registerUtxos] using h.known txid mem
    · simpa [Core.registerUtxos] using hm txid mem
  valid := by
    intro k env b missing _ _ hb txid mem
    simpa [Core.registerUtxos] using checkWithdrawals_unknown (hb.withdrawals hv) txid mem
  imports := by
    intro k env b k' hrpc h hm himp
    -- the transactions of earlier imports were known when the block was checked
    have fresh : ∀ txid ∈ credited k.imported, txid ∉ b.message.peginTxids :=
      fun txid mem hb => hm txid hb (h.known txid mem)
    obtain ⟨disjoint, known⟩ := himp.usesOnce UtxoManager.Knows.left (importWallet_knows hv hrpc)
      h.disjoint h.known fresh
    exact ⟨disjoint, known⟩
  restart := fun h => ⟨h.disjoint, h.known⟩

/-- In every run of a validator, every transaction is credited at most once, by one entry of one
imported block, if and only if no imported block lists a transaction twice. -/
theorem credited_nodup_iff {P : Primitives} {cfg : ChainConfig} {s : Storage} {w : UtxoManager}
    {c : Chain} (hv : cfg.isValidator = true)
    (run : NodeRun P cfg (fun env => env.rpc.Faithful P) (fun _ _ _ => True) (Chain.new s w) c) :
    (credited c.imported).Nodup ↔ ∀ i ∈ c.imported, i.block.message.peginTxids.Nodup := by
  have once := (upholds_creditedOnce hv).run run ⟨List.Pairwise.nil, nofun⟩ rfl
  rw [credited, List.nodup_flatMap]
  exact and_iff_left once.disjoint

lemma BitcoinRpc.toy_faithful : BitcoinRpc.toy.Faithful .toy := by
  intro txid blockHash tx e
  simp only [BitcoinRpc.toy, Option.ite_none_right_eq_some, Option.some.injEq] at e
  obtain ⟨h, rfl⟩ := e
  rw [h]
  simp [Primitives.toy]

/-- A validator imports a block that lists two deposits of 1000 satoshi. -/
theorem credited_nodup_two_deposits :
    credited (Chain.toyAfter [.toyPegin [[1], [1, 1]] [⟨[7], 20000⟩]]).imported = [[1], [1, 1]] ∧
    (credited (Chain.toyAfter [.toyPegin [[1], [1, 1]] [⟨[7], 20000⟩]]).imported).Nodup :=
  ⟨by decide, (credited_nodup_iff rfl
    (Chain.toyAfter_snoc Chain.toyAfter_nil BitcoinRpc.toy_faithful trivial)).mpr (by decide)⟩

/-- A validator imports a block that lists one deposit of 1000 satoshi twice and pays 20000 gwei. -/
theorem credited_twice :
    ¬ ∀ (P : Primitives) (cfg : ChainConfig) (s : Storage) (w : UtxoManager) (c : Chain),
      cfg.isValidator = true →
      NodeRun P cfg (fun env => env.rpc.Faithful P) (fun _ _ _ => True) (Chain.new s w) c →
      (credited c.imported).Nodup := by
  intro all
  have nodup := all _ _ _ _ (Chain.toyAfter [.toyPegin [[1], [1]] [⟨[7], 20000⟩]]) rfl
    (Chain.toyAfter_snoc Chain.toyAfter_nil BitcoinRpc.toy_faithful trivial)
  have twice : credited (Chain.toyAfter [.toyPegin [[1], [1]] [⟨[7], 20000⟩]]).imported =
      [[1], [1]] := by decide
  rw [twice] at nodup
  exact absurd nodup (by decide)

end Alys
