import Alys.Chain.Miner
import Alys.Chain.Spending

/-!
# Signing the finalized proposals

When an AuxPow header is queued, a node with a signing key signs the peg-out proposals of the range
at once (`Chain::maybe_generate_signatures` in `app/src/chain.rs`), and every error on the way is
unwrapped. A validator registers a proposal when it imports the block, and the import is not
committed if that fails. So the wallet knows the proposals of all stored blocks and the outputs that
they spend (`upholds_tracks`), and the only error that remains is that of the walk over the range.
-/

namespace Alys
open Lib

/-! ## The proposals that a wallet tracks -/

/-- The peg-out proposals of the stored blocks. -/
def Storage.proposals (s : Storage) : Set Transaction :=
  { tx | ∃ root b, s.getBlock root = some b ∧ b.message.pegoutPaymentProposal = some tx }

/-- The peg-out proposal of a block. -/
def ConsensusBlock.proposals (m : ConsensusBlock) : Set Transaction :=
  { tx | m.pegoutPaymentProposal = some tx }

lemma Storage.proposals_extend {P} {s : Storage} {b fees advances} :
    (s.extend P b fees advances).proposals ⊆ s.proposals ∪ b.message.proposals := by
  rintro tx ⟨root, b', hget, htx⟩
  rcases lookup_insert_eq_some.mp hget with ⟨_, rfl⟩ | ⟨_, hget⟩
  · exact .inr htx
  · exact .inl ⟨root, b', hget, htx⟩

/-- The walk finds proposals of the store. -/
lemma Storage.mem_proposals_of_proposalsLoop {s : Storage} {start current fuel ret r}
    (e : s.proposalsLoop start fuel current ret = .ok r) (hret : ∀ tx ∈ ret, tx ∈ s.proposals) :
    ∀ tx ∈ r, tx ∈ s.proposals := by
  induction fuel generalizing current ret with
  | zero => cases e
  | succ fuel ih =>
    rw [proposalsLoop] at e
    split at e
    case h_1 => cases e
    case h_2 block hblock =>
      have hnext : ∀ tx ∈ ret ++ block.message.pegoutPaymentProposal.toList, tx ∈ s.proposals := by
        intro tx mem
        rcases List.mem_append.mp mem with mem | mem
        · exact hret tx mem
        · exact ⟨current, block, hblock, Option.mem_toList.mp mem⟩
      split at e
      case isTrue =>
        cases e
        exact fun tx mem => hnext tx (List.mem_reverse.mp mem)
      case isFalse => exact ih e hnext

namespace UtxoManager

/-- The wallet keeps transactions under their hashes, and it knows the given ones and the outputs
that they spend. -/
structure Tracks (P : Primitives) (T : Set Transaction) (w : UtxoManager) : Prop where
  keyed : ∀ txid tx, w.rawTxs.lookup txid = some tx → P.txid tx = txid
  known : ∀ tx ∈ T, P.txid tx ∈ w.rawTxs
  recorded : ∀ tx ∈ T, ∀ input ∈ tx.input, input.previousOutput ∈ w.utxos

variable {P : Primitives} {F : Federation} {T T' : Set Transaction} {w : UtxoManager}
  {tx : Transaction}

lemma tracks_empty : Tracks P ∅ empty := ⟨nofun, nofun, nofun⟩

lemma Tracks.mono (h : w.Tracks P T) (sub : T' ⊆ T) : w.Tracks P T' :=
  ⟨h.keyed, fun tx mem => h.known tx (sub mem), fun tx mem => h.recorded tx (sub mem)⟩

lemma Tracks.setRawTx (h : w.Tracks P T) : (w.setRawTx P tx).Tracks P T := by
  refine ⟨fun txid tx' e => ?_, fun tx' mem => ?_, h.recorded⟩
  · rcases lookup_insert_eq_some.mp e with ⟨rfl, rfl⟩ | ⟨_, e⟩
    · rfl
    · exact h.keyed txid tx' e
  · exact Finmap.mem_insert.mpr (.inr (h.known tx' mem))

lemma Tracks.registerUtxos {utxos : List LocalUtxo} (h : w.Tracks P T) :
    (w.registerUtxos utxos).Tracks P T := by
  refine ⟨?_, ?_, fun tx mem input hi => mem_registerUtxos (h.recorded tx mem input hi)⟩
  · rw [rawTxs_registerUtxos]
    exact h.keyed
  · rw [rawTxs_registerUtxos]
    exact h.known

lemma forEach_importPegin_tracks {rpc} {pegins : List (Txid × BlockHash)} :
    Action.Keeps (Tracks P T) (Action.forEach pegins (importPegin P F rpc)) :=
  .forEach fun _ _ => .lift_bind fun _ _ => .modify fun _ h => h.setRawTx.registerUtxos

/-- Marking the inputs of a transaction as spent fails unless they are recorded. -/
lemma forEach_markSpent_tracks {inputs : List TxIn} {txid : Txid} :
    Action.Triple (fun w => Tracks P T w ∧ txid ∈ w.rawTxs) (Action.forEach inputs markSpent)
      (fun _ w => Tracks P T w ∧ txid ∈ w.rawTxs ∧
        ∀ input ∈ inputs, input.previousOutput ∈ w.utxos) (Tracks P T) := by
  refine .of_pre (.forEach (I := fun (before : List TxIn) w => Tracks P T w ∧ txid ∈ w.rawTxs ∧
    ∀ input ∈ before, input.previousOutput ∈ w.utxos) ?_) fun w h => ⟨h.1, h.2, nofun⟩
  rintro before input after _ w ⟨h, hknown, hbefore⟩
  unfold markSpent
  cases e : w.utxos.lookup input.previousOutput with
  | none => exact h
  | some utxo =>
    have hset : ∀ o ∈ w.utxos, o ∈ (w.setUtxo { utxo with isSpent := true }).utxos :=
      fun o mem => Finmap.mem_insert.mpr (.inr mem)
    refine ⟨⟨h.keyed, h.known, fun tx mem input hi => hset _ (h.recorded tx mem input hi)⟩,
      hknown, fun input' mem => hset _ ?_⟩
    rcases List.mem_append.mp mem with mem | mem
    · exact hbefore input' mem
    · rw [List.mem_singleton.mp mem]
      exact Finmap.mem_of_lookup_eq_some e

/-- A peg-out that was registered is tracked. -/
lemma registerPegout_tracks :
    Action.Triple (Tracks P T) (registerPegout P F tx) (fun _ => Tracks P (T ∪ {tx}))
      (Tracks P T) := by
  have hraw : Action.Triple (Tracks P T)
      (Action.modify (UtxoManager.setRawTx P tx) : Action UtxoManager FederationError Unit)
      (fun _ w => Tracks P T w ∧ P.txid tx ∈ w.rawTxs) (Tracks P T) :=
    .modify fun w h => ⟨h.setRawTx, Finmap.mem_insert.mpr (.inl rfl)⟩
  refine .bind hraw fun _ => .bind forEach_markSpent_tracks fun _ => .modify fun w h => ?_
  obtain ⟨h, hknown, hinputs⟩ := h
  refine Tracks.registerUtxos ⟨h.keyed, fun tx' mem => ?_, fun tx' mem => ?_⟩
  · rcases mem with mem | rfl
    · exact h.known tx' mem
    · exact hknown
  · rcases mem with mem | rfl
    · exact h.recorded tx' mem
    · exact hinputs

lemma importPegs_tracks {rpc} {m : ConsensusBlock} :
    Action.Triple (Tracks P T) (importPegs P F rpc m) (fun _ => Tracks P (T ∪ m.proposals))
      (Tracks P T) := by
  refine .bind (.of_keeps forEach_importPegin_tracks) fun _ => ?_
  unfold ConsensusBlock.proposals
  cases m.pegoutPaymentProposal with
  | none => exact .pure fun w h => h.mono (Set.union_subset le_rfl nofun)
  | some tx =>
    refine .zoom (fun w _ w' h e => ?_) fun w _ w' h e => registerPegout_tracks.error h e
    refine (registerPegout_tracks.ok h e).mono (Set.union_subset_union_right T fun tx' e' => ?_)
    exact (Option.some.inj e').symm

end UtxoManager

/-- The wallet of a validator tracks the proposals of the stored blocks. -/
lemma upholds_tracks {P cfg Q A} (hv : cfg.isValidator = true) :
    Upholds P cfg Q A (fun k => k.bitcoinWallet.Tracks P k.storage.proposals)
      (fun _ _ => True) where
  fetch := fun _ h _ => ⟨h.registerUtxos, fun _ _ => trivial⟩
  valid := fun _ _ _ => trivial
  imports := by
    intro k env b k' _ h _ himp
    have wallet : Action.Triple (UtxoManager.Tracks P k.storage.proposals)
        (importWallet P cfg env b.message)
        (fun _ => UtxoManager.Tracks P (k.storage.proposals ∪ b.message.proposals))
        (UtxoManager.Tracks P k.storage.proposals) := by
      rw [importWallet, if_pos hv]
      exact UtxoManager.importPegs_tracks
    cases himp with
    | unchanged => exact h
    | stopped e => exact wallet.error h e
    | dropped e => exact (wallet.ok h e).mono Set.subset_union_left
    | committed fees e range => exact (wallet.ok h e).mono Storage.proposals_extend
  restart := fun h => h

/-! ## Signing -/

/-- The transactions that a node holds: the proposals of its store, those of its wallet and those
that it collects signatures for. -/
def Chain.Holds (c : Chain) (tx : Transaction) : Prop :=
  tx ∈ c.storage.proposals ∨ (∃ txid, c.bitcoinWallet.rawTxs.lookup txid = some tx) ∨
    ∃ txid psbt, c.bitcoinSignatureCollector.transactions.lookup txid = some psbt ∧
      psbt.unsignedTransaction = tx

/-- What is assumed of a node with a signing key: its signatures verify, the signature hash does not
cover the witnesses, no two of its transactions that differ in more have one hash, and its
collector holds transactions under their hashes. -/
structure Chain.CanSign (P : Primitives) (signer : BitcoinSigner) (c : Chain) : Prop where
  verifies : ∀ msg,
    P.verifySchnorr (signer.signSchnorr msg) msg (P.toXOnly signer.publicKey) = true
  sighash : SighashIgnoresWitnesses P
  txids : ∀ {tx tx'}, c.Holds tx → c.Holds tx' → P.txid tx = P.txid tx' → tx.unsigned = tx'.unsigned
  keyed : c.bitcoinSignatureCollector.Keyed P

/-- The signatures for a transaction that spends recorded outputs. -/
def BitcoinSigner.inputSignatures (P : Primitives) (F : Federation) (signer : BitcoinSigner)
    (w : UtxoManager) (tx : Transaction) : PublicKey × List SchnorrSignature :=
  (signer.publicKey,
    (List.range tx.input.length).map fun i => signer.signSchnorr (message P F w tx i))

lemma BitcoinSigner.getInputSignatures_eq {P F} {signer : BitcoinSigner} {w : UtxoManager}
    {tx : Transaction}
    (hrec : ∀ input ∈ tx.input, (w.utxos.lookup input.previousOutput).isSome) :
    signer.getInputSignatures P F w tx = .ok (signer.inputSignatures P F w tx) := by
  rw [getInputSignatures, UtxoManager.getSigningInputs_eq hrec]
  simp only [bind, Except.bind, pure, Except.pure, List.map_map]
  rfl

namespace BitcoinSignatureCollector

/-- The collector has, or can create, an entry for each of the given transactions. -/
def Covers (P : Primitives) (w : UtxoManager) (T : Set Transaction)
    (c : BitcoinSignatureCollector) : Prop :=
  ∀ tx ∈ T, ∃ psbt, c.entry w (P.txid tx) = .ok psbt ∧
    psbt.unsignedTransaction.unsigned = tx.unsigned

variable {P : Primitives} {F : Federation} {w : UtxoManager} {T : Set Transaction}
  {c : BitcoinSignatureCollector} {psbt : PartiallySignedTaprootTransaction}

lemma entry_insert {txid : Txid} :
    entry w txid ⟨c.transactions.insert txid psbt⟩ = .ok psbt := by
  rw [entry, Finmap.lookup_insert]

lemma entry_insert_of_ne {txid txid' : Txid} (ne : txid' ≠ txid) :
    entry w txid' ⟨c.transactions.insert txid psbt⟩ = c.entry w txid' := by
  rw [entry, entry, Finmap.lookup_insert_of_ne _ ne]

/-- An entry may be replaced by one for the same transaction. -/
lemma Covers.insert {txid psbt psbt'} (h : c.Covers P w T) (e : c.entry w txid = .ok psbt)
    (same : psbt'.unsignedTransaction = psbt.unsignedTransaction) :
    Covers P w T ⟨c.transactions.insert txid psbt'⟩ := by
  intro tx mem
  obtain ⟨psbt'', hentry, hunsigned⟩ := h tx mem
  by_cases eq : P.txid tx = txid
  · rw [eq, e, Except.ok.injEq] at hentry
    rw [eq, entry_insert]
    exact ⟨psbt', rfl, by rw [same, hentry, hunsigned]⟩
  · rw [entry_insert_of_ne eq]
    exact ⟨psbt'', hentry, hunsigned⟩

/-- The signatures of a covered transaction are stored. -/
lemma Covers.addSignature {tx sigs} (h : c.Covers P w T) (mem : tx ∈ T)
    (valid : ∀ tx', tx'.unsigned = tx.unsigned → w.checkInputSignatures P F tx' sigs = .ok ()) :
    ∃ c', c.addSignature P F w (P.txid tx) sigs = (.ok (), c') ∧ c'.Covers P w T := by
  obtain ⟨psbt, hentry, hunsigned⟩ := h tx mem
  unfold BitcoinSignatureCollector.addSignature
  simp only [hentry, valid _ hunsigned]
  split
  · exact ⟨_, rfl, h.insert hentry rfl⟩
  · exact ⟨_, rfl, h.insert hentry rfl⟩

end BitcoinSignatureCollector

namespace Chain.CanSign

variable {P : Primitives} {signer : BitcoinSigner} {c : Chain}

lemma covers (h : c.CanSign P signer) (tracks : c.bitcoinWallet.Tracks P c.storage.proposals) :
    c.bitcoinSignatureCollector.Covers P c.bitcoinWallet c.storage.proposals := by
  intro tx mem
  unfold BitcoinSignatureCollector.entry
  cases e : c.bitcoinSignatureCollector.transactions.lookup (P.txid tx) with
  | some psbt =>
    exact ⟨psbt, rfl, h.txids (.inr (.inr ⟨_, psbt, e, rfl⟩)) (.inl mem) (h.keyed _ _ e)⟩
  | none =>
    obtain ⟨tx', e'⟩ := Finmap.mem_iff.mp (tracks.known tx mem)
    refine ⟨.new tx', by simp [UtxoManager.getTransaction, e', Except.map], ?_⟩
    exact h.txids (.inr (.inl ⟨_, e'⟩)) (.inl mem) (tracks.keyed _ _ e')

/-- The node's signatures are valid for the transaction with any witnesses. -/
lemma checkInputSignatures_ok (h : c.CanSign P signer) {F : Federation} {w : UtxoManager}
    {tx tx' : Transaction} (same : tx'.unsigned = tx.unsigned)
    (hrec : ∀ input ∈ tx.input, (w.utxos.lookup input.previousOutput).isSome) :
    w.checkInputSignatures P F tx' (signer.inputSignatures P F w tx) = .ok () := by
  refine (UtxoManager.checkInputSignatures_ok_iff
    (UtxoManager.recorded_of_unsigned same.symm hrec)).mpr ⟨?_, fun i sig e => ?_⟩
  · have hlen := congrArg List.length (Transaction.outpoints_eq same)
    simpa [BitcoinSigner.inputSignatures] using hlen.symm
  · rw [BitcoinSigner.inputSignatures, List.getElem?_map, Option.map_eq_some_iff] at e
    obtain ⟨j, hj, rfl⟩ := e
    obtain ⟨_, rfl⟩ := List.getElem?_eq_some_iff.mp hj
    rw [message_of_unsigned h.sighash same, List.getElem_range]
    exact h.verifies _

end Chain.CanSign

/-- Valid signatures of covered transactions are stored. -/
lemma storeSignatures_ok {P cfg} {c : Chain} {T : Set Transaction}
    {sigs : List (Txid × PublicKey × List SchnorrSignature)}
    (covers : c.bitcoinSignatureCollector.Covers P c.bitcoinWallet T)
    (valid : ∀ x ∈ sigs, ∃ tx ∈ T, x.1 = P.txid tx ∧ ∀ tx', tx'.unsigned = tx.unsigned →
      c.bitcoinWallet.checkInputSignatures P cfg.bitcoinFederation tx' x.2 = .ok ()) :
    ∃ c', storeSignatures P cfg sigs c = (.ok (), c') := by
  have stores : Action.Triple
      (fun c' => c'.bitcoinWallet = c.bitcoinWallet ∧
        c'.bitcoinSignatureCollector.Covers P c.bitcoinWallet T)
      (storeSignatures P cfg sigs) (fun _ _ => True) (fun _ => False) := by
    refine .weaken (.forEach (I := fun _ c' => c'.bitcoinWallet = c.bitcoinWallet ∧
      c'.bitcoinSignatureCollector.Covers P c.bitcoinWallet T) ?_) (fun _ h => h)
      (fun _ _ _ => trivial) fun _ h => h
    rintro before x after rfl c' ⟨hw, hcovers⟩
    obtain ⟨tx, mem, htxid, hvalid⟩ := valid x (by simp)
    obtain ⟨collector, e, hcovers'⟩ := hcovers.addSignature mem hvalid
    simp only [Action.bind_apply, Action.get_apply, Action.zoom, hw, htxid, e, mapError_ok]
    exact ⟨trivial, hcovers'⟩
  obtain ⟨_, c', e, _⟩ := stores.exists_ok ⟨rfl, covers⟩
  exact ⟨c', e⟩

/-- The signing of the proposals in a range succeeds if the walk over the range does. -/
lemma maybeGenerateSignatures_ok_iff {P cfg signer} {pow : AuxPowHeader} {c : Chain}
    (h : c.CanSign P signer) (tracks : c.bitcoinWallet.Tracks P c.storage.proposals) :
    (maybeGenerateSignatures P cfg (some signer) pow c).1 = .ok () ↔
      ∃ proposals, c.storage.getBitcoinPaymentProposalsInRange pow.rangeStart pow.rangeEnd =
        .ok proposals := by
  simp only [maybeGenerateSignatures, Action.bind_apply, Action.get_apply, Action.lift_apply]
  cases hrange : c.storage.getBitcoinPaymentProposalsInRange pow.rangeStart pow.rangeEnd with
  | error e => simp
  | ok proposals =>
    have mem : ∀ tx ∈ proposals, tx ∈ c.storage.proposals :=
      Storage.mem_proposals_of_proposalsLoop hrange (by simp)
    have hrec : ∀ tx ∈ proposals, ∀ input ∈ tx.input,
        (c.bitcoinWallet.utxos.lookup input.previousOutput).isSome :=
      fun tx htx input hi => Finmap.lookup_isSome.mpr (tracks.recorded tx (mem tx htx) input hi)
    have hsigs : (proposals.mapM fun tx => do
        let sig ← liftFederation
          (signer.getInputSignatures P cfg.bitcoinFederation c.bitcoinWallet tx)
        return (P.txid tx, sig)) =
        .ok (proposals.map fun tx =>
          (P.txid tx, signer.inputSignatures P cfg.bitcoinFederation c.bitcoinWallet tx)) :=
      mapM_eq_ok fun tx htx => by
        rw [BitcoinSigner.getInputSignatures_eq (hrec tx htx)]
        rfl
    have hstores : ∃ c', storeSignatures P cfg (proposals.map fun tx =>
        (P.txid tx, signer.inputSignatures P cfg.bitcoinFederation c.bitcoinWallet tx)) c =
        (.ok (), c') := by
      refine storeSignatures_ok (h.covers tracks) fun x hx => ?_
      obtain ⟨tx, htx, rfl⟩ := List.mem_map.mp hx
      exact ⟨tx, mem tx htx, rfl, fun tx' same => h.checkInputSignatures_ok same (hrec tx htx)⟩
    obtain ⟨c', e⟩ := hstores
    simp only [hsigs, Action.zoom, id, e, mapError_ok, Except.ok.injEq, exists_eq']

end Alys
