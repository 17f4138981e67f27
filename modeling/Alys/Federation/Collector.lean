import Alys.Federation.Wallet
import Alys.Lib.Capped
import Alys.Lib.Maps

/-!
# Collecting signatures

Model of `PartiallySignedTaprootTransaction` and `BitcoinSignatureCollector` in
`crates/federation/src/bitcoin_signing.rs`: the lists of signatures that the members offer for a
peg-out transaction are checked one by one, kept by public key up to the threshold, and put on the
witness stacks of the inputs.

A list is checked against the key it comes with; whether that key belongs to the federation is not.
So the keys kept are the first `threshold` distinct keys that offered a valid list, of whoever they
are (`collect_lookup`), while the witness stack has a place for members only. `collect_exact_iff`
says for which sequences of offers the collection is right all the same.
-/

namespace Alys
open Lib

/-! ## The code -/

structure PartiallySignedTaprootTransaction where
  unsignedTransaction : Transaction
  verifiedSignatures : Map PublicKey (List SchnorrSignature)

namespace PartiallySignedTaprootTransaction

def new (unsignedTransaction : Transaction) : PartiallySignedTaprootTransaction :=
  ⟨unsignedTransaction, ∅⟩

def addVerifiedSignature (psbt : PartiallySignedTaprootTransaction) (pubkey : PublicKey)
    (inputSignatures : List SchnorrSignature) : PartiallySignedTaprootTransaction :=
  { psbt with verifiedSignatures := psbt.verifiedSignatures.insert pubkey inputSignatures }

/-- The signatures for one input in the order of the keys, empty for a missing authority (Rust
`PartiallySignedTaprootTransaction::get_sigs_for_input`). -/
def getSigsForInput (psbt : PartiallySignedTaprootTransaction) (inputIdx : Nat)
    (pubkeys : List PublicKey) : Except FederationError (List Bytes) :=
  pubkeys.mapM fun pubkey =>
    match psbt.verifiedSignatures.lookup pubkey with
    | none => .ok []
    | some sigs =>
      match sigs[inputIdx]? with
      | none => .error .missingSignature
      | some sig => .ok sig.bytes

/-- The witness stack of one input. -/
def finalizeInput (F : Federation) (psbt : PartiallySignedTaprootTransaction) (x : TxIn × Nat) :
    Except FederationError TxIn := do
  let sigs ← psbt.getSigsForInput x.2 F.pubkeys
  return { x.1 with witness := sigs.reverse ++ [F.redeemScript, F.controlBlockWitness] }

def finalizeTransaction (F : Federation) (psbt : PartiallySignedTaprootTransaction) :
    Except FederationError Transaction := do
  if psbt.verifiedSignatures.keys.card ≠ F.threshold then
    throw .invalidNumberOfSignatures
  let signedInputs ← psbt.unsignedTransaction.input.zipIdx.mapM (psbt.finalizeInput F)
  return { psbt.unsignedTransaction with input := signedInputs }

end PartiallySignedTaprootTransaction

/-- `BitcoinSigner`: a public key and what its private key signs. -/
structure BitcoinSigner where
  publicKey : PublicKey
  signSchnorr : Bytes → SchnorrSignature

/-- One signature for each input (Rust `BitcoinSigner::get_input_signatures`). -/
def BitcoinSigner.getInputSignatures (P : Primitives) (F : Federation) (signer : BitcoinSigner)
    (w : UtxoManager) (tx : Transaction) :
    Except FederationError (PublicKey × List SchnorrSignature) := do
  let inputs ← w.getSigningInputs P F tx
  return (signer.publicKey, inputs.map signer.signSchnorr)

structure BitcoinSignatureCollector where
  transactions : Map Txid PartiallySignedTaprootTransaction

namespace BitcoinSignatureCollector

/-- `BitcoinSignatureCollector::new`, and the result of `clear`. -/
def empty : BitcoinSignatureCollector := ⟨∅⟩

def cleanupSignaturesFor (txid : Txid) (c : BitcoinSignatureCollector) :
    BitcoinSignatureCollector :=
  ⟨c.transactions.erase txid⟩

/-- The entry of a transaction, created from the wallet if there is none. -/
def entry (w : UtxoManager) (txid : Txid) (c : BitcoinSignatureCollector) :
    Except FederationError PartiallySignedTaprootTransaction :=
  match c.transactions.lookup txid with
  | some psbt => .ok psbt
  | none => (w.getTransaction txid).map .new

def addSignature (P : Primitives) (F : Federation) (w : UtxoManager) (txid : Txid)
    (signature : PublicKey × List SchnorrSignature) :
    Action BitcoinSignatureCollector FederationError Unit := fun c =>
  match c.entry w txid with
  | .error e => (.error e, c)
  | .ok psbt =>
    if F.threshold ≤ psbt.verifiedSignatures.keys.card then
      (.ok (), ⟨c.transactions.insert txid psbt⟩)
    else
      match w.checkInputSignatures P F psbt.unsignedTransaction signature with
      | .error e => (.error e, ⟨c.transactions.insert txid psbt⟩)
      | .ok _ =>
        (.ok (),
          ⟨c.transactions.insert txid (psbt.addVerifiedSignature signature.1 signature.2)⟩)

def getFinalized (F : Federation) (c : BitcoinSignatureCollector) (txid : Txid) :
    Except FederationError Transaction :=
  match c.transactions.lookup txid with
  | none => .error .txidNotFound
  | some psbt => psbt.finalizeTransaction F

end BitcoinSignatureCollector

/-! ## A registered transaction -/

/-- A transaction that the wallet knows, with the outputs it spends (what `register_pegout` leaves
behind). -/
structure Registered (w : UtxoManager) (txid : Txid) (tx : Transaction) : Prop where
  stored : w.rawTxs.lookup txid = some tx
  recorded : ∀ input ∈ tx.input, (w.utxos.lookup input.previousOutput).isSome

/-- The output that an input spends, if it is recorded. -/
def UtxoManager.prevout (w : UtxoManager) (input : TxIn) : TxOut :=
  ((w.utxos.lookup input.previousOutput).map (·.txout)).getD ⟨0, []⟩

/-- The message to sign for one input. -/
def message (P : Primitives) (F : Federation) (w : UtxoManager) (tx : Transaction) (idx : Nat) :
    Bytes :=
  P.taprootSighash tx idx (tx.input.map w.prevout) F.redeemScript

/-- The messages to sign for a transaction that spends recorded outputs. -/
lemma UtxoManager.getSigningInputs_eq {P F} {w : UtxoManager} {tx : Transaction}
    (hrec : ∀ input ∈ tx.input, (w.utxos.lookup input.previousOutput).isSome) :
    w.getSigningInputs P F tx = .ok ((List.range tx.input.length).map (message P F w tx)) := by
  have hprev : w.prevouts tx = .ok (tx.input.map w.prevout) := by
    refine mapM_eq_ok fun input mem => ?_
    obtain ⟨utxo, h⟩ := Option.isSome_iff_exists.mp (hrec input mem)
    simp [UtxoManager.prevout, h]
  simp only [UtxoManager.getSigningInputs, hprev, bind, Except.bind, pure, Except.pure]
  rfl

lemma mem_zip_messages {α : Type} {f : Nat → Bytes} {n : Nat} {l : List α} {x : Bytes × α} :
    x ∈ ((List.range n).map f).zip l ↔ ∃ i < n, l[i]? = some x.2 ∧ x.1 = f i := by
  simp only [List.mem_iff_getElem?, List.getElem?_zip_eq_some, List.getElem?_map,
    Option.map_eq_some_iff]
  constructor
  · rintro ⟨i, ⟨a, ha, e⟩, hl⟩
    obtain ⟨lt, rfl⟩ := List.getElem?_eq_some_iff.mp ha
    simp only [List.length_range] at lt
    exact ⟨i, lt, hl, by simpa using e.symm⟩
  · rintro ⟨i, lt, hl, e⟩
    exact ⟨i, ⟨i, List.getElem?_range lt, e.symm⟩, hl⟩

/-- A list passes if it has a valid signature for each input. -/
lemma UtxoManager.checkInputSignatures_ok_iff {P F} {w : UtxoManager} {tx : Transaction}
    {s : PublicKey × List SchnorrSignature}
    (hrec : ∀ input ∈ tx.input, (w.utxos.lookup input.previousOutput).isSome) :
    w.checkInputSignatures P F tx s = .ok () ↔
      s.2.length = tx.input.length ∧
      ∀ i sig, s.2[i]? = some sig →
        P.verifySchnorr sig (message P F w tx i) (P.toXOnly s.1) = true := by
  unfold UtxoManager.checkInputSignatures
  simp only [UtxoManager.getSigningInputs_eq hrec, bind, Except.bind, List.length_map,
    List.length_range]
  by_cases hlen : tx.input.length = s.2.length
  · have hall : (((List.range tx.input.length).map (message P F w tx)).zip s.2).all
        (fun x => P.verifySchnorr x.2 x.1 (P.toXOnly s.1)) = true ↔
        ∀ i sig, s.2[i]? = some sig →
          P.verifySchnorr sig (message P F w tx i) (P.toXOnly s.1) = true := by
      rw [List.all_eq_true]
      constructor
      · intro h i sig hi
        have lt := (List.getElem?_eq_some_iff.mp hi).1
        exact h (_, sig) (mem_zip_messages.mpr ⟨i, by omega, hi, rfl⟩)
      · rintro h ⟨msg, sig⟩ mem
        obtain ⟨i, _, hi, rfl⟩ := mem_zip_messages.mp mem
        exact h i sig hi
    rw [← hall]
    simp only [hlen, ne_eq, not_true_eq_false, if_false, true_and]
    split
    case isTrue h => simpa [pure, Except.pure] using h
    case isFalse h => simpa using h
  · simp [hlen, Ne.symm hlen]

/-! ## What is collected -/

/-- The collector after a sequence of offers for one transaction. -/
def collect (P : Primitives) (F : Federation) (w : UtxoManager) (txid : Txid)
    (offers : List (PublicKey × List SchnorrSignature)) : BitcoinSignatureCollector :=
  offers.foldl (fun c signature => (c.addSignature P F w txid signature).2) .empty

/-- The keys that offered a valid list, in order. -/
def validKeys (P : Primitives) (F : Federation) (w : UtxoManager) (tx : Transaction)
    (offers : List (PublicKey × List SchnorrSignature)) : List PublicKey :=
  (offers.filter fun signature => w.checkInputSignatures P F tx signature = .ok ()).map (·.1)

/-- A partially signed transaction that holds valid lists of the given keys. -/
structure Holds (P : Primitives) (F : Federation) (w : UtxoManager) (tx : Transaction)
    (keys : Finset PublicKey) (psbt : PartiallySignedTaprootTransaction) : Prop where
  transaction_eq : psbt.unsignedTransaction = tx
  keys_eq : psbt.verifiedSignatures.keys = keys
  valid : ∀ pubkey sigs, psbt.verifiedSignatures.lookup pubkey = some sigs →
    w.checkInputSignatures P F tx (pubkey, sigs) = .ok ()

/-- A new entry holds nothing. -/
lemma Holds.new {P F w tx} : Holds P F w tx ∅ (.new tx) where
  transaction_eq := rfl
  keys_eq := Finmap.keys_empty
  valid := by
    intro pubkey sigs h
    simp [PartiallySignedTaprootTransaction.new] at h

/-- A verified list is added. -/
lemma Holds.add {P F w tx keys psbt signature} (h : Holds P F w tx keys psbt)
    (hvalid : w.checkInputSignatures P F tx signature = .ok ()) :
    Holds P F w tx (insert signature.1 keys)
      (psbt.addVerifiedSignature signature.1 signature.2) where
  transaction_eq := h.transaction_eq
  keys_eq := by
    ext pubkey
    simp [PartiallySignedTaprootTransaction.addVerifiedSignature, ← h.keys_eq, Finmap.mem_keys]
  valid := by
    intro pubkey sigs hl
    by_cases eq : pubkey = signature.1
    · subst eq
      simp only [PartiallySignedTaprootTransaction.addVerifiedSignature,
        Finmap.lookup_insert, Option.some.injEq] at hl
      subst hl
      exact hvalid
    · simp only [PartiallySignedTaprootTransaction.addVerifiedSignature] at hl
      rw [Finmap.lookup_insert_of_ne _ eq] at hl
      exact h.valid pubkey sigs hl

/-- One offer: the entry holds one more key if the list is valid and the threshold not reached. -/
lemma addSignature_lookup {P F w txid tx keys psbt} {c : BitcoinSignatureCollector}
    (he : c.entry w txid = .ok psbt) (h : Holds P F w tx keys psbt)
    (signature : PublicKey × List SchnorrSignature) :
    ∃ psbt', (c.addSignature P F w txid signature).2.transactions.lookup txid = some psbt' ∧
      Holds P F w tx
        (if w.checkInputSignatures P F tx signature = .ok () then
          capped.add F.threshold keys signature.1
        else keys) psbt' := by
  unfold BitcoinSignatureCollector.addSignature capped.add
  simp only [he, h.keys_eq, h.transaction_eq]
  split
  case isTrue full =>
    refine ⟨psbt, Finmap.lookup_insert _, ?_⟩
    simpa using h
  case isFalse room =>
    cases hv : w.checkInputSignatures P F tx signature with
    | error e => exact ⟨psbt, Finmap.lookup_insert _, by simpa using h⟩
    | ok u => exact ⟨_, Finmap.lookup_insert _, by simpa using h.add hv⟩

/-- After the offers the entry holds the first `threshold` distinct keys that offered a valid list;
there is an entry once there was an offer. -/
lemma collect_lookup {w txid tx} (hreg : Registered w txid tx) (P : Primitives) (F : Federation)
    (offers : List (PublicKey × List SchnorrSignature)) :
    (offers = [] → (collect P F w txid offers).transactions.lookup txid = none) ∧
    (offers ≠ [] → ∃ psbt, (collect P F w txid offers).transactions.lookup txid = some psbt ∧
      Holds P F w tx (capped F.threshold (validKeys P F w tx offers)) psbt) := by
  induction offers using List.reverseRecOn with
  | nil => exact ⟨fun _ => rfl, fun ne => absurd rfl ne⟩
  | append_singleton offers signature ih =>
    refine ⟨fun e => absurd e (by simp), fun _ => ?_⟩
    have hentry : ∃ psbt, (collect P F w txid offers).entry w txid = .ok psbt ∧
        Holds P F w tx (capped F.threshold (validKeys P F w tx offers)) psbt := by
      unfold BitcoinSignatureCollector.entry
      by_cases e : offers = []
      · rw [ih.1 e]
        subst e
        exact ⟨.new tx, by simp [UtxoManager.getTransaction, hreg.stored, Except.map], .new⟩
      · obtain ⟨psbt, hl, h⟩ := ih.2 e
        exact ⟨psbt, by rw [hl], h⟩
    obtain ⟨psbt, he, h⟩ := hentry
    obtain ⟨psbt', hl, h'⟩ := addSignature_lookup he h signature
    refine ⟨psbt', by simpa [collect] using hl, ?_⟩
    convert h' using 1
    by_cases hv : w.checkInputSignatures P F tx signature = .ok ()
    · simp [validKeys, hv, capped_concat]
    · simp [validKeys, hv]

/-! ## What is finalized -/

/-- A transaction without its witnesses. -/
def Transaction.unsigned (tx : Transaction) : Transaction :=
  { tx with input := tx.input.map fun input => { input with witness := [] } }

/-- The taproot signature hash does not cover the witnesses. -/
def SighashIgnoresWitnesses (P : Primitives) : Prop :=
  ∀ tx idx prevouts script,
    P.taprootSighash tx idx prevouts script = P.taprootSighash tx.unsigned idx prevouts script

/-- The hash of a transaction does not cover the witnesses. -/
def TxidIgnoresWitnesses (P : Primitives) : Prop := ∀ tx, P.txid tx = P.txid tx.unsigned

section Unsigned

variable {tx tx' : Transaction}

/-- Transactions that differ in their witnesses only spend the same outputs. -/
lemma Transaction.outpoints_eq (h : tx.unsigned = tx'.unsigned) :
    tx.input.map (·.previousOutput) = tx'.input.map (·.previousOutput) := by
  have hinput := congrArg (fun tx => tx.input.map (·.previousOutput)) h
  simpa [Transaction.unsigned, Function.comp_def] using hinput

lemma UtxoManager.recorded_of_unsigned {w : UtxoManager} (h : tx.unsigned = tx'.unsigned)
    (hrec : ∀ input ∈ tx.input, (w.utxos.lookup input.previousOutput).isSome) :
    ∀ input ∈ tx'.input, (w.utxos.lookup input.previousOutput).isSome := by
  intro input mem
  have hout := List.mem_map_of_mem (f := (·.previousOutput)) mem
  rw [← Transaction.outpoints_eq h] at hout
  obtain ⟨input', mem', e⟩ := List.mem_map.mp hout
  rw [← e]
  exact hrec input' mem'

lemma message_of_unsigned {P F} {w : UtxoManager} (hsig : SighashIgnoresWitnesses P)
    (h : tx.unsigned = tx'.unsigned) (i : Nat) : message P F w tx i = message P F w tx' i := by
  have hprev := congrArg
    (List.map fun o => ((w.utxos.lookup o).map (·.txout)).getD ⟨0, []⟩) (Transaction.outpoints_eq h)
  rw [List.map_map, List.map_map] at hprev
  change tx.input.map w.prevout = tx'.input.map w.prevout at hprev
  rw [message, message, hprev, hsig, h, ← hsig]

end Unsigned

namespace PartiallySignedTaprootTransaction

/-- Finalizing writes witnesses only. -/
lemma finalizeTransaction_unsigned {F tx} {psbt : PartiallySignedTaprootTransaction}
    (e : psbt.finalizeTransaction F = .ok tx) :
    tx.unsigned = psbt.unsignedTransaction.unsigned := by
  unfold finalizeTransaction at e
  split at e
  case isTrue => cases e
  case isFalse =>
    simp only [bind_eq_ok_iff] at e
    obtain ⟨signedInputs, hinputs, e⟩ := e
    cases e
    let bare : TxIn → TxIn := fun input => { input with witness := [] }
    have hmap : signedInputs.map bare =
        psbt.unsignedTransaction.input.zipIdx.map (bare ∘ Prod.fst) := by
      refine map_of_mapM_ok hinputs fun x input e => ?_
      obtain ⟨_, _, e⟩ := bind_eq_ok_iff.mp e
      cases e
      rfl
    rw [← List.map_map, List.zipIdx_map_fst] at hmap
    unfold Transaction.unsigned
    rw [← hmap]

/-- All inputs get their witnesses when each member that signed did so for all of them. -/
lemma finalizeInputs_ok_iff {F} (psbt : PartiallySignedTaprootTransaction) :
    (∃ inputs, psbt.unsignedTransaction.input.zipIdx.mapM (psbt.finalizeInput F) = .ok inputs) ↔
      ∀ pubkey ∈ F.pubkeys, ∀ sigs, psbt.verifiedSignatures.lookup pubkey = some sigs →
        psbt.unsignedTransaction.input.length ≤ sigs.length := by
  have hsigs : ∀ idx, (∃ sigs, psbt.getSigsForInput idx F.pubkeys = .ok sigs) ↔
      ∀ pubkey ∈ F.pubkeys, ∀ sigs, psbt.verifiedSignatures.lookup pubkey = some sigs →
        idx < sigs.length := by
    intro idx
    rw [getSigsForInput, exists_mapM_ok_iff]
    refine forall₂_congr fun pubkey _ => ?_
    cases psbt.verifiedSignatures.lookup pubkey with
    | none => simp
    | some sigs =>
      simp only [Option.some.injEq, forall_eq']
      cases hsig : sigs[idx]? with
      | none => simpa using hsig
      | some sig => simpa using (List.getElem?_eq_some_iff.mp hsig).1
  have hinput : ∀ x, (∃ input, psbt.finalizeInput F x = .ok input) ↔
      ∃ sigs, psbt.getSigsForInput x.2 F.pubkeys = .ok sigs := by
    intro x
    simp only [finalizeInput, bind_eq_ok_iff]
    constructor
    · rintro ⟨_, sigs, h, _⟩
      exact ⟨sigs, h⟩
    · rintro ⟨sigs, h⟩
      exact ⟨_, sigs, h, rfl⟩
  simp only [exists_mapM_ok_iff, hinput, hsigs]
  constructor
  · intro h pubkey hp sigs hl
    -- a list that is too short lacks the signature for the input at its end
    by_contra lt
    rw [Nat.not_le] at lt
    have mem : (psbt.unsignedTransaction.input[sigs.length], sigs.length) ∈
        psbt.unsignedTransaction.input.zipIdx := by
      rw [List.mem_zipIdx_iff_getElem?]
      exact List.getElem?_eq_getElem lt
    exact lt_irrefl _ (h _ mem pubkey hp sigs hl)
  · intro h x mem pubkey hp sigs hl
    exact (List.mem_zipIdx' mem).1.trans_le (h pubkey hp sigs hl)

/-- The signature that a key has for an input, empty if there is none. -/
def sigOf (psbt : PartiallySignedTaprootTransaction) (idx : Nat) (pubkey : PublicKey) : Bytes :=
  (((psbt.verifiedSignatures.lookup pubkey).bind (·[idx]?)).map (·.bytes)).getD []

/-- An input with its witness stack. -/
def signInput (F : Federation) (psbt : PartiallySignedTaprootTransaction) (x : TxIn × Nat) : TxIn :=
  { x.1 with
    witness := (F.pubkeys.map (psbt.sigOf x.2)).reverse ++ [F.redeemScript, F.controlBlockWitness] }

/-- The transaction with the witness stacks of all inputs. -/
def sign (F : Federation) (psbt : PartiallySignedTaprootTransaction) : Transaction :=
  { psbt.unsignedTransaction with
    input := psbt.unsignedTransaction.input.zipIdx.map (psbt.signInput F) }

end PartiallySignedTaprootTransaction

namespace BitcoinSignatureCollector

/-- There are as many lists of signatures for a transaction as required, and those of members cover
all its inputs. -/
def Complete (F : Federation) (c : BitcoinSignatureCollector) (txid : Txid) : Prop :=
  ∃ psbt, c.transactions.lookup txid = some psbt ∧
    psbt.verifiedSignatures.keys.card = F.threshold ∧
    ∀ pubkey ∈ F.pubkeys, ∀ sigs, psbt.verifiedSignatures.lookup pubkey = some sigs →
      psbt.unsignedTransaction.input.length ≤ sigs.length

variable {c : BitcoinSignatureCollector}

/-- When a transaction can be finalized. -/
lemma getFinalized_ok_iff {F txid} :
    (∃ tx, c.getFinalized F txid = .ok tx) ↔ c.Complete F txid := by
  unfold getFinalized Complete
  cases hpsbt : c.transactions.lookup txid with
  | none => simp
  | some psbt =>
    simp only [Option.some.injEq, exists_eq_left']
    rw [← psbt.finalizeInputs_ok_iff, PartiallySignedTaprootTransaction.finalizeTransaction]
    by_cases hcard : psbt.verifiedSignatures.keys.card = F.threshold
    · rw [if_neg (not_not.mpr hcard)]
      simp only [bind_eq_ok_iff, hcard, true_and]
      constructor
      · rintro ⟨_, inputs, h, _⟩
        exact ⟨inputs, h⟩
      · rintro ⟨inputs, h⟩
        exact ⟨_, inputs, h, rfl⟩
    · simp [hcard, bind, Except.bind]

/-- Each entry is that of the transaction it is stored under. -/
def Keyed (P : Primitives) (c : BitcoinSignatureCollector) : Prop :=
  ∀ txid psbt, c.transactions.lookup txid = some psbt → P.txid psbt.unsignedTransaction = txid

lemma keyed_empty {P} : empty.Keyed P := nofun

lemma Keyed.getFinalized {P F txid tx} (h : c.Keyed P) (hP : TxidIgnoresWitnesses P)
    (e : c.getFinalized F txid = .ok tx) : P.txid tx = txid := by
  unfold BitcoinSignatureCollector.getFinalized at e
  split at e
  case h_1 => cases e
  case h_2 psbt hpsbt =>
    have hunsigned := PartiallySignedTaprootTransaction.finalizeTransaction_unsigned e
    rw [hP, hunsigned, ← hP, h txid psbt hpsbt]

/-- What is finalized has the hash that was asked for. -/
lemma Keyed.finalizedTxid {P} (h : c.Keyed P) (hP : TxidIgnoresWitnesses P) (F : Federation)
    (txid : Txid) :
    c.Complete F txid ∧ (c.getFinalized F txid).toOption.map P.txid = some txid ∨
      ¬ c.Complete F txid ∧ (c.getFinalized F txid).toOption.map P.txid = none := by
  rw [← getFinalized_ok_iff]
  cases e : c.getFinalized F txid with
  | error f => exact .inr ⟨by simp, rfl⟩
  | ok tx => exact .inl ⟨⟨tx, rfl⟩, congrArg some (h.getFinalized hP e)⟩

lemma Keyed.entry {P w txid psbt} (h : c.Keyed P)
    (hw : ∀ txid tx, w.getTransaction txid = .ok tx → P.txid tx = txid)
    (e : c.entry w txid = .ok psbt) : P.txid psbt.unsignedTransaction = txid := by
  unfold BitcoinSignatureCollector.entry at e
  split at e
  case h_1 psbt' hpsbt =>
    cases e
    exact h txid psbt hpsbt
  case h_2 =>
    cases htx : w.getTransaction txid with
    | error f => simp [htx, Except.map] at e
    | ok tx =>
      simp only [htx, Except.map, Except.ok.injEq] at e
      rw [← e]
      exact hw txid tx htx

lemma Keyed.insert {P txid} {psbt : PartiallySignedTaprootTransaction} (h : c.Keyed P)
    (hpsbt : P.txid psbt.unsignedTransaction = txid) :
    Keyed P ⟨c.transactions.insert txid psbt⟩ := by
  intro txid' psbt' e
  rcases lookup_insert_eq_some.mp e with ⟨rfl, rfl⟩ | ⟨_, e⟩
  · exact hpsbt
  · exact h txid' psbt' e

/-- Collecting a signature keeps the entries in place, if the wallet stores transactions under their
hashes. -/
lemma Keyed.addSignature {P F w txid signature} (h : c.Keyed P)
    (hw : ∀ txid tx, w.getTransaction txid = .ok tx → P.txid tx = txid) :
    (BitcoinSignatureCollector.addSignature P F w txid signature c).2.Keyed P := by
  unfold BitcoinSignatureCollector.addSignature
  split
  case h_1 => exact h
  case h_2 psbt e =>
    have hpsbt := h.entry hw e
    split
    · exact h.insert hpsbt
    · split
      · exact h.insert hpsbt
      · exact h.insert hpsbt

end BitcoinSignatureCollector

namespace Holds

variable {P : Primitives} {F : Federation} {w : UtxoManager} {tx : Transaction}
  {keys : Finset PublicKey} {psbt : PartiallySignedTaprootTransaction}

/-- For an input of the transaction, a key has a signature exactly when it is held. -/
lemma sigOf_cases (h : Holds P F w tx keys psbt)
    (hrec : ∀ input ∈ tx.input, (w.utxos.lookup input.previousOutput).isSome)
    {idx} (lt : idx < tx.input.length) (pubkey : PublicKey) :
    (pubkey ∉ keys ∧ psbt.verifiedSignatures.lookup pubkey = none ∧ psbt.sigOf idx pubkey = []) ∨
    (pubkey ∈ keys ∧ ∃ sigs sig, psbt.verifiedSignatures.lookup pubkey = some sigs ∧
      sigs[idx]? = some sig ∧ psbt.sigOf idx pubkey = sig.bytes ∧
      P.verifySchnorr sig (message P F w tx idx) (P.toXOnly pubkey) = true) := by
  have hmem : pubkey ∈ keys ↔ (psbt.verifiedSignatures.lookup pubkey).isSome := by
    rw [← h.keys_eq, Finmap.mem_keys, Finmap.lookup_isSome]
  cases hl : psbt.verifiedSignatures.lookup pubkey with
  | none =>
    refine .inl ⟨by simp [hmem, hl], rfl, ?_⟩
    simp [PartiallySignedTaprootTransaction.sigOf, hl]
  | some sigs =>
    obtain ⟨hlen, hver⟩ := (UtxoManager.checkInputSignatures_ok_iff hrec).mp (h.valid _ _ hl)
    have lt' : idx < sigs.length := hlen.symm ▸ lt
    have hi : sigs[idx]? = some sigs[idx] := List.getElem?_eq_getElem lt'
    refine .inr ⟨by simp [hmem, hl], sigs, _, rfl, hi, ?_, hver _ _ hi⟩
    simp [PartiallySignedTaprootTransaction.sigOf, hl, hi]

/-- The transaction is finalized once the number of keys held is the threshold. -/
lemma finalizeTransaction_eq (h : Holds P F w tx keys psbt)
    (hrec : ∀ input ∈ tx.input, (w.utxos.lookup input.previousOutput).isSome) :
    psbt.finalizeTransaction F =
      if keys.card = F.threshold then .ok (psbt.sign F)
      else .error .invalidNumberOfSignatures := by
  unfold PartiallySignedTaprootTransaction.finalizeTransaction
  have hinputs : psbt.unsignedTransaction.input.zipIdx.mapM (psbt.finalizeInput F) =
      .ok (psbt.unsignedTransaction.input.zipIdx.map (psbt.signInput F)) := by
    refine mapM_eq_ok fun x mem => ?_
    have lt : x.2 < tx.input.length := by
      rw [h.transaction_eq] at mem
      exact (List.mem_zipIdx' mem).1
    have hsigs : psbt.getSigsForInput x.2 F.pubkeys =
        .ok (F.pubkeys.map (psbt.sigOf x.2)) := by
      refine mapM_eq_ok fun pubkey _ => ?_
      obtain ⟨_, hl, hs⟩ | ⟨_, sigs, sig, hl, hi, hs, _⟩ := h.sigOf_cases hrec lt pubkey
      · simp [hl, hs]
      · simp [hl, hi, hs]
    simp only [PartiallySignedTaprootTransaction.finalizeInput, hsigs, bind, Except.bind, pure,
      Except.pure, PartiallySignedTaprootTransaction.signInput]
  rw [h.keys_eq, hinputs]
  by_cases hc : keys.card = F.threshold
  · simp [hc, bind, Except.bind, pure, Except.pure, PartiallySignedTaprootTransaction.sign]
  · simp [hc, bind, Except.bind]

/-- The witness stack of a finalized input, paired with the reversed keys. -/
lemma zip_reverse_eq {g : PublicKey → Bytes} {tail : List Bytes} {pubkeys : List PublicKey} :
    ((pubkeys.map g).reverse ++ tail).zip pubkeys.reverse =
      pubkeys.reverse.map fun pubkey => (g pubkey, pubkey) := by
  rw [← List.map_reverse]
  induction pubkeys.reverse with
  | nil => simp
  | cons pubkey l ih => simpa using ih

lemma length_filter_mem (hnd : F.pubkeys.Nodup) :
    (F.pubkeys.filter (· ∈ keys)).length = (keys.filter (· ∈ F.pubkeys)).card := by
  rw [← List.toFinset_card_of_nodup (hnd.filter _), List.toFinset_filter]
  congr 1
  ext pubkey
  simp [and_comm]

/-- The stack of a finalized input is accepted exactly when as many members as required signed. -/
lemma checkWitnesses_ok_iff (h : Holds P F w tx keys psbt)
    (hrec : ∀ input ∈ tx.input, (w.utxos.lookup input.previousOutput).isSome)
    (hnd : F.pubkeys.Nodup) {idx input} (lt : idx < tx.input.length) :
    UtxoManager.checkWitnesses P F (message P F w tx idx, psbt.signInput F (input, idx)) = .ok () ↔
      (keys.filter (· ∈ F.pubkeys)).card = F.threshold := by
  have hsigs : (((F.pubkeys.map (psbt.sigOf idx)).reverse ++
      [F.redeemScript, F.controlBlockWitness]).zip F.pubkeys.reverse).filter
        (fun x => !x.1.isEmpty) =
      (F.pubkeys.filter (· ∈ keys)).reverse.map fun pubkey => (psbt.sigOf idx pubkey, pubkey) := by
    rw [zip_reverse_eq, List.filter_map, ← List.filter_reverse]
    congr 1
    refine List.filter_congr fun pubkey _ => ?_
    obtain ⟨hk, _, hs⟩ | ⟨hk, _, sig, _, _, hs, _⟩ := h.sigOf_cases hrec lt pubkey
    · simp [hk, hs]
    · have : sig.bytes ≠ [] := by
        intro e
        have := sig.length_eq
        simp [e] at this
      simp [hk, hs, this]
  have hverify : ((F.pubkeys.filter (· ∈ keys)).reverse.map
      fun pubkey => (psbt.sigOf idx pubkey, pubkey)).forM
        (UtxoManager.checkWitness P (message P F w tx idx)) = .ok () := by
    rw [forM_eq_ok_iff]
    intro x mem
    obtain ⟨pubkey, hp, rfl⟩ := List.mem_map.mp mem
    have hk : pubkey ∈ keys := by simpa using (List.mem_filter.mp (List.mem_reverse.mp hp)).2
    obtain ⟨hk', _⟩ | ⟨_, _, sig, _, _, hs, hv⟩ := h.sigOf_cases hrec lt pubkey
    · exact absurd hk hk'
    · simp [UtxoManager.checkWitness, hs, SchnorrSignature.fromSlice, sig.length_eq, hv]
  unfold UtxoManager.checkWitnesses
  simp only [PartiallySignedTaprootTransaction.signInput, hsigs, List.length_map,
    List.length_reverse, length_filter_mem hnd]
  by_cases hc : (keys.filter (· ∈ F.pubkeys)).card = F.threshold
  · simp only [hc, hverify, bind, Except.bind]
    simp [pure, Except.pure]
  · simp [hc, bind, Except.bind]

lemma sign_unsigned (h : Holds P F w tx keys psbt) : (psbt.sign F).unsigned = tx.unsigned := by
  simp only [Transaction.unsigned, PartiallySignedTaprootTransaction.sign, h.transaction_eq,
    Transaction.mk.injEq, true_and, and_true]
  refine List.ext_getElem? fun i => ?_
  simp only [List.map_map, List.getElem?_map, List.getElem?_zipIdx, Option.map_map]
  rfl

/-- The finalized transaction is accepted exactly when it has no inputs or as many members as
required signed. -/
lemma checkTransactionSignatures_ok_iff (h : Holds P F w tx keys psbt)
    (hsig : SighashIgnoresWitnesses P)
    (hrec : ∀ input ∈ tx.input, (w.utxos.lookup input.previousOutput).isSome)
    (hnd : F.pubkeys.Nodup) :
    w.checkTransactionSignatures P F (psbt.sign F) false = .ok () ↔
      tx.input = [] ∨ (keys.filter (· ∈ F.pubkeys)).card = F.threshold := by
  have hinput : ∀ i, (psbt.sign F).input[i]? =
      tx.input[i]?.map fun input => psbt.signInput F (input, i) := by
    intro i
    simp [PartiallySignedTaprootTransaction.sign, h.transaction_eq, List.getElem?_zipIdx,
      Function.comp_def]
  have hlen : (psbt.sign F).input.length = tx.input.length := by
    simp [PartiallySignedTaprootTransaction.sign, h.transaction_eq]
  have hmsg : ∀ i, message P F w (psbt.sign F) i = message P F w tx i :=
    message_of_unsigned hsig h.sign_unsigned
  have hrec' : ∀ input ∈ (psbt.sign F).input,
      (w.utxos.lookup input.previousOutput).isSome :=
    UtxoManager.recorded_of_unsigned h.sign_unsigned.symm hrec
  simp only [UtxoManager.checkTransactionSignatures, UtxoManager.getSigningInputs_eq hrec', bind,
    Except.bind, Bool.false_eq_true, if_false, pure, Except.pure, forM_eq_ok_iff, hlen]
  constructor
  · intro hall
    cases e : tx.input with
    | nil => exact .inl rfl
    | cons input inputs =>
      have lt : 0 < tx.input.length := by simp [e]
      have := hall (message P F w (psbt.sign F) 0, psbt.signInput F (input, 0))
        (mem_zip_messages.mpr ⟨0, lt, by rw [hinput, e]; rfl, rfl⟩)
      rw [hmsg] at this
      exact .inr ((h.checkWitnesses_ok_iff hrec hnd lt).mp this)
  · rintro hok ⟨msg, input⟩ mem
    obtain ⟨i, lt, hi, rfl⟩ := mem_zip_messages.mp mem
    rw [hinput, Option.map_eq_some_iff] at hi
    obtain ⟨input', _, rfl⟩ := hi
    rw [hmsg, h.checkWitnesses_ok_iff hrec hnd lt]
    rcases hok with e | hc
    · simp [e] at lt
    · exact hc

end Holds

/-! ## Collection and verification -/

/-- The members of the federation among some keys. -/
def members (F : Federation) (keys : List PublicKey) : Finset PublicKey :=
  keys.toFinset.filter (· ∈ F.pubkeys)

/-- A transaction can be finalized exactly when as many members as required offered a valid list,
and what is finalized passes the check of its signatures. -/
def CollectsExactly (P : Primitives) (F : Federation) (w : UtxoManager) (txid : Txid)
    (tx : Transaction) (offers : List (PublicKey × List SchnorrSignature)) : Prop :=
  ((∃ t, (collect P F w txid offers).getFinalized F txid = .ok t) ↔
    F.threshold ≤ (members F (validKeys P F w tx offers)).card) ∧
  ∀ t, (collect P F w txid offers).getFinalized F txid = .ok t →
    w.checkTransactionSignatures P F t false = .ok ()

/-- Every key outside the federation comes after as many members as required. -/
def ForeignLate (F : Federation) (keys : List PublicKey) : Prop :=
  ∀ before key after, keys = before ++ key :: after → key ∉ F.pubkeys →
    F.threshold ≤ (members F before).card

/-- The keys held are members exactly when the foreign ones come late. -/
lemma foreignLate_iff {F keys} :
    ForeignLate F keys ↔ ∀ key ∈ capped F.threshold keys, key ∈ F.pubkeys :=
  forall_capped_iff.symm

/-- For a registered transaction of a federation with distinct keys the collection is exact if and
only if there was an offer in case none is required, and: fewer distinct keys than required offered
a valid list at all, or every foreign key offered its list after as many members as required, or the
transaction has no inputs and as many members as required offered a list. -/
theorem collect_exact_iff {P : Primitives} {F : Federation} {w : UtxoManager} {txid : Txid}
    {tx : Transaction} {offers : List (PublicKey × List SchnorrSignature)}
    (hsig : SighashIgnoresWitnesses P) (hreg : Registered w txid tx)
    (hkeys : (F.pubkeys.map P.toXOnly).Nodup) :
    CollectsExactly P F w txid tx offers ↔
      (F.threshold = 0 → offers ≠ []) ∧
      ((validKeys P F w tx offers).toFinset.card < F.threshold ∨
        ForeignLate F (validKeys P F w tx offers) ∨
        tx.input = [] ∧ F.threshold ≤ (members F (validKeys P F w tx offers)).card) := by
  have hnd : F.pubkeys.Nodup := List.Nodup.of_map _ hkeys
  obtain ⟨hnone, hsome⟩ := collect_lookup hreg P F offers
  unfold CollectsExactly BitcoinSignatureCollector.getFinalized
  by_cases e : offers = []
  · -- without an offer there is no entry, and nothing is finalized
    rw [hnone e]
    subst e
    simp [validKeys, members, Nat.pos_iff_ne_zero, -Nat.not_le]
    omega
  obtain ⟨psbt, hl, h⟩ := hsome e
  rw [hl, foreignLate_iff]
  simp only [h.finalizeTransaction_eq hreg.recorded]
  generalize validKeys P F w tx offers = keys at h ⊢
  have hcard := card_capped (k := F.threshold) (l := keys)
  have hle : (members F keys).card ≤ keys.toFinset.card := Finset.card_filter_le _ _
  by_cases few : keys.toFinset.card < F.threshold
  · have ne : (capped F.threshold keys).card ≠ F.threshold := by omega
    simp [ne, few, e]
    omega
  · have eq : (capped F.threshold keys).card = F.threshold := by omega
    have hall : ((capped F.threshold keys).filter (· ∈ F.pubkeys)).card = F.threshold ↔
        ∀ key ∈ capped F.threshold keys, key ∈ F.pubkeys := by
      rw [← Finset.card_filter_eq_iff, eq]
    have henough : (∀ key ∈ capped F.threshold keys, key ∈ F.pubkeys) →
        F.threshold ≤ (members F keys).card := by
      intro hm
      rw [← eq]
      refine Finset.card_le_card fun key mem => ?_
      exact Finset.mem_filter.mpr ⟨capped_subset mem, hm key mem⟩
    simp only [eq, if_true, Except.ok.injEq, exists_eq', true_iff, forall_eq',
      h.checkTransactionSignatures_ok_iff hsig hreg.recorded hnd, hall, few, false_or, e, ne_eq,
      not_false_eq_true, implies_true, true_and]
    constructor
    · rintro ⟨enough, hempty | hm⟩
      · exact .inr ⟨hempty, enough⟩
      · exact .inl hm
    · rintro (hm | ⟨hempty, enough⟩)
      · exact ⟨henough hm, .inr hm⟩
      · exact ⟨enough, .inl hempty⟩

/-- A federation of three keys, two of which are required. -/
def Federation.toy : Federation where
  taprootAddress := [0x51]
  redeemScript := [0xac]
  controlBlockWitness := [0xc0]
  threshold := 2
  pubkeys := [[1], [2], [3]]

/-- A transaction that spends one output of the federation. -/
def Transaction.toy : Transaction := ⟨2, 0, [⟨⟨[9], 0⟩, [], 0, []⟩], []⟩

/-- A wallet that has registered it. -/
def UtxoManager.toy : UtxoManager where
  utxos := (∅ : Map OutPoint LocalUtxo).insert ⟨[9], 0⟩ ⟨⟨0, [0x51]⟩, ⟨[9], 0⟩, true⟩
  rawTxs := (∅ : Map Txid Transaction).insert [1, 9] .toy

/-- A list of one signature. -/
def toySignatures : List SchnorrSignature := [⟨List.replicate 64 0, rfl⟩]

lemma Registered.toy : Registered .toy [1, 9] .toy where
  stored := by decide
  recorded := by decide

/-- The first and the third member sign, then a stranger. -/
theorem collect_exact_members_first :
    CollectsExactly .toy .toy .toy [1, 9] .toy
      [([1], toySignatures), ([3], toySignatures), ([8], toySignatures)] :=
  (collect_exact_iff (fun _ _ _ _ => rfl) .toy (by decide)).mpr
    ⟨nofun, .inr (.inl (foreignLate_iff.mpr (by decide)))⟩

/-- Two strangers sign: the transaction is finalized although no member offered anything. -/
theorem collect_foreign_keys :
    ¬ ∀ (P : Primitives) (F : Federation) (w : UtxoManager) (txid : Txid) (tx : Transaction)
      (offers : List (PublicKey × List SchnorrSignature)), SighashIgnoresWitnesses P →
      Registered w txid tx → (F.pubkeys.map P.toXOnly).Nodup → 0 < F.threshold →
      F.threshold ≤ F.pubkeys.length → CollectsExactly P F w txid tx offers := by
  intro all
  obtain ⟨hiff, _⟩ := all .toy .toy .toy [1, 9] .toy [([8], toySignatures), ([9], toySignatures)]
    (fun _ _ _ _ => rfl) .toy (by decide) (by decide) (by decide)
  exact absurd (hiff.mp ⟨_, rfl⟩) (by decide)

end Alys
