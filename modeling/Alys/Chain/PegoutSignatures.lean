import Alys.Chain.Miner
import Alys.Lib.Keyed

/-!
# Messages with signatures

A member sends its signatures for several peg-outs in one message, a map from transaction hashes,
and `Chain::store_signatures` of `app/src/chain.rs` adds them to the collector in the order in which
the map is iterated, up to the first that is refused. The order differs between nodes, so one
refused entry makes the nodes collect different signatures (`storeSignatures_orderFree_fails`). This
is the only way (`storeSignatures_orderFree_iff`).
-/

namespace Alys
open Lib

/-- The `PegoutSignatures` message: the entries of a map, in some order. -/
structure PegoutSignatures where
  entries : List (Txid × PublicKey × List SchnorrSignature)
  distinct : (entries.map (·.1)).Nodup

namespace BitcoinSignatureCollector

variable (P : Primitives) (F : Federation) (w : UtxoManager)

/-- The collector with every valid entry added, one after the other. -/
def addValid (entries : List (Txid × PublicKey × List SchnorrSignature))
    (c : BitcoinSignatureCollector) : BitcoinSignatureCollector :=
  entries.foldl (fun c x =>
    match c.addSignature P F w x.1 x.2 with
    | (.ok _, added) => added
    | (.error _, _) => c) c

/-- What `add_signature` does to the entry of the transaction. -/
def addToSlot (x : Txid × PublicKey × List SchnorrSignature)
    (slot : Option PartiallySignedTaprootTransaction) :
    Except FederationError Unit × Option PartiallySignedTaprootTransaction :=
  match slot.elim ((w.getTransaction x.1).map .new) .ok with
  | .error e => (.error e, slot)
  | .ok psbt =>
    if F.threshold ≤ psbt.verifiedSignatures.keys.card then
      (.ok (), some psbt)
    else
      match w.checkInputSignatures P F psbt.unsignedTransaction x.2 with
      | .error e => (.error e, some psbt)
      | .ok _ => (.ok (), some (psbt.addVerifiedSignature x.2.1 x.2.2))

variable {P F w} {c : BitcoinSignatureCollector} {x : Txid × PublicKey × List SchnorrSignature}

/-- Adding a signature reads and writes the entry of its transaction only. -/
lemma addSignature_eq :
    c.addSignature P F w x.1 x.2 =
      ((atKey x.1 (addToSlot P F w x) c.transactions).1,
        ⟨(atKey x.1 (addToSlot P F w x) c.transactions).2⟩) := by
  have hentry : c.entry w x.1 =
      (c.transactions.lookup x.1).elim ((w.getTransaction x.1).map .new) .ok := by
    unfold entry
    split
    case h_1 psbt hlookup => rw [hlookup]; rfl
    case h_2 hlookup => rw [hlookup]; rfl
  unfold addSignature atKey addToSlot
  rw [hentry]
  cases (c.transactions.lookup x.1).elim ((w.getTransaction x.1).map .new) .ok with
  | error e =>
    simp only [put_lookup]
  | ok psbt =>
    dsimp only
    split
    case isTrue => rfl
    case isFalse =>
      cases w.checkInputSignatures P F psbt.unsignedTransaction x.2 with
      | error e => rfl
      | ok _ => rfl

lemma addValid_transactions {entries : List (Txid × PublicKey × List SchnorrSignature)} :
    (addValid P F w entries c).transactions =
      tryAll (·.1) (addToSlot P F w) entries c.transactions := by
  induction entries generalizing c with
  | nil => rfl
  | cons x entries ih =>
    rw [addValid, List.foldl_cons]
    refine ih.trans ?_
    rw [tryAll, tryAll, List.foldl_cons, tried, addSignature_eq]
    unfold atKey
    cases (addToSlot P F w x (c.transactions.lookup x.1)).1 with
    | ok _ => rfl
    | error e => simp only [put_lookup]

end BitcoinSignatureCollector

/-- The loop on the node is the loop on the collector. -/
lemma storeSignatures_transactions {P : Primitives} {cfg : ChainConfig} {c : Chain}
    {entries : List (Txid × PublicKey × List SchnorrSignature)} :
    (storeSignatures P cfg entries c).2.bitcoinSignatureCollector.transactions =
      (Action.forEach entries (fun x => atKey x.1
        (BitcoinSignatureCollector.addToSlot P cfg.bitcoinFederation c.bitcoinWallet x))
        c.bitcoinSignatureCollector.transactions).2 := by
  induction entries generalizing c with
  | nil => rfl
  | cons x entries ih =>
    rw [storeSignatures, Action.forEach, Action.bind_apply, Action.forEach, Action.bind_apply]
    simp only [Action.bind_apply, Action.get_apply, Action.zoom,
      BitcoinSignatureCollector.addSignature_eq, atKey]
    cases (BitcoinSignatureCollector.addToSlot P cfg.bitcoinFederation c.bitcoinWallet x
      (c.bitcoinSignatureCollector.transactions.lookup x.1)).1 with
    | ok _ => exact ih
    | error e => rfl

/-- A message leaves the collector with exactly its valid entries added, in every order, if and only
if all entries are valid or none has an effect. -/
theorem storeSignatures_orderFree_iff {P : Primitives} {cfg : ChainConfig} {c : Chain}
    (msg : PegoutSignatures) :
    (∀ order : List (Txid × PublicKey × List SchnorrSignature), order.Perm msg.entries →
        (storeSignatures P cfg order c).2.bitcoinSignatureCollector =
          c.bitcoinSignatureCollector.addValid P cfg.bitcoinFederation c.bitcoinWallet
            msg.entries) ↔
      (∀ x ∈ msg.entries, (c.bitcoinSignatureCollector.addSignature P cfg.bitcoinFederation
        c.bitcoinWallet x.1 x.2).1 = .ok ()) ∨
      ∀ x ∈ msg.entries, (c.bitcoinSignatureCollector.addSignature P cfg.bitcoinFederation
        c.bitcoinWallet x.1 x.2).2 = c.bitcoinSignatureCollector := by
  have hext : ∀ {a b : BitcoinSignatureCollector}, a = b ↔ a.transactions = b.transactions := by
    rintro ⟨_⟩ ⟨_⟩
    exact BitcoinSignatureCollector.mk.injEq _ _ ▸ Iff.rfl
  simp only [hext, storeSignatures_transactions, BitcoinSignatureCollector.addValid_transactions,
    BitcoinSignatureCollector.addSignature_eq, atKey, put_eq_self_iff]
  exact forEach_atKey_iff msg.distinct

/-- A message with a signature for the peg-out of the toy wallet and one for an unknown hash. -/
def PegoutSignatures.toy : PegoutSignatures where
  entries := [([1, 9], [1], toySignatures), ([7], [1], toySignatures)]
  distinct := by decide

/-- One entry of two is for an unknown hash. The other one is collected if it comes first, and lost
if it comes second. -/
theorem storeSignatures_orderFree_fails :
    ¬ ∀ (P : Primitives) (cfg : ChainConfig) (c : Chain) (msg : PegoutSignatures)
      (order order' : List (Txid × PublicKey × List SchnorrSignature)),
      order.Perm msg.entries → order'.Perm msg.entries →
      (storeSignatures P cfg order c).2.bitcoinSignatureCollector =
        (storeSignatures P cfg order' c).2.bitcoinSignatureCollector := by
  intro all
  have same := all .toy (.toy 1 0) (.new .toy .toy) .toy _ _ (.refl _) (.swap _ _ [])
  have found := congrArg (fun c => (c.transactions.lookup [1, 9]).isSome) same
  exact absurd found (by decide)

end Alys
