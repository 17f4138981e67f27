import Alys.Lib.Endian
import Alys.Pow.AuxPow

/-!
# The built-in miner

Model of `AuxPow::mine` in `app/src/auxpow.rs` and of the script that it writes
(`MergedMiningHeader::to_script_pub_key`). The miner makes up a parent block whose only transaction
commits to the hash and tries the nonces one after another.

The parent block has chain id 1, so that for a chain with that id the check of the proof fails and
is unwrapped.
-/

namespace Alys
open Lib

/-! ## The script -/

/-- `MergedMiningHeader::to_script_pub_key`. The hash is written as it is, and read in the opposite
order. -/
def MergedMiningHeader.toScriptPubKey (header : MergedMiningHeader) : Bytes :=
  mergedMiningHeader ++ header.blockHash ++ leBytes 4 header.merkleSize ++
    leBytes 4 header.merkleNonce

lemma fromLeBytes_eq_leValue (bytes : Bytes) : fromLeBytes bytes = leValue bytes := by
  induction bytes with
  | nil => rfl
  | cons b bytes ih => rw [leValue, ← ih, fromLeBytes, List.foldr_cons, ← fromLeBytes]

lemma fromLeBytes_leBytes {n : Nat} (h : n < 2 ^ 32) : fromLeBytes (leBytes 4 n) = n := by
  rw [fromLeBytes_eq_leValue, leValue_leBytes h]

/-- A script that was written is read. -/
lemma MergedMiningHeader.fromScriptPubKey_toScriptPubKey {header : MergedMiningHeader}
    (hhash : header.blockHash.length = 32) (hsize : header.merkleSize < 2 ^ 32)
    (hnonce : header.merkleNonce < 2 ^ 32) :
    fromScriptPubKey header.toScriptPubKey header.blockHash.reverse =
      .ok { header with blockHash := header.blockHash.reverse } := by
  have hmagic : mergedMiningHeader.length = 4 := rfl
  have hlength : header.toScriptPubKey.length = mergedMiningHeaderLength := by
    simp only [toScriptPubKey, List.length_append, hmagic, hhash, length_leBytes]
    rfl
  have htake : header.toScriptPubKey.take 4 = mergedMiningHeader := by
    simp only [toScriptPubKey, List.append_assoc]
    exact List.take_left' hmagic
  have hdrop : header.toScriptPubKey.drop 4 =
      header.blockHash ++ (leBytes 4 header.merkleSize ++ leBytes 4 header.merkleNonce) := by
    simp only [toScriptPubKey, List.append_assoc]
    exact List.drop_left' hmagic
  have hrest : header.toScriptPubKey.drop 36 =
      leBytes 4 header.merkleSize ++ leBytes 4 header.merkleNonce := by
    rw [show 36 = 4 + 32 from rfl, ← List.drop_drop, hdrop]
    exact List.drop_left' hhash
  have hlast : header.toScriptPubKey.drop 40 = leBytes 4 header.merkleNonce := by
    rw [show 40 = 36 + 4 from rfl, ← List.drop_drop, hrest]
    exact List.drop_left' (length_leBytes ..)
  rw [fromScriptPubKey, if_neg (not_not.mpr hlength), if_neg (not_not.mpr htake), hdrop, hrest,
    hlast, List.take_left' hhash, List.take_left' (length_leBytes ..), fromLeBytes_leBytes hsize,
    fromLeBytes_leBytes hnonce]
  exact if_neg (not_not.mpr rfl)

/-! ## The search -/

/-- `TxOut::default`. -/
def TxOut.null : TxOut := ⟨2 ^ 64 - 1, []⟩

namespace AuxPow

/-- The transaction that `mine` makes up. -/
def minedCoinbase (sidechainHash : BlockHash) : Transaction where
  version := 0
  lockTime := 0
  input := []
  output := [.null, .null, ⟨0, MergedMiningHeader.toScriptPubKey ⟨sidechainHash, 1, 0⟩⟩]

/-- The proof that `mine` tries with a nonce. -/
def attempt (P : Primitives) (sidechainHash : BlockHash) (nonce : Nat) : AuxPow where
  coinbaseTxn := minedCoinbase sidechainHash
  blockHash := List.replicate 32 0
  coinbaseBranch := ⟨[], 0⟩
  blockchainBranch := ⟨[], 0⟩
  parentBlock :=
    ⟨1 * 2 ^ 16, List.replicate 32 0, P.txid (minedCoinbase sidechainHash), 0, 0, nonce⟩

/-- The loop of `mine`, from a nonce on. -/
def mineFrom (P : Primitives) (sidechainHash : BlockHash) (target chainId : Nat) :
    Nat → Nat → Except Failure AuxPow
  | 0, _ => .error .panic
  | nonces + 1, nonce =>
    if (attempt P sidechainHash nonce).checkProofOfWork P target then do
      unwrap ((attempt P sidechainHash nonce).check P sidechainHash chainId)
      return attempt P sidechainHash nonce
    else mineFrom P sidechainHash target chainId nonces (nonce + 1)

/-- `AuxPow::mine`; the last `u32` is not tried. -/
def mine (P : Primitives) (sidechainHash : BlockHash) (target chainId : Nat) :
    Except Failure AuxPow :=
  mineFrom P sidechainHash target chainId (2 ^ 32 - 1) 0

variable {P : Primitives} {hash : BlockHash} {target chainId : Nat}

/-- Every attempt is well formed: it passes the check for every chain but that of the parent. -/
lemma check_attempt (hhash : hash.length = 32) (hid : chainId < 2 ^ 32) (nonce : Nat) :
    (attempt P hash nonce).check P hash chainId =
      if chainId = 1 then .error (.error .parentHasChainId) else .ok () := by
  have hparent : (attempt P hash nonce).getParentChainId = 1 := by
    show ((1 * 2 ^ 16 : Int) % 2 ^ 32).toNat / 2 ^ 16 = 1
    decide
  have hcoinbase : parseCoinbase (minedCoinbase hash) hash.reverse =
      .ok ⟨hash.reverse, 1, 0⟩ := by
    have small : ∀ n < 2, n < 2 ^ 32 := fun n lt => lt.trans (by decide)
    have hheader := @MergedMiningHeader.fromScriptPubKey_toScriptPubKey ⟨hash, 1, 0⟩ hhash
      (small 1 (by decide)) (small 0 (by decide))
    simp only [parseCoinbase, minedCoinbase, List.getElem?_cons_succ, List.getElem?_cons_zero,
      hheader]
  have hindex : (getExpectedIndex 0 chainId 0 : Except (Fault AuxPowError) Nat) = .ok 0 := by
    rw [getExpectedIndex_ok (by decide) hid (by decide), Nat.pow_zero, Nat.mod_one]
  rcases eq_or_ne chainId 1 with rfl | ne
  · rw [check, hparent]
    rfl
  · rw [if_neg ne]
    simp only [check, guard_eq_ok_iff, bind_eq_ok_iff, hparent]
    refine ⟨ne.symm, Nat.not_lt_zero 30, hash, rfl, _, rfl, not_not.mpr rfl, ?_⟩
    rw [show (attempt P hash nonce).coinbaseTxn = minedCoinbase hash from rfl, hcoinbase]
    simp only [guard_eq_ok_iff, bind_eq_ok_iff]
    exact ⟨not_not.mpr rfl, not_not.mpr rfl, 0, hindex, rfl⟩

/-- A nonce is the first one from `nonce` on, and below `limit`, that meets the target. -/
structure FirstFrom (P : Primitives) (hash : BlockHash) (target nonce limit found : Nat) :
    Prop where
  le : nonce ≤ found
  lt : found < limit
  meets : (attempt P hash found).checkProofOfWork P target = true
  first : ∀ k, nonce ≤ k → k < found → (attempt P hash k).checkProofOfWork P target = false

variable {a : AuxPow}

/-- The loop returns the first nonce that meets the target. -/
lemma mineFrom_ok_iff (hhash : hash.length = 32) (hid : chainId < 2 ^ 32) (ne : chainId ≠ 1)
    {nonces nonce : Nat} :
    mineFrom P hash target chainId nonces nonce = .ok a ↔
      ∃ found, FirstFrom P hash target nonce (nonce + nonces) found ∧ a = attempt P hash found := by
  induction nonces generalizing nonce with
  | zero => exact ⟨nofun, fun ⟨found, h, _⟩ => absurd h.lt (Nat.not_lt.mpr h.le)⟩
  | succ nonces ih =>
    rw [mineFrom]
    split
    case isTrue hmet =>
      rw [check_attempt hhash hid, if_neg ne]
      constructor
      · intro e
        have lt : nonce < nonce + (nonces + 1) := Nat.lt_add_of_pos_right (Nat.succ_pos nonces)
        exact ⟨nonce, ⟨le_rfl, lt, hmet, fun k le lt => absurd lt (Nat.not_lt.mpr le)⟩,
          (Except.ok.inj e).symm⟩
      · rintro ⟨found, h, rfl⟩
        rcases Nat.eq_or_lt_of_le h.le with rfl | lt
        · rfl
        · rw [h.first nonce le_rfl lt] at hmet
          cases hmet
    case isFalse hmet =>
      have hlimit : nonce + 1 + nonces = nonce + (nonces + 1) := by omega
      rw [ih, hlimit]
      constructor
      · rintro ⟨found, h, e⟩
        refine ⟨found, ⟨Nat.le_of_succ_le h.le, h.lt, h.meets, fun k le lt => ?_⟩, e⟩
        rcases Nat.eq_or_lt_of_le le with rfl | lt'
        · exact Bool.eq_false_iff.mpr hmet
        · exact h.first k lt' lt
      · rintro ⟨found, h, e⟩
        refine ⟨found, ⟨Nat.lt_of_le_of_ne h.le ?_, h.lt, h.meets, fun k le => ?_⟩, e⟩
        · rintro rfl
          exact hmet h.meets
        · exact h.first k (Nat.le_of_succ_le le)

/-- For the chain id of the parent the loop always panics. -/
lemma mineFrom_parent (hhash : hash.length = 32) (nonces nonce : Nat) :
    mineFrom P hash target 1 nonces nonce = .error .panic := by
  induction nonces generalizing nonce with
  | zero => rfl
  | succ nonces ih =>
    rw [mineFrom]
    split
    case isTrue =>
      rw [check_attempt hhash (by decide), if_pos rfl]
      rfl
    case isFalse => exact ih (nonce + 1)

lemma mine_eq_ok_iff (hhash : hash.length = 32) (hid : chainId < 2 ^ 32) :
    mine P hash target chainId = .ok a ↔
      chainId ≠ 1 ∧ ∃ found, FirstFrom P hash target 0 (2 ^ 32 - 1) found ∧
        a = attempt P hash found := by
  rw [mine]
  rcases eq_or_ne chainId 1 with rfl | ne
  · rw [mineFrom_parent hhash]
    exact ⟨nofun, fun h => absurd rfl h.1⟩
  · rw [mineFrom_ok_iff hhash hid ne, Nat.zero_add, and_iff_right ne]

/-- A proof that was mined passes both checks of the node. -/
lemma mine_valid (hhash : hash.length = 32) (hid : chainId < 2 ^ 32)
    (e : mine P hash target chainId = .ok a) :
    a.checkProofOfWork P target = true ∧ a.check P hash chainId = .ok () := by
  obtain ⟨ne, found, h, rfl⟩ := (mine_eq_ok_iff hhash hid).mp e
  exact ⟨h.meets, (check_attempt hhash hid found).trans (if_neg ne)⟩

end AuxPow

end Alys
