import Alys.Basic.Types
import Alys.Lib.Action
import Mathlib.Data.Nat.ModEq

/-!
# Merged mining

Model of `app/src/auxpow.rs`: Merkle branches, the merged-mining header in an output of the parent
chain's coinbase, and the check that a parent block commits to an auxiliary hash (`AuxPow::check`).
The parser of the coinbase's input script serves the tests only and is left out; the miner
(`AuxPow::mine`) is in `Pow.Mine`.

The length of the coinbase branch is not bounded, and a shift of the side mask by 32 or more is a
panic. The slot of a chain in the merged-mining tree is computed with 64 bits and reduced at each
step; it is the slot that miners compute with 32 bits (`getExpectedIndex_eq_namecoin`).
-/

namespace Alys
open Lib

/-- `AuxPowError`, with the variants that the modelled functions return. -/
inductive AuxPowError where
  | missingHeader
  | parentHasChainId
  | merkleBranchTooLong
  | merkleRootIncorrect
  | coinbaseInvalidOutputs
  | missingMerkleRoot
  | invalidMerkleSize
  | wrongIndex
  deriving DecidableEq

/-! ## Merkle branches -/

/-- SHA256D of two nodes (Rust `MerkleBranch::parent_hash`). -/
def MerkleBranch.parentHash (P : Primitives) (left right : Bytes) : Bytes :=
  P.sha256d (left ++ right)

/-- The root that a branch gives for a leaf (Rust `MerkleBranch::check_merkle_branch`). -/
def MerkleBranch.checkMerkleBranch {ε : Type} (P : Primitives) (branch : MerkleBranch)
    (hash : Bytes) : Except (Fault ε) Bytes :=
  branch.branchHash.zipIdx.foldlM
    (fun hash (branchHash, n) =>
      if 32 ≤ n then
        .error .panic
      else if branch.branchSideMask.testBit n then
        .ok (MerkleBranch.parentHash P branchHash hash)
      else
        .ok (MerkleBranch.parentHash P hash branchHash))
    hash

/-! ## The merged-mining header -/

/-- `MERGED_MINING_HEADER`. -/
def mergedMiningHeader : Bytes := [0xfa, 0xbe, 0x6d, 0x6d]

/-- `MERGED_MINING_HEADER_LENGTH`. -/
def mergedMiningHeaderLength : Nat := 44

/-- `MergedMiningHeader`, after its magic bytes. -/
structure MergedMiningHeader where
  blockHash : BlockHash
  merkleSize : Nat
  merkleNonce : Nat

/-- `u32::from_le_bytes`. -/
def fromLeBytes (bytes : Bytes) : Nat := bytes.foldr (fun b n => b.toNat + 256 * n) 0

def MergedMiningHeader.fromScriptPubKey (header : Bytes) (rootHash : BlockHash) :
    Except AuxPowError MergedMiningHeader :=
  if header.length ≠ mergedMiningHeaderLength then
    .error .missingHeader
  else if header.take 4 ≠ mergedMiningHeader then
    .error .missingHeader
  else
    let blockHash := ((header.drop 4).take 32).reverse
    if blockHash ≠ rootHash then
      .error .missingMerkleRoot
    else
      .ok ⟨blockHash, fromLeBytes ((header.drop 36).take 4), fromLeBytes (header.drop 40)⟩

/-- The header in the third or else the fourth output (Rust `CoinbaseVout::parse_coinbase`). -/
def parseCoinbase (tx : Transaction) (rootHash : BlockHash) :
    Except AuxPowError MergedMiningHeader :=
  match tx.output[2]? with
  | none => .error .coinbaseInvalidOutputs
  | some out =>
    match MergedMiningHeader.fromScriptPubKey out.scriptPubkey rootHash with
    | .ok header => .ok header
    | .error _ =>
      match tx.output[3]? with
      | none => .error .coinbaseInvalidOutputs
      | some out => MergedMiningHeader.fromScriptPubKey out.scriptPubkey rootHash

/-! ## The proof -/

namespace AuxPow

def getParentChainId (a : AuxPow) : Nat := (a.parentBlock.version % 2 ^ 32).toNat / 2 ^ 16

def aggregateHash (P : Primitives) (hashes : List BlockHash) : BlockHash :=
  P.sha256d hashes.flatten

/-- `AuxPow::get_expected_index`. A shift by 64 or more panics, as every overflow does. -/
def getExpectedIndex {ε : Type} (nonce chainId h : Nat) : Except (Fault ε) Nat := do
  if 64 ≤ h then
    throw .panic
  let m := 2 ^ h
  let rand ← checkedU64 (nonce * 1103515245)
  let rand ← checkedU64 (rand + 12345)
  let rand := rand % m
  let rand ← checkedU64 (rand + chainId)
  let rand ← checkedU64 (rand * 1103515245)
  let rand ← checkedU64 (rand + 12345)
  return rand % m

def check (P : Primitives) (a : AuxPow) (hashAuxBlock : BlockHash) (chainId : Nat) :
    Except (Fault AuxPowError) Unit := do
  if a.getParentChainId = chainId then
    throw (.error .parentHasChainId)
  if 30 < a.blockchainBranch.branchHash.length then
    throw (.error .merkleBranchTooLong)
  let rootHash ← a.blockchainBranch.checkMerkleBranch P hashAuxBlock
  let vchRootHash := rootHash.reverse
  let merkleRoot ← a.coinbaseBranch.checkMerkleBranch P (P.txid a.coinbaseTxn)
  if merkleRoot ≠ a.parentBlock.merkleRoot then
    throw (.error .merkleRootIncorrect)
  match parseCoinbase a.coinbaseTxn vchRootHash with
  | .error e => throw (.error e)
  | .ok header =>
    if header.blockHash ≠ vchRootHash then
      throw (.error .missingMerkleRoot)
    let merkleHeight := a.blockchainBranch.branchHash.length
    if header.merkleSize ≠ 2 ^ merkleHeight then
      throw (.error .invalidMerkleSize)
    let expected ← getExpectedIndex header.merkleNonce chainId merkleHeight
    if a.blockchainBranch.branchSideMask ≠ expected then
      throw (.error .wrongIndex)

def checkProofOfWork (P : Primitives) (a : AuxPow) (bits : Nat) : Bool :=
  P.isMetBy bits a.parentBlock

/-! ## The slot -/

/-- For 32-bit numbers and the heights that `check` lets pass, no step overflows. -/
lemma getExpectedIndex_ok {ε : Type} {nonce chainId h : Nat} (hnonce : nonce < 2 ^ 32)
    (hid : chainId < 2 ^ 32) (hle : h ≤ 30) :
    (getExpectedIndex nonce chainId h : Except (Fault ε) Nat) =
      .ok ((((nonce * 1103515245 + 12345) % 2 ^ h + chainId) * 1103515245 + 12345) % 2 ^ h) := by
  have hm : 2 ^ h ≤ 2 ^ 30 := Nat.pow_le_pow_right (by decide) hle
  have hrand := Nat.mod_lt (nonce * 1103515245 + 12345) (Nat.two_pow_pos h)
  simp only [getExpectedIndex, guard_eq_ok_iff, bind_eq_ok_iff]
  refine ⟨by omega, _, checkedU64_of_lt (by omega), _, checkedU64_of_lt (by omega), _,
    checkedU64_of_lt (by omega), _, checkedU64_of_lt (by omega), _, checkedU64_of_lt (by omega), ?_⟩
  rfl

end AuxPow

/-- The slot of a chain as Namecoin computes it: with wrapping 32-bit arithmetic, reduced once at
the end. -/
def namecoinIndex (nonce chainId : UInt32) (h : Nat) : Nat :=
  ((nonce * 1103515245 + 12345 + chainId) * 1103515245 + 12345).toNat % 2 ^ h

lemma namecoinIndex_eq {nonce chainId : UInt32} {h : Nat} (hle : h ≤ 32) :
    namecoinIndex nonce chainId h =
      ((nonce.toNat * 1103515245 + 12345 + chainId.toNat) * 1103515245 + 12345) % 2 ^ h := by
  have wraps : ((nonce * 1103515245 + 12345 + chainId) * 1103515245 + 12345).toNat =
      ((nonce.toNat * 1103515245 + 12345 + chainId.toNat) * 1103515245 + 12345) % 2 ^ 32 := by
    simp only [UInt32.toNat_add, UInt32.toNat_mul, UInt32.reduceToNat]
    omega
  rw [namecoinIndex, wraps, Nat.mod_mod_of_dvd _ (Nat.pow_dvd_pow 2 hle)]

/-- Two steps of a linear generator, reduced in between or not. -/
lemma mod_generator {a b c m x : Nat} :
    (((x * a + b) % m + c) * a + b) % m = ((x * a + b + c) * a + b) % m := by
  have inner : (x * a + b) % m + c ≡ x * a + b + c [MOD m] := (Nat.mod_modEq _ m).add_right c
  exact (inner.mul_right a).add_right b

/-- The slot that `check` expects is computed without overflow, lies in the tree and is the one that
Namecoin's formula gives. -/
theorem getExpectedIndex_eq_namecoin {ε : Type} (nonce chainId : UInt32) {h : Nat} (hle : h ≤ 30) :
    ∃ index, (AuxPow.getExpectedIndex nonce.toNat chainId.toNat h : Except (Fault ε) Nat) =
        .ok index ∧
      index < 2 ^ h ∧ index = namecoinIndex nonce chainId h := by
  refine ⟨_, AuxPow.getExpectedIndex_ok nonce.toNat_lt chainId.toNat_lt hle,
    Nat.mod_lt _ (Nat.two_pow_pos h), ?_⟩
  rw [namecoinIndex_eq (hle.trans (by decide))]
  exact mod_generator

/-- The largest nonce and chain id in the largest tree. -/
theorem getExpectedIndex_eq_namecoin_max :
    30 ≤ 30 ∧ ∃ index,
      (AuxPow.getExpectedIndex (2 ^ 32 - 1) (2 ^ 32 - 1) 30 : Except (Fault AuxPowError) Nat) =
        .ok index ∧
      index < 2 ^ 30 ∧ index = namecoinIndex 0xFFFFFFFF 0xFFFFFFFF 30 :=
  ⟨le_rfl, getExpectedIndex_eq_namecoin 0xFFFFFFFF 0xFFFFFFFF le_rfl⟩

end Alys
