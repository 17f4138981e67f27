import Alys.Lib.Action
import Alys.Lib.Collect
import Alys.Lib.Merkle
import Alys.Pow.AuxPow

/-!
# One parent block, one commitment

A proof of work counts for one bundle of blocks if the parent block commits to no other one. What
`AuxPow::check` accepts is a commitment in the third or the fourth output of a transaction that lies
somewhere in the parent block: it does not ask that the transaction is the coinbase, and it takes
whichever of the two outputs fits the hash it is given.

A commitment itself leaves no choice. Its size and nonce fix the length and the sides of the branch,
so with hashes that do not collide it has one leaf.
-/

namespace Alys
open Lib

/-! ## Branches -/

namespace MerkleBranch

/-- The steps of a branch, from the leaf on. -/
def path (branch : MerkleBranch) : List (Bool × Bytes) :=
  branch.branchHash.zipIdx.map fun x => (branch.branchSideMask.testBit x.2, x.1)

variable {branch branch' : MerkleBranch} {P : Primitives}

/-- The loop climbs, and panics at a step that the mask has no digit for. -/
lemma checkMerkleBranch_eq {ε : Type} {hash : Bytes} :
    branch.checkMerkleBranch P hash =
      if branch.branchHash.length ≤ 32 then .ok (climb (parentHash P) hash branch.path)
      else (.error .panic : Except (Fault ε) Bytes) := by
  obtain ⟨hashes, mask⟩ := branch
  suffices ∀ k ≤ 32, ∀ hash,
      (hashes.zipIdx k).foldlM (fun hash x =>
        if 32 ≤ x.2 then .error .panic
        else if mask.testBit x.2 then .ok (parentHash P x.1 hash)
        else .ok (parentHash P hash x.1)) hash =
      if k + hashes.length ≤ 32 then .ok (climb (parentHash P) hash
        ((hashes.zipIdx k).map fun x => (mask.testBit x.2, x.1)))
      else (.error .panic : Except (Fault ε) Bytes) by
    have h := this 0 (Nat.zero_le 32) hash
    rwa [Nat.zero_add] at h
  induction hashes with
  | nil =>
    intro k hk hash
    rw [if_pos (by simpa using hk)]
    rfl
  | cons sibling hashes ih =>
    intro k hk hash
    rw [List.zipIdx_cons, List.foldlM_cons, List.length_cons, List.map_cons, climb_cons]
    by_cases last : 32 ≤ k
    · simp only [if_pos last]
      rw [if_neg (by omega)]
      rfl
    · simp only [if_neg last]
      rw [← Nat.add_assoc, Nat.add_right_comm]
      cases mask.testBit k with
      | true => exact ih (k + 1) (by omega) _
      | false => exact ih (k + 1) (by omega) _

lemma checkMerkleBranch_ok {ε : Type} {hash root : Bytes}
    (e : branch.checkMerkleBranch P hash = (.ok root : Except (Fault ε) Bytes)) :
    climb (parentHash P) hash branch.path = root := by
  rw [checkMerkleBranch_eq] at e
  split at e
  case isTrue => exact Except.ok.inj e
  case isFalse => cases e

lemma sides_path :
    branch.path.map (·.1) =
      (List.range branch.branchHash.length).map branch.branchSideMask.testBit := by
  have hcomp : ((·.1) ∘ fun x : Bytes × Nat => (branch.branchSideMask.testBit x.2, x.1)) =
      branch.branchSideMask.testBit ∘ Prod.snd := rfl
  rw [path, List.map_map, hcomp, ← List.map_map, List.zipIdx_map_snd, List.range_eq_range']

lemma mem_path {step : Bool × Bytes} (mem : step ∈ branch.path) : step.2 ∈ branch.branchHash := by
  obtain ⟨x, hx, rfl⟩ := List.mem_map.mp mem
  exact List.fst_mem_of_mem_zipIdx hx

lemma siblings_path : branch.path.map (·.2) = branch.branchHash := by
  have hcomp : ((·.2) ∘ fun x : Bytes × Nat => (branch.branchSideMask.testBit x.2, x.1)) =
      Prod.fst := rfl
  rw [path, List.map_map, hcomp, List.zipIdx_map_fst]

/-- A root has one branch of a length and a mask. -/
lemma unique {Node : Bytes → Prop} {leaf leaf' : Bytes} (hP : PairsNodes Node (parentHash P))
    (hleaf : Node leaf) (hleaf' : Node leaf') (hnodes : ∀ hash ∈ branch.branchHash, Node hash)
    (hnodes' : ∀ hash ∈ branch'.branchHash, Node hash)
    (hlength : branch.branchHash.length = branch'.branchHash.length)
    (hmask : branch.branchSideMask = branch'.branchSideMask)
    (root : climb (parentHash P) leaf branch.path = climb (parentHash P) leaf' branch'.path) :
    leaf = leaf' ∧ branch.branchHash = branch'.branchHash := by
  obtain ⟨hsame, hpath⟩ := hP.path_unique hleaf hleaf' (fun step mem => hnodes _ (mem_path mem))
    (fun step mem => hnodes' _ (mem_path mem))
    (by rw [sides_path, sides_path, hlength, hmask]) root
  exact ⟨hsame, by rw [← siblings_path, hpath, siblings_path]⟩

/-- Two branches lead to one leaf: seen from the root, they take the same sides as long as both go
on. So do any two branches of the first leaf, whose siblings all stand to the right. -/
def SameLeaf (branch branch' : MerkleBranch) : Prop :=
  branch.path.map (·.1) <:+ branch'.path.map (·.1) ∨
    branch'.path.map (·.1) <:+ branch.path.map (·.1)

end MerkleBranch

/-! ## Headers -/

/-- A script of the form of a merged-mining header. -/
def HasHeaderForm (script : Bytes) : Prop :=
  script.length = mergedMiningHeaderLength ∧ script.take 4 = mergedMiningHeader

/-- The header that a script spells out. -/
def headerOf (script : Bytes) : MergedMiningHeader :=
  ⟨((script.drop 4).take 32).reverse, fromLeBytes ((script.drop 36).take 4),
    fromLeBytes (script.drop 40)⟩

lemma fromScriptPubKey_ok {script rootHash header}
    (e : MergedMiningHeader.fromScriptPubKey script rootHash = .ok header) :
    HasHeaderForm script ∧ header = headerOf script := by
  unfold MergedMiningHeader.fromScriptPubKey at e
  split at e
  case isTrue => cases e
  case isFalse hlength =>
    split at e
    case isTrue => cases e
    case isFalse hmagic =>
      simp only at e
      split at e
      case isTrue => cases e
      case isFalse =>
        cases e
        exact ⟨⟨not_not.mp hlength, not_not.mp hmagic⟩, rfl⟩

/-- The third or the fourth output of a transaction has the script. -/
def Transaction.Commits (tx : Transaction) (script : Bytes) : Prop :=
  HasHeaderForm script ∧ ∃ i, (i = 2 ∨ i = 3) ∧ tx.output[i]?.map (·.scriptPubkey) = some script

lemma parseCoinbase_ok {tx rootHash header} (e : parseCoinbase tx rootHash = .ok header) :
    ∃ script, tx.Commits script ∧ header = headerOf script := by
  unfold parseCoinbase at e
  split at e
  case h_1 => cases e
  case h_2 out hout =>
    split at e
    case h_1 hheader =>
      cases e
      obtain ⟨hform, rfl⟩ := fromScriptPubKey_ok hheader
      exact ⟨_, ⟨hform, 2, .inl rfl, by rw [hout]; rfl⟩, rfl⟩
    case h_2 =>
      split at e
      case h_1 => cases e
      case h_2 out hout =>
        obtain ⟨hform, rfl⟩ := fromScriptPubKey_ok e
        exact ⟨_, ⟨hform, 3, .inr rfl, by rw [hout]; rfl⟩, rfl⟩

/-- The two outputs do not commit to different hashes. -/
def Transaction.CommitsOnce (tx : Transaction) : Prop :=
  ∀ script script', tx.Commits script → tx.Commits script' →
    (headerOf script).blockHash = (headerOf script').blockHash

/-- The parser reads the outputs only. -/
lemma parseCoinbase_congr {tx tx' : Transaction} (h : tx.output = tx'.output)
    (rootHash : BlockHash) :
    parseCoinbase tx rootHash = parseCoinbase tx' rootHash := by
  rw [parseCoinbase, parseCoinbase, h]

/-! ## Proofs -/

/-- What `AuxPow::check` accepts: a branch from the auxiliary hash to a root, a branch from the
transaction to the parent block, and a header of the transaction that fixes the root, the length and
the sides of the first branch. -/
structure AuxPow.Proves (P : Primitives) (a : AuxPow) (hash : BlockHash) (chainId : Nat)
    (header : MergedMiningHeader) : Prop where
  root : climb (MerkleBranch.parentHash P) hash a.blockchainBranch.path = header.blockHash.reverse
  parent : climb (MerkleBranch.parentHash P) (P.txid a.coinbaseTxn) a.coinbaseBranch.path =
    a.parentBlock.merkleRoot
  parsed : parseCoinbase a.coinbaseTxn header.blockHash = .ok header
  size : header.merkleSize = 2 ^ a.blockchainBranch.branchHash.length
  index : AuxPow.getExpectedIndex header.merkleNonce chainId a.blockchainBranch.branchHash.length =
    (.ok a.blockchainBranch.branchSideMask : Except (Fault AuxPowError) Nat)

/-- A proof that passes the check proves the hash. -/
lemma AuxPow.check_ok {P : Primitives} {a : AuxPow} {hash : BlockHash} {chainId : Nat}
    (e : a.check P hash chainId = .ok ()) : ∃ header, a.Proves P hash chainId header := by
  simp only [AuxPow.check, guard_eq_ok_iff, bind_eq_ok_iff] at e
  obtain ⟨_, _, rootHash, hroot, merkleRoot, hparent, hmerkle, e⟩ := e
  split at e
  case h_1 => cases e
  case h_2 header hheader =>
    simp only [guard_eq_ok_iff, bind_eq_ok_iff] at e
    obtain ⟨hhash, hsize, expected, hexpected, e⟩ := e
    split at e
    case isTrue => cases e
    case isFalse hmask =>
      cases not_not.mp hmerkle
      cases not_not.mp hmask
      have hroot := MerkleBranch.checkMerkleBranch_ok hroot
      rw [← not_not.mp hhash] at hheader
      refine ⟨header, ?_, MerkleBranch.checkMerkleBranch_ok hparent, hheader, not_not.mp hsize,
        hexpected⟩
      rw [not_not.mp hhash, List.reverse_reverse]
      exact hroot

/-- Double SHA-256 without collisions on a set of nodes: parents differ if their children do, and
the hash of a transaction is no parent and determines the outputs. -/
structure HashesSound (P : Primitives) (Node : Bytes → Prop) : Prop where
  pairs : PairsNodes Node (MerkleBranch.parentHash P)
  txid : ∀ tx, Node (P.txid tx)
  txid_ne : ∀ tx l r, Node l → Node r → P.txid tx ≠ MerkleBranch.parentHash P l r
  output : ∀ tx tx', P.txid tx = P.txid tx' → tx.output = tx'.output

/-- The hashes of both branches are nodes. -/
def AuxPow.HasNodes (Node : Bytes → Prop) (a : AuxPow) : Prop :=
  (∀ hash ∈ a.coinbaseBranch.branchHash, Node hash) ∧
    ∀ hash ∈ a.blockchainBranch.branchHash, Node hash

namespace AuxPow.Proves

variable {P : Primitives} {Node : Bytes → Prop} {a a' : AuxPow} {hash hash' : BlockHash}
  {chainId : Nat} {header header' : MergedMiningHeader}

section

variable (h : a.Proves P hash chainId header)

include h

/-- A header leaves no choice of the hash. -/
lemma hash_unique (h' : a'.Proves P hash' chainId header) (hP : HashesSound P Node)
    (hnodes : a.HasNodes Node) (hnodes' : a'.HasNodes Node) (hhash : Node hash)
    (hhash' : Node hash') : hash = hash' := by
  have hlength : a.blockchainBranch.branchHash.length = a'.blockchainBranch.branchHash.length :=
    Nat.pow_right_injective le_rfl (h.size.symm.trans h'.size)
  have hmask : a.blockchainBranch.branchSideMask = a'.blockchainBranch.branchSideMask := by
    have hindex := h.index
    rw [hlength, h'.index] at hindex
    exact (Except.ok.inj hindex).symm
  exact (MerkleBranch.unique hP.pairs hhash hhash' hnodes.2 hnodes'.2 hlength hmask
    (h.root.trans h'.root.symm)).1

/-- The longer of two branches to one leaf is no longer than the other: where the shorter one ends
stands a transaction and not an inner node. -/
lemma sides_eq_of_suffix (h' : a'.Proves P hash' chainId header') (hP : HashesSound P Node)
    (hnodes : a.HasNodes Node) (hnodes' : a'.HasNodes Node)
    (hparent : a.parentBlock = a'.parentBlock)
    (hsuffix : a.coinbaseBranch.path.map (·.1) <:+ a'.coinbaseBranch.path.map (·.1)) :
    a.coinbaseBranch.path.map (·.1) = a'.coinbaseBranch.path.map (·.1) := by
  obtain ⟨lower, hsides⟩ := hsuffix
  have hroot := h.parent
  rw [hparent, ← h'.parent] at hroot
  have hnil := hP.pairs.sides_unique (hP.txid _) (hP.txid _)
    (fun step mem => hnodes.1 _ (MerkleBranch.mem_path mem))
    (fun step mem => hnodes'.1 _ (MerkleBranch.mem_path mem)) (hP.txid_ne _) hsides.symm hroot
  rw [hnil, List.nil_append] at hsides
  exact hsides

/-- Two branches to one leaf of one block start at transactions with the same outputs. -/
lemma output_unique (h' : a'.Proves P hash' chainId header') (hP : HashesSound P Node)
    (hnodes : a.HasNodes Node) (hnodes' : a'.HasNodes Node)
    (hparent : a.parentBlock = a'.parentBlock)
    (hleaf : a.coinbaseBranch.SameLeaf a'.coinbaseBranch) :
    a.coinbaseTxn.output = a'.coinbaseTxn.output := by
  have hsides : a.coinbaseBranch.path.map (·.1) = a'.coinbaseBranch.path.map (·.1) := by
    rcases hleaf with hsuffix | hsuffix
    · exact h.sides_eq_of_suffix h' hP hnodes hnodes' hparent hsuffix
    · exact (h'.sides_eq_of_suffix h hP hnodes' hnodes hparent.symm hsuffix).symm
  have hroot := h.parent
  rw [hparent, ← h'.parent] at hroot
  exact hP.output _ _ (hP.pairs.path_unique (hP.txid _) (hP.txid _)
    (fun step mem => hnodes.1 _ (MerkleBranch.mem_path mem))
    (fun step mem => hnodes'.1 _ (MerkleBranch.mem_path mem)) hsides hroot).1

/-- Of two proofs with the same outputs, which commit to one hash, the parser reads one header. -/
lemma header_unique (h' : a'.Proves P hash' chainId header')
    (houtput : a.coinbaseTxn.output = a'.coinbaseTxn.output) (honce : a.coinbaseTxn.CommitsOnce) :
    header = header' := by
  have parsed' := h'.parsed
  rw [← parseCoinbase_congr houtput] at parsed'
  obtain ⟨script, hcommits, e⟩ := parseCoinbase_ok h.parsed
  obtain ⟨script', hcommits', e'⟩ := parseCoinbase_ok parsed'
  have hhash : header.blockHash = header'.blockHash := by
    rw [e, e']
    exact honce script script' hcommits hcommits'
  rw [← hhash, h.parsed] at parsed'
  exact Except.ok.inj parsed'

end

end AuxPow.Proves

/-- If the proofs are about one leaf of the parent block, whose outputs commit to one hash, a parent
block counts for one hash and chain. -/
theorem check_unique {P : Primitives} {Node : Bytes → Prop} (hP : HashesSound P Node)
    {a a' : AuxPow} {hash hash' : BlockHash} {chainId : Nat} (hnodes : a.HasNodes Node)
    (hnodes' : a'.HasNodes Node) (hhash : Node hash) (hhash' : Node hash')
    (hleaf : a.coinbaseBranch.SameLeaf a'.coinbaseBranch) (honce : a.coinbaseTxn.CommitsOnce)
    (hparent : a.parentBlock = a'.parentBlock)
    (e : a.check P hash chainId = .ok ()) (e' : a'.check P hash' chainId = .ok ()) :
    hash = hash' := by
  obtain ⟨header, h⟩ := AuxPow.check_ok e
  obtain ⟨header', h'⟩ := AuxPow.check_ok e'
  have houtput := h.output_unique h' hP hnodes hnodes' hparent hleaf
  -- the same outputs give the same header, and a header leaves no choice
  obtain rfl : header = header' := h.header_unique h' houtput honce
  exact h.hash_unique h' hP hnodes hnodes' hhash hhash'

/-! ## Closed instances -/

/-- A byte string that marks its own end, in the place of a hash. -/
def frame : Bytes → Bytes
  | [] => [0, 0]
  | b :: bytes => 1 :: b :: frame bytes

lemma frame_append_inj {x y s t : Bytes} (e : frame x ++ s = frame y ++ t) : x = y ∧ s = t := by
  induction x generalizing y with
  | nil =>
    cases y with
    | nil => exact ⟨rfl, by simpa [frame] using e⟩
    | cons => simp [frame] at e
  | cons b x ih =>
    cases y with
    | nil => simp [frame] at e
    | cons b' y =>
      simp only [frame, List.cons_append, List.cons.injEq, true_and] at e
      obtain ⟨hx, hs⟩ := ih e.2
      exact ⟨by rw [e.1, hx], hs⟩

lemma frame_inj {x y : Bytes} (e : frame x = frame y) : x = y :=
  (frame_append_inj (congrArg (· ++ []) e)).1

/-- The outputs of a transaction as a byte string. -/
def serialize (output : List TxOut) : Bytes :=
  output.flatMap fun out => frame (List.replicate out.value 0) ++ frame out.scriptPubkey

/-- Outputs are serialized unambiguously. -/
lemma serialize_inj {output output' : List TxOut} (e : serialize output = serialize output') :
    output = output' := by
  have hne : ∀ x, frame x ≠ [] := fun x => by cases x <;> simp [frame]
  induction output generalizing output' with
  | nil =>
    cases output' with
    | nil => rfl
    | cons out => simp [serialize, hne] at e
  | cons out output ih =>
    cases output' with
    | nil => simp [serialize, hne] at e
    | cons out' output' =>
      simp only [serialize, List.flatMap_cons, List.append_assoc] at e
      obtain ⟨hvalue, e⟩ := frame_append_inj e
      obtain ⟨hscript, e⟩ := frame_append_inj e
      have hvalue : out.value = out'.value := by simpa using congrArg List.length hvalue
      have hout : out = out' := by
        cases out
        congr
      rw [hout, ih e]

/-- Library functions with hashes that do not collide. -/
def Primitives.toyHashes : Primitives :=
  { Primitives.toy with
    sha256d := frame
    txid := fun tx => frame (2 :: serialize tx.output) }

lemma Primitives.toyHashes_sound : HashesSound .toyHashes (fun x => ∃ y, x = frame y) where
  pairs :=
    { closed := fun {l r} _ _ => ⟨l ++ r, rfl⟩
      injective := by
        rintro _ r _ r' ⟨l, rfl⟩ _ ⟨l', rfl⟩ _ e
        obtain ⟨rfl, rfl⟩ := frame_append_inj (frame_inj e)
        exact ⟨rfl, rfl⟩ }
  txid tx := ⟨_, rfl⟩
  txid_ne := by
    rintro tx _ r ⟨l, rfl⟩ _ e
    have e := frame_inj e
    cases l <;> cases e
  output tx tx' e := serialize_inj (List.cons.inj (frame_inj e)).2

/-- A parent block with one transaction, whose third and further outputs have the given scripts. -/
def AuxPow.toyCommitting (scripts : List Bytes) : AuxPow where
  coinbaseTxn := ⟨1, 0, [], [⟨0, []⟩, ⟨0, []⟩] ++ scripts.map fun script => ⟨0, script⟩⟩
  blockHash := []
  coinbaseBranch := ⟨[], 0⟩
  blockchainBranch := ⟨[], 0⟩
  parentBlock :=
    ⟨0, [], frame (2 :: serialize ([⟨0, []⟩, ⟨0, []⟩] ++ scripts.map fun script => ⟨0, script⟩)),
      0, 0, 0⟩

/-- A hash of 32 bytes. -/
def toyHash (b : UInt8) : BlockHash := frame (List.replicate 15 b)

/-- The script that commits to a hash alone. -/
def toyCommitment (hash : BlockHash) : Bytes :=
  mergedMiningHeader ++ hash ++ [1, 0, 0, 0] ++ List.replicate 4 0

/-- A block whose two outputs commit to one hash, with different sizes. -/
theorem check_unique_one_commitment :
    let a := AuxPow.toyCommitting [toyCommitment (toyHash 0),
      mergedMiningHeader ++ toyHash 0 ++ [2, 0, 0, 0] ++ List.replicate 4 0]
    a.check .toyHashes (toyHash 0) 1 = .ok () ∧
    ∀ hash, (∃ y, hash = frame y) → a.check .toyHashes hash 1 = .ok () → hash = toyHash 0 := by
  intro a
  have e : a.check .toyHashes (toyHash 0) 1 = .ok () := by decide +kernel
  have hnodes : a.HasNodes (fun x => ∃ y, x = frame y) := ⟨nofun, nofun⟩
  have hscript : ∀ script, a.coinbaseTxn.Commits script →
      (headerOf script).blockHash = (toyHash 0).reverse := by
    rintro script ⟨hform, i, rfl | rfl, hi⟩
    · rw [← Option.some.inj hi]
      decide +kernel
    · rw [← Option.some.inj hi]
      decide +kernel
  have honce : a.coinbaseTxn.CommitsOnce := fun script script' h h' =>
    (hscript script h).trans (hscript script' h').symm
  exact ⟨e, fun hash hhash e' => check_unique Primitives.toyHashes_sound hnodes hnodes hhash
    ⟨_, rfl⟩ (.inl (List.suffix_refl _)) honce rfl e' e⟩

/-- Two outputs, two commitments: the block counts for both. -/
theorem check_unique_fails :
    ¬ ∀ (P : Primitives) (Node : Bytes → Prop) (a a' : AuxPow) (hash hash' : BlockHash)
      (chainId : Nat), HashesSound P Node → a.HasNodes Node → a'.HasNodes Node → Node hash →
      Node hash' → a.parentBlock = a'.parentBlock → a.check P hash chainId = .ok () →
      a'.check P hash' chainId = .ok () → hash = hash' := by
  intro h
  let a := AuxPow.toyCommitting [toyCommitment (toyHash 0), toyCommitment (toyHash 1)]
  have hsame := h .toyHashes _ a a (toyHash 0) (toyHash 1) 1 Primitives.toyHashes_sound
    ⟨nofun, nofun⟩ ⟨nofun, nofun⟩ ⟨_, rfl⟩ ⟨_, rfl⟩ rfl (by decide +kernel)
    (by decide +kernel)
  revert hsame
  decide

/-! ## Branches of complete trees -/

/-- In a complete tree of up to 2^30 leaves the branch of a leaf gives the root, with the index of
the leaf as the mask. If parents differ where their children do, a root has one branch of a length
and a mask. -/
theorem merkleBranch_opens_and_binds {ε : Type} {P : Primitives} {Node : Bytes → Prop}
    (hP : PairsNodes Node (MerkleBranch.parentHash P)) :
    (∀ h ≤ 30, ∀ (t : CompleteTree Bytes h) (i : Nat) (leaf : Bytes), t.leaves[i]? = some leaf →
      MerkleBranch.checkMerkleBranch P ⟨t.siblings (MerkleBranch.parentHash P) i, i⟩ leaf =
        (.ok (t.root (MerkleBranch.parentHash P)) : Except (Fault ε) Bytes)) ∧
    ∀ (branch branch' : MerkleBranch) (leaf leaf' root : Bytes), Node leaf → Node leaf' →
      (∀ hash ∈ branch.branchHash, Node hash) → (∀ hash ∈ branch'.branchHash, Node hash) →
      branch.branchHash.length = branch'.branchHash.length →
      branch.branchSideMask = branch'.branchSideMask →
      branch.checkMerkleBranch P leaf = (.ok root : Except (Fault ε) Bytes) →
      branch'.checkMerkleBranch P leaf' = (.ok root : Except (Fault ε) Bytes) →
      leaf = leaf' ∧ branch.branchHash = branch'.branchHash := by
  constructor
  · intro h hh t i leaf hleaf
    rw [MerkleBranch.checkMerkleBranch_eq, if_pos (by rw [t.length_siblings]; omega)]
    exact congrArg Except.ok (t.climb_siblings hleaf fun _ _ => rfl)
  · intro branch branch' leaf leaf' root hleaf hleaf' hnodes hnodes' hlength hmask e e'
    exact MerkleBranch.unique hP hleaf hleaf' hnodes hnodes' hlength hmask
      ((MerkleBranch.checkMerkleBranch_ok e).trans (MerkleBranch.checkMerkleBranch_ok e').symm)

/-- The second of two leaves. -/
theorem merkleBranch_opens_second :
    PairsNodes (fun x => ∃ y, x = frame y) (MerkleBranch.parentHash .toyHashes) ∧
      MerkleBranch.checkMerkleBranch .toyHashes ⟨[toyHash 0], 1⟩ (toyHash 1) =
        (.ok (MerkleBranch.parentHash .toyHashes (toyHash 0) (toyHash 1)) :
          Except (Fault Unit) Bytes) :=
  ⟨Primitives.toyHashes_sound.pairs,
    (merkleBranch_opens_and_binds Primitives.toyHashes_sound.pairs).1 1 (by decide)
      (.node (.leaf (toyHash 0)) (.leaf (toyHash 1))) 1 (toyHash 1) rfl⟩

end Alys
