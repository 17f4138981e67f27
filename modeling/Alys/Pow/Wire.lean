import Alys.Basic.Types
import Alys.Lib.Codec

/-!
# The wire format of an AuxPow

Model of the `Encodable` and `Decodable` instances of `MerkleBranch` and `AuxPow` in
`app/src/auxpow.rs`. The formats of transactions, headers, hashes and numbers are those of
rust-bitcoin (`WireCodecs`), and so is the reader of a vector of hashes. The encoder of a branch
writes the length and the hashes itself.

An encoder returns the bytes it writes, a decoder the value and the bytes that are left, or `none`
for an error; a writer that fails and the count of the bytes written are left out.
-/

namespace Alys
open Lib

/-! ## rust-bitcoin -/

/-- The formats of rust-bitcoin. -/
structure WireCodecs where
  transaction : Codec Transaction
  header : Codec Header
  /-- `BlockHash` and `TxMerkleNode` -/
  hash : Codec Bytes
  varInt : Codec Nat
  u32 : Codec Nat

/-- What is assumed of them; every value of the Rust types can be written. -/
structure WireCodecs.Lawful (L : WireCodecs) : Prop where
  transaction : L.transaction.Lawful
  header : L.header.Lawful
  hash : L.hash.Lawful
  varInt : L.varInt.Lawful
  u32 : L.u32.Lawful
  hash_valid : ∀ hash, L.hash.Valid hash ↔ hash.length = 32
  varInt_valid : ∀ n, L.varInt.Valid n ↔ n < 2 ^ 64
  u32_valid : ∀ n, L.u32.Valid n ↔ n < 2 ^ 32

/-- `Vec<TxMerkleNode>`: a `VarInt` and as many hashes. -/
def WireCodecs.vec (L : WireCodecs) : Codec (List Bytes) := .counted L.varInt L.hash

/-! ## Encoding and decoding -/

def MerkleBranch.consensusEncode (L : WireCodecs) (b : MerkleBranch) : Bytes :=
  L.varInt.encode b.branchHash.length ++ b.branchHash.flatMap L.hash.encode ++
    L.u32.encode b.branchSideMask

def MerkleBranch.consensusDecodeFromFiniteReader (L : WireCodecs) (reader : Bytes) :
    Option (MerkleBranch × Bytes) := do
  let (branchHash, reader) ← L.vec.decode reader
  let (branchSideMask, reader) ← L.u32.decode reader
  return (⟨branchHash, branchSideMask⟩, reader)

def AuxPow.consensusEncode (L : WireCodecs) (x : AuxPow) : Bytes :=
  L.transaction.encode x.coinbaseTxn ++ L.hash.encode x.blockHash ++
    x.coinbaseBranch.consensusEncode L ++ x.blockchainBranch.consensusEncode L ++
    L.header.encode x.parentBlock

def AuxPow.consensusDecodeFromFiniteReader (L : WireCodecs) (reader : Bytes) :
    Option (AuxPow × Bytes) := do
  let (coinbaseTxn, reader) ← L.transaction.decode reader
  let (blockHash, reader) ← L.hash.decode reader
  let (coinbaseBranch, reader) ← MerkleBranch.consensusDecodeFromFiniteReader L reader
  let (blockchainBranch, reader) ← MerkleBranch.consensusDecodeFromFiniteReader L reader
  let (parentBlock, reader) ← L.header.decode reader
  return (⟨coinbaseTxn, blockHash, coinbaseBranch, blockchainBranch, parentBlock⟩, reader)

/-- `MAX_VEC_SIZE` of rust-bitcoin. -/
def maxVecSize : Nat := 4000000

/-- `Decodable::consensus_decode`, which `submitauxblock` calls: the reader is cut off first. -/
def AuxPow.consensusDecode (L : WireCodecs) (reader : Bytes) : Option (AuxPow × Bytes) :=
  (AuxPow.consensusDecodeFromFiniteReader L (reader.take maxVecSize)).map fun x =>
    (x.1, x.2 ++ reader.drop maxVecSize)

/-! ## The format -/

/-- A value of the Rust type: hashes of 32 bytes, a length that fits a `usize` and a mask that fits
a `u32`. -/
structure MerkleBranch.Fits (b : MerkleBranch) : Prop where
  hashes : ∀ hash ∈ b.branchHash, hash.length = 32
  length : b.branchHash.length < 2 ^ 64
  mask : b.branchSideMask < 2 ^ 32

/-- A value of the Rust type. -/
structure AuxPow.Fits (L : WireCodecs) (x : AuxPow) : Prop where
  coinbaseTxn : L.transaction.Valid x.coinbaseTxn
  blockHash : x.blockHash.length = 32
  coinbaseBranch : x.coinbaseBranch.Fits
  blockchainBranch : x.blockchainBranch.Fits
  parentBlock : L.header.Valid x.parentBlock

/-- The format of a branch. -/
def MerkleBranch.codec (L : WireCodecs) : Codec MerkleBranch :=
  (L.vec.pair L.u32).map (fun x => ⟨x.1, x.2⟩) fun b => (b.branchHash, b.branchSideMask)

/-- The format of an AuxPow. -/
def AuxPow.codec (L : WireCodecs) : Codec AuxPow :=
  (L.transaction.pair (L.hash.pair ((MerkleBranch.codec L).pair
    ((MerkleBranch.codec L).pair L.header)))).map
    (fun x => ⟨x.1, x.2.1, x.2.2.1, x.2.2.2.1, x.2.2.2.2⟩)
    fun x => (x.coinbaseTxn, x.blockHash, x.coinbaseBranch, x.blockchainBranch, x.parentBlock)

section Format

variable {L : WireCodecs}

lemma MerkleBranch.consensusEncode_eq (b : MerkleBranch) :
    b.consensusEncode L = (MerkleBranch.codec L).encode b := rfl

lemma MerkleBranch.consensusDecodeFromFiniteReader_eq (reader : Bytes) :
    MerkleBranch.consensusDecodeFromFiniteReader L reader =
      (MerkleBranch.codec L).decode reader := by
  simp only [consensusDecodeFromFiniteReader, codec, Codec.map, Codec.pair, Option.bind_eq_bind,
    Option.map_bind, Function.comp_def, Option.pure_def, Option.map_some]

lemma AuxPow.consensusEncode_eq (x : AuxPow) :
    x.consensusEncode L = (AuxPow.codec L).encode x := by
  simp only [consensusEncode, codec, Codec.map, Codec.pair, MerkleBranch.consensusEncode_eq,
    List.append_assoc]

lemma AuxPow.consensusDecodeFromFiniteReader_eq (reader : Bytes) :
    AuxPow.consensusDecodeFromFiniteReader L reader = (AuxPow.codec L).decode reader := by
  simp only [consensusDecodeFromFiniteReader, codec, Codec.map, Codec.pair, Option.bind_eq_bind,
    Option.map_bind, Function.comp_def, Option.pure_def, Option.map_some, Option.bind_assoc,
    Option.bind_some, MerkleBranch.consensusDecodeFromFiniteReader_eq]

lemma MerkleBranch.codec_lawful (hL : L.Lawful) : (MerkleBranch.codec L).Lawful :=
  ((hL.hash.counted hL.varInt).pair hL.u32).map (fun _ => rfl) fun _ => rfl

lemma AuxPow.codec_lawful (hL : L.Lawful) : (AuxPow.codec L).Lawful := by
  have branch := MerkleBranch.codec_lawful hL
  exact (hL.transaction.pair (hL.hash.pair (branch.pair (branch.pair hL.header)))).map
    (fun _ => rfl) fun _ => rfl

lemma MerkleBranch.Fits.valid {b : MerkleBranch} (hL : L.Lawful) (h : b.Fits) :
    (MerkleBranch.codec L).Valid b :=
  ⟨⟨(hL.varInt_valid _).mpr h.length, fun hash mem => (hL.hash_valid _).mpr (h.hashes hash mem)⟩,
    (hL.u32_valid _).mpr h.mask⟩

lemma AuxPow.Fits.valid {x : AuxPow} (hL : L.Lawful) (h : x.Fits L) : (AuxPow.codec L).Valid x :=
  ⟨h.coinbaseTxn, (hL.hash_valid _).mpr h.blockHash, h.coinbaseBranch.valid hL,
    h.blockchainBranch.valid hL, h.parentBlock⟩

/-- What fits the limit is read all the same. -/
lemma AuxPow.consensusDecode_encode {x : AuxPow} (hL : L.Lawful) (fits : x.Fits L)
    (hle : (x.consensusEncode L).length ≤ maxVecSize) (rest : Bytes) :
    AuxPow.consensusDecode L (x.consensusEncode L ++ rest) = some (x, rest) := by
  rw [consensusEncode_eq] at hle ⊢
  rw [consensusDecode, consensusDecodeFromFiniteReader_eq]
  exact (codec_lawful hL).decodeWithin_encode (fits.valid hL) hle rest

end Format

/-! ## The formats of Bitcoin -/

namespace WireCodecs

/-- An `i32`. -/
def i32 : Codec Int :=
  .ofEncode (fun n => -2 ^ 31 ≤ n ∧ n < 2 ^ 31) (fun n => leBytes 4 (n % 2 ^ 32).toNat) fun bytes =>
    ((Codec.le 4).decode bytes).map fun x =>
      (if x.1 < 2 ^ 31 then (x.1 : Int) else x.1 - 2 ^ 32, x.2)

lemma i32_lawful : i32.Lawful := by
  refine Codec.ofEncode_lawful fun n rest h => ?_
  have hlt : (n % 2 ^ 32).toNat < 256 ^ 4 := by omega
  rw [Codec.decode_le hlt, Option.map_some]
  split_ifs
  · congr 2
    omega
  · congr 2
    omega

/-- A header of 80 bytes. -/
def bitcoinHeader : Codec Header :=
  (i32.pair ((Codec.fixed 32).pair ((Codec.fixed 32).pair
    ((Codec.le 4).pair ((Codec.le 4).pair (.le 4)))))).map
    (fun x => ⟨x.1, x.2.1, x.2.2.1, x.2.2.2.1, x.2.2.2.2.1, x.2.2.2.2.2⟩)
    fun h => (h.version, h.prevBlockhash, h.merkleRoot, h.time, h.bits, h.nonce)

/-- The inputs of a transaction without their witnesses. -/
def inputs : Codec (List (Bytes × Nat × Bytes × Nat)) :=
  .counted .compact ((Codec.fixed 32).pair ((Codec.le 4).pair (Codec.blob.pair (.le 4))))

def outputs : Codec (List (Nat × Bytes)) := .counted .compact ((Codec.le 8).pair .blob)

def witness : Codec (List Bytes) := .counted .compact .blob

/-- An input as it is written. -/
def unsigned (input : TxIn) : Bytes × Nat × Bytes × Nat :=
  (input.previousOutput.txid, input.previousOutput.vout, input.scriptSig, input.sequence)

/-- An input as it is read, with its witness. -/
def signed (x : (Bytes × Nat × Bytes × Nat) × List Bytes) : TxIn :=
  ⟨⟨x.1.1, x.1.2.1⟩, x.1.2.2.1, x.1.2.2.2, x.2⟩

/-- Witnesses follow the outputs, also when there are no inputs. -/
def hasWitness (tx : Transaction) : Bool :=
  tx.input.isEmpty || tx.input.any fun input => !input.witness.isEmpty

def encodeTransaction (tx : Transaction) : Bytes :=
  i32.encode tx.version ++
    ((if hasWitness tx then [0, 1] else []) ++ inputs.encode (tx.input.map unsigned) ++
      outputs.encode (tx.output.map fun o => (o.value, o.scriptPubkey)) ++
      (if hasWitness tx then tx.input.flatMap fun input => witness.encode input.witness else []) ++
      leBytes 4 tx.lockTime)

/-- No inputs are taken for the mark of a transaction with witnesses, and a flag follows. -/
def decodeTransaction (bytes : Bytes) : Option (Transaction × Bytes) := do
  let (version, bytes) ← i32.decode bytes
  let (input, bytes) ← inputs.decode bytes
  if input.isEmpty then
    let (flag, bytes) ← (Codec.le 1).decode bytes
    if flag ≠ 1 then none
    else
      let (input, bytes) ← inputs.decode bytes
      let (output, bytes) ← outputs.decode bytes
      let (witnesses, bytes) ← Codec.decodeTimes witness input.length bytes
      if !input.isEmpty && witnesses.all List.isEmpty then none
      else
        let (lockTime, bytes) ← (Codec.le 4).decode bytes
        return (⟨version, lockTime, (input.zip witnesses).map signed,
          output.map fun o => ⟨o.1, o.2⟩⟩, bytes)
  else
    let (output, bytes) ← outputs.decode bytes
    let (lockTime, bytes) ← (Codec.le 4).decode bytes
    return (⟨version, lockTime, input.map fun i => signed (i, []),
      output.map fun o => ⟨o.1, o.2⟩⟩, bytes)

/-- A transaction whose fields fit their types. -/
structure Writable (tx : Transaction) : Prop where
  version : -2 ^ 31 ≤ tx.version ∧ tx.version < 2 ^ 31
  inputs : tx.input.length < 2 ^ 64 ∧ ∀ i ∈ tx.input, i.previousOutput.txid.length = 32 ∧
    i.previousOutput.vout < 2 ^ 32 ∧ i.scriptSig.length < 2 ^ 64 ∧ i.sequence < 2 ^ 32
  outputs : tx.output.length < 2 ^ 64 ∧
    ∀ o ∈ tx.output, o.value < 2 ^ 64 ∧ o.scriptPubkey.length < 2 ^ 64
  witnesses : ∀ i ∈ tx.input, i.witness.length < 2 ^ 64 ∧ ∀ e ∈ i.witness, e.length < 2 ^ 64
  lockTime : tx.lockTime < 2 ^ 32

def bitcoinTransaction : Codec Transaction := .ofEncode Writable encodeTransaction decodeTransaction

lemma inputs_lawful : inputs.Lawful :=
  ((Codec.fixed_lawful 32).pair ((Codec.le_lawful 4).pair
    (Codec.blob_lawful.pair (Codec.le_lawful 4)))).counted Codec.compact_lawful

lemma outputs_lawful : outputs.Lawful :=
  ((Codec.le_lawful 8).pair Codec.blob_lawful).counted Codec.compact_lawful

lemma witness_lawful : witness.Lawful := Codec.blob_lawful.counted Codec.compact_lawful

lemma map_signed_zip (input : List TxIn) :
    ((input.map unsigned).zip (input.map (·.witness))).map signed = input := by
  rw [List.zip_map', List.map_map]
  exact List.map_id _

lemma map_signed_nil {input : List TxIn} (h : ∀ i ∈ input, i.witness = []) :
    (input.map unsigned).map (fun i => signed (i, [])) = input := by
  rw [List.map_map]
  refine (List.map_congr_left fun i mem => ?_).trans (List.map_id _)
  obtain ⟨previousOutput, scriptSig, sequence, witness⟩ := i
  obtain rfl : witness = [] := h _ mem
  rfl

/-- A transaction is read back. -/
lemma decodeTransaction_encodeTransaction {tx : Transaction} (h : Writable tx) (rest : Bytes) :
    decodeTransaction (encodeTransaction tx ++ rest) = some (tx, rest) := by
  have hinputs : inputs.Valid (tx.input.map unsigned) :=
    ⟨by rw [List.length_map]; exact h.inputs.1, List.forall_mem_map.mpr h.inputs.2⟩
  have houtputs : outputs.Valid (tx.output.map fun o => (o.value, o.scriptPubkey)) :=
    ⟨by rw [List.length_map]; exact h.outputs.1, List.forall_mem_map.mpr h.outputs.2⟩
  have hempty : (tx.input.map unsigned).isEmpty = tx.input.isEmpty := List.isEmpty_map
  have houtput : (tx.output.map fun o => (o.value, o.scriptPubkey)).map
      (fun o => (⟨o.1, o.2⟩ : TxOut)) = tx.output := by
    rw [List.map_map]
    exact List.map_id _
  have hlock (bytes : Bytes) : (Codec.le 4).decode (leBytes 4 tx.lockTime ++ bytes) =
      some (tx.lockTime, bytes) := Codec.decode_le h.lockTime bytes
  rw [encodeTransaction, List.append_assoc, decodeTransaction, i32_lawful.decode_encode _ h.version]
  cases hw : hasWitness tx with
  | true =>
    have hmark (bytes : Bytes) : inputs.decode ([0, 1] ++ bytes) = some ([], 1 :: bytes) := rfl
    have hflag (bytes : Bytes) : (Codec.le 1).decode (1 :: bytes) = some (1, bytes) :=
      Codec.decode_le (show 1 < 256 ^ 1 by decide) bytes
    have hwitnesses (bytes : Bytes) : Codec.decodeTimes witness (tx.input.map unsigned).length
        ((tx.input.flatMap fun input => witness.encode input.witness) ++ bytes) =
        some (tx.input.map (·.witness), bytes) := by
      have hvalid : ∀ w ∈ tx.input.map (·.witness), witness.Valid w :=
        List.forall_mem_map.mpr h.witnesses
      have := witness_lawful.decodeTimes_encode bytes hvalid
      rwa [List.flatMap_map, List.length_map, ← List.length_map unsigned] at this
    have hpresent : (!tx.input.isEmpty && (tx.input.map (·.witness)).all List.isEmpty) = false := by
      rw [List.all_map]
      rcases Bool.or_eq_true_iff.mp hw with hnone | hsome
      · rw [hnone]
        rfl
      · obtain ⟨input, mem, hne⟩ := List.any_eq_true.mp hsome
        refine Bool.and_eq_false_iff.mpr (.inr (List.all_eq_false.mpr ⟨input, mem, ?_⟩))
        simpa using hne
    simp only [List.append_assoc, hmark, hflag, inputs_lawful.decode_encode _ hinputs,
      outputs_lawful.decode_encode _ houtputs, hwitnesses, hlock, hempty, hpresent, houtput,
      map_signed_zip, Option.bind_eq_bind, Option.bind_some, List.isEmpty_nil, if_pos, ne_eq,
      not_true_eq_false, if_false, Bool.false_eq_true, Option.pure_def]
  | false =>
    obtain ⟨hsome, hnone⟩ := Bool.or_eq_false_iff.mp hw
    have hnil : ∀ i ∈ tx.input, i.witness = [] := by
      intro i mem
      have := List.any_eq_false.mp hnone i mem
      simpa using this
    simp only [Bool.false_eq_true, if_false, List.nil_append, List.append_nil, List.append_assoc,
      inputs_lawful.decode_encode _ hinputs, outputs_lawful.decode_encode _ houtputs, hlock, hempty,
      hsome, houtput, map_signed_nil hnil, Option.bind_eq_bind, Option.bind_some, Option.pure_def]

lemma bitcoinHeader_lawful : bitcoinHeader.Lawful :=
  (i32_lawful.pair ((Codec.fixed_lawful 32).pair ((Codec.fixed_lawful 32).pair
    ((Codec.le_lawful 4).pair ((Codec.le_lawful 4).pair (Codec.le_lawful 4)))))).map
    (fun _ => rfl) fun _ => rfl

/-- A header whose fields fit their types can be written. -/
lemma bitcoinHeader_valid {h : Header} : bitcoinHeader.Valid h ↔
    (-2 ^ 31 ≤ h.version ∧ h.version < 2 ^ 31) ∧ h.prevBlockhash.length = 32 ∧
      h.merkleRoot.length = 32 ∧ h.time < 2 ^ 32 ∧ h.bits < 2 ^ 32 ∧ h.nonce < 2 ^ 32 := Iff.rfl

/-- The formats of rust-bitcoin. -/
def bitcoin : WireCodecs where
  transaction := bitcoinTransaction
  header := bitcoinHeader
  hash := .fixed 32
  varInt := .compact
  u32 := .le 4

lemma bitcoin_lawful : bitcoin.Lawful where
  transaction := Codec.ofEncode_lawful fun _ rest h => decodeTransaction_encodeTransaction h rest
  header := bitcoinHeader_lawful
  hash := Codec.fixed_lawful 32
  varInt := Codec.compact_lawful
  u32 := Codec.le_lawful 4
  hash_valid _ := Iff.rfl
  varInt_valid _ := Iff.rfl
  u32_valid _ := Iff.rfl

end WireCodecs

/-! ## Round trips -/

/-- Decoding what was encoded returns the value and leaves the bytes that follow, and encoding what
was decoded from canonical bytes returns the bytes consumed. Encodings are canonical. -/
theorem auxPow_wire_roundTrip {L : WireCodecs} (hL : L.Lawful) :
    (∀ (x : AuxPow) (rest : Bytes), x.Fits L →
      AuxPow.consensusDecodeFromFiniteReader L (x.consensusEncode L ++ rest) = some (x, rest) ∧
      (AuxPow.codec L).Canonical (x.consensusEncode L ++ rest)) ∧
    ∀ (bytes : Bytes) (x : AuxPow) (rest : Bytes), (AuxPow.codec L).Canonical bytes →
      AuxPow.consensusDecodeFromFiniteReader L bytes = some (x, rest) →
      x.consensusEncode L ++ rest = bytes := by
  have lawful := AuxPow.codec_lawful hL
  refine ⟨fun x rest fits => ?_, fun bytes x rest hcanonical e => ?_⟩
  · rw [AuxPow.consensusDecodeFromFiniteReader_eq, AuxPow.consensusEncode_eq]
    exact ⟨lawful.decode_encode rest (fits.valid hL), lawful.canonical_encode rest (fits.valid hL)⟩
  · rw [AuxPow.consensusDecodeFromFiniteReader_eq] at e
    rw [AuxPow.consensusEncode_eq]
    exact (lawful.encode_decode hcanonical e).2

/-- The coinbase transaction of a Bitcoin block, with a witness. -/
def Transaction.toyCoinbase : Transaction :=
  ⟨2, 0, [⟨⟨List.replicate 32 0, 0xffffffff⟩, [3, 1, 2, 3], 0xffffffff, [List.replicate 32 0]⟩],
    [⟨5000000000, [0x51]⟩]⟩

/-- Branches of one and of no hash. -/
theorem auxPow_wire_roundTrip_branches :
    let x : AuxPow := ⟨.toyCoinbase, List.replicate 32 5, ⟨[List.replicate 32 6], 1⟩, ⟨[], 0⟩,
      ⟨0x20000000, List.replicate 32 7, List.replicate 32 8, 1700000000, 0x1d00ffff, 9⟩⟩
    AuxPow.consensusDecodeFromFiniteReader .bitcoin (x.consensusEncode .bitcoin ++ [9]) =
      some (x, [9]) := by
  intro x
  have fits : x.Fits .bitcoin :=
    { coinbaseTxn := ⟨by decide, by decide, by decide, by decide, by decide⟩
      blockHash := by decide
      coinbaseBranch := ⟨by decide, by decide, by decide⟩
      blockchainBranch := ⟨by decide, by decide, by decide⟩
      parentBlock := WireCodecs.bitcoinHeader_valid.mpr (by decide) }
  exact ((auxPow_wire_roundTrip WireCodecs.bitcoin_lawful).1 x [9] fits).1

end Alys
