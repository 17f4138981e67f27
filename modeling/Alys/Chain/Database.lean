import Alys.Chain.Rollback
import Alys.Lib.Column
import Alys.Lib.Ssz

/-!
# The key-value store

Model of `app/src/store.rs` down to the bytes that are written. `Chain.Store` has one map for each
column; here all columns share one map from byte strings to byte strings, and a key is built from
the name of its column. What is read after any sequence of commits is what the columns have.

How a key is built, SSZ and the MessagePack form of a block are those of outside libraries
(`StoreCodec`); `StoreCodec.Lawful` is what is assumed of them.
-/

namespace Alys
open Lib

/-! ## Keys and values -/

/-- `DbColumn`. -/
inductive DbColumn where
  | chainInfo
  | block
  | auxPowBlockHeight
  | blockFees
  | bitcoinScanStartHeight
  | blockByHeight
  deriving DecidableEq

/-- The name of a column (`strum(serialize)`). -/
def DbColumn.name : DbColumn → Text
  | .chainInfo => ['c', 'h', 'i']
  | .block => ['b', 'l', 'k']
  | .auxPowBlockHeight => ['a', 'x', 'h']
  | .blockFees => ['f', 'e', 'e']
  | .bitcoinScanStartHeight => ['s', 'c', 'n']
  | .blockByHeight => ['b', 'b', 'h']

/-- `HEAD_KEY`. -/
def headKey : Hash256 := List.replicate 32 5

/-- `LATEST_POW_BLOCK_KEY`. -/
def latestPowBlockKey : Hash256 := List.replicate 32 6

/-- `DEFAULT_KEY`. -/
def defaultKey : Hash256 := List.replicate 32 7

/-- The functions of outside libraries that the store calls. -/
structure StoreCodec where
  /-- `get_key_for_col`, of lighthouse -/
  getKeyForCol : Text → Bytes → Bytes
  blockRef : Ssz BlockRef
  u32 : Ssz Nat
  /-- `rmp_serde::to_vec` -/
  toVec : SignedConsensusBlock → Bytes
  /-- `rmp_serde::from_slice` -/
  fromSlice : Bytes → Option SignedConsensusBlock

/-- The key of an entry in a column. -/
def StoreCodec.key (codec : StoreCodec) (column : DbColumn) (key : Bytes) : Bytes :=
  codec.getKeyForCol column.name key

/-- A reference with a hash of 32 bytes and a height of 64 bits. -/
def BlockRef.Fits (ref : BlockRef) : Prop := ref.hash.length = 32 ∧ ref.height < 256 ^ 8

/-- What is assumed of the outside libraries: a key tells its column, and what SSZ writes of a value
of the right type is read back. -/
structure StoreCodec.Lawful (codec : StoreCodec) : Prop where
  key_inj : ∀ {column column' : DbColumn} {key key' : Bytes},
    codec.key column key = codec.key column' key' → column = column' ∧ key = key'
  blockRef : ∀ {ref : BlockRef}, ref.Fits → codec.blockRef.Keeps ref
  u32 : ∀ {n : Nat}, n < 256 ^ 4 → codec.u32.Keeps n

/-- The MessagePack form of a block can be read back. -/
def StoreCodec.RoundTrips (codec : StoreCodec) (block : SignedConsensusBlock) : Prop :=
  codec.fromSlice (codec.toVec block) = some block

/-! ## The code -/

/-- `KeyValueStoreOp::PutKeyValue`. -/
structure KeyValueStoreOp where
  key : Bytes
  value : Bytes

/-- The errors of the reads. -/
inductive StoreError where
  | dbReadError
  | chainError
  deriving DecidableEq

/-- `Option<Result<..>>::transpose`, with the error that replaces every other one. -/
def transposeOr {α : Type} (e : StoreError) :
    Option (Option α) → Except (Fault StoreError) (Option α)
  | none => .ok none
  | some (some a) => .ok (some a)
  | some none => .error (.error e)

/-- `unwrap` of a value that is read. -/
def unwrapRead {α : Type} : Option α → Except (Fault StoreError) (Option α)
  | some a => .ok (some a)
  | none => .error .panic

/-- `Hash256::from_slice` panics at any other length. -/
def hashFromSlice (bytes : Bytes) : Except (Fault StoreError) Hash256 :=
  if bytes.length = 32 then .ok bytes else .error .panic

/-- The database behind `Storage`. -/
abbrev Database := Map Bytes Bytes

namespace Database

variable (codec : StoreCodec)

/-- `ItemStore::get_bytes`. -/
def getBytes (db : Database) (column : DbColumn) (key : Bytes) : Option Bytes :=
  db.lookup (codec.key column key)

/-- `ItemStore::do_atomically`. -/
def commitOps (db : Database) (ops : List KeyValueStoreOp) : Database :=
  ops.foldl (fun db op => db.insert op.key op.value) db

def setRef (blockRef : BlockRef) (key : Bytes) : List KeyValueStoreOp :=
  [⟨codec.key .chainInfo key, codec.blockRef.asSszBytes blockRef⟩]

def setHead (syncStatus : BlockRef) : List KeyValueStoreOp := setRef codec syncStatus headKey

def setLatestPowBlock (blockRef : BlockRef) : List KeyValueStoreOp :=
  setRef codec blockRef latestPowBlockKey

def putBlock (blockRoot : Hash256) (block : SignedConsensusBlock) : List KeyValueStoreOp :=
  [⟨codec.key .block blockRoot, codec.toVec block⟩,
    ⟨codec.key .blockByHeight (beBytes 8 block.number), blockRoot⟩] ++
  block.message.auxpowHeader.toList.map fun auxpowHeader =>
    ⟨codec.key .auxPowBlockHeight (beBytes 8 auxpowHeader.height), blockRoot⟩

def putBlockByHeight (P : Primitives) (block : SignedConsensusBlock) : List KeyValueStoreOp :=
  [⟨codec.key .blockByHeight (beBytes 8 block.number), block.canonicalRoot P⟩]

def setAccumulatedBlockFees (blockRoot : Hash256) (fees : Nat) : List KeyValueStoreOp :=
  [⟨codec.key .blockFees blockRoot, beBytes 32 fees⟩]

def setBitcoinScanStartHeight (height : Nat) : List KeyValueStoreOp :=
  [⟨codec.key .bitcoinScanStartHeight defaultKey, codec.u32.asSszBytes height⟩]

def getRef (db : Database) (key : Bytes) : Except (Fault StoreError) (Option BlockRef) :=
  transposeOr .dbReadError ((db.getBytes codec .chainInfo key).map codec.blockRef.fromSszBytes)

/-- `Storage::get_head`, which has its own error. -/
def getHead (db : Database) : Except (Fault StoreError) (Option BlockRef) :=
  transposeOr .chainError ((db.getBytes codec .chainInfo headKey).map codec.blockRef.fromSszBytes)

def getLatestPowBlock (db : Database) : Except (Fault StoreError) (Option BlockRef) :=
  db.getRef codec latestPowBlockKey

def getBlock (db : Database) (blockRoot : Hash256) :
    Except (Fault StoreError) (Option SignedConsensusBlock) :=
  transposeOr .dbReadError ((db.getBytes codec .block blockRoot).map codec.fromSlice)

def getBlockByHeight (db : Database) (height : Nat) :
    Except (Fault StoreError) (Option SignedConsensusBlock) :=
  match db.getBytes codec .blockByHeight (beBytes 8 height) with
  | some blockHash => do db.getBlock codec (← hashFromSlice blockHash)
  | none => .ok none

/-- `Storage::get_accumulated_block_fees`; `U256::from` panics on more than 32 bytes. -/
def getAccumulatedBlockFees (db : Database) (blockRoot : Hash256) :
    Except (Fault StoreError) (Option Nat) :=
  match db.getBytes codec .blockFees blockRoot with
  | some bytes => if bytes.length ≤ 32 then .ok (some (beValue bytes)) else .error .panic
  | none => .ok none

def getBitcoinScanStartHeight (db : Database) : Except (Fault StoreError) (Option Nat) :=
  match db.getBytes codec .bitcoinScanStartHeight defaultKey with
  | some bytes => unwrapRead (codec.u32.fromSszBytes bytes)
  | none => .ok none

end Database

/-! ## The columns -/

lemma beBytes_inj {w n n' : Nat} (h : n < 256 ^ w) (h' : n' < 256 ^ w)
    (e : beBytes w n = beBytes w n') : n = n' := by
  rw [← beValue_beBytes h, ← beValue_beBytes h', e]

section Columns

variable {codec : StoreCodec} (hcodec : codec.Lawful)

/-- The column of the blocks. -/
def blockColumn : Column Bytes Hash256 SignedConsensusBlock where
  key := codec.key .block
  value := codec.toVec
  read := codec.fromSlice
  keys := fun _ => True
  values := codec.RoundTrips
  key_inj := fun _ _ e => (hcodec.key_inj e).2
  read_value := id

/-- The index by height. -/
def blockByHeightColumn : Column Bytes Nat Hash256 where
  key := fun height => codec.key .blockByHeight (beBytes 8 height)
  value := id
  read := fun bytes => if bytes.length = 32 then some bytes else none
  keys := (· < 256 ^ 8)
  values := (·.length = 32)
  key_inj := fun h h' e => beBytes_inj h h' (hcodec.key_inj e).2
  read_value := fun h => if_pos h

/-- The column of the accumulated fees. -/
def blockFeesColumn : Column Bytes Hash256 Nat where
  key := codec.key .blockFees
  value := beBytes 32
  read := fun bytes => if bytes.length ≤ 32 then some (beValue bytes) else none
  keys := fun _ => True
  values := (· < 256 ^ 32)
  key_inj := fun _ _ e => (hcodec.key_inj e).2
  read_value := fun {v} h => by
    rw [if_pos (length_beBytes 32 v).le, beValue_beBytes h]

/-- The column of one reference. -/
def refColumn (key : Hash256) : Column Bytes Unit BlockRef where
  key := fun _ => codec.key .chainInfo key
  value := codec.blockRef.asSszBytes
  read := codec.blockRef.fromSszBytes
  keys := fun _ => True
  values := BlockRef.Fits
  key_inj := fun _ _ _ => rfl
  read_value := fun h => (hcodec.blockRef h).fromSszBytes_asSszBytes

/-- The column of the scan height. -/
def scanHeightColumn : Column Bytes Unit Nat where
  key := fun _ => codec.key .bitcoinScanStartHeight defaultKey
  value := codec.u32.asSszBytes
  read := codec.u32.fromSszBytes
  keys := fun _ => True
  values := (· < 256 ^ 4)
  key_inj := fun _ _ _ => rfl
  read_value := fun h => (hcodec.u32 h).fromSszBytes_asSszBytes

end Columns

/-! ## Refinement -/

/-- A call that writes to the store. -/
inductive StoreWrite where
  | putBlock (blockRoot : Hash256) (block : SignedConsensusBlock)
  | putBlockByHeight (block : SignedConsensusBlock)
  | setAccumulatedBlockFees (blockRoot : Hash256) (fees : Nat)
  | setHead (ref : BlockRef)
  | setLatestPowBlock (ref : BlockRef)
  | setBitcoinScanStartHeight (height : Nat)

namespace StoreWrite

variable (codec : StoreCodec) (P : Primitives)

/-- The operations of a call on bytes. -/
def ops : StoreWrite → List KeyValueStoreOp
  | putBlock blockRoot block => Database.putBlock codec blockRoot block
  | putBlockByHeight block => Database.putBlockByHeight codec P block
  | setAccumulatedBlockFees blockRoot fees => Database.setAccumulatedBlockFees codec blockRoot fees
  | setHead ref => Database.setHead codec ref
  | setLatestPowBlock ref => Database.setLatestPowBlock codec ref
  | setBitcoinScanStartHeight height => Database.setBitcoinScanStartHeight codec height

/-- The operations of a call on the columns. -/
def columnOps : StoreWrite → List StoreOp
  | putBlock blockRoot block => Storage.putBlock blockRoot block
  | putBlockByHeight block => [.putBlockByHeight block.number (block.canonicalRoot P)]
  | setAccumulatedBlockFees blockRoot fees => [.putBlockFees blockRoot fees]
  | setHead ref => [.putHead ref]
  | setLatestPowBlock ref => [.putLatestPowBlock ref]
  | setBitcoinScanStartHeight _ => []

/-- The scan height after a call. -/
def scanHeight (scan : Option Nat) : StoreWrite → Option Nat
  | setBitcoinScanStartHeight height => some height
  | _ => scan

/-- The values are of the types that the source gives them, and the block can be read back. -/
def Fits : StoreWrite → Prop
  | putBlock blockRoot block =>
    blockRoot.length = 32 ∧ block.number < 256 ^ 8 ∧ codec.RoundTrips block
  | putBlockByHeight block => (block.canonicalRoot P).length = 32 ∧ block.number < 256 ^ 8
  | setAccumulatedBlockFees _ fees => fees < 256 ^ 32
  | setHead ref => ref.Fits
  | setLatestPowBlock ref => ref.Fits
  | setBitcoinScanStartHeight height => height < 256 ^ 4

end StoreWrite

variable {codec : StoreCodec} {hcodec : codec.Lawful} {P : Primitives} {db : Database}
  {s s' : Storage} {scan scan' : Option Nat}

/-- The bytes of a column are those of its map. The heights of AuxPow blocks are never read. -/
def DbColumn.Holds (hcodec : codec.Lawful) (db : Database) (s : Storage) (scan : Option Nat) :
    DbColumn → Prop
  | .chainInfo =>
    (refColumn hcodec headKey).Holds db (fun _ => s.head) ∧
      (refColumn hcodec latestPowBlockKey).Holds db fun _ => s.latestPowBlock
  | .block => (blockColumn hcodec).Holds db s.blocks.lookup
  | .auxPowBlockHeight => True
  | .blockFees => (blockFeesColumn hcodec).Holds db s.blockFees.lookup
  | .bitcoinScanStartHeight => (scanHeightColumn hcodec).Holds db fun _ => scan
  | .blockByHeight => (blockByHeightColumn hcodec).Holds db s.blockByHeight.lookup

/-- The database has what the columns have. -/
def Represents (hcodec : codec.Lawful) (db : Database) (s : Storage) (scan : Option Nat) : Prop :=
  ∀ column : DbColumn, column.Holds hcodec db s scan

lemma represents_empty : Represents hcodec ∅ .empty none := by
  intro column
  cases column with
  | chainInfo => exact ⟨Column.holds_empty, Column.holds_empty⟩
  | auxPowBlockHeight => trivial
  | block => exact Column.holds_empty
  | blockFees => exact Column.holds_empty
  | bitcoinScanStartHeight => exact Column.holds_empty
  | blockByHeight => exact Column.holds_empty

/-- A write to another column. -/
lemma DbColumn.Holds.insert_of_ne {column column' : DbColumn} {key bytes : Bytes}
    (h : column.Holds hcodec db s scan) (ne : column ≠ column') :
    column.Holds hcodec (db.insert (codec.key column' key) bytes) s scan := by
  have apart (key') : codec.key column key' ≠ codec.key column' key :=
    fun e => ne (hcodec.key_inj e).1
  cases column with
  | chainInfo => exact ⟨h.1.insert_of_ne fun _ => apart _, h.2.insert_of_ne fun _ => apart _⟩
  | auxPowBlockHeight => trivial
  | block => exact Column.Holds.insert_of_ne h fun _ => apart _
  | blockFees => exact Column.Holds.insert_of_ne h fun _ => apart _
  | bitcoinScanStartHeight => exact Column.Holds.insert_of_ne h fun _ => apart _
  | blockByHeight => exact Column.Holds.insert_of_ne h fun _ => apart _

namespace Represents

/-- One entry is written: the other columns stay as they are. -/
lemma insert {column : DbColumn} {key bytes : Bytes} (h : Represents hcodec db s scan)
    (own : column.Holds hcodec (db.insert (codec.key column key) bytes) s' scan')
    (same : ∀ column' db, column' ≠ column → column'.Holds hcodec db s scan →
      column'.Holds hcodec db s' scan') :
    Represents hcodec (db.insert (codec.key column key) bytes) s' scan' := by
  intro column'
  by_cases e : column' = column
  · rw [e]
    exact own
  · exact same column' _ e ((h column').insert_of_ne e)

variable {root : Hash256} {block : SignedConsensusBlock} {height fees : Nat} {ref : BlockRef}

section

variable (h : Represents hcodec db s scan)

include h

lemma putBlock (root : Hash256) (hblock : codec.RoundTrips block) :
    Represents hcodec (db.insert (codec.key .block root) (codec.toVec block))
      (s.applyOp (.putBlock root block)) scan := by
  refine h.insert ?_ fun column' _ ne hc => ?_
  · show (blockColumn hcodec).Holds _ (s.blocks.insert root block).lookup
    rw [lookup_insert_eq_update]
    exact (h .block).insert trivial hblock
  · cases column' with
    | block => cases ne rfl
    | _ => exact hc

lemma putBlockByHeight (hheight : height < 256 ^ 8) (hroot : root.length = 32) :
    Represents hcodec (db.insert (codec.key .blockByHeight (beBytes 8 height)) root)
      (s.applyOp (.putBlockByHeight height root)) scan := by
  refine h.insert ?_ fun column' _ ne hc => ?_
  · show (blockByHeightColumn hcodec).Holds _ (s.blockByHeight.insert height root).lookup
    rw [lookup_insert_eq_update]
    exact (h .blockByHeight).insert hheight hroot
  · cases column' with
    | blockByHeight => cases ne rfl
    | _ => exact hc

lemma putAuxPowBlockHeight {key bytes : Bytes} :
    Represents hcodec (db.insert (codec.key .auxPowBlockHeight key) bytes) s scan :=
  h.insert trivial fun _ _ _ hc => hc

lemma putBlockFees (hfees : fees < 256 ^ 32) :
    Represents hcodec (db.insert (codec.key .blockFees root) (beBytes 32 fees))
      (s.applyOp (.putBlockFees root fees)) scan := by
  refine h.insert ?_ fun column' _ ne hc => ?_
  · show (blockFeesColumn hcodec).Holds _ (s.blockFees.insert root fees).lookup
    rw [lookup_insert_eq_update]
    exact (h .blockFees).insert trivial hfees
  · cases column' with
    | blockFees => cases ne rfl
    | _ => exact hc

/-- The two references have keys of their own. -/
lemma putHead (href : ref.Fits) :
    Represents hcodec (db.insert (codec.key .chainInfo headKey) (codec.blockRef.asSszBytes ref))
      (s.applyOp (.putHead ref)) scan := by
  refine h.insert ⟨?_, ?_⟩ fun column' _ ne hc => ?_
  · have := (h .chainInfo).1.insert (k := ()) trivial href
    rwa [update_unit] at this
  · refine (h .chainInfo).2.insert_of_ne fun _ e => ?_
    cases (hcodec.key_inj e).2
  · cases column' with
    | chainInfo => cases ne rfl
    | _ => exact hc

lemma putLatestPowBlock (href : ref.Fits) :
    Represents hcodec
      (db.insert (codec.key .chainInfo latestPowBlockKey) (codec.blockRef.asSszBytes ref))
      (s.applyOp (.putLatestPowBlock ref)) scan := by
  refine h.insert ⟨?_, ?_⟩ fun column' _ ne hc => ?_
  · refine (h .chainInfo).1.insert_of_ne fun _ e => ?_
    cases (hcodec.key_inj e).2
  · have := (h .chainInfo).2.insert (k := ()) trivial href
    rwa [update_unit] at this
  · cases column' with
    | chainInfo => cases ne rfl
    | _ => exact hc

lemma putScanHeight (hheight : height < 256 ^ 4) :
    Represents hcodec
      (db.insert (codec.key .bitcoinScanStartHeight defaultKey) (codec.u32.asSszBytes height)) s
      (some height) := by
  refine h.insert ?_ fun column' _ ne hc => ?_
  · have := (h .bitcoinScanStartHeight).insert (k := ()) trivial hheight
    rwa [update_unit] at this
  · cases column' with
    | bitcoinScanStartHeight => cases ne rfl
    | _ => exact hc

/-- One call. -/
lemma write {w : StoreWrite} (fits : w.Fits codec P) :
    Represents hcodec (db.commitOps (w.ops codec P)) (s.applyOps (w.columnOps P))
      (w.scanHeight scan) := by
  cases w with
  | putBlock root block =>
    obtain ⟨hroot, hnumber, hblock⟩ := fits
    have h' := (h.putBlock root hblock).putBlockByHeight hnumber hroot
    rw [StoreWrite.ops, Database.putBlock, Database.commitOps, List.foldl_append]
    cases block.message.auxpowHeader with
    | none => exact h'
    | some auxpowHeader => exact h'.putAuxPowBlockHeight
  | putBlockByHeight block => exact h.putBlockByHeight fits.2 fits.1
  | setAccumulatedBlockFees root fees => exact h.putBlockFees fits
  | setHead ref => exact h.putHead fits
  | setLatestPowBlock ref => exact h.putLatestPowBlock fits
  | setBitcoinScanStartHeight height => exact h.putScanHeight fits

end

/-! What is read. -/

lemma transposeOr_map_some {α : Type} {e : StoreError} (o : Option α) :
    transposeOr e (o.map some) = .ok o := by
  cases o <;> rfl

section

variable (h : Represents hcodec db s scan)

include h

lemma getBlock_eq :
    db.getBlock codec root = .ok (s.getBlock root) := by
  have hread := (h .block).read_eq (k := root) trivial
  exact (congrArg (transposeOr .dbReadError) hread).trans (transposeOr_map_some _)

lemma getHead_eq : db.getHead codec = .ok s.head := by
  have hread := (h .chainInfo).1.read_eq (k := ()) trivial
  exact (congrArg (transposeOr .chainError) hread).trans (transposeOr_map_some _)

lemma getLatestPowBlock_eq :
    db.getLatestPowBlock codec = .ok s.latestPowBlock := by
  have hread := (h .chainInfo).2.read_eq (k := ()) trivial
  exact (congrArg (transposeOr .dbReadError) hread).trans (transposeOr_map_some _)

lemma getBlockByHeight_eq (hheight : height < 256 ^ 8) :
    db.getBlockByHeight codec height = .ok (s.getBlockByHeight height) := by
  obtain ⟨hlookup, hroot⟩ := (h .blockByHeight) height hheight
  have hbytes : db.getBytes codec .blockByHeight (beBytes 8 height) =
      (s.blockByHeight.lookup height).map id := hlookup
  rw [Database.getBlockByHeight, hbytes, Storage.getBlockByHeight]
  cases e : s.blockByHeight.lookup height with
  | none => rfl
  | some root =>
    have hlen : hashFromSlice root = .ok root := if_pos (hroot root e)
    show (do db.getBlock codec (← hashFromSlice root)) = _
    rw [hlen]
    exact h.getBlock_eq

lemma getAccumulatedBlockFees_eq :
    db.getAccumulatedBlockFees codec root = .ok (s.blockFees.lookup root) := by
  obtain ⟨hlookup, hfees⟩ := (h .blockFees) root trivial
  have hbytes :
      db.getBytes codec .blockFees root = (s.blockFees.lookup root).map (beBytes 32) := hlookup
  rw [Database.getAccumulatedBlockFees, hbytes]
  cases e : s.blockFees.lookup root with
  | none => rfl
  | some fees =>
    show (if (beBytes 32 fees).length ≤ 32 then Except.ok (some (beValue _)) else _) = _
    rw [if_pos (length_beBytes 32 fees).le, beValue_beBytes (hfees fees e)]

lemma getBitcoinScanStartHeight_eq :
    db.getBitcoinScanStartHeight codec = .ok scan := by
  obtain ⟨hlookup, hheight⟩ := (h .bitcoinScanStartHeight) () trivial
  have hbytes : db.getBytes codec .bitcoinScanStartHeight defaultKey =
      scan.map codec.u32.asSszBytes := hlookup
  rw [Database.getBitcoinScanStartHeight, hbytes]
  cases e : scan with
  | none => rfl
  | some height =>
    show unwrapRead (codec.u32.fromSszBytes (codec.u32.asSszBytes height)) = _
    rw [(hcodec.u32 (hheight height e)).fromSszBytes_asSszBytes]
    rfl

end

end Represents

/-! ## Whole histories -/

/-- The database after some commits, each of the operations of several calls. -/
def Database.commits (codec : StoreCodec) (P : Primitives) (batches : List (List StoreWrite))
    (db : Database) : Database :=
  batches.foldl (fun db batch => db.commitOps (batch.flatMap (·.ops codec P))) db

/-- The columns after the same commits. -/
def Storage.commits (P : Primitives) (batches : List (List StoreWrite)) (s : Storage) : Storage :=
  batches.foldl (fun s batch => s.applyOps (batch.flatMap (·.columnOps P))) s

/-- The last scan height that was written. -/
def scanHeightAfter (batches : List (List StoreWrite)) (scan : Option Nat) : Option Nat :=
  batches.flatten.foldl StoreWrite.scanHeight scan

lemma Represents.batch {batch : List StoreWrite} (h : Represents hcodec db s scan)
    (fits : ∀ w ∈ batch, w.Fits codec P) :
    Represents hcodec (db.commitOps (batch.flatMap (·.ops codec P)))
      (s.applyOps (batch.flatMap (·.columnOps P))) (batch.foldl StoreWrite.scanHeight scan) := by
  induction batch generalizing db s scan with
  | nil => exact h
  | cons w batch ih =>
    have hrest := ih (h.write (fits w List.mem_cons_self)) fun w' mem =>
      fits w' (List.mem_cons_of_mem w mem)
    rw [List.flatMap_cons, List.flatMap_cons, Database.commitOps, Storage.applyOps,
      List.foldl_append, List.foldl_append]
    exact hrest

lemma Represents.commits {batches : List (List StoreWrite)} (h : Represents hcodec db s scan)
    (fits : ∀ batch ∈ batches, ∀ w ∈ batch, w.Fits codec P) :
    Represents hcodec (db.commits codec P batches) (s.commits P batches)
      (scanHeightAfter batches scan) := by
  induction batches generalizing db s scan with
  | nil => exact h
  | cons batch batches ih =>
    have hrest := ih (h.batch (fits batch List.mem_cons_self)) fun batch' mem =>
      fits batch' (List.mem_cons_of_mem batch mem)
    rw [scanHeightAfter, List.flatten_cons, List.foldl_append]
    exact hrest

/-- After any sequence of commits to a new database, each read returns what the columns have, and
never an error: the bytes are those of a value of the right kind, and no call overwrites what
another column holds. -/
theorem Database.reads_agree (hcodec : codec.Lawful) {batches : List (List StoreWrite)}
    (fits : ∀ batch ∈ batches, ∀ w ∈ batch, w.Fits codec P) :
    let db := Database.commits codec P batches ∅
    let s := Storage.commits P batches .empty
    (∀ root, db.getBlock codec root = .ok (s.getBlock root)) ∧
    (∀ height, height < 256 ^ 8 →
      db.getBlockByHeight codec height = .ok (s.getBlockByHeight height)) ∧
    (∀ root, db.getAccumulatedBlockFees codec root = .ok (s.blockFees.lookup root)) ∧
    db.getHead codec = .ok s.head ∧ db.getLatestPowBlock codec = .ok s.latestPowBlock ∧
    db.getBitcoinScanStartHeight codec = .ok (scanHeightAfter batches none) := by
  intro db s
  have h : Represents hcodec db s (scanHeightAfter batches none) := represents_empty.commits fits
  exact ⟨fun _ => h.getBlock_eq, fun _ => h.getBlockByHeight_eq,
    fun _ => h.getAccumulatedBlockFees_eq, h.getHead_eq, h.getLatestPowBlock_eq,
    h.getBitcoinScanStartHeight_eq⟩

/-- The formats, with MessagePack for one block. -/
def StoreCodec.standard : StoreCodec where
  getKeyForCol column key := column.map (fun c => UInt8.ofNat c.toNat) ++ key
  blockRef := ((Ssz.bytes 32).pair (.number 8)).refine (fun x => some ⟨x.1, x.2⟩)
    fun ref => (ref.hash, ref.height)
  u32 := .number 4
  toVec := fun _ => [1]
  fromSlice := fun _ => some (.toy 1 0)

/-- The names have one length and differ, so a key tells its column. -/
lemma StoreCodec.standard_lawful : StoreCodec.standard.Lawful where
  key_inj := by
    intro column column' key key' h
    have hlength : ∀ column : DbColumn,
        (column.name.map fun c => UInt8.ofNat c.toNat).length = 3 := by
      intro column
      cases column <;> rfl
    obtain ⟨hname, hkey⟩ := List.append_inj h ((hlength column).trans (hlength column').symm)
    refine ⟨?_, hkey⟩
    revert hname
    cases column <;> cases column' <;> decide
  blockRef := fun h => Ssz.Keeps.refine (.pair (Ssz.bytes_keeps h.1) (Ssz.number_keeps h.2)) rfl
  u32 := Ssz.number_keeps

/-- A block is stored with its fees and becomes the head; the scan height is written later. -/
def toyCommits : List (List StoreWrite) :=
  [[.putBlock (List.replicate 32 1) (.toy 1 0), .setAccumulatedBlockFees (List.replicate 32 1) 5,
    .setHead ⟨List.replicate 32 1, 1⟩], [.setBitcoinScanStartHeight 7]]

/-- Two commits, read back. -/
theorem Database.reads_agree_two_commits :
    (Database.commits .standard .toy toyCommits ∅).getHead .standard =
        .ok (some ⟨List.replicate 32 1, 1⟩) ∧
      (Database.commits .standard .toy toyCommits ∅).getBlock .standard (List.replicate 32 1) =
        .ok (some (.toy 1 0)) ∧
      (Database.commits .standard .toy toyCommits ∅).getBitcoinScanStartHeight .standard =
        .ok (some 7) := by
  have fits : ∀ batch ∈ toyCommits, ∀ w ∈ batch, w.Fits StoreCodec.standard Primitives.toy := by
    simp only [toyCommits, List.forall_mem_cons, List.not_mem_nil, IsEmpty.forall_iff,
      implies_true, and_true]
    exact ⟨⟨⟨rfl, by decide, rfl⟩, show 5 < 256 ^ 32 by decide, rfl, by decide⟩,
      show 7 < 256 ^ 4 by decide⟩
  obtain ⟨hblock, -, -, hhead, -, hscan⟩ := Database.reads_agree StoreCodec.standard_lawful fits
  exact ⟨hhead, hblock _, hscan⟩

end Alys
