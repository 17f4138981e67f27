import Alys.Chain.Miner
import Alys.Chain.Rollback

/-!
# The block hash cache

Model of `aggregate_hashes` and `init_block_hash_cache` in `app/src/chain.rs`. Miners are given the
hashes of the cache, and `check_pow` reads those of the range from the store. The cache is filled
from the store once, at the start, and updated by every import after that.

The list of an empty range is not empty: `get_hashes` of the genesis block and itself is the genesis
block. A cache that is filled when only the genesis block is stored therefore holds one hash too
many, until the first AuxPow drops it (`run_handsOutWork_iff`). A rollback does not update the
cache.
-/

namespace Alys
open Lib

/-- `Chain::aggregate_hashes`. -/
def Chain.aggregateHashes (P : Primitives) (c : Chain) : Except Failure (List BlockHash) := do
  let head ← okOr c.head (.error .chainError)
  let finalized ← okOr (← c.storage.getLatestFinalizedBlockRef P) (.error .chainError)
  c.storage.getHashes finalized.hash head.hash

/-- `Chain::init_block_hash_cache`. -/
def initBlockHashCache (P : Primitives) : ChainM Unit := do
  let c ← Action.get
  let hashes ← Action.lift (c.aggregateHashes P)
  Action.modify fun c => { c with blockHashCache := hashes }

/-! ## What an import does to the cache -/

/-- The cache after the import of a block. -/
def nextHashes (P : Primitives) (b : SignedConsensusBlock) (hashes : List BlockHash) :
    List BlockHash :=
  if b.number = 0 then
    hashes
  else
    match b.message.auxpowHeader with
    | none => hashes ++ [b.canonicalRoot P]
    | some header =>
      match resetWith hashes header.rangeEnd with
      | .ok rest => rest ++ [b.canonicalRoot P]
      | .error _ => hashes

lemma updateBlockHashCache_snd {P b} (c : Chain) :
    (updateBlockHashCache P b c).2 =
      { c with blockHashCache := nextHashes P b c.blockHashCache } := by
  simp only [updateBlockHashCache, nextHashes, Action.ite_apply]
  split
  case isTrue => rfl
  case isFalse =>
    cases b.message.auxpowHeader with
    | none => rfl
    | some header =>
      simp only [Action.bind_apply, Action.get_apply, Action.lift_apply]
      cases resetWith c.blockHashCache header.rangeEnd <;> rfl

/-- The cache and the imports of a node without a queued AuxPow are those of another one. -/
structure Untouched (c₀ c : Chain) : Prop where
  queue : c.queuedPow = none
  imported : c.imported = c₀.imported
  hashes : c.blockHashCache = c₀.blockHashCache

/-- One block was imported and the cache updated. -/
structure Updated (P : Primitives) (b : SignedConsensusBlock) (c₀ c : Chain) : Prop where
  queue : c.queuedPow = none
  imported : c.imported.length = c₀.imported.length + 1
  hashes : c.blockHashCache = nextHashes P b c₀.blockHashCache

section
variable {P : Primitives} {cfg : ChainConfig} {env : Env} {b : SignedConsensusBlock} {c₀ : Chain}

lemma importPegs_untouched : Action.Keeps (Untouched c₀) (importPegs P cfg env b) := by
  refine .bind (.forEach fun pegin _ => ?_) fun _ => .bind ?_ fun _ => .modify fun c h => ?_
  · refine .bind (.modify fun c h => ⟨h.queue, h.imported, h.hashes⟩) fun _ => ?_
    exact .lift_bind fun tx _ => .modify fun c h => ⟨h.queue, h.imported, h.hashes⟩
  · cases b.message.pegoutPaymentProposal with
    | none => exact .pure
    | some tx => exact fun c h => ⟨h.queue, h.imported, h.hashes⟩
  · exact ⟨h.queue, h.imported, h.hashes⟩

lemma finalize_untouched {pow : AuxPowHeader} :
    Action.Keeps (Untouched c₀) (finalize P b pow) := by
  refine .bind (.modify fun c h => ⟨rfl, h.imported, h.hashes⟩) fun _ => .get_bind fun c h => ?_
  rw [Action.ite_apply]
  split <;> exact h

lemma updateHeadRefOps_untouched {ref : BlockRef} :
    Action.Keeps (Untouched c₀) (updateHeadRefOps ref false) := by
  refine .get_bind fun c h => ?_
  rw [Action.ite_apply]
  split
  · exact h
  · exact ⟨h.queue, h.imported, h.hashes⟩

/-- The cache is updated after the commit. -/
lemma commitImport_updated {ops : List StoreOp} {c : Chain} (h : Untouched c₀ c) :
    let c' := ((commitImport env b ops >>= fun _ => updateBlockHashCache P b) c).2
    Untouched c₀ c' ∨ Updated P b c₀ c' := by
  simp only [commitImport, Action.bind_apply, Action.ite_apply]
  cases env.commitOps with
  | false => exact .inl h
  | true =>
    simp only [if_true, Action.modify_apply, updateBlockHashCache_snd]
    refine .inr ⟨h.queue, ?_, ?_⟩
    · simp [h.imported]
    · simp [h.hashes]

/-- The cache is updated with the head. -/
lemma storeBlock_updated {ops : List StoreOp} {c : Chain} (h : Untouched c₀ c) :
    Untouched c₀ (storeBlock P env b ops c).2 ∨ Updated P b c₀ (storeBlock P env b ops c).2 := by
  have hhead := @updateHeadRefOps_untouched c₀ (b.blockRef P) c h
  simp only [storeBlock, Action.bind_apply]
  rw [updateHeadRefOps_apply] at hhead ⊢
  cases b.message.auxpowHeader with
  | none => exact commitImport_updated hhead
  | some pow =>
    have hfin := @finalize_untouched P b c₀ pow _ hhead
    simp only [Action.bind_apply]
    rcases hr : finalize P b pow _ with ⟨_ | finalizationOps, c₂⟩
    · rw [hr] at hfin
      exact .inl hfin
    · rw [hr] at hfin
      exact commitImport_updated hfin

/-- An import updates the cache if it is committed, and leaves it otherwise. -/
lemma importVerifiedBlockNoCommit_updated {c : Chain} (h : Untouched c₀ c) :
    let c' := (importVerifiedBlockNoCommit P cfg env b c).2
    Untouched c₀ c' ∨ Updated P b c₀ c' := by
  simp only [importVerifiedBlockNoCommit, Action.bind_apply, Action.lift_apply, Action.get_apply,
    Action.ite_apply]
  cases env.getBlockAndReceipts b.message.executionPayload.blockHash with
  | error e => exact .inl h
  | ok execution =>
    simp only
    cases accumulateFees P c.storage b execution.1 execution.2 with
    | error e => exact .inl h
    | ok ops =>
      simp only
      by_cases hv : cfg.isValidator = true
      · have hpegs := @importPegs_untouched P cfg env b c₀ c h
        simp only [if_pos hv]
        rcases hr : importPegs P cfg env b c with ⟨_ | _, c₁⟩
        · rw [hr] at hpegs
          exact .inl hpegs
        · rw [hr] at hpegs
          exact storeBlock_updated hpegs
      · simp only [if_neg hv]
        exact storeBlock_updated h

end

/-- An accepted import leaves the store, the head in memory and the cache, or writes all of them, if
the disk answers. -/
lemma acceptBlock_updated {P cfg env b} {c : Chain} (hcommit : env.commitOps = true)
    (hqueue : c.queuedPow = none) :
    let c' := (acceptBlock P cfg env b c).2
    c'.queuedPow = none ∧
      (c'.storage = c.storage ∧ c'.head = c.head ∧ c'.blockHashCache = c.blockHashCache ∨
        ∃ fees, c'.storage = c.storage.extend P b fees true ∧ c'.head = some (b.blockRef P) ∧
          c'.blockHashCache = nextHashes P b c.blockHashCache) := by
  intro c'
  have hup : Untouched c c' ∨ Updated P b c c' := by
    obtain ⟨missing, _, e⟩ | ⟨missing, _, _, e⟩ := @acceptBlock_cases P cfg env b c
    · have e : c' = c.registerUtxos missing := e
      rw [e]
      exact .inl ⟨hqueue, rfl, rfl⟩
    · have e : c' = _ := congrArg Prod.snd e
      rw [e]
      exact importVerifiedBlockNoCommit_updated ⟨hqueue, rfl, rfl⟩
  refine ⟨hup.elim (·.queue) (·.queue), ?_⟩
  -- the cache was updated exactly if there is one more import
  obtain ⟨hstorage, himp, hhead⟩ | ⟨_, fees, _, _, _, _, hstorage, hhead, himp⟩ :=
    @acceptBlock_stores P cfg env b c
  · rcases hup with h | h
    · exact .inl ⟨hstorage, hhead hcommit, h.hashes⟩
    · have hlen := h.imported
      rw [himp] at hlen
      exact absurd hlen (Nat.succ_ne_self _).symm
  · rcases hup with h | h
    · have hlen := congrArg List.length (himp.symm.trans h.imported)
      simp at hlen
    · exact .inr ⟨fees, hstorage, hhead, h.hashes⟩

/-! ## The hashes of the cache -/

/-- The list of an empty range. -/
lemma Storage.getHashes_self {s : Storage} {h : Hash256} {b : SignedConsensusBlock}
    (e : s.getBlock h = some b) : s.getHashes h h = .ok [h] := by
  simp only [getHashes, e, okOr, bind, Except.bind, if_pos le_rfl]
  rfl

/-- Resetting a cache of different hashes at one of them keeps those after it. -/
lemma resetWith_eq {hashes : List BlockHash} (nodup : hashes.Nodup) {i : Nat} {h : BlockHash}
    (e : hashes[i]? = some h) : resetWith hashes h = .ok (hashes.drop (i + 1)) := by
  have hidx : hashes.findIdx? (· = h) = some i := by
    obtain ⟨lt, rfl⟩ := List.getElem?_eq_some_iff.mp e
    refine List.findIdx?_eq_some_iff_getElem.mpr ⟨lt, by simp, fun j hj => ?_⟩
    have ne : hashes[j] ≠ hashes[i] := fun eq => hj.ne (nodup.getElem_inj_iff.mp eq)
    simpa using ne
  rw [resetWith, hidx]

/-- A block above the genesis block contains an AuxPow. -/
def Mined (chain : List SignedConsensusBlock) : Prop :=
  ∃ b ∈ chain, b.number ≠ 0 ∧ b.message.auxpowHeader.isSome = true

/-- The cache holds the hashes of the last blocks of the chain: those after the block finalized
last, or all of them, with the genesis block, as long as there is no AuxPow above it. -/
def HashWindow (P : Primitives) (chain : List SignedConsensusBlock) (f : SignedConsensusBlock)
    (hashes : List BlockHash) : Prop :=
  ∃ k, hashes = (chain.drop k).map (·.canonicalRoot P) ∧
    (Mined chain ∧ k = f.number + 1 ∧ k < chain.length ∨ ¬ Mined chain ∧ k = 0 ∧ f.number = 0)

namespace HashWindow

variable {P : Primitives} {s : Storage} {chain : List SignedConsensusBlock}
  {f b stop : SignedConsensusBlock} {hashes : List BlockHash}

/-- A block without a header is appended. -/
lemma append (h : HashWindow P chain f hashes) (hpow : b.message.auxpowHeader = none) :
    HashWindow P (chain ++ [b]) f (hashes ++ [b.canonicalRoot P]) := by
  obtain ⟨k, rfl, hk⟩ := h
  have hmined : Mined (chain ++ [b]) ↔ Mined chain := by
    simp [Mined, hpow]
  have hle : k ≤ chain.length := by
    rcases hk with ⟨_, _, lt⟩ | ⟨_, rfl, _⟩ <;> omega
  refine ⟨k, by rw [List.drop_append_of_le_length hle]; simp, ?_⟩
  rw [hmined]
  rcases hk with ⟨hm, e, lt⟩ | h
  · exact .inl ⟨hm, e, by simp; omega⟩
  · exact .inr h

/-- A header that finalizes up to a later block drops the hashes up to that block. -/
lemma reset (h : HashWindow P chain f hashes) (L : s.Linear P chain) (hstop : stop ∈ chain)
    (lt : f.number < stop.number) (hb : b.number ≠ 0)
    (hpow : b.message.auxpowHeader.isSome = true) :
    ∃ rest, resetWith hashes (stop.canonicalRoot P) = .ok rest ∧
      HashWindow P (chain ++ [b]) stop (rest ++ [b.canonicalRoot P]) := by
  obtain ⟨k, rfl, hk⟩ := h
  have hle : k ≤ stop.number := by
    rcases hk with ⟨_, e, _⟩ | ⟨_, rfl, _⟩ <;> omega
  have hget := L.getElem? hstop
  obtain ⟨hlen, _⟩ := List.getElem?_eq_some_iff.mp hget
  have hpos : ((chain.drop k).map (·.canonicalRoot P))[stop.number - k]? =
      some (stop.canonicalRoot P) := by
    rw [List.getElem?_map, List.getElem?_drop, Nat.add_sub_cancel' hle, hget, Option.map_some]
  have nodup : ((chain.drop k).map (·.canonicalRoot P)).Nodup := by
    rw [List.map_drop]
    exact L.nodup_roots.sublist (List.drop_sublist _ _)
  refine ⟨_, resetWith_eq nodup hpos, stop.number + 1, ?_, .inl ⟨⟨b, by simp, hb, hpow⟩, rfl, ?_⟩⟩
  · have hdrop : k + (stop.number - k + 1) = stop.number + 1 := by omega
    rw [List.drop_append_of_le_length (by omega), ← List.map_drop, List.drop_drop, hdrop]
    simp
  · simp
    omega

end HashWindow

/-- The store holds a single chain, whose last hashes the cache holds. -/
structure Cached (P : Primitives) (c : Chain) (chain : List SignedConsensusBlock) : Prop where
  single : SingleChain P c.storage c.head chain
  queue : c.queuedPow = none
  window : ∃ f ∈ chain, c.storage.getLatestFinalizedBlockRef P = .ok (some (f.blockRef P)) ∧
    HashWindow P chain f c.blockHashCache

/-- An import that the cache follows: the disk answers, the block extends the stored head, and the
range of its header, if it has one, ends with a stored block above the block finalized last. -/
structure Followed (P : Primitives) (c : Chain) (env : Env) (b : SignedConsensusBlock) : Prop where
  commits : env.commitOps = true
  extendsHead : ExtendsHead c.storage b.message
  header : ∀ pow, b.message.auxpowHeader = some pow → pow.height ≠ 0 ∧
    ∃ finalized stop, c.storage.getLatestFinalizedBlockRef P = .ok (some finalized) ∧
      c.storage.getBlock pow.rangeEnd = some stop ∧ finalized.height < stop.number

/-- A rollback that leaves the head: the block at its height is the stored head. -/
def Stays (P : Primitives) (c : Chain) (_ : Env) (height : Nat) : Prop :=
  ∀ target, c.storage.getBlockByHeight height = some target →
    c.storage.head = some (target.blockRef P)

/-- On a single chain the walk of a rollback ends with the block that the store refers to. -/
lemma LatestPow.powBlockLoop {P s chain} {p b : SignedConsensusBlock} {fuel : Nat} {r}
    (h : LatestPow P s chain p) (L : s.Linear P chain) (hb : b ∈ chain) (le : p.number ≤ b.number)
    (e : s.powBlockLoop fuel b = .ok r) : r = some p := by
  induction fuel generalizing b with
  | zero => cases e
  | succ fuel ih =>
    unfold Storage.powBlockLoop at e
    split at e
    case isTrue header =>
      cases e
      rw [L.eq_of_number hb h.mem (Nat.le_antisymm (h.highest b hb header) le)]
    case isFalse header =>
      have lt : p.number < b.number := by
        refine Nat.lt_of_le_of_ne le fun eq => header ?_
        rw [← L.eq_of_number h.mem hb eq]
        exact h.header
      rcases L.parent_cases hb with ⟨h0, _⟩ | ⟨q, hq, hn, hpar⟩
      · omega
      · have hz : b.message.parentHash ≠ Hash256.zero := by
          intro hz
          have := L.getBlock hq
          rw [← hpar, hz, L.zero] at this
          cases this
        rw [if_neg hz, hpar, L.getBlock hq] at e
        exact ih hq (by omega) e

namespace Cached

variable {P : Primitives} {cfg : ChainConfig} {env : Env} {c c' : Chain}
  {chain : List SignedConsensusBlock} {b g : SignedConsensusBlock}

/-- The cache follows an import. -/
lemma extend (h : Cached P c chain) (hP : RootsSound P) (hb : Followed P c env b)
    {fees : Nat} (hqueue : c'.queuedPow = none)
    (hstorage : c'.storage = c.storage.extend P b fees true) (hhead : c'.head = some (b.blockRef P))
    (hhashes : c'.blockHashCache = nextHashes P b c.blockHashCache) :
    Cached P c' (chain ++ [b]) := by
  have L := h.single.linear
  obtain ⟨f, hf, hfin, window⟩ := h.window
  obtain ⟨_, _, _, hn⟩ := L.extendsHead hb.extendsHead
  have hne : b.number ≠ 0 := by
    rw [hn]
    exact (List.length_pos_iff.mpr h.single.nonempty).ne'
  refine ⟨?_, hqueue, ?_⟩
  · rw [hstorage, hhead]
    exact h.single.extend hP hb.extendsHead fees
  · rw [hstorage, hhashes, nextHashes, if_neg hne]
    cases hpow : b.message.auxpowHeader with
    | none =>
      exact ⟨f, by simp [hf], L.finalized_extend hP hb.extendsHead hpow hfin, window.append hpow⟩
    | some pow =>
      obtain ⟨h0, finalized, stop, hfin', hstop, lt⟩ := hb.header pow hpow
      rw [hfin, Except.ok.injEq, Option.some.injEq] at hfin'
      subst hfin'
      obtain ⟨hmem, hroot⟩ := L.stored.mp hstop
      obtain ⟨rest, hreset, window'⟩ := window.reset L hmem lt hne (by rw [hpow]; rfl)
      simp only [← hroot, hreset]
      exact ⟨stop, by simp [hmem],
        L.finalized_extend_range hP hb.extendsHead hpow h0 hstop fees, window'⟩

/-- A rollback that leaves the head changes nothing. -/
lemma rollback (h : Cached P c chain) {env : Env} {height : Nat} (stays : Stays P c env height) :
    (rollbackHead P env height c).2 = c := by
  obtain e | ⟨target, powBlock, htarget, hpow, e⟩ := @rollbackHead_cases P env height c
  · exact e
  · have L := h.single.linear
    have hhead := stays target htarget
    obtain ⟨hash, _, hstored⟩ := Option.bind_eq_some_iff.mp htarget
    obtain ⟨hmem, _⟩ := L.stored.mp hstored
    obtain ⟨p, hp⟩ := h.single.latestPow
    have hle : p.number ≤ target.number := by
      obtain ⟨lt, _⟩ := List.getElem?_eq_some_iff.mp (L.getElem? hp.mem)
      obtain ⟨last, hlast, eq⟩ := Option.map_eq_some_iff.mp (L.head.symm.trans hhead)
      rw [List.getLast?_eq_getElem?] at hlast
      have hnum : last.number = target.number := congrArg BlockRef.height eq
      have := L.number hlast
      omega
    rw [e, hp.powBlockLoop L hmem hle hpow]
    -- the head and the reference are written with the values they have
    have hstorage : c.storage.rollback P target (some p) = c.storage := by
      simp only [Storage.rollback, ← hhead, ← hp.ref]
    rw [hstorage, ite_self, ← hhead, ← h.single.head]

/-- The genesis block, with a cache that was filled on it. -/
lemma ofGenesis (hP : RootsSound P) (hg : g.IsGenesis) {fees : Nat} {w : UtxoManager}
    (e : initBlockHashCache P (Chain.ofGenesis P env g fees w) = (.ok (), c)) : Cached P c [g] := by
  have single := SingleChain.ofGenesis hP hg fees
  have L := single.linear
  have hget := L.getBlock (List.mem_singleton.mpr rfl)
  have hfin := SingleChain.finalized_ofGenesis hP hg fees
  -- the list of the empty range is the genesis block
  have hhashes : (Chain.ofGenesis P env g fees w).aggregateHashes P = .ok [g.canonicalRoot P] := by
    have hhead : (Chain.ofGenesis P env g fees w).head = some (g.blockRef P) := rfl
    have hstorage :
        (Chain.ofGenesis P env g fees w).storage = Storage.empty.extend P g fees true := rfl
    simp only [Chain.aggregateHashes, hhead, hstorage, hfin, okOr, bind, Except.bind]
    exact Storage.getHashes_self hget
  simp only [initBlockHashCache, Action.bind_apply, Action.get_apply, Action.lift_apply, hhashes,
    Action.modify_apply] at e
  cases e
  refine ⟨single, rfl, g, by simp, hfin, 0, rfl, .inr ⟨?_, rfl, hg.number⟩⟩
  rintro ⟨b, mem, hne, _⟩
  rw [List.mem_singleton.mp mem] at hne
  exact hne hg.number

/-- The last block of the chain is the head. -/
lemma last (h : Cached P c chain) :
    ∃ last ∈ chain, c.head = some (last.blockRef P) ∧ last.number = chain.length - 1 := by
  have L := h.single.linear
  have hne := h.single.nonempty
  have hlast : chain.getLast? = some (chain.getLast hne) := List.getLast?_eq_some_getLast _
  refine ⟨_, List.getLast_mem hne, ?_, ?_⟩
  · rw [h.single.head, L.head, hlast, Option.map_some]
  · rw [List.getLast?_eq_getElem?] at hlast
    exact L.number hlast

/-- The list from the store, if the head is above the block finalized last. -/
lemma aggregateHashes (h : Cached P c chain) {f : SignedConsensusBlock} (hf : f ∈ chain)
    (hfin : c.storage.getLatestFinalizedBlockRef P = .ok (some (f.blockRef P)))
    (lt : f.number + 1 < chain.length) :
    c.aggregateHashes P = .ok ((chain.drop (f.number + 1)).map (·.canonicalRoot P)) := by
  obtain ⟨last, hlast, hhead, hn⟩ := h.last
  have hhashes := h.single.linear.getHashes_eq hf hlast (by omega)
  rw [hn, segment_to_end h.single.nonempty] at hhashes
  simp only [Chain.aggregateHashes, hhead, hfin, okOr, bind, Except.bind]
  exact hhashes

end Cached

/-! ## Runs -/

/-- The hashes that miners are given are those that the store holds from the block finalized last to
the head. -/
def HandsOutWork (P : Primitives) (c : Chain) : Prop :=
  ∀ hashes, c.getAggregateHashes = .ok hashes → c.aggregateHashes P = .ok hashes

/-- The genesis block's hash stays in the cache until the first AuxPow above it. -/
lemma Cached.handsOutWork_iff {P c chain} (h : Cached P c chain) (above : 1 < chain.length) :
    HandsOutWork P c ↔ Mined chain := by
  obtain ⟨last, _, hhead, _⟩ := h.last
  have hwork : c.getAggregateHashes = .ok c.blockHashCache := by
    simp only [Chain.getAggregateHashes, hhead, h.queue]
    rfl
  obtain ⟨f, hf, hfin, k, hhashes, ⟨mined, rfl, lt⟩ | ⟨mined, rfl, h0⟩⟩ := h.window
  · refine ⟨fun _ => mined, fun _ hashes e => ?_⟩
    rw [hwork, Except.ok.injEq] at e
    rw [h.aggregateHashes hf hfin lt, ← e, hhashes]
  · refine ⟨fun hand => ?_, fun m => absurd m mined⟩
    have hstore := h.aggregateHashes hf hfin (by omega)
    rw [hand _ hwork, Except.ok.injEq] at hstore
    have hlen := congrArg List.length (hhashes.symm.trans hstore)
    simp only [List.length_map, List.length_drop] at hlen
    omega

/-- A run from a filled cache whose imports the cache follows and whose rollbacks leave the head. -/
lemma Cached.run {P cfg} {c c' : Chain} (hP : RootsSound P)
    (run : ReorgRun P cfg (Followed P) (Stays P) c c') (h : ∃ chain, Cached P c chain) :
    ∃ chain, Cached P c' chain := by
  refine run.invariant (I := fun c => ∃ chain, Cached P c chain) h fun c e ⟨chain, h⟩ ok => ?_
  cases e with
  | accept env b =>
    obtain ⟨hqueue, ⟨hs, hh, hc⟩ | ⟨fees, hs, hh, hc⟩⟩ :=
      @acceptBlock_updated P cfg env b c ok.commits h.queue
    · refine ⟨chain, ?_, hqueue, ?_⟩
      · simp only [Reorg.apply, hs, hh]
        exact h.single
      · simp only [Reorg.apply, hs, hc]
        exact h.window
    · exact ⟨chain ++ [b], h.extend hP ok hqueue hs hh hc⟩
  | rollback env height =>
    simp only [Reorg.apply, h.rollback ok]
    exact ⟨chain, h⟩

/-- In every such run from a freshly stored genesis block and a filled cache, with the head above
the genesis block, miners are given the right hashes exactly if a stored block above the genesis
block contains an AuxPow. -/
theorem run_handsOutWork_iff {P : Primitives} {cfg : ChainConfig} {env : Env} {spec : ChainSpec}
    {payload : ExecutionPayload} {w : UtxoManager} {c₀ c₁ c : Chain} {head : BlockRef}
    (hP : RootsSound P)
    (start : storeGenesis P cfg env spec payload (Chain.new .empty w) = (.ok (), c₀))
    (init : initBlockHashCache P c₀ = (.ok (), c₁))
    (run : ReorgRun P cfg (Followed P) (Stays P) c₁ c) (hhead : c.head = some head)
    (above : 0 < head.height) :
    HandsOutWork P c ↔
      ∃ h b, c.storage.getBlock h = some b ∧ b.number ≠ 0 ∧
        b.message.auxpowHeader.isSome = true := by
  obtain ⟨g, fees, _, hg, _, _, _, rfl⟩ := storeGenesis_ok start
  obtain ⟨chain, h⟩ := Cached.run hP run ⟨[g], .ofGenesis hP hg init⟩
  obtain ⟨last, _, hlast, hn⟩ := h.last
  have hlen : 1 < chain.length := by
    cases hlast.symm.trans hhead
    have : 0 < last.number := above
    omega
  rw [h.handsOutWork_iff hlen]
  constructor
  · rintro ⟨b, mem, hb⟩
    exact ⟨_, b, h.single.linear.getBlock mem, hb⟩
  · rintro ⟨_, b, e, hb⟩
    exact ⟨b, (h.single.linear.stored.mp e).1, hb⟩

/-- A lone validator that has stored its genesis block and filled its cache. -/
def Chain.toyCached : Chain := (initBlockHashCache .toy Chain.toyGenesis).2

lemma Chain.toyCached_eq :
    initBlockHashCache .toy Chain.toyGenesis = (.ok (), Chain.toyCached) := rfl

/-- The validator imports a block and one that finalizes it. -/
theorem run_handsOutWork_one_pow :
    let c₂ := (Reorg.accept .toy (.toy 1 0)).apply .toy (.toy 1 0) Chain.toyCached
    let c₃ := (Reorg.accept .toy (.toyPow 2)).apply .toy (.toy 1 0) c₂
    c₃.blockHashCache = [toyRoot 2 0] ∧ HandsOutWork .toy c₃ := by
  intro c₂ c₃
  have first : Followed .toy Chain.toyCached .toy (.toy 1 0) :=
    ⟨rfl, ⟨⟨toyRoot 0 0, 0⟩, rfl, rfl, rfl⟩, nofun⟩
  have second : Followed .toy c₂ .toy (.toyPow 2) := by
    refine ⟨rfl, ⟨⟨toyRoot 1 0, 1⟩, by decide, rfl, rfl⟩, fun pow e => ?_⟩
    cases e
    exact ⟨by decide, ⟨toyRoot 0 0, 0⟩, .toy 1 0, by decide, by decide, by decide⟩
  have run : ReorgRun .toy (.toy 1 0) (Followed .toy) (Stays .toy) Chain.toyCached c₃ :=
    .snoc (.snoc .refl (Reorg.accept .toy (.toy 1 0)) first) (Reorg.accept .toy (.toyPow 2)) second
  have hhead : c₃.head = some ⟨toyRoot 2 0, 2⟩ := by decide
  refine ⟨by decide, (run_handsOutWork_iff Primitives.toy_rootsSound Chain.toyGenesis_eq
    Chain.toyCached_eq run hhead (by decide)).mpr ?_⟩
  exact ⟨toyRoot 2 0, .toyPow 2, by decide, by decide, rfl⟩

/-- The validator imports one block: miners are given the hash of the genesis block too. -/
theorem run_handsOutWork_fails :
    ¬ ∀ (P : Primitives) (cfg : ChainConfig) (num : ExecutionBlockHash → Nat) (env : Env)
      (spec : ChainSpec) (payload : ExecutionPayload) (w : UtxoManager) (c₀ c₁ c : Chain)
      (head : BlockRef), RootsSound P →
      storeGenesis P cfg env spec payload (Chain.new .empty w) = (.ok (), c₀) →
      initBlockHashCache P c₀ = (.ok (), c₁) →
      ReorgRun P cfg (fun _ env _ => env.commitOps = true ∧ env.Numbers num)
        (fun _ env _ => env.commitOps = true) c₁ c →
      c.head = some head → 0 < head.height → HandsOutWork P c := by
  intro all
  let c := (Reorg.accept .toyNumbered (.toyNumbered 1)).apply .toy (.toy 1 0) Chain.toyCached
  have run : ReorgRun .toy (.toy 1 0)
      (fun _ env _ => env.commitOps = true ∧ env.Numbers List.length)
      (fun _ env _ => env.commitOps = true) Chain.toyCached c :=
    .snoc .refl (Reorg.accept .toyNumbered (.toyNumbered 1)) ⟨rfl, Env.toyNumbered_numbers⟩
  have hhead : c.head = some ⟨toyRoot 1 0, 1⟩ := by decide
  have hwork : c.getAggregateHashes = .ok [toyRoot 0 0, toyRoot 1 0] := by decide
  have hstore : c.aggregateHashes .toy = .ok [toyRoot 1 0] := by decide
  have hand := all _ _ List.length _ _ _ _ _ _ c _ Primitives.toy_rootsSound Chain.toyGenesis_eq
    Chain.toyCached_eq run hhead (by decide) _ hwork
  rw [hstore] at hand
  exact absurd hand (by decide)

end Alys
