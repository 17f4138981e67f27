import Alys.Chain.Genesis
import Alys.Lib.Accrual

/-!
# Fees

The fees of a block are accumulated until a block with an AuxPow header pays them out. That block
pays those accumulated at its parent, which are the fees of the blocks from the latest header on;
its own fees belong to the next one. The fees of a block are those that its import recorded: they
are computed from the receipts that the execution layer returned then. The shares are rounded down
three times: the miner's 80 per cent, the division among the federation and the conversion of each
share to gwei.
-/

namespace Alys
open Lib

/-! ## Shares -/

/-- The total of shares, in gwei. -/
def sharesTotal (shares : List (Address × Nat)) : Nat := (shares.map (·.2)).sum

/-- The loss by rounding: a part is split off, the rest is divided, and all amounts are rounded. -/
lemma rounding_bounds {fees part n : Nat} (hpart : part ≤ fees) (hn : 0 < n) :
    (part / 10 ^ 9 + n * ((fees - part) / n / 10 ^ 9)) * 10 ^ 9 ≤ fees ∧
      fees <
        (part / 10 ^ 9 + n * ((fees - part) / n / 10 ^ 9)) * 10 ^ 9 + (n + 1) * 10 ^ 9 + n := by
  generalize hrest : (fees - part) / n = share
  generalize hq : share / 10 ^ 9 = gwei
  have hlow : n * share ≤ fees - part := hrest ▸ Nat.mul_div_le _ _
  have hhigh : fees - part < n * share + n := by
    have := Nat.lt_mul_div_succ (fees - part) hn
    rwa [hrest, Nat.mul_add, Nat.mul_one] at this
  have hle : n * (gwei * 10 ^ 9) ≤ n * share := Nat.mul_le_mul_left n (by omega)
  have hge : n * share ≤ n * (gwei * 10 ^ 9 + 10 ^ 9) := Nat.mul_le_mul_left n (by omega)
  rw [Nat.mul_add, ← Nat.mul_assoc] at hge
  rw [← Nat.mul_assoc] at hle
  omega

/-- What the shares pay: no more than the fees, and less than one gwei for each share and one wei
for each member of the federation below them. -/
lemma splitFees_bounds {federation : List Address} {fees : Nat} {minerAddress : Address} {shares}
    (e : splitFees federation fees minerAddress = .ok shares) :
    sharesTotal shares * 10 ^ 9 ≤ fees ∧
      fees <
        sharesTotal shares * 10 ^ 9 + (federation.length + 1) * 10 ^ 9 + federation.length := by
  obtain ⟨⟨rfl, rfl⟩ | ⟨_, hn, rfl⟩, _⟩ := splitFees_ok e
  · simp [sharesTotal]
  · have htotal : sharesTotal ((minerAddress, minerShare fees) ::
          federation.map fun address => (address, memberShare federation fees)) =
        minerShare fees + federation.length * memberShare federation fees := by
      simp [sharesTotal, Function.comp_def]
    rw [htotal]
    exact rounding_bounds (by omega) (List.length_pos_iff.mpr hn)

/-! ## Runs -/

/-- The fees of an imported block, by what the execution layer answered during the import. -/
def Import.recordedFees (i : Import) : Except Failure Nat := do
  let (executionBlock, executionReceipts) ←
    i.env.getBlockAndReceipts i.block.message.executionPayload.blockHash
  totalFees executionBlock executionReceipts

/-- The amount of `recordedFees`. -/
def Import.fees (i : Import) : Nat :=
  match i.recordedFees with
  | .ok fees => fees
  | .error _ => 0

lemma Import.recordedFees_eq_ok {i : Import} {execution fees}
    (executed : i.env.getBlockAndReceipts i.block.message.executionPayload.blockHash =
      .ok execution) (htotal : totalFees execution.1 execution.2 = .ok fees) :
    i.recordedFees = .ok fees ∧ i.fees = fees := by
  have h : i.recordedFees = .ok fees := bind_eq_ok_iff.mpr ⟨execution, executed, htotal⟩
  exact ⟨h, by rw [Import.fees, h]⟩

/-- The block of the import at a position has an AuxPow header. -/
def powAt (imports : List Import) (i : Nat) : Prop :=
  imports[i]?.any (·.block.message.auxpowHeader.isSome) = true

instance {imports : List Import} : DecidablePred (powAt imports) :=
  fun _ => inferInstanceAs (Decidable (_ = true))

/-- The fees of the import at a position. -/
def feeAt (imports : List Import) (i : Nat) : Nat := (imports[i]?.map Import.fees).getD 0

/-- The fees of the imports from the latest header up to a position. -/
def accrued (imports : List Import) (i : Nat) : Nat :=
  ∑ j ∈ span (powAt imports) i, feeAt imports j

/-- The amounts that `split_fees` computes for a block, in wei. -/
def computedWei (cfg : ChainConfig) (i : Import) : Nat :=
  match feeShares cfg i.before i.block with
  | .ok shares => sharesTotal shares * 10 ^ 9
  | .error _ => 0

section
variable {imports : List Import} {x : Import} {i : Nat}

/-- Later imports do not change which positions have a header. -/
lemma powAt_append (lt : i < imports.length) : powAt (imports ++ [x]) i ↔ powAt imports i := by
  rw [powAt, powAt, List.getElem?_append_left lt]

/-- Later imports do not change the fees of a position. -/
lemma feeAt_append (lt : i < imports.length) : feeAt (imports ++ [x]) i = feeAt imports i := by
  rw [feeAt, feeAt, List.getElem?_append_left lt]

/-- What has accrued at a position does not depend on later imports. -/
lemma accrued_append (lt : i < imports.length) :
    accrued (imports ++ [x]) i = accrued imports i := by
  have hspan : span (powAt (imports ++ [x])) i = span (powAt imports) i :=
    span_congr fun j hj => powAt_append (by omega)
  rw [accrued, accrued, hspan]
  refine Finset.sum_congr rfl fun j hj => feeAt_append ?_
  have := (mem_span.mp hj).2
  omega

/-- What has accrued with a new import: its own fees, after those of the parent if it has no header.
-/
lemma accrued_last (hne : imports ≠ []) :
    accrued (imports ++ [x]) imports.length =
      (if x.block.message.auxpowHeader.isSome then 0 else accrued imports (imports.length - 1)) +
        x.fees := by
  obtain ⟨n, hn⟩ := Nat.exists_eq_add_one_of_ne_zero (List.length_pos_iff.mpr hne).ne'
  have hpow : powAt (imports ++ [x]) (n + 1) ↔ x.block.message.auxpowHeader.isSome = true := by
    rw [powAt, ← hn]
    simp
  have hfee : feeAt (imports ++ [x]) (n + 1) = x.fees := by
    rw [feeAt, ← hn]
    simp
  have hold : accrued (imports ++ [x]) n = accrued imports n := accrued_append (by omega)
  rw [hn, Nat.add_sub_cancel, ← hold]
  simp only [accrued, sum_span_succ, hfee, hpow]

end

/-- The imported blocks. -/
def importedBlocks (k : Core) : List SignedConsensusBlock := k.imported.map (·.block)

/-- The store holds the imported blocks; the entry of each and what was found in the entry of its
parent when it was imported are the fees that had accrued. -/
structure Accounted (P : Primitives) (k : Core) : Prop where
  linear : k.storage.Linear P (importedBlocks k)
  nonempty : k.imported ≠ []
  recorded : ∀ imp ∈ k.imported, imp.recordedFees = .ok imp.fees
  entries : ∀ {i imp}, k.imported[i]? = some imp →
    k.storage.blockFees.lookup (imp.block.canonicalRoot P) = some (accrued k.imported i)
  draws : ∀ {i imp}, k.imported[i + 1]? = some imp →
    imp.before.blockFees.lookup imp.block.message.parentHash = some (accrued k.imported i)
  first : ∀ {imp}, k.imported[0]? = some imp → imp.before = Storage.empty

namespace Accounted

variable {P : Primitives} {k : Core} {env : Env} {b : SignedConsensusBlock}

/-- The property concerns the store and the imports. -/
lemma congr {k' : Core} (h : Accounted P k) (hstorage : k'.storage = k.storage)
    (himported : k'.imported = k.imported) : Accounted P k' := by
  obtain ⟨s, head, w, imported⟩ := k'
  cases hstorage
  cases himported
  exact ⟨h.linear, h.nonempty, h.recorded, h.entries, h.draws, h.first⟩

/-- The entry of the parent of a block that extends the head. -/
lemma parent_entry (h : Accounted P k) (hb : ExtendsHead k.storage b.message) :
    k.storage.blockFees.lookup b.message.parentHash =
      some (accrued k.imported (k.imported.length - 1)) := by
  obtain ⟨last, hlast, hpar, _⟩ := h.linear.extendsHead hb
  rw [importedBlocks, List.length_map, List.getElem?_map] at hlast
  obtain ⟨imp, himp, rfl⟩ := Option.map_eq_some_iff.mp hlast
  rw [hpar]
  exact h.entries himp

/-- The import of a block that extends the head. -/
lemma commit (h : Accounted P k) (hP : RootsSound P) (hb : ExtendsHead k.storage b.message)
    (above : ∀ head ∈ k.head, head.height < b.number) {fees blockFees : Nat} {execution}
    (executed : env.getBlockAndReceipts b.message.executionPayload.blockHash = .ok execution)
    (htotal : totalFees execution.1 execution.2 = .ok blockFees)
    (hfees : fees = (if b.message.auxpowHeader.isSome then 0
      else (k.storage.blockFees.lookup b.message.parentHash).getD 0) + blockFees) :
    Accounted P (k.commit P env b fees) := by
  have himported : (k.commit P env b fees).imported = k.imported ++ [⟨k.storage, b, env⟩] := rfl
  have hblocks : importedBlocks (k.commit P env b fees) = importedBlocks k ++ [b] := by
    simp [importedBlocks, himported]
  have hpos := List.length_pos_iff.mpr h.nonempty
  obtain ⟨hrecorded, hown⟩ :=
    @Import.recordedFees_eq_ok ⟨k.storage, b, env⟩ execution blockFees executed htotal
  constructor
  case linear =>
    rw [hblocks, Core.commit_storage above]
    exact h.linear.extend hP hb fees
  case nonempty => simp [himported]
  case recorded =>
    intro imp mem
    rcases List.mem_append.mp mem with mem | mem
    · exact h.recorded imp mem
    · rw [List.mem_singleton.mp mem, hrecorded, hown]
  case entries =>
    intro i imp e
    rw [himported] at e ⊢
    rw [Core.commit_storage above]
    rcases getElem?_concat_cases e with e | ⟨rfl, rfl⟩
    · obtain ⟨lt, _⟩ := List.getElem?_eq_some_iff.mp e
      have mem : imp.block ∈ importedBlocks k := List.mem_map_of_mem (List.mem_of_getElem? e)
      rw [accrued_append lt, ← h.entries e]
      exact Finmap.lookup_insert_of_ne _ (h.linear.root_ne hP hb mem)
    · rw [accrued_last h.nonempty, hown]
      rw [h.parent_entry hb, Option.getD_some] at hfees
      rw [← hfees]
      exact Finmap.lookup_insert _
  case draws =>
    intro i imp e
    rw [himported] at e ⊢
    rcases getElem?_concat_cases e with e | ⟨hi, rfl⟩
    · obtain ⟨lt, _⟩ := List.getElem?_eq_some_iff.mp e
      rw [accrued_append (by omega)]
      exact h.draws e
    · rw [accrued_append (by omega), h.parent_entry hb]
      congr
      omega
  case first =>
    intro imp e
    rw [himported, List.getElem?_append_left hpos] at e
    exact h.first e

/-- The genesis block. -/
lemma ofGenesis {g : SignedConsensusBlock} {fees : Nat} {execution} (hP : RootsSound P)
    (hg : g.IsGenesis)
    (executed : env.getBlockAndReceipts g.message.executionPayload.blockHash = .ok execution)
    (htotal : totalFees execution.1 execution.2 = .ok fees) (w : UtxoManager) :
    Accounted P (Chain.ofGenesis P env g fees w).core := by
  have himported : (Chain.ofGenesis P env g fees w).core.imported = [⟨.empty, g, env⟩] := rfl
  obtain ⟨hrecorded, hown⟩ :=
    @Import.recordedFees_eq_ok ⟨.empty, g, env⟩ execution fees executed htotal
  constructor
  case linear => exact (SingleChain.ofGenesis hP hg _).linear
  case nonempty => simp [himported]
  case recorded =>
    intro imp mem
    rw [himported] at mem
    rw [List.mem_singleton.mp mem, hrecorded, hown]
  case entries =>
    intro i imp e
    rw [himported] at e ⊢
    rw [List.getElem?_singleton] at e
    split at e
    case isTrue h0 =>
      cases e
      rw [h0, accrued, span_zero, Finset.sum_singleton]
      simp only [feeAt, List.getElem?_cons_zero, Option.map_some, Option.getD_some, hown]
      exact Finmap.lookup_insert _
    case isFalse => cases e
  case draws =>
    intro i imp e
    simp [himported] at e
  case first =>
    intro imp e
    rw [himported, List.getElem?_cons_zero, Option.some.injEq] at e
    rw [← e]

variable {imp : Import}

/-- A block with a header computes the shares of the fees that accrued at its parent. -/
lemma queuedFees (h : Accounted P k) {i : Nat} (e : k.imported[i + 1]? = some imp) :
    imp.before.queuedFees imp.block.message.parentHash = .ok (accrued k.imported i) := by
  rw [Storage.queuedFees, h.draws e]
  rfl

/-- What a block computes: nothing without a header, otherwise a part of what it draws on. -/
lemma computedWei_le (h : Accounted P k) (cfg : ChainConfig) {i : Nat}
    (e : k.imported[i + 1]? = some imp) :
    computedWei cfg imp ≤ if powAt k.imported (i + 1) then accrued k.imported i else 0 := by
  have hpow : powAt k.imported (i + 1) ↔ imp.block.message.auxpowHeader.isSome = true := by
    simp [powAt, e]
  have hdraw := h.queuedFees e
  unfold computedWei feeShares
  cases hh : imp.block.message.auxpowHeader with
  | none => simp [sharesTotal]
  | some header =>
    rw [if_pos (hpow.mpr (by simp [hh]))]
    simp only [hdraw, bind, Except.bind]
    split
    case h_1 shares hshares => exact (splitFees_bounds hshares).1
    case h_2 => exact Nat.zero_le _

/-- The genesis block computes nothing: its parent has no entry. -/
lemma computedWei_first (h : Accounted P k) (cfg : ChainConfig) (e : k.imported[0]? = some imp) :
    computedWei cfg imp = 0 := by
  unfold computedWei feeShares
  rw [h.first e]
  cases imp.block.message.auxpowHeader <;> rfl

/-- What was computed so far is at most the fees of all imported blocks. -/
lemma sum_computedWei_le (h : Accounted P k) (cfg : ChainConfig) :
    (k.imported.map (computedWei cfg)).sum ≤ (k.imported.map Import.fees).sum := by
  obtain ⟨n, hn⟩ := Nat.exists_eq_add_one_of_ne_zero (List.length_pos_iff.mpr h.nonempty).ne'
  obtain ⟨imp, hfirst⟩ : ∃ imp, k.imported[0]? = some imp :=
    ⟨_, List.getElem?_eq_getElem (by omega)⟩
  have hstep : ∀ p ∈ Finset.range n, (k.imported[p + 1]?.map (computedWei cfg)).getD 0 ≤
      if powAt k.imported (p + 1) then accrued k.imported p else 0 := by
    intro p hp
    have lt := Finset.mem_range.mp hp
    rw [List.getElem?_eq_getElem (by omega), Option.map_some, Option.getD_some]
    exact h.computedWei_le cfg (List.getElem?_eq_getElem (by omega))
  rw [sum_map_eq_sum_range, sum_map_eq_sum_range, hn, Finset.sum_range_succ',
    hfirst, Option.map_some, Option.getD_some, h.computedWei_first cfg hfirst, Nat.add_zero]
  calc ∑ p ∈ Finset.range n, (k.imported[p + 1]?.map (computedWei cfg)).getD 0
      ≤ ∑ p ∈ Finset.range n, if powAt k.imported (p + 1) then accrued k.imported p else 0 :=
        Finset.sum_le_sum hstep
    _ = ∑ p ∈ (Finset.range n).filter (fun p => powAt k.imported (p + 1)), accrued k.imported p :=
        (Finset.sum_filter _ _).symm
    _ ≤ ∑ j ∈ Finset.range n, feeAt k.imported j := sum_draws_le _
    _ ≤ ∑ j ∈ Finset.range (n + 1), feeAt k.imported j := by
        rw [Finset.sum_range_succ]
        exact Nat.le_add_right _ _

end Accounted

/-- What is kept of a cached block: it extends the stored head and lies above the head in memory. -/
structure OnHead (k : Core) (m : ConsensusBlock) : Prop where
  extendsHead : ExtendsHead k.storage m
  above : ∀ head ∈ k.head, head.height < m.executionPayload.blockNumber

/-- Every step keeps `Accounted`. -/
lemma maintains_accounted {P cfg} (hP : RootsSound P) :
    Maintains P cfg (fun _ => True) (IfValid P cfg fun k b => ExtendsHead k.storage b.message)
      (Accounted P) OnHead where
  fetch := fun _ h _ => ⟨h.congr rfl rfl, fun _ hm => ⟨hm.extendsHead, hm.above⟩⟩
  valid := fun hb _ hvalid =>
    ⟨hb _ hvalid, (checkParent_eq_ok_iff.mp hvalid.parent).2.1⟩
  imports := by
    intro k env b k' _ h hm _ himp
    cases himp with
    | unchanged => exact h
    | stopped => exact h.congr rfl rfl
    | dropped => exact h.congr rfl rfl
    | @committed w execution fees executed accumulated _ _ _ =>
      have h' : Accounted P { k with bitcoinWallet := w } := h.congr rfl rfl
      obtain ⟨blockFees, htotal, hfees⟩ := accumulateFees_eq_ok accumulated
      exact h'.commit hP hm.extendsHead hm.above executed htotal hfees
  restart := fun h => h.congr rfl rfl

/-- How the fees of the imported blocks, the entries of the store and the amounts that `split_fees`
computes are related. -/
structure FeesConserved (P : Primitives) (cfg : ChainConfig) (k : Core) : Prop where
  stored : k.storage.Linear P (importedBlocks k)
  /-- the fees of a block are those of the receipts that were found during its import -/
  recorded : ∀ imp ∈ k.imported, imp.recordedFees = .ok imp.fees
  /-- the entry of a block: the fees from the most recent header, inclusive, up to it -/
  entries : ∀ i imp, k.imported[i]? = some imp →
    k.storage.blockFees.lookup (imp.block.canonicalRoot P) = some (accrued k.imported i)
  /-- a block with a header draws on the blocks from the header before it up to its parent -/
  draws : ∀ i imp, k.imported[i + 1]? = some imp → imp.block.message.auxpowHeader.isSome = true →
    imp.before.queuedFees imp.block.message.parentHash = .ok (accrued k.imported i)
  disjoint : ∀ p q, powAt k.imported (p + 1) → powAt k.imported (q + 1) → p ≠ q →
    Disjoint (span (powAt k.imported) p) (span (powAt k.imported) q)
  /-- what was computed so far, in wei -/
  total : (k.imported.map (computedWei cfg)).sum ≤ (k.imported.map Import.fees).sum
  loss : ∀ i imp shares, k.imported[i + 1]? = some imp →
    imp.block.message.auxpowHeader.isSome = true →
    feeShares cfg imp.before imp.block = .ok shares →
    accrued k.imported i < sharesTotal shares * 10 ^ 9 +
      (cfg.federation.length + 1) * 10 ^ 9 + cfg.federation.length

lemma Accounted.conserved {P k} (h : Accounted P k) (cfg : ChainConfig) :
    FeesConserved P cfg k where
  stored := h.linear
  recorded := h.recorded
  entries := fun _ _ e => h.entries e
  draws := fun _ _ e _ => h.queuedFees e
  disjoint := by
    intro p q hp hq ne
    rcases Nat.lt_or_gt_of_ne ne with lt | gt
    · exact disjoint_span hp lt
    · exact (disjoint_span hq gt).symm
  total := h.sum_computedWei_le cfg
  loss := by
    intro i imp shares e hpow hshares
    obtain ⟨header, hh⟩ := Option.isSome_iff_exists.mp hpow
    simp only [feeShares, hh, h.queuedFees e, bind, Except.bind] at hshares
    exact (splitFees_bounds hshares).2

/-- Fees are conserved in every run from a stored genesis block in which each valid block that
arrives extends the stored head. -/
theorem run_feesConserved {P : Primitives} {cfg : ChainConfig} {env : Env} {spec : ChainSpec}
    {payload : ExecutionPayload} {w : UtxoManager} {c₀ c : Chain} (hP : RootsSound P)
    (start : storeGenesis P cfg env spec payload (Chain.new .empty w) = (.ok (), c₀))
    (run : NodeRun P cfg (fun _ => True)
      (IfValid P cfg fun k b => ExtendsHead k.storage b.message) c₀ c) :
    FeesConserved P cfg c.core := by
  obtain ⟨g, fees, execution, hg, rfl, hexec, htotal, rfl⟩ := storeGenesis_ok start
  exact ((maintains_accounted hP).run run (.ofGenesis hP hg hexec htotal w) rfl).conserved cfg

/-- An execution layer in which every block has one transaction, which pays 100 gwei. -/
def Env.toyFees : Env :=
  { Env.toy with
    getBlockWithTxs := fun _ => .ok (some ⟨some 0, [⟨[], some (10 ^ 11), none, none⟩]⟩)
    getTransactionReceipt := fun _ => some ⟨none, [], some 1⟩ }

/-- A validator stores a genesis block and a block on it, with fees of 100 gwei each. -/
theorem run_feesConserved_one_block :
    let c₀ := (storeGenesis .toy (.toy 1 0) .toyFees ⟨0x1d00ffff, 1⟩ (.toy 0)
      (Chain.new .empty .empty)).2
    let c := (Event.block .toyFees (.toy 1 0)).apply .toy (.toy 1 0) c₀
    c.storage.blockFees.lookup (toyRoot 1 0) = some (2 * 10 ^ 11) ∧
      FeesConserved .toy (.toy 1 0) c.core := by
  intro c₀ c
  have start : storeGenesis .toy (.toy 1 0) .toyFees ⟨0x1d00ffff, 1⟩ (.toy 0)
      (Chain.new .empty .empty) = (.ok (), c₀) := rfl
  have run : NodeRun .toy (.toy 1 0) (fun _ => True)
      (IfValid .toy (.toy 1 0) fun k b => ExtendsHead k.storage b.message) c₀ c :=
    .snoc .refl (Event.block .toyFees (.toy 1 0)) ⟨trivial, fun _ _ => ⟨_, rfl, rfl, rfl⟩⟩
  exact ⟨by decide, run_feesConserved Primitives.toy_rootsSound start run⟩

end Alys
