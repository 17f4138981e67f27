import Alys.Chain.Linear
import Alys.Chain.Steps

/-!
# Finality

What a block with an AuxPow header that passes the checks of `process_block` finalizes, on a store
that holds a single chain. The range that the header names is chosen by its creator. Three walks
read it: the check of the range against the block finalized last, the walk for the hashes that the
proof of work commits to, and the walk for the proposals that have to be finalized. The second one
accepts a range that does not ascend; the third one does not, so that the three agree on every
accepted range.
-/

namespace Alys
open Lib

/-- A block extends the stored head. -/
def ExtendsHead (s : Storage) (m : ConsensusBlock) : Prop :=
  ∃ head, s.head = some head ∧ m.parentHash = head.hash ∧
    m.executionPayload.blockNumber = head.height + 1

/-! ## Extending a linear store -/

namespace Storage.Linear

variable {P : Primitives} {s : Storage} {chain : List SignedConsensusBlock}
  {b : SignedConsensusBlock}

/-- A block that extends the head is the child of the last block. -/
lemma extendsHead (L : Linear P s chain) (hb : ExtendsHead s b.message) :
    ∃ last, chain[chain.length - 1]? = some last ∧ b.message.parentHash = last.canonicalRoot P ∧
      b.number = chain.length := by
  obtain ⟨head, hhead, hpar, hn⟩ := hb
  rw [L.head, Option.map_eq_some_iff] at hhead
  obtain ⟨last, hlast, rfl⟩ := hhead
  rw [List.getLast?_eq_getElem?] at hlast
  obtain ⟨lt, _⟩ := List.getElem?_eq_some_iff.mp hlast
  have hnum := L.number hlast
  refine ⟨last, hlast, hpar, ?_⟩
  rw [SignedConsensusBlock.number, hn]
  simp only [SignedConsensusBlock.blockRef]
  omega

lemma root_fresh (L : Linear P s chain) (hP : RootsSound P) (hb : ExtendsHead s b.message) :
    s.getBlock (b.canonicalRoot P) = none := by
  obtain ⟨_, _, _, hn⟩ := L.extendsHead hb
  cases e : s.getBlock (b.canonicalRoot P) with
  | none => rfl
  | some b' =>
    obtain ⟨hb', heq⟩ := L.stored.mp e
    obtain ⟨lt, _⟩ := List.getElem?_eq_some_iff.mp (L.getElem? hb')
    have : b'.number = b.number := hP.height heq
    omega

variable {b' : SignedConsensusBlock}

lemma root_ne (L : Linear P s chain) (hP : RootsSound P) (hb : ExtendsHead s b.message)
    (mem : b' ∈ chain) : b'.canonicalRoot P ≠ b.canonicalRoot P := by
  intro eq
  have hget := L.getBlock mem
  rw [eq, L.root_fresh hP hb] at hget
  cases hget

lemma getBlock_extend {fees : Nat} {advances : Bool} {h : Hash256} :
    (s.extend P b fees advances).getBlock h =
      if h = b.canonicalRoot P then some b else s.getBlock h := by
  by_cases e : h = b.canonicalRoot P
  · rw [if_pos e, e]
    exact Finmap.lookup_insert _
  · rw [if_neg e]
    exact Finmap.lookup_insert_of_ne _ e

lemma getBlock_extend_of_some (L : Linear P s chain) (hP : RootsSound P)
    (hb : ExtendsHead s b.message) {fees : Nat} {h : Hash256} (e : s.getBlock h = some b') :
    (s.extend P b fees true).getBlock h = some b' := by
  rw [getBlock_extend, if_neg, e]
  rintro rfl
  rw [L.root_fresh hP hb] at e
  cases e

/-- An import on the head keeps the store linear. -/
lemma extend (L : Linear P s chain) (hP : RootsSound P) (hb : ExtendsHead s b.message)
    (fees : Nat) : Linear P (s.extend P b fees true) (chain ++ [b]) := by
  obtain ⟨last, hlast, hpar, hn⟩ := L.extendsHead hb
  obtain ⟨lt, _⟩ := List.getElem?_eq_some_iff.mp hlast
  constructor
  case stored =>
    intro h b'
    rw [getBlock_extend, List.mem_append, List.mem_singleton]
    split
    case isTrue e =>
      subst e
      constructor
      · rintro ⟨⟩
        exact ⟨.inr rfl, rfl⟩
      · rintro ⟨hb' | rfl, e⟩
        · exact absurd e (L.root_ne hP hb hb')
        · rfl
    case isFalse ne =>
      rw [L.stored]
      constructor
      · rintro ⟨hb', e⟩
        exact ⟨.inl hb', e⟩
      · rintro ⟨hb' | rfl, e⟩
        · exact ⟨hb', e⟩
        · exact absurd e.symm ne
  case number =>
    intro i b' e
    rcases getElem?_concat_cases e with e | ⟨rfl, rfl⟩
    · exact L.number e
    · exact hn
  case parent =>
    intro i b₁ b₂ e₁ e₂
    rcases getElem?_concat_cases e₁ with h₁ | ⟨rfl, rfl⟩
    · rcases getElem?_concat_cases e₂ with h₂ | ⟨hi, rfl⟩
      · exact L.parent h₁ h₂
      · rw [show i = chain.length - 1 by omega, hlast] at h₁
        cases h₁
        exact hpar
    · rw [List.getElem?_eq_none (by simp)] at e₂
      cases e₂
  case genesis =>
    intro b' e
    rcases getElem?_concat_cases e with e | ⟨h, _⟩
    · exact L.genesis e
    · omega
  case zero =>
    have hz : Hash256.zero ≠ b.canonicalRoot P := (hP.nonzero b.message).symm
    rw [getBlock_extend, if_neg hz, L.zero]
  case head => simp [Storage.extend]

end Storage.Linear

/-! ## The checks -/

/-- What a header that passes says. -/
lemma checkPow_ok {P params s} {header : AuxPowHeader} {powOverride : Bool}
    (e : checkPow P params s header powOverride = .ok ()) :
    ∃ finalized start hashes auxpow,
      s.getLatestFinalizedBlockRef P = .ok (some finalized) ∧
      s.getBlock header.rangeStart = some start ∧
      (53143 < start.number → start.message.parentHash = finalized.hash) ∧
      s.getHashes start.message.parentHash header.rangeEnd = .ok hashes ∧
      header.auxpow = some auxpow ∧
      auxpow.check P (AuxPow.aggregateHash P hashes) header.chainId = .ok () := by
  simp only [checkPow, bind_eq_ok_iff, okOr_eq_ok_iff] at e
  obtain ⟨_, _, _, _, _, hfin, finalized, rfl, start, hstart, e⟩ := e
  split at e
  case isTrue => cases e
  case isFalse hchild =>
    simp only [bind_eq_ok_iff, okOr_eq_ok_iff] at e
    obtain ⟨hashes, hhashes, _, _, _, _, auxpow, haux, e⟩ := e
    split at e
    case isTrue =>
      refine ⟨finalized, start, hashes, auxpow, hfin, hstart, fun hn => ?_, hhashes, haux,
        unwrap_eq_ok e⟩
      by_contra ne
      exact hchild ⟨hn, ne⟩
    case isFalse => cases e

/-- What a block with an AuxPow header that passes the checks of `process_block` satisfies. -/
lemma checkFinalization_ok {P cfg s w} {b : SignedConsensusBlock} {pow : AuxPowHeader}
    (e : checkFinalization P cfg s w b pow = .ok ()) :
    (∃ powOverride, checkPow P cfg.retargetParams s pow powOverride = .ok ()) ∧
    ∃ proposals,
      s.getBitcoinPaymentProposalsInRange pow.rangeStart pow.rangeEnd = .ok proposals ∧
      b.message.finalizedPegouts.length = proposals.length ∧
      (cfg.isValidator = true → b.message.finalizedPegouts.map P.txid = proposals.map P.txid) := by
  simp only [checkFinalization, bind_eq_ok_iff] at e
  obtain ⟨_, hpow, proposals, hprop, e⟩ := e
  rw [List.length_map] at e
  split at e
  case isTrue => cases e
  case isFalse hlen =>
    have hlen : proposals.length = b.message.finalizedPegouts.length := by simpa using hlen
    refine ⟨⟨_, hpow⟩, proposals, hprop, hlen.symm, fun hv => ?_⟩
    rw [if_pos hv] at e
    have hzip : List.Forall₂ (fun txid tx => txid = P.txid tx) (proposals.map P.txid)
        b.message.finalizedPegouts := by
      refine List.forall₂_iff_zip.mpr ⟨by rw [List.length_map, hlen], fun {txid tx} mem => ?_⟩
      have hx := forM_eq_ok_iff.mp e (txid, tx) mem
      unfold checkFinalizedPegout at hx
      split at hx
      case isTrue => cases hx
      case isFalse h => exact (not_not.mp h).symm
    have heq := List.forall₂_map_right_iff.mpr hzip
    rw [List.forall₂_eq_eq_eq] at heq
    exact heq.symm

/-- The block finalized last: the end of the range of the latest AuxPow, or the block with that
AuxPow if its height is zero. -/
lemma Storage.getLatestFinalizedBlockRef_eq_iff {P} {s : Storage} {ref : BlockRef} :
    s.getLatestFinalizedBlockRef P = .ok (some ref) ↔
      ∃ blockref powBlock pow, s.latestPowBlock = some blockref ∧
        s.getBlock blockref.hash = some powBlock ∧ powBlock.message.auxpowHeader = some pow ∧
        ((pow.height ≠ 0 ∧ ∃ block, s.getBlock pow.rangeEnd = some block ∧ ref = block.blockRef P) ∨
          pow.height = 0 ∧ ref = blockref) := by
  unfold getLatestFinalizedBlockRef
  cases hl : s.latestPowBlock with
  | none => simp
  | some blockref =>
    cases hb : s.getBlock blockref.hash with
    | none => simp [hb]
    | some powBlock =>
      cases hh : powBlock.message.auxpowHeader with
      | none => simp [hb, hh]
      | some pow =>
        by_cases h0 : pow.height = 0
        · simp [hb, hh, h0, eq_comm]
        · cases he : s.getBlock pow.rangeEnd with
          | none => simp [hb, hh, h0, he]
          | some block => simp [hb, hh, h0, he, eq_comm]

lemma Storage.getLatestFinalizedBlockRef_cases {P} {s : Storage} :
    (∃ ref, s.getLatestFinalizedBlockRef P = .ok ref) ∨
      s.getLatestFinalizedBlockRef P = .error (.error .invalidBlockRange) := by
  unfold getLatestFinalizedBlockRef
  split
  case h_1 => exact .inl ⟨_, rfl⟩
  case h_2 =>
    split
    case h_1 => exact .inr rfl
    case h_2 =>
      split
      case h_1 => exact .inr rfl
      case h_2 =>
        split
        case isTrue =>
          split
          case h_1 => exact .inr rfl
          case h_2 => exact .inl ⟨_, rfl⟩
        case isFalse => exact .inl ⟨_, rfl⟩

namespace Storage.Linear

variable {P : Primitives} {s : Storage} {chain : List SignedConsensusBlock}
  {b stop : SignedConsensusBlock}

lemma finalized_mem (L : Linear P s chain) {ref : BlockRef}
    (e : s.getLatestFinalizedBlockRef P = .ok (some ref)) :
    ∃ f ∈ chain, f.canonicalRoot P = ref.hash := by
  obtain ⟨blockref, powBlock, pow, _, hb, _, ⟨_, block, he, rfl⟩ | ⟨_, rfl⟩⟩ :=
    getLatestFinalizedBlockRef_eq_iff.mp e
  · exact ⟨block, (L.stored.mp he).1, rfl⟩
  · exact ⟨powBlock, L.stored.mp hb⟩

/-- After an import without an AuxPow the block finalized last is the same. -/
lemma finalized_extend (L : Linear P s chain) (hP : RootsSound P) (hb : ExtendsHead s b.message)
    (hpow : b.message.auxpowHeader = none) {fees : Nat} {ref : BlockRef}
    (e : s.getLatestFinalizedBlockRef P = .ok (some ref)) :
    (s.extend P b fees true).getLatestFinalizedBlockRef P = .ok (some ref) := by
  obtain ⟨blockref, powBlock, pow, hl, hb', hh, hcase⟩ := getLatestFinalizedBlockRef_eq_iff.mp e
  refine getLatestFinalizedBlockRef_eq_iff.mpr ⟨blockref, powBlock, pow, ?_,
    L.getBlock_extend_of_some hP hb hb', hh, ?_⟩
  · simp [Storage.extend, hpow, hl]
  · rcases hcase with ⟨h0, block, he, rfl⟩ | h
    · exact .inl ⟨h0, block, L.getBlock_extend_of_some hP hb he, rfl⟩
    · exact .inr h

/-- After an import with an AuxPow the block finalized last is the end of its range. -/
lemma finalized_extend_range (L : Linear P s chain) (hP : RootsSound P)
    (hb : ExtendsHead s b.message) {pow : AuxPowHeader} (hpow : b.message.auxpowHeader = some pow)
    (h0 : pow.height ≠ 0) (hstop : s.getBlock pow.rangeEnd = some stop) (fees : Nat) :
    (s.extend P b fees true).getLatestFinalizedBlockRef P = .ok (some (stop.blockRef P)) := by
  refine getLatestFinalizedBlockRef_eq_iff.mpr ⟨b.blockRef P, b, pow, ?_, ?_, hpow,
    .inl ⟨h0, stop, L.getBlock_extend_of_some hP hb hstop, rfl⟩⟩
  · simp [Storage.extend, hpow]
  · exact getBlock_extend.trans (if_pos rfl)

/-- An AuxPow height of zero finalizes the imported block instead. -/
lemma finalized_extend_pow (L : Linear P s chain) (hP : RootsSound P)
    (hb : ExtendsHead s b.message) {pow : AuxPowHeader} (hpow : b.message.auxpowHeader = some pow)
    (hstop : s.getBlock pow.rangeEnd = some stop) (fees : Nat) :
    ∃ f, (s.extend P b fees true).getLatestFinalizedBlockRef P = .ok (some (f.blockRef P)) ∧
      (f = stop ∨ f = b) := by
  by_cases h0 : pow.height = 0
  · refine ⟨b, getLatestFinalizedBlockRef_eq_iff.mpr
      ⟨b.blockRef P, b, pow, ?_, ?_, hpow, .inr ⟨h0, rfl⟩⟩, .inr rfl⟩
    · simp [Storage.extend, hpow]
    · exact getBlock_extend.trans (if_pos rfl)
  · exact ⟨stop, L.finalized_extend_range hP hb hpow h0 hstop fees, .inl rfl⟩

end Storage.Linear

/-! ## The range of an accepted header -/

/-- What the range of a header names: it starts with a child of the block finalized last and ascends
to its end. -/
structure NextRange (P : Primitives) (s : Storage) (pow : AuxPowHeader) (finalized : BlockRef)
    (start stop : SignedConsensusBlock) : Prop where
  last : s.getLatestFinalizedBlockRef P = .ok (some finalized)
  first : s.getBlock pow.rangeStart = some start
  final : s.getBlock pow.rangeEnd = some stop
  child : start.message.parentHash = finalized.hash
  ascends : start.number ≤ stop.number

/-- The range of an accepted header whose start lies above the height of the exception. -/
lemma checkFinalization_range {P cfg s w chain} {b start : SignedConsensusBlock}
    {pow : AuxPowHeader} (L : s.Linear P chain) (hstart : s.getBlock pow.rangeStart = some start)
    (hn : 53143 < start.number) (e : checkFinalization P cfg s w b pow = .ok ()) :
    ∃ finalized stop, NextRange P s pow finalized start stop := by
  obtain ⟨⟨_, hpow⟩, proposals, hprop, _, _⟩ := checkFinalization_ok e
  obtain ⟨finalized, start', hashes, auxpow, hfin, hstart', hchild, hhashes, _⟩ := checkPow_ok hpow
  rw [hstart, Option.some.injEq] at hstart'
  subst hstart'
  obtain ⟨stop, hstop⟩ := Storage.stored_of_getHashes hhashes
  obtain ⟨hs, hsroot⟩ := L.stored.mp hstart
  obtain ⟨ht, htroot⟩ := L.stored.mp hstop
  rw [← hsroot, ← htroot, L.getBitcoinPaymentProposalsInRange_eq_ok_iff hs ht] at hprop
  exact ⟨finalized, stop, hfin, hstart, hstop, hchild hn, hprop.1⟩

namespace NextRange

variable {P : Primitives} {s : Storage} {chain : List SignedConsensusBlock} {pow : AuxPowHeader}
  {finalized : BlockRef} {start stop : SignedConsensusBlock}

section

variable (r : NextRange P s pow finalized start stop)

include r

/-- The block finalized last stands directly below the range. -/
lemma below (L : s.Linear P chain) :
    ∃ f ∈ chain, f.canonicalRoot P = finalized.hash ∧ f.number + 1 = start.number := by
  obtain ⟨f, hf, hroot⟩ := L.finalized_mem r.last
  refine ⟨f, hf, hroot, ?_⟩
  have hget := L.getBlock hf
  rcases L.parent_cases (L.stored.mp r.first).1 with ⟨_, hzero⟩ | ⟨p, hp, hn, hpar⟩
  · rw [hroot, ← r.child, hzero, L.zero] at hget
    cases hget
  · cases L.eq_of_root hf hp (by rw [hroot, ← r.child, hpar])
    exact hn

lemma getHashes_eq (L : s.Linear P chain) :
    s.getHashes start.message.parentHash pow.rangeEnd =
      .ok ((segment chain start.number stop.number).map (·.canonicalRoot P)) := by
  obtain ⟨f, hf, hroot, hn⟩ := r.below L
  obtain ⟨ht, htroot⟩ := L.stored.mp r.final
  have := r.ascends
  rw [r.child, ← hroot, ← htroot, L.getHashes_eq hf ht (by omega), hn]

lemma proposals_eq (L : s.Linear P chain) :
    s.getBitcoinPaymentProposalsInRange pow.rangeStart pow.rangeEnd =
      .ok ((segment chain start.number stop.number).filterMap
        (·.message.pegoutPaymentProposal)) := by
  obtain ⟨hs, hsroot⟩ := L.stored.mp r.first
  obtain ⟨ht, htroot⟩ := L.stored.mp r.final
  rw [← hsroot, ← htroot]
  exact (L.getBitcoinPaymentProposalsInRange_eq_ok_iff hs ht).mpr ⟨r.ascends, rfl⟩

/-- The block finalized after an import of a block with this range lies above the one before. -/
lemma finalized_extend (L : s.Linear P chain) (hP : RootsSound P) {b : SignedConsensusBlock}
    (hb : ExtendsHead s b.message) (hpow : b.message.auxpowHeader = some pow) (fees : Nat) :
    ∃ f ∈ chain ++ [b],
      (s.extend P b fees true).getLatestFinalizedBlockRef P = .ok (some (f.blockRef P)) ∧
      stop.number ≤ f.number := by
  obtain ⟨ht, _⟩ := L.stored.mp r.final
  obtain ⟨_, _, _, hn⟩ := L.extendsHead hb
  obtain ⟨lt, _⟩ := List.getElem?_eq_some_iff.mp (L.getElem? ht)
  obtain ⟨f, hf, rfl | rfl⟩ := L.finalized_extend_pow hP hb hpow r.final fees
  · exact ⟨f, List.mem_append_left _ ht, hf, le_rfl⟩
  · exact ⟨f, List.mem_append_right _ (List.mem_singleton.mpr rfl), hf, by omega⟩

end

end NextRange

/-- A block with an AuxPow header finalizes the next part of the chain. -/
structure FinalizesNext (P : Primitives) (cfg : ChainConfig) (s : Storage)
    (chain : List SignedConsensusBlock) (b : SignedConsensusBlock) (pow : AuxPowHeader) : Prop where
  /-- the range starts with a child of the block finalized last, which is an ancestor of its end or
  its end -/
  range : ∃ finalized start, s.getLatestFinalizedBlockRef P = .ok (some finalized) ∧
    s.getBlock pow.rangeStart = some start ∧ start.message.parentHash = finalized.hash ∧
    Relation.ReflTransGen s.IsParent pow.rangeStart pow.rangeEnd
  /-- the proof of work commits to the hashes of the blocks of the range, and the finalized peg-outs
  are the proposals of these blocks, in order -/
  content : ∃ start stop, s.getBlock pow.rangeStart = some start ∧
    s.getBlock pow.rangeEnd = some stop ∧
    s.getHashes start.message.parentHash pow.rangeEnd =
      .ok ((segment chain start.number stop.number).map (·.canonicalRoot P)) ∧
    (∃ auxpow, pow.auxpow = some auxpow ∧ auxpow.check P (AuxPow.aggregateHash P
      ((segment chain start.number stop.number).map (·.canonicalRoot P))) pow.chainId = .ok ()) ∧
    s.getBitcoinPaymentProposalsInRange pow.rangeStart pow.rangeEnd =
      .ok ((segment chain start.number stop.number).filterMap
        (·.message.pegoutPaymentProposal)) ∧
    b.message.finalizedPegouts.length = ((segment chain start.number stop.number).filterMap
      (·.message.pegoutPaymentProposal)).length ∧
    (cfg.isValidator = true → b.message.finalizedPegouts.map P.txid =
      ((segment chain start.number stop.number).filterMap
        (·.message.pegoutPaymentProposal)).map P.txid)
  /-- after a committed import by a node whose head is not above the block, the block finalized last
  is a strict descendant of the one before -/
  descendant : ∀ env c, c.storage = s → (∀ head ∈ c.head, head.height ≤ b.number) →
    (importVerifiedBlock P cfg env b c).2.imported ≠ c.imported →
    ∃ before after, s.getLatestFinalizedBlockRef P = .ok (some before) ∧
      (importVerifiedBlock P cfg env b c).2.storage.getLatestFinalizedBlockRef P =
        .ok (some after) ∧
      Relation.TransGen (importVerifiedBlock P cfg env b c).2.storage.IsParent
        before.hash after.hash

/-- The store after a committed import by a node whose head is not above the block. -/
lemma importVerifiedBlock_extend {P cfg env b} {c : Chain}
    (hhead : ∀ head ∈ c.head, head.height ≤ b.number)
    (hne : (importVerifiedBlock P cfg env b c).2.imported ≠ c.imported) :
    ∃ fees, (importVerifiedBlock P cfg env b c).2.storage = c.storage.extend P b fees true := by
  have himp := (@importVerifiedBlock_imported P cfg env b c).1
  generalize (importVerifiedBlock P cfg env b c).2 = c' at himp hne ⊢
  have hne : c'.core.imported ≠ c.core.imported := hne
  change ∃ fees, c'.core.storage = _
  generalize c'.core = k' at himp hne ⊢
  cases himp with
  | unchanged => exact absurd rfl hne
  | stopped => exact absurd rfl hne
  | dropped => exact absurd rfl hne
  | committed fees wallet range =>
    refine ⟨fees, ?_⟩
    rw [Core.commit, Core.advances_iff.mpr hhead]
    rfl

/-- A header that passes the checks, on a block that extends the head of a linear store, finalizes
the next part of the chain. -/
lemma checkFinalization_finalizes {P cfg s w chain} {b start : SignedConsensusBlock}
    {pow : AuxPowHeader} (hP : RootsSound P) (L : s.Linear P chain) (hb : ExtendsHead s b.message)
    (hpow : b.message.auxpowHeader = some pow) (hstart : s.getBlock pow.rangeStart = some start)
    (hn : 53143 < start.number) (e : checkFinalization P cfg s w b pow = .ok ()) :
    FinalizesNext P cfg s chain b pow := by
  obtain ⟨finalized, stop, r⟩ := checkFinalization_range L hstart hn e
  obtain ⟨hs, hsroot⟩ := L.stored.mp r.first
  obtain ⟨ht, htroot⟩ := L.stored.mp r.final
  constructor
  case range =>
    refine ⟨finalized, start, r.last, r.first, r.child, ?_⟩
    rw [← hsroot, ← htroot]
    exact L.descendant_or_self hs ht r.ascends
  case content =>
    obtain ⟨⟨_, hcheck⟩, proposals, hprop, hlen, htxids⟩ := checkFinalization_ok e
    obtain ⟨_, start', hashes, auxpow, _, hstart', _, hhashes, haux, hok⟩ := checkPow_ok hcheck
    rw [hstart, Option.some.injEq] at hstart'
    subst hstart'
    rw [r.getHashes_eq L, Except.ok.injEq] at hhashes
    rw [r.proposals_eq L, Except.ok.injEq] at hprop
    subst hhashes hprop
    exact ⟨start, stop, r.first, r.final, r.getHashes_eq L, ⟨auxpow, haux, hok⟩, r.proposals_eq L,
      hlen, htxids⟩
  case descendant =>
    intro env c hs hhead hne
    obtain ⟨fees, hst⟩ := importVerifiedBlock_extend hhead hne
    rw [hs] at hst
    obtain ⟨f, hf, hroot, hbelow⟩ := r.below L
    obtain ⟨f', hf', hlast, hle⟩ := r.finalized_extend L hP hb hpow fees
    refine ⟨finalized, f'.blockRef P, r.last, by rw [hst]; exact hlast, ?_⟩
    rw [hst, ← hroot]
    have := r.ascends
    exact (L.extend hP hb fees).descendant (List.mem_append_left _ hf) hf' (by omega)

/-! ## Runs -/

/-- An import finalizes a block: it lies in the range of the import's header. -/
def Import.Finalizes (i : Import) (h : Hash256) : Prop :=
  ∃ pow, i.block.message.auxpowHeader = some pow ∧
    Relation.ReflTransGen i.before.IsParent pow.rangeStart h ∧
    Relation.ReflTransGen i.before.IsParent h pow.rangeEnd

/-- A block extends the stored head, and the start of its range, if it has one, lies above the
height of the exception. -/
def ExtendsChain (k : Core) (b : SignedConsensusBlock) : Prop :=
  ExtendsHead k.storage b.message ∧
  ∀ pow, b.message.auxpowHeader = some pow →
    ∀ start, k.storage.getBlock pow.rangeStart = some start → 53143 < start.number

/-- The store is linear, different imports finalize different blocks, and if there was an import
with an AuxPow then none of them finalized a block above the one finalized last. -/
structure FinalizedOnce (P : Primitives) (k : Core) (chain : List SignedConsensusBlock) : Prop where
  linear : k.storage.Linear P chain
  disjoint : k.imported.Pairwise fun i j => ∀ h, i.Finalizes h → ¬ j.Finalizes h
  below : (∀ i ∈ k.imported, i.block.message.auxpowHeader = none) ∨
    ∃ f ∈ chain, ∃ ref, k.storage.getLatestFinalizedBlockRef P = .ok (some ref) ∧
      f.canonicalRoot P = ref.hash ∧
      ∀ i ∈ k.imported, ∀ h, i.Finalizes h →
        ∃ b ∈ chain, b.canonicalRoot P = h ∧ b.number ≤ f.number

/-- What is kept of a cached block: it extends the stored head, lies above the head in memory, and
its header has passed the checks on the store as it is. -/
structure NextBlock (P : Primitives) (cfg : ChainConfig) (k : Core) (m : ConsensusBlock) :
    Prop where
  extendsHead : ExtendsHead k.storage m
  above : ∀ head ∈ k.head, head.height < m.executionPayload.blockNumber
  checked : ∀ pow, m.auxpowHeader = some pow → ∃ w signature start,
    checkFinalization P cfg k.storage w ⟨m, signature⟩ pow = .ok () ∧
    k.storage.getBlock pow.rangeStart = some start ∧ 53143 < start.number

namespace FinalizedOnce

variable {P : Primitives} {cfg : ChainConfig} {env : Env} {k : Core}
  {chain : List SignedConsensusBlock} {b : SignedConsensusBlock}

/-- An import without an AuxPow finalizes nothing. -/
lemma commit (h : FinalizedOnce P k chain) (hP : RootsSound P) (hm : NextBlock P cfg k b.message)
    (hpow : b.message.auxpowHeader = none) (fees : Nat) :
    FinalizedOnce P (k.commit P env b fees) (chain ++ [b]) := by
  have hnew : ∀ h', ¬ Import.Finalizes ⟨k.storage, b, env⟩ h' := by
    rintro h' ⟨pow, e, _⟩
    rw [hpow] at e
    cases e
  constructor
  case linear =>
    rw [Core.commit_storage hm.above]
    exact h.linear.extend hP hm.extendsHead fees
  case disjoint =>
    refine List.pairwise_append.mpr ⟨h.disjoint, List.pairwise_singleton _ _, ?_⟩
    intro i _ j hj h' _
    rw [List.mem_singleton.mp hj]
    exact hnew h'
  case below =>
    rw [Core.commit_storage hm.above]
    rcases h.below with hnone | ⟨f, hf, ref, hlast, hroot, hbelow⟩
    · refine .inl fun i mem => ?_
      rcases List.mem_append.mp mem with mem | mem
      · exact hnone i mem
      · rw [List.mem_singleton.mp mem, hpow]
    · refine .inr ⟨f, List.mem_append_left _ hf, ref,
        h.linear.finalized_extend hP hm.extendsHead hpow hlast, hroot, fun i mem h' hi => ?_⟩
      rcases List.mem_append.mp mem with mem | mem
      · obtain ⟨b', hb', e, le⟩ := hbelow i mem h' hi
        exact ⟨b', List.mem_append_left _ hb', e, le⟩
      · rw [List.mem_singleton.mp mem] at hi
        exact absurd hi (hnew h')

/-- An import with an AuxPow finalizes blocks above those finalized before. -/
lemma commit_pow (h : FinalizedOnce P k chain) (hP : RootsSound P)
    (hm : NextBlock P cfg k b.message) {pow : AuxPowHeader}
    (hpow : b.message.auxpowHeader = some pow) (fees : Nat) :
    FinalizedOnce P (k.commit P env b fees) (chain ++ [b]) := by
  have L := h.linear
  obtain ⟨w, signature, start, e, hstart, hn⟩ := hm.checked pow hpow
  obtain ⟨finalized, stop, r⟩ := checkFinalization_range L hstart hn e
  obtain ⟨f, hf, hroot, hchild⟩ := r.below L
  obtain ⟨f', hf', hlast', hstop⟩ := r.finalized_extend L hP hm.extendsHead hpow fees
  -- the new import finalizes blocks from `start` to `stop`
  have hnew : ∀ h', Import.Finalizes ⟨k.storage, b, env⟩ h' →
      ∃ b' ∈ chain, b'.canonicalRoot P = h' ∧
      start.number ≤ b'.number ∧ b'.number ≤ stop.number := by
    rintro h' ⟨pow', e', hfrom, hto⟩
    rw [hpow, Option.some.injEq] at e'
    subst e'
    obtain ⟨hs, hsroot⟩ := L.stored.mp r.first
    obtain ⟨ht, htroot⟩ := L.stored.mp r.final
    rw [← hsroot] at hfrom
    obtain ⟨b', hb', rfl, le⟩ := L.number_le_of_descendant hs hfrom
    obtain ⟨t, ht', e', le'⟩ := L.number_le_of_descendant hb' hto
    cases L.eq_of_root ht' ht (e'.trans htroot.symm)
    exact ⟨b', hb', rfl, le, le'⟩
  -- the earlier ones finalized blocks up to the one finalized last
  have hold : ∀ i ∈ k.imported, ∀ h', i.Finalizes h' → ∃ b' ∈ chain, b'.canonicalRoot P = h' ∧
      b'.number ≤ f.number := by
    intro i mem h' hi
    rcases h.below with hnone | ⟨f₀, hf₀, ref, hlast, hroot₀, hbelow⟩
    · obtain ⟨_, e', _⟩ := hi
      rw [hnone i mem] at e'
      cases e'
    · rw [r.last, Except.ok.injEq, Option.some.injEq] at hlast
      cases L.eq_of_root hf₀ hf (by rw [hroot₀, hroot, hlast])
      exact hbelow i mem h' hi
  have hascends := r.ascends
  constructor
  case linear =>
    rw [Core.commit_storage hm.above]
    exact L.extend hP hm.extendsHead fees
  case disjoint =>
    refine List.pairwise_append.mpr ⟨h.disjoint, List.pairwise_singleton _ _, ?_⟩
    intro i mem j hj h' hi hj'
    rw [List.mem_singleton.mp hj] at hj'
    obtain ⟨b₁, hb₁, e₁, le₁⟩ := hold i mem h' hi
    obtain ⟨b₂, hb₂, e₂, le₂, _⟩ := hnew h' hj'
    cases L.eq_of_root hb₁ hb₂ (e₁.trans e₂.symm)
    omega
  case below =>
    rw [Core.commit_storage hm.above]
    refine .inr ⟨f', hf', f'.blockRef P, hlast', rfl, fun i mem h' hi => ?_⟩
    rcases List.mem_append.mp mem with mem | mem
    · obtain ⟨b', hb', e', le⟩ := hold i mem h' hi
      exact ⟨b', List.mem_append_left _ hb', e', by omega⟩
    · rw [List.mem_singleton.mp mem] at hi
      obtain ⟨b', hb', e', _, le⟩ := hnew h' hi
      exact ⟨b', List.mem_append_left _ hb', e', by omega⟩

end FinalizedOnce

/-- Every step keeps `FinalizedOnce`. -/
lemma upholds_finalizedOnce {P cfg} (hP : RootsSound P) :
    Upholds P cfg (fun _ => True) (IfValid P cfg ExtendsChain)
      (fun k => ∃ chain, FinalizedOnce P k chain) (NextBlock P cfg) where
  fetch := fun _ ⟨chain, h⟩ _ =>
    ⟨⟨chain, h.linear, h.disjoint, h.below⟩, fun _ hm => ⟨hm.extendsHead, hm.above, hm.checked⟩⟩
  valid := by
    intro k env b missing hb _ hvalid
    have hb := hb missing hvalid
    refine ⟨hb.1, (checkParent_eq_ok_iff.mp hvalid.parent).2.1, fun pow hpow => ?_⟩
    have e := hvalid.auxPow
    rw [checkAuxPow, hpow] at e
    obtain ⟨⟨_, hcheck⟩, _⟩ := checkFinalization_ok e
    obtain ⟨_, start, _, _, _, hstart, _⟩ := checkPow_ok hcheck
    exact ⟨_, b.signature, start, e, hstart, hb.2 pow hpow start hstart⟩
  imports := by
    rintro k env b k' _ ⟨chain, h⟩ hm himp
    cases himp with
    | unchanged => exact ⟨chain, h⟩
    | stopped => exact ⟨chain, h.linear, h.disjoint, h.below⟩
    | dropped => exact ⟨chain, h.linear, h.disjoint, h.below⟩
    | @committed w fees wallet range =>
      have h' : FinalizedOnce P { k with bitcoinWallet := w } chain :=
        ⟨h.linear, h.disjoint, h.below⟩
      have hm' : NextBlock P cfg { k with bitcoinWallet := w } b.message :=
        ⟨hm.extendsHead, hm.above, hm.checked⟩
      cases hpow : b.message.auxpowHeader with
      | none => exact ⟨_, h'.commit hP hm' hpow fees⟩
      | some pow => exact ⟨_, h'.commit_pow hP hm' hpow fees⟩
  restart := fun ⟨chain, h⟩ => ⟨chain, h.linear, h.disjoint, h.below⟩

/-! ## Closed instances -/

/-- A proof of work for the constant hash, with empty Merkle branches: the third output of the
coinbase holds the merged-mining header. -/
def AuxPow.toy : AuxPow where
  coinbaseTxn :=
    ⟨1, 0, [], [⟨0, []⟩, ⟨0, []⟩,
      ⟨0, mergedMiningHeader ++ List.replicate 32 0 ++ [1, 0, 0, 0] ++ List.replicate 4 0⟩]⟩
  blockHash := []
  coinbaseBranch := ⟨[], 0⟩
  blockchainBranch := ⟨[], 0⟩
  parentBlock := ⟨0, [], [1], 0, 0, 0⟩

lemma AuxPow.toy_checkProofOfWork (bits : Nat) : AuxPow.toy.checkProofOfWork .toy bits = true := rfl

lemma AuxPow.toy_check {chainId : Nat} (h : chainId = 1 ∨ chainId = 2) (hashes : List BlockHash) :
    AuxPow.toy.check .toy (AuxPow.aggregateHash .toy hashes) chainId = .ok () := by
  change AuxPow.toy.check .toy (List.replicate 32 0) chainId = .ok ()
  rcases h with rfl | rfl <;> decide

/-- A header that finalizes one block. -/
def AuxPowHeader.toy (root : Hash256) : AuxPowHeader where
  rangeStart := root
  rangeEnd := root
  bits := 0x1d00ffff
  chainId := 1
  height := 1
  auxpow := some .toy
  feeRecipient := [9]

/-- A block with the approval of the first authority that finalizes its parent, with a header that
states the given difficulty, chain id and height. -/
def SignedConsensusBlock.toyMined (bits chainId height number : Nat) : SignedConsensusBlock where
  message :=
    { (SignedConsensusBlock.toy number 0).message with
      auxpowHeader :=
        some { AuxPowHeader.toy (toyRoot (number - 1) 0) with bits, chainId, height } }
  signature := ⟨⟨true :: List.replicate (maxValidators - 1) false, by decide⟩, []⟩

/-- A block with the header of `AuxPowHeader.toy`. -/
def SignedConsensusBlock.toyPow (number : Nat) : SignedConsensusBlock :=
  .toyMined 0x1d00ffff 1 1 number

/-- The blocks of the numbers 0 to `n`, of which the first one contains an AuxPow. -/
def toyBlocks : Nat → List SignedConsensusBlock
  | 0 => [.toyPow 0]
  | n + 1 => toyBlocks n ++ [.toy (n + 1) 0]

/-- A store that holds them. -/
def Storage.toyChain : Nat → Storage
  | 0 =>
    { Storage.toy with
      blocks := Finmap.singleton (toyRoot 0 0) (.toyPow 0)
      latestPowBlock := some ⟨toyRoot 0 0, 0⟩ }
  | n + 1 => (Storage.toyChain n).extend .toy (.toy (n + 1) 0) 0 true

lemma Storage.toyChain_head (n : Nat) : (Storage.toyChain n).head = some ⟨toyRoot n 0, n⟩ := by
  cases n <;> rfl

lemma Storage.toyChain_linear (n : Nat) : (Storage.toyChain n).Linear .toy (toyBlocks n) := by
  induction n with
  | zero => exact .genesisOnly rfl rfl rfl rfl (Primitives.toy_rootsSound.nonzero _)
  | succ n ih =>
    refine ih.extend Primitives.toy_rootsSound ?_ 0
    exact ⟨⟨toyRoot n 0, n⟩, toyChain_head n, rfl, rfl⟩

/-- The chain of the numbers 0 to `n + 1`, the last of whose blocks finalizes the one before it. -/
def Storage.toyFinal (n : Nat) : Storage :=
  (Storage.toyChain n).extend .toy (.toyPow (n + 1)) 0 true

lemma Storage.toyFinal_linear (n : Nat) :
    (Storage.toyFinal n).Linear .toy (toyBlocks n ++ [.toyPow (n + 1)]) :=
  (Storage.toyChain_linear n).extend Primitives.toy_rootsSound
    ⟨⟨toyRoot n 0, n⟩, toyChain_head n, rfl, rfl⟩ 0

lemma Storage.toyFinal_getBlock (n : Nat) :
    (Storage.toyFinal n).getBlock (toyRoot (n + 1) 0) = some (.toyPow (n + 1)) :=
  (Storage.toyFinal_linear n).getBlock (b := .toyPow (n + 1)) (by simp)

lemma Storage.toyFinal_extendsHead (n : Nat) :
    ExtendsHead (Storage.toyFinal n) (SignedConsensusBlock.toyPow (n + 2)).message :=
  ⟨_, rfl, rfl, rfl⟩

lemma Storage.toyFinal_getHead (n : Nat) :
    (Storage.toyFinal n).getHead = .ok (.toyPow (n + 1)) := by
  simp only [Storage.getHead, bind_eq_ok_iff, okOr_eq_ok_iff]
  exact ⟨_, rfl, Storage.toyFinal_getBlock n⟩

lemma toyPow_nextWork {n : Nat} {params : BitcoinConsensusParams} (hn : n + 2 < 2 ^ 64)
    (hparams : params.powNoRetargeting = true) :
    getNextWorkRequired (SignedConsensusBlock.toyPow (n + 1)).message params (n + 1) =
      .ok 0x1d00ffff := by
  have hlt : ¬ n + 1 + 1 < (SignedConsensusBlock.toyPow (n + 1)).number :=
    Nat.not_lt.mpr (Nat.le_succ (n + 1))
  simp only [getNextWorkRequired, checkedU64_of_lt hn, hparams]
  exact if_neg hlt

/-- The last block of a chain is the latest one with an AuxPow, and finalizes the one before it. -/
structure Storage.EndsWithPow (n : Nat) (s : Storage) (blocks : List SignedConsensusBlock) :
    Prop where
  linear : s.Linear .toy (blocks ++ [.toyPow (n + 1)])
  latest : s.latestPowBlock = some ⟨toyRoot (n + 1) 0, n + 1⟩
  head : s.head = some ⟨toyRoot (n + 1) 0, n + 1⟩
  before : ∃ prev, s.getBlock (toyRoot n 0) = some prev ∧ prev.blockRef .toy = ⟨toyRoot n 0, n⟩

namespace Storage.EndsWithPow

variable {n : Nat} {s : Storage} {blocks : List SignedConsensusBlock}

lemma toyFinal (n : Nat) : (Storage.toyFinal n).EndsWithPow n (toyBlocks n) where
  linear := Storage.toyFinal_linear n
  latest := rfl
  head := rfl
  before := by
    cases n with
    | zero =>
      exact ⟨.toyPow 0, (Storage.toyFinal_linear 0).getBlock (b := .toyPow 0) (by simp [toyBlocks]),
        rfl⟩
    | succ n =>
      exact ⟨.toy (n + 1) 0, (Storage.toyFinal_linear (n + 1)).getBlock (b := .toy (n + 1) 0)
        (by simp [toyBlocks]), rfl⟩

section

variable (h : s.EndsWithPow n blocks)

include h

lemma getBlock :
    s.getBlock (toyRoot (n + 1) 0) = some (.toyPow (n + 1)) :=
  h.linear.getBlock (b := .toyPow (n + 1)) (by simp)

lemma extendsHead (bits chainId height : Nat) :
    ExtendsHead s (SignedConsensusBlock.toyMined bits chainId height (n + 2)).message :=
  ⟨_, h.head, rfl, rfl⟩

/-- Another such block may follow. -/
lemma extend (fees : Nat) :
    (s.extend .toy (.toyPow (n + 2)) fees true).EndsWithPow (n + 1)
      (blocks ++ [.toyPow (n + 1)]) where
  linear := h.linear.extend Primitives.toy_rootsSound (h.extendsHead _ _ _) fees
  latest := rfl
  head := rfl
  before := ⟨.toyPow (n + 1), h.linear.getBlock_extend_of_some Primitives.toy_rootsSound
    (h.extendsHead 0x1d00ffff 1 1) h.getBlock, rfl⟩

lemma getHead : s.getHead = .ok (.toyPow (n + 1)) := by
  simp only [Storage.getHead, bind_eq_ok_iff, okOr_eq_ok_iff]
  exact ⟨_, h.head, h.getBlock⟩

/-- A header that finalizes the last block passes the checks, whatever difficulty, chain id and
height it states. -/
lemma checkFinalization (hn : n + 2 < 2 ^ 64) {cfg : ChainConfig}
    (hparams : cfg.retargetParams.powNoRetargeting = true) {pow : AuxPowHeader}
    {b : SignedConsensusBlock} (w : UtxoManager) (hstart : pow.rangeStart = toyRoot (n + 1) 0)
    (hend : pow.rangeEnd = toyRoot (n + 1) 0) (haux : pow.auxpow = some .toy)
    (hid : pow.chainId = 1 ∨ pow.chainId = 2) (hfin : b.message.finalizedPegouts = []) :
    checkFinalization .toy cfg s w b pow = .ok () := by
  have L := h.linear
  have hlast := h.getBlock
  obtain ⟨prev, hprev, hprevRef⟩ := h.before
  have href : s.getLatestFinalizedBlockRef .toy = .ok (some (prev.blockRef .toy)) :=
    Storage.getLatestFinalizedBlockRef_eq_iff.mpr
      ⟨_, .toyPow (n + 1), _, h.latest, hlast, rfl, .inl ⟨nofun, _, hprev, rfl⟩⟩
  have r : NextRange .toy s pow (prev.blockRef .toy) (.toyPow (n + 1)) (.toyPow (n + 1)) :=
    ⟨href, by rw [hstart]; exact hlast, by rw [hend]; exact hlast, by rw [hprevRef]; rfl, le_rfl⟩
  have hpow : ∀ powOverride, checkPow .toy cfg.retargetParams s pow powOverride = .ok () := by
    intro powOverride
    simp only [checkPow, bind_eq_ok_iff, okOr_eq_ok_iff]
    refine ⟨_, h.latest, _, hlast, _, href, _, rfl, _, r.first, ?_⟩
    rw [if_neg fun h => h.2 (by rw [hprevRef]; rfl)]
    simp only [bind_eq_ok_iff, okOr_eq_ok_iff]
    refine ⟨_, r.getHashes_eq L, _, h.getHead, _, toyPow_nextWork hn hparams, .toy, haux, ?_⟩
    rw [AuxPow.toy_checkProofOfWork, Bool.or_true, if_pos rfl]
    exact congrArg unwrap (AuxPow.toy_check hid _)
  simp only [Alys.checkFinalization, bind_eq_ok_iff]
  refine ⟨_, hpow _, _, r.proposals_eq L, ?_⟩
  have hnone : (segment (blocks ++ [SignedConsensusBlock.toyPow (n + 1)])
      (SignedConsensusBlock.toyPow (n + 1)).number (SignedConsensusBlock.toyPow (n + 1)).number) =
      [.toyPow (n + 1)] := segment_self (L.getElem? (by simp))
  rw [hnone, hfin]
  cases cfg.isValidator <;> rfl

end

lemma extendsChain {k : Core} (h : k.storage.EndsWithPow n blocks) (hn : 53143 ≤ n) :
    ExtendsChain k (.toyPow (n + 2)) := by
  refine ⟨h.extendsHead _ _ _, fun pow hpow start e => ?_⟩
  obtain rfl : AuxPowHeader.toy (toyRoot (n + 1) 0) = pow := Option.some.inj hpow
  obtain rfl : SignedConsensusBlock.toyPow (n + 1) = start :=
    Option.some.inj (h.getBlock.symm.trans e)
  exact Nat.lt_succ_of_le hn

end Storage.EndsWithPow

/-- A node that is not a validator, in a federation of one. -/
def ChainConfig.toyFullNode : ChainConfig :=
  { ChainConfig.toy 1 0 with aura := ⟨[[0]], 2000, none⟩, isValidator := false }

variable {n : Nat}

/-- Such a node imports a block with an AuxPow that passes the checks on top of its head. -/
lemma processBlock_toyMined {c : Chain} {blocks : List SignedConsensusBlock}
    {bits chainId height : Nat} (h : c.storage.EndsWithPow n blocks)
    (hhead : c.head = c.storage.head) (hcandidates : c.blockCandidates = .empty)
    (hn : n + 2 < 2 ^ 64) (hid : chainId = 1 ∨ chainId = 2) :
    let b := SignedConsensusBlock.toyMined bits chainId height (n + 2)
    let c' := (processBlock .toy .toyFullNode .toy b c).2
    c'.storage = c.storage.extend .toy b 0 true ∧ c'.head = c'.storage.head ∧
      c'.imported = c.imported ++ [⟨c.storage, b, .toy⟩] ∧ c'.blockCandidates = .empty := by
  intro b c'
  obtain ⟨storage, head, status, candidates, pow, pegins, wallet, collector, hashes, imported⟩ := c
  obtain rfl : candidates = .empty := hcandidates
  obtain rfl : head = storage.head := hhead
  have hslot : ChainConfig.toyFullNode.aura.checkSlot b = .ok () := by
    change ChainConfig.toyFullNode.aura.checkSlot (.toy 0 0) = .ok ()
    decide
  have above : ∀ ref ∈ storage.head, ref.height < b.number := by
    rw [h.head]
    rintro ref ⟨⟩
    exact Nat.lt_succ_self (n + 1)
  have hcheck : checkParent .toy .toyFullNode storage storage.head b = .ok () :=
    checkParent_eq_ok_iff.mpr ⟨Primitives.toy_rootsSound.nonzero
      (SignedConsensusBlock.toy (n + 1) 0).message, above, ⟨_, h.getBlock, rfl⟩,
      Aura.checkSignedByAuthor_ok_iff.mpr ⟨hslot, rfl⟩⟩
  have hpow : checkAuxPow .toy .toyFullNode storage wallet b = .ok () :=
    h.checkFinalization hn rfl wallet rfl rfl rfl hid rfl
  have hvalid : validateBlock .toy .toyFullNode .toy b
      ⟨storage, storage.head, status, .empty, pow, pegins, wallet, collector, hashes, imported⟩ =
        (.ok (), ⟨storage, storage.head, status, .empty, pow, pegins, wallet, collector, hashes,
          imported⟩) := by
    simp only [validateBlock, Action.bind_apply, Action.get_apply, Action.lift_apply,
      Action.ite_apply, hcheck, hpow]
    rfl
  have hmajority : ChainConfig.toyFullNode.aura.majorityApproved .toy b = .ok true :=
    Aura.majorityApproved_true_iff.mpr ⟨hslot, rfl, Nat.le_refl 1⟩
  have range : RangeStored storage b.message := by
    rintro pow ⟨⟩ _
    exact Option.isSome_iff_exists.mpr ⟨_, h.getBlock⟩
  have hc' : c' = (importVerifiedBlock .toy .toyFullNode .toy b ⟨storage, storage.head, status,
      .empty, pow, pegins, wallet, collector, hashes, imported⟩).2 := by
    change (processBlock _ _ _ _ _).2 = _
    rw [processBlock_snd hvalid rfl, maybeAcceptBlock_of_majority
      (BlockCandidateCache.getBlock_insert_empty status.isSynced) hmajority]
  have hcore : c'.core = Core.commit .toy .toy b 0 ⟨storage, storage.head, wallet, imported⟩ := by
    rw [hc']
    exact importVerifiedBlock_commits rfl rfl rfl rfl range rfl
  have hstorage : c'.storage = storage.extend .toy b 0 true :=
    (congrArg Core.storage hcore).trans (Core.commit_storage above)
  refine ⟨hstorage, ?_, congrArg Core.imported hcore, ?_⟩
  · rw [hstorage]
    exact (congrArg Core.head hcore).trans
      (if_pos (Core.advances_iff.mpr fun head mem => (above head mem).le))
  · rw [hc']
    exact (importVerifiedBlock_imported (P := .toy) _).2

/-- A node on the chain after one such block arrived. -/
def Chain.toyFirst (n : Nat) : Chain :=
  (Event.block .toy (.toyPow (n + 2))).apply .toy .toyFullNode (Chain.new (.toyFinal n) .empty)

/-- The node after another one arrived. -/
def Chain.toyFinal (n : Nat) : Chain :=
  (Event.block .toy (.toyPow (n + 3))).apply .toy .toyFullNode (.toyFirst n)

lemma Chain.toyFirst_spec (hn : n + 2 < 2 ^ 64) :
    (Chain.toyFirst n).storage.EndsWithPow (n + 1) (toyBlocks n ++ [.toyPow (n + 1)]) ∧
      (Chain.toyFirst n).head = (Chain.toyFirst n).storage.head ∧
      (Chain.toyFirst n).imported = [⟨.toyFinal n, .toyPow (n + 2), .toy⟩] ∧
      (Chain.toyFirst n).blockCandidates = .empty := by
  have h := Storage.EndsWithPow.toyFinal n
  obtain ⟨hstorage, hhead, himported, hcandidates⟩ :=
    @processBlock_toyMined n (Chain.new (.toyFinal n) .empty) _ 0x1d00ffff 1 1 h rfl rfl hn
      (.inl rfl)
  refine ⟨?_, hhead, himported, hcandidates⟩
  rw [show (Chain.toyFirst n).storage = _ from hstorage]
  exact h.extend 0

/-- Both blocks are imported. -/
lemma Chain.toyFinal_imported (hn : n + 3 < 2 ^ 64) :
    (Chain.toyFinal n).imported.map (·.block.number) = [n + 2, n + 3] := by
  obtain ⟨h, hhead, himported, hcandidates⟩ := @Chain.toyFirst_spec n (by omega)
  obtain ⟨_, _, himported', _⟩ := @processBlock_toyMined (n + 1) (.toyFirst n) _ 0x1d00ffff 1 1 h
    hhead hcandidates hn (.inl rfl)
  rw [himported] at himported'
  exact congrArg (List.map fun x => x.block.number) himported'

lemma Chain.toyFinal_run (hn : 53143 ≤ n) (hlt : n + 2 < 2 ^ 64) :
    NodeRun .toy .toyFullNode (fun _ => True) (IfValid .toy .toyFullNode ExtendsChain)
      (Chain.new (.toyFinal n) .empty) (Chain.toyFinal n) := by
  have first : NodeRun .toy .toyFullNode (fun _ => True) (IfValid .toy .toyFullNode ExtendsChain)
      (Chain.new (.toyFinal n) .empty) (Chain.toyFirst n) :=
    .snoc .refl (Event.block .toy (.toyPow (n + 2)))
      ⟨trivial, fun _ _ => (Storage.EndsWithPow.toyFinal n).extendsChain hn⟩
  exact .snoc first (Event.block .toy (.toyPow (n + 3)))
    ⟨trivial, fun _ _ => (Chain.toyFirst_spec hlt).1.extendsChain (by omega)⟩

/-- On a linear store, a block that extends the head and whose header passes the checks, with a
range that starts above the height of the exception, finalizes the next part of the chain. In every
run in which each valid block that arrives extends the stored head, no block is finalized by two
headers. -/
theorem pow_finality {P : Primitives} {cfg : ChainConfig} (hP : RootsSound P) :
    (∀ s chain w b pow start, s.Linear P chain → ExtendsHead s b.message →
      b.message.auxpowHeader = some pow → s.getBlock pow.rangeStart = some start →
      53143 < start.number → checkFinalization P cfg s w b pow = .ok () →
      FinalizesNext P cfg s chain b pow) ∧
    ∀ s chain w c, s.Linear P chain →
      NodeRun P cfg (fun _ => True) (IfValid P cfg ExtendsChain) (Chain.new s w) c →
      c.imported.Pairwise fun i j => ∀ h, i.Finalizes h → ¬ j.Finalizes h := by
  refine ⟨fun s chain w b pow start L hb hpow hstart hn e =>
    checkFinalization_finalizes hP L hb hpow hstart hn e, fun s chain w c L run => ?_⟩
  obtain ⟨_, h⟩ := (upholds_finalizedOnce hP).run run
    ⟨chain, L, List.Pairwise.nil, .inl nofun⟩ rfl
  exact h.disjoint

/-- A chain of 53145 blocks, a block that finalizes the last of them and one that finalizes that
one. -/
theorem pow_finality_toyFinal :
    FinalizesNext .toy .toyFullNode (.toyFinal 53143) (toyBlocks 53143 ++ [.toyPow 53144])
      (.toyPow 53145) (.toy (toyRoot 53144 0)) ∧
    (Chain.toyFinal 53143).imported.map (·.block.number) = [53145, 53146] ∧
    (Chain.toyFinal 53143).imported.Pairwise fun i j => ∀ h, i.Finalizes h → ¬ j.Finalizes h := by
  have h := @pow_finality .toy .toyFullNode Primitives.toy_rootsSound
  have final := Storage.EndsWithPow.toyFinal 53143
  exact ⟨h.1 _ _ .empty _ _ _ final.linear (final.extendsHead _ _ _) rfl final.getBlock
      (Nat.lt_succ_self 53143)
      (final.checkFinalization (by decide) rfl .empty rfl rfl rfl (.inl rfl) rfl),
    Chain.toyFinal_imported (by decide),
    h.2 _ _ .empty _ final.linear (Chain.toyFinal_run le_rfl (by decide))⟩

end Alys
