import Alys.Chain.HashCache
import Alys.Chain.Miner

/-!
# Submitting a proof of work

What `submit_aux_block` in `app/src/auxpow_miner.rs` leaves behind. The bundle is taken out of the
table before the proof is looked at, so every error loses it. And `push_auxpow` checks the header
once more, against the store as it is then; if that fails nothing is queued, but the miner is told
that all is well.
-/

namespace Alys
open Lib

/-- A header has the range of a bundle. -/
def AuxInfo.CoveredBy (info : AuxInfo) (pow : AuxPowHeader) : Prop :=
  pow.rangeStart = info.startHash ∧ pow.rangeEnd = info.endHash

/-- An accepted submission leaves a queued header for the bundle, and a rejected one leaves the
table as it was. -/
structure AllOrNothing (P : Primitives) (cfg : ChainConfig) (signer : Option BitcoinSigner)
    (hash : BlockHash) (auxpow : AuxPow) (info : AuxInfo) (m : AuxPowMiner) : Prop where
  accepted : ∀ m', AuxPowMiner.submitAuxBlock P cfg signer hash auxpow m = (.ok (), m') →
    ∃ pow, m'.chain.queuedPow = some pow ∧ info.CoveredBy pow
  rejected : ∀ e m',
    AuxPowMiner.submitAuxBlock P cfg signer hash auxpow m = (.error (.error e), m') →
    m'.state = m.state

section Submission

variable {P : Primitives} {cfg : ChainConfig} {signer : Option BitcoinSigner}

/-- A header for a bundle that is built has its range. -/
lemma AuxPowMiner.solvedHeader_covered {params s info hash auxpow pow}
    (e : solvedHeader P params s info hash auxpow = .ok pow) : info.CoveredBy pow := by
  obtain ⟨_, _, _, _, _, _, _, _, _, _, rfl⟩ := solvedHeader_eq_ok_iff.mp e
  exact ⟨rfl, rfl⟩

/-- A header that is not queued is not reported. -/
lemma pushAuxpow_ne_error {header : AuxPowHeader} {e : Error} (c : Chain) :
    (pushAuxpow P cfg signer header c).1 ≠ .error (.error e) := by
  simp only [pushAuxpow, Action.bind_apply, Action.get_apply, Action.ite_apply]
  split
  case isTrue => rintro ⟨⟩
  case isFalse =>
    cases checkPow P cfg.retargetParams c.storage header false with
    | ok =>
      have hqueue := @queuePow_ne_error P cfg signer header e c
      change ((queuePow P cfg signer header >>= fun _ => pure true) c).1 ≠ _
      rcases hresult : queuePow P cfg signer header c with ⟨f | _, c'⟩
      · rw [Action.bind_apply, hresult]
        rw [hresult] at hqueue
        intro eq
        cases eq
        exact hqueue rfl
      · rw [Action.bind_apply, hresult]
        rintro ⟨⟩
    | error f =>
      cases f with
      | error => rintro ⟨⟩
      | panic => rintro ⟨⟩
      | diverge => rintro ⟨⟩

/-- A header that fails the check is dropped. -/
lemma pushAuxpow_of_error {header : AuxPowHeader} {e : Error} {c : Chain}
    (h : checkPow P cfg.retargetParams c.storage header false = .error (.error e)) :
    pushAuxpow P cfg signer header c = (.ok false, c) := by
  simp only [pushAuxpow, Action.bind_apply, Action.get_apply, Action.ite_apply, h]
  split
  case isTrue => rfl
  case isFalse => rfl

/-- After a header was pushed its range is queued exactly if it was before or the header passes the
check. -/
lemma pushAuxpow_queued_iff {header : AuxPowHeader} {r : Bool} {c c' : Chain}
    (e : pushAuxpow P cfg signer header c = (.ok r, c')) {info : AuxInfo}
    (hinfo : info.CoveredBy header) :
    (∃ pow, c'.queuedPow = some pow ∧ info.CoveredBy pow) ↔
      (∃ pow, c.queuedPow = some pow ∧ info.CoveredBy pow) ∨
        ∀ e, checkPow P cfg.retargetParams c.storage header false ≠ .error (.error e) := by
  have hany : (c.queuedPow.any fun prev =>
      prev.rangeStart = header.rangeStart ∧ prev.rangeEnd = header.rangeEnd) = true ↔
      ∃ pow, c.queuedPow = some pow ∧ info.CoveredBy pow := by
    rw [Option.any_eq_true]
    simp only [decide_eq_true_eq, AuxInfo.CoveredBy, hinfo.1, hinfo.2]
  simp only [pushAuxpow, Action.bind_apply, Action.get_apply, Action.ite_apply] at e
  split at e
  case isTrue h =>
    cases e
    exact ⟨.inl, fun _ => hany.mp h⟩
  case isFalse h =>
    rw [hany] at h
    cases hcheck : checkPow P cfg.retargetParams c.storage header false with
    | ok =>
      rw [hcheck] at e
      obtain ⟨_, c₁, hqueue, e⟩ := Action.bind_ok_iff.mp e
      cases e
      have hqueued := @queuePow_queuedPow P cfg signer header c
      rw [hqueue] at hqueued
      exact iff_of_true ⟨header, hqueued, hinfo⟩ (.inr fun _ => by rintro ⟨⟩)
    | error f =>
      rw [hcheck] at e
      cases f with
      | error f =>
        cases e
        exact iff_of_false h (not_or.mpr ⟨h, fun all => all f rfl⟩)
      | panic => cases e
      | diverge => cases e

/-- A submission is all or nothing exactly if the header is built without an error and then its
range is queued already or it passes the check of the chain without an error. -/
lemma allOrNothing_iff_solvedHeader {hash : BlockHash} {auxpow : AuxPow} {info : AuxInfo}
    {m : AuxPowMiner} (hinfo : m.state.lookup hash = some info) :
    AllOrNothing P cfg signer hash auxpow info m ↔
      (∀ e, AuxPowMiner.solvedHeader P cfg.retargetParams m.chain.storage info hash auxpow ≠
        .error (.error e)) ∧
      ∀ header, AuxPowMiner.solvedHeader P cfg.retargetParams m.chain.storage info hash auxpow =
          .ok header →
        (∃ pow, m.chain.queuedPow = some pow ∧ info.CoveredBy pow) ∨
          ∀ e, checkPow P cfg.retargetParams m.chain.storage header false ≠ .error (.error e) := by
  have hforgotten : m.state.erase hash ≠ m.state := by
    intro e
    rw [← e, Finmap.lookup_erase] at hinfo
    cases hinfo
  obtain ⟨f, hheader, hsubmit⟩ | ⟨header, c', hheader, ⟨f, hpush, hsubmit⟩ | ⟨r, hpush, hsubmit⟩⟩ :=
    @AuxPowMiner.submitAuxBlock_cases P cfg signer hash auxpow info m hinfo
  · rw [hheader]
    constructor
    · intro h
      refine ⟨fun e eq => hforgotten ?_, by simp⟩
      cases eq
      exact h.rejected e _ hsubmit
    · rintro ⟨hne, _⟩
      refine ⟨fun m' e => ?_, fun e m' eq => ?_⟩
      · rw [hsubmit] at e
        cases e
      · rw [hsubmit] at eq
        cases eq
        exact absurd rfl (hne e)
  · -- the node panics
    rw [hheader]
    refine iff_of_true ⟨fun m' e => ?_, fun e m' eq => ?_⟩
      ⟨by simp, fun header' eq => ?_⟩
    · rw [hsubmit] at e
      cases e
    · rw [hsubmit] at eq
      cases eq
      exact absurd (congrArg Prod.fst hpush) (pushAuxpow_ne_error _)
    · cases eq
      refine .inr fun e hcheck => ?_
      rw [pushAuxpow_of_error hcheck] at hpush
      cases hpush
  · have hqueued := pushAuxpow_queued_iff hpush (AuxPowMiner.solvedHeader_covered hheader)
    rw [hheader]
    constructor
    · intro h
      refine ⟨by simp, fun header' eq => ?_⟩
      cases eq
      exact hqueued.mp (h.accepted _ hsubmit)
    · rintro ⟨_, hor⟩
      refine ⟨fun m' e => ?_, fun e m' eq => ?_⟩
      · rw [hsubmit] at e
        cases e
        exact hqueued.mpr (hor header rfl)
      · rw [hsubmit] at eq
        cases eq

/-- The checks of a submission: the block that the bundle names is stored, there is a target after
it, the proof meets the target, and it passes its own check. Only what is returned as an error
counts, a panic ends the node. -/
structure AuxPowMiner.Solves (P : Primitives) (params : BitcoinConsensusParams) (s : Storage)
    (info : AuxInfo) (hash : BlockHash) (auxpow : AuxPow) : Prop where
  stored : ∀ e, s.getBlockByHash info.lastHash ≠ .error (.error e)
  required : ∀ indexLast, s.getBlockByHash info.lastHash = .ok indexLast →
    ∀ e, s.nextWorkRequired params indexLast ≠ .error (.error e)
  proof : ∀ indexLast bits chainId, s.getBlockByHash info.lastHash = .ok indexLast →
    s.nextWorkRequired params indexLast = .ok bits → indexLast.chainId = .ok chainId →
    auxpow.checkProofOfWork P bits = true ∧ ∀ e, auxpow.check P hash chainId ≠ .error (.error e)

/-- The header of a solved bundle. -/
def AuxInfo.header (info : AuxInfo) (auxpow : AuxPow) (bits chainId height : Nat) : AuxPowHeader :=
  ⟨info.startHash, info.endHash, bits, chainId, height, some auxpow, info.address⟩

/-- A sequence returns no error exactly if its parts return none. -/
lemma bind_ne_error_iff {α β : Type} {x : Except Failure α} {f : α → Except Failure β} :
    (∀ e, (x >>= f) ≠ .error (.error e)) ↔
      (∀ e, x ≠ .error (.error e)) ∧ ∀ a, x = .ok a → ∀ e, f a ≠ .error (.error e) := by
  cases x with
  | error f' => simp [bind, Except.bind]
  | ok a => simp [bind, Except.bind]

/-- The end of the building of a header returns an error for a proof that does not meet the target
or fails its check. -/
lemma AuxPowMiner.solved_ne_error_iff {bits chainId number : Nat} {info : AuxInfo}
    {hash : BlockHash} {auxpow : AuxPow} :
    (∀ e, (if auxpow.checkProofOfWork P bits then
        match auxpow.check P hash chainId with
        | .ok _ => do
          let height ← checkedU64 (number + 1)
          return info.header auxpow bits chainId height
        | .error (.error _) => throw (.error .genericError)
        | .error .panic => throw .panic
        | .error .diverge => throw .diverge
      else
        throw (.error .genericError) : Except Failure AuxPowHeader) ≠ .error (.error e)) ↔
      auxpow.checkProofOfWork P bits = true ∧
        ∀ e, auxpow.check P hash chainId ≠ .error (.error e) := by
  by_cases hmet : auxpow.checkProofOfWork P bits = true
  · rw [if_pos hmet]
    simp only [hmet, true_and]
    cases auxpow.check P hash chainId with
    | ok =>
      refine iff_of_true ?_ fun e => by rintro ⟨⟩
      refine bind_ne_error_iff.mpr ⟨fun e => ?_, fun height _ e => by rintro ⟨⟩⟩
      unfold checkedU64
      split
      · rintro ⟨⟩
      · rintro ⟨⟩
    | error f =>
      cases f with
      | error e => exact iff_of_false (fun h => h _ rfl) fun h => h e rfl
      | panic => exact iff_of_true (fun e => by rintro ⟨⟩) fun e => by rintro ⟨⟩
      | diverge => exact iff_of_true (fun e => by rintro ⟨⟩) fun e => by rintro ⟨⟩
  · rw [if_neg hmet]
    exact iff_of_false (fun h => h _ rfl) fun h => hmet h.1

/-- When a proof solves a bundle. -/
lemma AuxPowMiner.solvedHeader_ne_error_iff {params : BitcoinConsensusParams} {s : Storage}
    {info : AuxInfo} {hash : BlockHash} {auxpow : AuxPow} :
    (∀ e, solvedHeader P params s info hash auxpow ≠ .error (.error e)) ↔
      Solves P params s info hash auxpow := by
  have hid : ∀ (indexLast : ConsensusBlock) e, indexLast.chainId ≠ .error (.error e) := by
    intro indexLast e
    unfold ConsensusBlock.chainId
    split
    · rintro ⟨⟩
    · rintro ⟨⟩
  simp only [solvedHeader, bind_ne_error_iff, ne_eq]
  constructor
  · rintro ⟨stored, rest⟩
    refine ⟨stored, fun indexLast hlast => (rest indexLast hlast).1, ?_⟩
    intro indexLast bits chainId hlast hbits hchainId
    exact solved_ne_error_iff.mp (((rest indexLast hlast).2 bits hbits).2 chainId hchainId)
  · rintro ⟨stored, required, proof⟩
    refine ⟨stored, fun indexLast hlast => ⟨required indexLast hlast, fun bits hbits =>
      ⟨hid indexLast, fun chainId hchainId => ?_⟩⟩⟩
    exact solved_ne_error_iff.mpr (proof indexLast bits chainId hlast hbits hchainId)

end Submission

/-- A submission for a remembered bundle is all or nothing exactly if the block that the bundle
names is stored, the proof meets the target required after it and passes its check, and a header
with the range is queued already or the header for the bundle passes the check of the chain without
an error. -/
theorem submitAuxBlock_allOrNothing_iff {P : Primitives} {cfg : ChainConfig}
    {signer : Option BitcoinSigner} {hash : BlockHash} {auxpow : AuxPow} {info : AuxInfo}
    {m : AuxPowMiner} (hinfo : m.state.lookup hash = some info) :
    AllOrNothing P cfg signer hash auxpow info m ↔
      AuxPowMiner.Solves P cfg.retargetParams m.chain.storage info hash auxpow ∧
      ((∃ pow, m.chain.queuedPow = some pow ∧ info.CoveredBy pow) ∨
        ∀ indexLast bits chainId, m.chain.storage.getBlockByHash info.lastHash = .ok indexLast →
          m.chain.storage.nextWorkRequired cfg.retargetParams indexLast = .ok bits →
          indexLast.chainId = .ok chainId → auxpow.check P hash chainId = .ok () →
          indexLast.executionPayload.blockNumber + 1 < 2 ^ 64 →
          ∀ e, checkPow P cfg.retargetParams m.chain.storage (info.header auxpow bits chainId
            (indexLast.executionPayload.blockNumber + 1)) false ≠ .error (.error e)) := by
  rw [allOrNothing_iff_solvedHeader hinfo, AuxPowMiner.solvedHeader_ne_error_iff]
  refine and_congr_right fun solves => ?_
  constructor
  · intro h
    refine or_iff_not_imp_left.mpr fun unqueued => ?_
    intro indexLast bits chainId hlast hbits hchainId hcheck hheight
    refine (h _ (AuxPowMiner.solvedHeader_eq_ok_iff.mpr ⟨indexLast, bits, chainId, _, hlast, hbits,
      hchainId, ?_, hcheck, checkedU64_of_lt hheight, rfl⟩)).resolve_left unqueued
    exact (solves.proof indexLast bits chainId hlast hbits hchainId).1
  · rintro (queued | passes) header hheader
    · exact .inl queued
    · obtain ⟨indexLast, bits, chainId, height, hlast, hbits, hchainId, _, hcheck, hheight, rfl⟩ :=
        AuxPowMiner.solvedHeader_eq_ok_iff.mp hheader
      obtain rfl := checkedU64_eq_ok hheight
      exact .inr (passes indexLast bits chainId hlast hbits hchainId hcheck (checkedU64_lt hheight))

/-- A validator that has imported a block and one that finalizes it. -/
def Chain.toyFinalized : Chain :=
  (Reorg.accept .toy (.toyPow 2)).apply .toy (.toy 1 0)
    ((Reorg.accept .toy (.toy 1 0)).apply .toy (.toy 1 0) Chain.toyCached)

/-- Its miner after it handed out the work on the second block. -/
def AuxPowMiner.toyCreated : AuxPowMiner :=
  (createAuxBlock .toy (.toy 1 0) [9] ⟨∅, Chain.toyFinalized⟩).2

/-- The bundle that it handed out. -/
def AuxInfo.toy : AuxInfo := ⟨toyRoot 2 0, toyRoot 2 0, toyRoot 2 0, [9]⟩

lemma AuxPowMiner.toyCreated_lookup :
    AuxPowMiner.toyCreated.state.lookup (AuxPow.aggregateHash .toy [toyRoot 2 0]) = some .toy := rfl

/-- A valid proof is queued. -/
theorem submitAuxBlock_allOrNothing_valid :
    AllOrNothing .toy (.toy 1 0) none (AuxPow.aggregateHash .toy [toyRoot 2 0]) .toy .toy
      AuxPowMiner.toyCreated := by
  refine (submitAuxBlock_allOrNothing_iff AuxPowMiner.toyCreated_lookup).mpr ⟨⟨?_, ?_, ?_⟩, .inr ?_⟩
  · rintro e ⟨⟩
  · rintro indexLast ⟨⟩ e ⟨⟩
  · rintro indexLast bits chainId ⟨⟩ ⟨⟩ ⟨⟩
    exact ⟨rfl, by rintro e ⟨⟩⟩
  · rintro indexLast bits chainId ⟨⟩ ⟨⟩ ⟨⟩ _ _ e ⟨⟩

/-- A proof with a wrong merkle root is rejected, and the bundle is lost. -/
theorem submitAuxBlock_allOrNothing_fails :
    ¬ ∀ (P : Primitives) (cfg : ChainConfig) (signer : Option BitcoinSigner) (c : Chain)
      (address : Address) (block : AuxBlock) (m : AuxPowMiner) (auxpow : AuxPow) (info : AuxInfo),
      AuxPowMiner.createAuxBlock P cfg address ⟨∅, c⟩ = (.ok block, m) →
      m.state.lookup block.hash = some info →
      AllOrNothing P cfg signer block.hash auxpow info m := by
  intro all
  have created : AuxPowMiner.createAuxBlock .toy (.toy 1 0) [9] ⟨∅, Chain.toyFinalized⟩ =
      (.ok ⟨AuxPow.aggregateHash .toy [toyRoot 2 0], 1, toyRoot 2 0, 0, 0x1d00ffff, 3⟩,
        AuxPowMiner.toyCreated) := rfl
  have h := all _ _ none _ _ _ _ { AuxPow.toy with parentBlock := ⟨0, [], [], 0, 0, 0⟩ } _ created
    AuxPowMiner.toyCreated_lookup
  have kept := h.rejected .genericError _ rfl
  have lost := AuxPowMiner.toyCreated_lookup
  rw [← kept] at lost
  cases lost

end Alys
