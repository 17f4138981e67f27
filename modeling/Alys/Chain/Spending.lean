import Alys.Chain.Deposits
import Alys.Federation.Pegouts

/-!
# Peg-out proposals

A validator accepts a peg-out proposal when it may spend every input, and marks the inputs as spent
when the block is imported. An input that the wallet does not record as unspent is looked up at the
Bitcoin node instead, and what the node reports is recorded as unspent. The record is rewritten in
this way also for an output that a proposal has spent which is not broadcast yet, so two imported
proposals can spend one output (`proposals_double_spend`). `proposals_disjoint` says that this is
the only way, together with the other places that record an output as unspent.
-/

namespace Alys
open Lib

/-- The outputs that a block's peg-out proposal spends. -/
def ConsensusBlock.inputs (m : ConsensusBlock) : List OutPoint :=
  m.pegoutPaymentProposal.toList.flatMap fun tx => tx.input.map (·.previousOutput)

/-- No transaction spends an output of its own. -/
def NoSelfSpend (P : Primitives) : Prop :=
  ∀ tx : Transaction, ∀ input ∈ tx.input, input.previousOutput.txid ≠ P.txid tx

/-! ## Spent outputs of a wallet -/

namespace UtxoManager

/-- The wallet is coherent and records the given outputs as spent. -/
structure Spends (outpoints : List OutPoint) (w : UtxoManager) : Prop where
  coherent : w.Coherent
  spent : ∀ o ∈ outpoints, w.IsSpent o

lemma Spends.left {os os' : List OutPoint} {w : UtxoManager} (h : w.Spends (os ++ os')) :
    w.Spends os :=
  ⟨h.coherent, fun o mem => h.spent o (List.mem_append_left _ mem)⟩

/-- Registering the outputs of a transaction leaves the records of other transactions. -/
lemma Spends.registerOutputsFrom {P F tx os} {w : UtxoManager} (h : w.Spends os)
    (ne : ∀ o ∈ os, o.txid ≠ P.txid tx) : (w.registerOutputsFrom P F tx).Spends os := by
  refine ⟨h.coherent.registerUtxos, fun o mem => ?_⟩
  refine (isSpent_registerUtxos fun utxo hu => (mem_outputsToFederation hu).2).mpr
    ⟨h.spent o mem, fun hmap => ?_⟩
  obtain ⟨utxo, hu, rfl⟩ := List.mem_map.mp hmap
  exact ne _ mem (mem_outputsToFederation hu).1

lemma forEach_importPegin_spends {P F rpc os} {pegins : List (Txid × BlockHash)}
    (hrpc : rpc.Faithful P) (ne : ∀ o ∈ os, o.txid ∉ pegins.map (·.1)) :
    Action.Keeps (Spends os) (Action.forEach pegins (importPegin P F rpc)) := by
  refine .forEach fun pegin mem w h => ?_
  simp only [importPegin, Action.bind_apply, Action.lift_apply]
  cases e : Bridge.fetchTransaction rpc pegin.1 pegin.2 with
  | none => exact h
  | some tx =>
    have htxid : P.txid tx = pegin.1 := hrpc _ _ _ e
    have hraw : (w.setRawTx P tx).Spends os := ⟨h.coherent, h.spent⟩
    refine hraw.registerOutputsFrom fun o ho eq => ne o ho ?_
    rw [eq, htxid]
    exact List.mem_map_of_mem mem

/-- All inputs are marked. -/
lemma forEach_markSpent_spends {os} {inputs : List TxIn} :
    Action.Triple (Spends os) (Action.forEach inputs markSpent)
      (fun _ => Spends (os ++ inputs.map (·.previousOutput))) (Spends os) := by
  refine .of_pre (.forEach (I := fun before : List TxIn =>
    Spends (os ++ before.map (·.previousOutput))) ?_) (by simp)
  intro before input after _ w h
  unfold markSpent
  cases e : w.utxos.lookup input.previousOutput with
  | none => exact h.left
  | some utxo =>
    have hkey := h.coherent _ _ e
    refine ⟨h.coherent.setUtxo, fun o mem => isSpent_setUtxo.mpr ?_⟩
    rw [List.map_append, ← List.append_assoc, List.mem_append] at mem
    by_cases eq : o = utxo.outpoint
    · exact .inl ⟨eq, rfl⟩
    · refine .inr ⟨eq, h.spent o (mem.resolve_right fun hm => eq ?_)⟩
      rw [List.mem_singleton.mp hm, hkey]

/-- Registering a peg-out marks its inputs as spent and leaves the records of other transactions. -/
lemma registerPegout_spends {P F tx os} (hself : NoSelfSpend P)
    (ne : ∀ o ∈ os, o.txid ≠ P.txid tx) :
    Action.Triple (Spends os) (registerPegout P F tx)
      (fun _ => Spends (os ++ tx.input.map (·.previousOutput))) (Spends os) := by
  refine .bind (.of_keeps (.modify fun w h => ⟨h.coherent, h.spent⟩)) fun _ => ?_
  refine .bind forEach_markSpent_spends fun _ => .modify fun w h => ?_
  refine h.registerOutputsFrom fun o mem => ?_
  rcases List.mem_append.mp mem with mem | mem
  · exact ne o mem
  · obtain ⟨input, hi, rfl⟩ := List.mem_map.mp mem
    exact hself tx input hi

/-- The inputs of the proposal are spent. -/
lemma importPegs_spends {P F rpc os} {m : ConsensusBlock} (hrpc : rpc.Faithful P)
    (hself : NoSelfSpend P) (hpegins : ∀ o ∈ os, o.txid ∉ m.peginTxids)
    (hchange : ∀ o ∈ os, ∀ tx, m.pegoutPaymentProposal = some tx → o.txid ≠ P.txid tx) :
    Action.Triple (Spends os) (importPegs P F rpc m) (fun _ => Spends (os ++ m.inputs))
      (Spends os) := by
  refine .bind (.of_keeps (forEach_importPegin_spends hrpc hpegins)) fun _ => ?_
  unfold ConsensusBlock.inputs
  cases e : m.pegoutPaymentProposal with
  | none => exact .pure fun w h => by simpa using h
  | some tx =>
    have hreg := registerPegout_spends (F := F) hself fun o mem => hchange o mem tx e
    simp only [importPegout]
    refine .zoom (fun w _ w' h e => ?_) (fun w _ w' h e => ?_)
    · simpa using hreg.ok h e
    · exact hreg.error h e

end UtxoManager

/-! ## Validation -/

/-- What the Bitcoin node reports is recorded under the output asked for, as unspent. -/
lemma UtxoManager.tryFetchUtxo_ok {P F rpc o utxo}
    (e : UtxoManager.tryFetchUtxo P F rpc o = .ok utxo) :
    utxo.outpoint = o ∧ utxo.isSpent = false := by
  unfold UtxoManager.tryFetchUtxo at e
  split at e
  case h_1 => cases e
  case h_2 =>
    split at e
    case h_1 => cases e
    case h_2 =>
      split at e
      case isTrue => cases e
      case isFalse =>
        split at e
        case h_1 => cases e; exact ⟨rfl, rfl⟩
        case h_2 => cases e
        case h_3 =>
          split at e
          case isTrue => cases e
          case isFalse => cases e; exact ⟨rfl, rfl⟩

/-- An input is recorded as unspent, or the Bitcoin node reports it. -/
def UtxoManager.Available (P : Primitives) (F : Federation) (rpc : BitcoinRpc) (w : UtxoManager)
    (o : OutPoint) : Prop :=
  w.hasSpendableUtxo o = true ∨ ∃ utxo, UtxoManager.tryFetchUtxo P F rpc o = .ok utxo

/-- The record that the check of an input registers. -/
def UtxoManager.missingFor (P : Primitives) (F : Federation) (rpc : BitcoinRpc) (w : UtxoManager)
    (o : OutPoint) : List LocalUtxo :=
  if w.hasSpendableUtxo o then [] else (UtxoManager.tryFetchUtxo P F rpc o).toOption.toList

variable {w : UtxoManager}

open Classical in
/-- The check of an input. -/
lemma UtxoManager.checkInput_eq {P F rpc} (missing : List LocalUtxo) (input : TxIn) :
    checkInput P F (some rpc) w missing input =
      if w.Available P F rpc input.previousOutput then
        .ok (missing ++ w.missingFor P F rpc input.previousOutput)
      else .error .unspendableInput := by
  unfold checkInput Available missingFor
  cases hs : w.hasSpendableUtxo input.previousOutput with
  | true => simp
  | false =>
    cases hf : tryFetchUtxo P F rpc input.previousOutput with
    | ok utxo => simp [hf, Except.toOption]
    | error e => simp [hf]

/-- What a proposal that passes spends. -/
lemma UtxoManager.checkPaymentProposal_ok {P F rpc requiredOutputs tx missing}
    (e : w.checkPaymentProposal P F requiredOutputs (some tx) (some rpc) = .ok missing) :
    (∀ input ∈ tx.input, w.Available P F rpc input.previousOutput) ∧
      missing = tx.input.flatMap fun input => w.missingFor P F rpc input.previousOutput := by
  classical
  simp only [checkPaymentProposal, bind_eq_ok_iff] at e
  obtain ⟨_, _, missing', hinputs, e⟩ := e
  rw [foldlM_collect checkInput_eq] at hinputs
  by_cases h : ∀ input ∈ tx.input, w.Available P F rpc input.previousOutput
  · rw [if_pos h, List.nil_append, Except.ok.injEq] at hinputs
    subst hinputs
    split at e
    case isTrue => cases e
    case isFalse => cases e; exact ⟨h, rfl⟩
  · rw [if_neg h] at hinputs
    cases hinputs

/-- The outputs that the check of a block's proposal returns are those it fetched for some inputs,
and they provide for every input that is not recorded as unspent. -/
lemma UtxoManager.checkPaymentProposal_inputs {P F rpc requiredOutputs missing}
    {m : ConsensusBlock}
    (e : w.checkPaymentProposal P F requiredOutputs m.pegoutPaymentProposal (some rpc) =
      .ok missing) :
    (∀ utxo ∈ missing, ∃ o ∈ m.inputs, UtxoManager.tryFetchUtxo P F rpc o = .ok utxo) ∧
      ∀ o ∈ m.inputs, w.hasSpendableUtxo o = true ∨ o ∈ missing.map (·.outpoint) := by
  unfold ConsensusBlock.inputs
  cases hp : m.pegoutPaymentProposal with
  | none =>
    rw [hp] at e
    simp only [checkPaymentProposal] at e
    split at e
    case isTrue =>
      cases e
      simp
    case isFalse => cases e
  | some tx =>
    rw [hp] at e
    obtain ⟨havail, rfl⟩ := checkPaymentProposal_ok e
    simp only [Option.toList_some, List.flatMap_singleton, List.mem_map, List.mem_flatMap]
    constructor
    · rintro utxo ⟨input, hi, hu⟩
      refine ⟨input.previousOutput, ⟨input, hi, rfl⟩, ?_⟩
      unfold missingFor at hu
      split at hu
      case isTrue => cases hu
      case isFalse =>
        cases hf : tryFetchUtxo P F rpc input.previousOutput with
        | error f => simp [hf, Except.toOption] at hu
        | ok utxo' => simp_all [Except.toOption]
    · rintro o ⟨input, hi, rfl⟩
      rcases havail input hi with h | ⟨utxo, hf⟩
      · exact .inl h
      · by_cases h : w.hasSpendableUtxo input.previousOutput = true
        · exact .inl h
        · refine .inr ⟨utxo, ⟨input, hi, ?_⟩, (tryFetchUtxo_ok hf).1⟩
          simp [missingFor, h, hf, Except.toOption]

/-- The same of the check of a block, unless its height exempts it. -/
lemma findMissingUtxos_inputs {P cfg env w b missing}
    (e : findMissingUtxos P cfg env w b = .ok missing) :
    (b.number = 70132 ∧ missing = []) ∨
    b.number ≠ 70132 ∧
    (∀ utxo ∈ missing, ∃ o ∈ b.message.inputs,
      UtxoManager.tryFetchUtxo P cfg.bitcoinFederation env.rpc o = .ok utxo) ∧
    ∀ o ∈ b.message.inputs, w.hasSpendableUtxo o = true ∨ o ∈ missing.map (·.outpoint) := by
  unfold findMissingUtxos at e
  by_cases hn : b.number = 70132
  · rw [if_pos hn] at e
    cases e
    exact .inl ⟨hn, rfl⟩
  · simp only [if_neg hn, bind_eq_ok_iff] at e
    obtain ⟨_, _, requiredOutputs, _, e⟩ := e
    exact .inr ⟨hn, UtxoManager.checkPaymentProposal_inputs (liftFederation_eq_ok e)⟩

/-- Nothing is fetched for inputs that are recorded as unspent. -/
lemma UtxoManager.checkPaymentProposal_recorded {P F rpc requiredOutputs missing}
    {m : ConsensusBlock}
    (e : w.checkPaymentProposal P F requiredOutputs m.pegoutPaymentProposal (some rpc) =
      .ok missing) (recorded : ∀ o ∈ m.inputs, w.hasSpendableUtxo o = true) : missing = [] := by
  unfold ConsensusBlock.inputs at recorded
  cases hp : m.pegoutPaymentProposal with
  | none =>
    rw [hp] at e
    simp only [checkPaymentProposal] at e
    split at e
    case isTrue =>
      cases e
      rfl
    case isFalse => cases e
  | some tx =>
    rw [hp] at e recorded
    obtain ⟨_, rfl⟩ := checkPaymentProposal_ok e
    refine List.flatMap_eq_nil_iff.mpr fun input hi => ?_
    have hspendable := recorded input.previousOutput
      (by simpa using ⟨input, hi, rfl⟩)
    rw [missingFor, if_pos hspendable]

/-- Nothing is fetched for a block whose inputs are all recorded as unspent. -/
lemma FetchedFor.eq_nil {P cfg env b w missing} (h : FetchedFor P cfg env b w missing)
    (recorded : ∀ o ∈ b.message.inputs, w.hasSpendableUtxo o = true) : missing = [] := by
  rcases h with rfl | ⟨_, e⟩
  · rfl
  · unfold findMissingUtxos at e
    split at e
    case isTrue =>
      cases e
      rfl
    case isFalse =>
      simp only [bind_eq_ok_iff] at e
      obtain ⟨_, _, _, _, e⟩ := e
      exact UtxoManager.checkPaymentProposal_recorded (liftFederation_eq_ok e) recorded

/-! ## Runs -/

/-- The outputs that the proposals of imported blocks spend. -/
def spentBy (imported : List Import) : List OutPoint :=
  imported.flatMap fun i => i.block.message.inputs

/-- A processed block is harmless to the outputs that imported proposals spend: as an input of its
own proposal such an output neither can be fetched again nor escapes the check, and neither its
peg-ins nor its proposal register one anew. -/
structure Harmless (P : Primitives) (cfg : ChainConfig) (k : Core) (env : Env)
    (b : SignedConsensusBlock) : Prop where
  inputs : ∀ o ∈ spentBy k.imported, o ∈ b.message.inputs → b.number ≠ 70132 ∧
    ∀ utxo, UtxoManager.tryFetchUtxo P cfg.bitcoinFederation env.rpc o ≠ .ok utxo
  pegins : ∀ o ∈ spentBy k.imported, o.txid ∉ b.message.peginTxids
  change : ∀ o ∈ spentBy k.imported,
    ∀ tx, b.message.pegoutPaymentProposal = some tx → o.txid ≠ P.txid tx

/-- Proposals of different imports spend different outputs, and all these are recorded as spent. -/
structure SpentOnce (k : Core) : Prop where
  disjoint : k.imported.Pairwise fun i j =>
    List.Disjoint i.block.message.inputs j.block.message.inputs
  spends : k.bitcoinWallet.Spends (spentBy k.imported)

/-- What is kept of a cached block: its proposal spends nothing that was spent, and neither that
proposal nor the peg-ins register such an output anew. -/
structure Spendable (P : Primitives) (k : Core) (m : ConsensusBlock) : Prop where
  inputs : ∀ o ∈ spentBy k.imported, o ∉ m.inputs
  pegins : ∀ o ∈ spentBy k.imported, o.txid ∉ m.peginTxids
  change : ∀ o ∈ spentBy k.imported,
    ∀ tx, m.pegoutPaymentProposal = some tx → o.txid ≠ P.txid tx

/-- The records that a harmless block makes a node register are unspent ones, of outputs that no
imported proposal spends. -/
lemma Harmless.fetched {P cfg k env b missing} (h : Harmless P cfg k env b)
    (hf : FetchedFor P cfg env b k.bitcoinWallet missing) :
    ∀ utxo ∈ missing, utxo.isSpent = false ∧ utxo.outpoint ∉ spentBy k.imported := by
  rcases hf with rfl | ⟨_, e⟩
  · nofun
  · rcases findMissingUtxos_inputs e with ⟨_, rfl⟩ | ⟨_, hfetch, _⟩
    · nofun
    · intro utxo mem
      obtain ⟨o, ho, hok⟩ := hfetch utxo mem
      obtain ⟨rfl, hs⟩ := UtxoManager.tryFetchUtxo_ok hok
      exact ⟨hs, fun hspent => (h.inputs _ hspent ho).2 utxo hok⟩

/-- A harmless block that is valid spends no output that an imported proposal spends. -/
lemma Harmless.inputs_fresh {P cfg k env b missing} (hv : cfg.isValidator = true)
    (h : Harmless P cfg k env b) (hk : SpentOnce k) (hb : Validated P cfg env b k missing) :
    ∀ o ∈ spentBy k.imported, o ∉ b.message.inputs := by
  intro o hs ho
  rcases findMissingUtxos_inputs (hb.proposal hv) with ⟨hn, _⟩ | ⟨_, _, hprov⟩
  · exact (h.inputs o hs ho).1 hn
  · rcases hprov o ho with hsp | mem
    · exact UtxoManager.not_isSpent_of_hasSpendableUtxo hsp (hk.spends.spent o hs)
    · obtain ⟨utxo, hu, rfl⟩ := List.mem_map.mp mem
      exact (h.fetched hb.fetched utxo hu).2 hs

lemma importWallet_spends {P cfg env k m} (hv : cfg.isValidator = true)
    (hrpc : env.rpc.Faithful P) (hself : NoSelfSpend P) (hm : Spendable P k m) :
    Action.Triple (UtxoManager.Spends (spentBy k.imported)) (importWallet P cfg env m)
      (fun _ => UtxoManager.Spends (spentBy k.imported ++ m.inputs))
      (UtxoManager.Spends (spentBy k.imported)) := by
  rw [importWallet, if_pos hv]
  exact UtxoManager.importPegs_spends hrpc hself hm.pegins hm.change

/-- Every step of a validator whose processed blocks are harmless keeps these properties. -/
lemma upholds_spentOnce {P cfg} (hv : cfg.isValidator = true) (hself : NoSelfSpend P) :
    Upholds P cfg (fun env => env.rpc.Faithful P) (Harmless P cfg) SpentOnce (Spendable P) where
  fetch := by
    intro k env b missing hb h hf
    refine ⟨⟨h.disjoint, h.spends.coherent.registerUtxos, fun o mem => ?_⟩,
      fun m hm => ⟨hm.inputs, hm.pegins, hm.change⟩⟩
    refine (UtxoManager.isSpent_registerUtxos fun utxo hu => (hb.fetched hf utxo hu).1).mpr
      ⟨h.spends.spent o mem, fun hmap => ?_⟩
    obtain ⟨utxo, hu, rfl⟩ := List.mem_map.mp hmap
    exact (hb.fetched hf utxo hu).2 mem
  valid := by
    intro k env b missing hb h hvalid
    have hfresh := hb.inputs_fresh hv h hvalid
    exact ⟨hfresh, hb.pegins, hb.change⟩
  imports := by
    intro k env b k' hrpc h hm himp
    obtain ⟨disjoint, spends⟩ := himp.usesOnce UtxoManager.Spends.left
      (importWallet_spends hv hrpc hself hm) h.disjoint h.spends hm.inputs
    exact ⟨disjoint, spends⟩
  restart := fun h => ⟨h.disjoint, h.spends⟩

/-- In every run of a validator in which every processed block is harmless, the peg-out proposals of
different imported blocks spend different outputs. -/
theorem proposals_disjoint {P : Primitives} {cfg : ChainConfig} {s : Storage} {w : UtxoManager}
    {c : Chain} (hv : cfg.isValidator = true) (hself : NoSelfSpend P) (hw : w.Coherent)
    (run : NodeRun P cfg (fun env => env.rpc.Faithful P) (Harmless P cfg) (Chain.new s w) c) :
    c.imported.Pairwise fun i j =>
      List.Disjoint i.block.message.inputs j.block.message.inputs :=
  ((upholds_spentOnce hv hself).run run ⟨List.Pairwise.nil, hw, nofun⟩ rfl).disjoint

/-- The toy transactions do not spend their own outputs: the hash is longer than those of the
inputs. -/
lemma Primitives.toy_noSelfSpend : NoSelfSpend .toy := by
  intro tx input mem e
  have sub : input.previousOutput.txid.Sublist (tx.input.map (·.previousOutput.txid)).flatten :=
    List.sublist_flatten_of_mem (List.mem_map.mpr ⟨input, mem, rfl⟩)
  have le := sub.length_le
  have len := congrArg List.length e
  simp only [Primitives.toy, List.flatMap_def, List.length_append, List.length_cons] at len
  omega

/-- A block of height `number` whose proposal spends one output. -/
def SignedConsensusBlock.toyPegout (number value : Nat) (o : OutPoint) : SignedConsensusBlock where
  message :=
    { (SignedConsensusBlock.toy number 0).message with
      pegoutPaymentProposal := some ⟨2, 0, [⟨o, [], 0, []⟩], [⟨value, [0x51]⟩]⟩ }
  signature := (SignedConsensusBlock.toy number 0).signature

/-- A lone validator imports two proposals, each of which spends a deposit that it fetches. -/
theorem proposals_disjoint_two_deposits :
    (Chain.toyAfter [.toyPegout 1 500 ⟨[1], 0⟩, .toyPegout 2 400 ⟨[1, 1, 1], 0⟩]).imported.Pairwise
      fun i j => List.Disjoint i.block.message.inputs j.block.message.inputs := by
  have first : Harmless .toy (.toy 1 0) (Chain.toyAfter []).core .toy (.toyPegout 1 500 ⟨[1], 0⟩) :=
    ⟨nofun, nofun, nofun⟩
  have spent : spentBy (Chain.toyAfter [.toyPegout 1 500 ⟨[1], 0⟩]).imported = [⟨[1], 0⟩] := by
    decide
  have second : Harmless .toy (.toy 1 0) (Chain.toyAfter [.toyPegout 1 500 ⟨[1], 0⟩]).core .toy
      (.toyPegout 2 400 ⟨[1, 1, 1], 0⟩) := by
    refine ⟨fun o mem => ?_, fun o mem => ?_, fun o mem tx e => ?_⟩
    all_goals
      rw [Chain.core, spent, List.mem_singleton] at mem
      subst mem
    · exact fun h => absurd h (by decide)
    · decide
    · cases e
      decide
  exact proposals_disjoint rfl Primitives.toy_noSelfSpend UtxoManager.coherent_empty
    (Chain.toyAfter_snoc (Chain.toyAfter_snoc Chain.toyAfter_nil BitcoinRpc.toy_faithful first)
      BitcoinRpc.toy_faithful second)

/-- A lone validator imports two proposals that spend the same deposit: the first one is not
broadcast, so the Bitcoin node still reports the output, and the validator records it as unspent
again. -/
theorem proposals_double_spend :
    ¬ ∀ (P : Primitives) (cfg : ChainConfig) (s : Storage) (w : UtxoManager) (c : Chain),
      cfg.isValidator = true → NoSelfSpend P → w.Coherent →
      NodeRun P cfg (fun env => env.rpc.Faithful P) (fun _ _ _ => True) (Chain.new s w) c →
      c.imported.Pairwise fun i j =>
        List.Disjoint i.block.message.inputs j.block.message.inputs := by
  intro all
  have disjoint := all _ _ _ _
    (Chain.toyAfter [.toyPegout 1 500 ⟨[1], 0⟩, .toyPegout 2 400 ⟨[1], 0⟩]) rfl
    Primitives.toy_noSelfSpend UtxoManager.coherent_empty
    (Chain.toyAfter_snoc (Chain.toyAfter_snoc Chain.toyAfter_nil BitcoinRpc.toy_faithful trivial)
      BitcoinRpc.toy_faithful trivial)
  have nodup : (spentBy (Chain.toyAfter
      [.toyPegout 1 500 ⟨[1], 0⟩, .toyPegout 2 400 ⟨[1], 0⟩]).imported).Nodup :=
    List.nodup_flatMap.mpr ⟨by decide, disjoint⟩
  exact absurd nodup (by decide)

end Alys
