import Alys.Federation.Collector
import Alys.Lib.Tapscript

/-!
# The script of the federation

Model of `Federation::new` in `crates/federation/src/bitcoin_signing.rs` and of its threshold in
`app/src/app.rs`: the script that the deposits are locked by, as bytes. It counts the signatures of
the members and compares the number with the threshold.

What the node checks of a finalized transaction (`check_transaction_signatures`) is compared with
what Bitcoin asks of a spend by that script (`Tapscript.accepts`), and so is what the collector
finalizes. The node demands exactly as many signatures as the threshold, Bitcoin at least as many.
Bitcoin takes an annex after the control block, the node does not.

The bytes that rust-bitcoin pushes and the output that it commits to a script with are parameters
(`Taproot`), of which `Taproot.Binding` says what is used.
-/

namespace Alys
open Lib

/-! ## The code -/

/-- The bytes that the `script::Builder` of rust-bitcoin adds to a script. -/
structure ScriptBuilder where
  /-- `Builder::push_slice` -/
  pushSlice : Bytes → Bytes
  /-- `Builder::push_int`, for a number that is not negative -/
  pushInt : Nat → Bytes

/-- Run as a script, the bytes push what they are made from. -/
structure ScriptBuilder.Faithful (B : ScriptBuilder) : Prop where
  parse_pushSlice : ∀ data rest, data.length ≤ 75 →
    Tapscript.parse (B.pushSlice data ++ rest) = (Tapscript.parse rest).map (.push data :: ·)
  parse_pushInt : ∀ n rest, n < 2 ^ 31 →
    Tapscript.parse (B.pushInt n ++ rest) =
      (Tapscript.parse rest).map (.push (Tapscript.encodeNum n) :: ·)

/-- The script of `Federation::new_with_internal_pubkey`: `OP_CHECKSIG` for the first key,
`OP_CHECKSIGADD` for the others, then `OP_GREATERTHANOREQUAL`. -/
def redeemScript (B : ScriptBuilder) (P : Primitives) (pubkeys : List PublicKey)
    (requiredSigs : Nat) :
    Bytes :=
  pubkeys.zipIdx.foldl (fun builder x =>
    builder ++ B.pushSlice (P.toXOnly x.1) ++ [if x.2 = 0 then 0xac else 0xba]) [] ++
  B.pushInt requiredSigs ++ [0xa2]

/-- What rust-bitcoin computes: scripts, and for a tree of a single script under the internal key
the output and its control block. -/
structure Taproot extends ScriptBuilder where
  address : Bytes → BitcoinAddress
  controlBlock : Bytes → Bytes
  /-- whether the output of an address commits to a script by a control block -/
  commits : BitcoinAddress → Bytes → Bytes → Bool

/-- The output of a script commits to this script and no other. A control block starts with the
version of the leaf and a bit of the output key. -/
structure Taproot.Binding (T : Taproot) : Prop where
  builder : T.Faithful
  head_controlBlock : ∀ script,
    (T.controlBlock script).head? = some 0xc0 ∨ (T.controlBlock script).head? = some 0xc1
  commits_iff : ∀ script script' control,
    T.commits (T.address script) script' control = true ↔
      script' = script ∧ control = T.controlBlock script

/-- `Federation::new`. The result is `none` if `pubkeys.len() - required_sigs` panics. -/
def Federation.new (P : Primitives) (T : Taproot) (pubkeys : List PublicKey)
    (requiredSigs : Nat) : Option Federation :=
  if pubkeys.length < requiredSigs then none
  else
    some
      { taprootAddress := T.address (Alys.redeemScript T.toScriptBuilder P pubkeys requiredSigs)
        redeemScript := Alys.redeemScript T.toScriptBuilder P pubkeys requiredSigs
        controlBlockWitness :=
          T.controlBlock (Alys.redeemScript T.toScriptBuilder P pubkeys requiredSigs)
        threshold := requiredSigs
        pubkeys := pubkeys }

/-- `calculate_threshold` of `App::execute`. -/
def calculateThreshold (federationBitcoinPubkeysLen : Nat) : Nat :=
  (federationBitcoinPubkeysLen * 2 + 2) / 3

/-! ## The script as opcodes -/

section Script

variable (B : ScriptBuilder) (P : Primitives)

lemma foldl_pushKeys (pubkeys : List PublicKey) (k : Nat) (builder : Bytes) :
    (pubkeys.zipIdx (k + 1)).foldl (fun builder x =>
      builder ++ B.pushSlice (P.toXOnly x.1) ++ [if x.2 = 0 then 0xac else 0xba]) builder =
    builder ++ pubkeys.flatMap fun pubkey => B.pushSlice (P.toXOnly pubkey) ++ [0xba] := by
  induction pubkeys generalizing k builder with
  | nil => simp
  | cons pubkey pubkeys ih =>
    rw [List.zipIdx_cons, List.foldl_cons, ih, if_neg (Nat.succ_ne_zero k), List.flatMap_cons]
    simp only [List.append_assoc]

lemma redeemScript_cons (pubkey : PublicKey) (pubkeys : List PublicKey) (requiredSigs : Nat) :
    redeemScript B P (pubkey :: pubkeys) requiredSigs =
      B.pushSlice (P.toXOnly pubkey) ++ (0xac :: ((pubkeys.flatMap fun pubkey =>
        B.pushSlice (P.toXOnly pubkey) ++ [0xba]) ++ (B.pushInt requiredSigs ++ [0xa2]))) := by
  rw [redeemScript, List.zipIdx_cons, List.foldl_cons, foldl_pushKeys, if_pos rfl]
  simp

end Script

/-- The bytes of the script stand for the script that counts signatures. -/
lemma parse_redeemScript {B : ScriptBuilder} (hB : B.Faithful) {P : Primitives}
    {pubkey : PublicKey} {pubkeys : List PublicKey} {requiredSigs : Nat}
    (hkeys : ∀ k ∈ pubkey :: pubkeys, (P.toXOnly k).length = 32)
    (hsigs : requiredSigs < 2 ^ 31) :
    Tapscript.parse (redeemScript B P (pubkey :: pubkeys) requiredSigs) =
      some (Tapscript.multisig (P.toXOnly pubkey) (pubkeys.map P.toXOnly) requiredSigs) := by
  rw [List.forall_mem_cons] at hkeys
  obtain ⟨hkey, hkeys⟩ := hkeys
  have htail : Tapscript.parse (B.pushInt requiredSigs ++ [0xa2]) =
      some [.push (Tapscript.encodeNum requiredSigs), .greaterThanOrEqual] := by
    rw [hB.parse_pushInt _ _ hsigs, Tapscript.parse_greaterThanOrEqual, Tapscript.parse]
    rfl
  have hadds : Tapscript.parse ((pubkeys.flatMap fun pubkey =>
      B.pushSlice (P.toXOnly pubkey) ++ [0xba]) ++ (B.pushInt requiredSigs ++ [0xa2])) =
      some (Tapscript.adds (pubkeys.map P.toXOnly) ++
        [.push (Tapscript.encodeNum requiredSigs), .greaterThanOrEqual]) := by
    induction pubkeys with
    | nil => exact htail
    | cons pubkey pubkeys ih =>
      obtain ⟨hkey, hkeys⟩ := List.forall_mem_cons.mp hkeys
      rw [List.flatMap_cons, List.append_assoc, List.append_assoc,
        hB.parse_pushSlice _ _ (by omega),
        List.singleton_append, Tapscript.parse_checkSigAdd, ih hkeys]
      rfl
  rw [redeemScript_cons, hB.parse_pushSlice _ _ (by omega), Tapscript.parse_checkSig, hadds]
  rfl

/-! ## What Bitcoin asks of a spend -/

/-- The check of a signature by Bitcoin, in an input whose message is given. Without an annex, a
signature of 64 bytes signs the message. An annex is signed too, and longer signatures name what
they sign: `typed` says whether these are valid. -/
def checkSchnorr (P : Primitives) (typed : Option Bytes → Bytes → Bytes → Bool) (msg : Bytes)
    (annex : Option Bytes) (sig key : Bytes) : Bool :=
  match annex with
  | some annex => typed (some annex) sig key
  | none =>
    match SchnorrSignature.fromSlice sig with
    | some s => P.verifySchnorr s msg key
    | none => typed none sig key

/-- Bitcoin accepts the witness of an input. -/
def Accepted (P : Primitives) (T : Taproot) (typed : Option Bytes → Bytes → Bytes → Bool)
    (F : Federation) (w : UtxoManager) (tx : Transaction) (idx : Nat) (input : TxIn) : Prop :=
  Tapscript.accepts (checkSchnorr P typed (message P F w tx idx)) (T.commits F.taprootAddress)
    input.witness = true

/-- A federation as the node sets it up: at most 999 keys of 32 bytes, which is what fits on the
stack of a script. -/
structure Federation.Built (P : Primitives) (T : Taproot) (F : Federation) : Prop where
  built : Federation.new P T F.pubkeys F.threshold = some F
  binding : T.Binding
  ne_nil : F.pubkeys ≠ []
  few : F.pubkeys.length ≤ 999
  keys : ∀ k ∈ F.pubkeys, (P.toXOnly k).length = 32

namespace Federation.Built

variable {P : Primitives} {T : Taproot} {F : Federation} (hF : F.Built P T)
include hF

lemma threshold_le : F.threshold ≤ F.pubkeys.length := by
  have h := hF.built
  unfold Federation.new at h
  split at h
  case isTrue => cases h
  case isFalse hle => omega

lemma redeemScript_eq :
    F.redeemScript = Alys.redeemScript T.toScriptBuilder P F.pubkeys F.threshold := by
  have h := hF.built
  unfold Federation.new at h
  split at h
  case isTrue => cases h
  case isFalse => exact (congrArg Federation.redeemScript (Option.some.inj h)).symm

lemma commits_iff {script control : Bytes} :
    T.commits F.taprootAddress script control = true ↔
      script = F.redeemScript ∧ control = F.controlBlockWitness := by
  have h := hF.built
  unfold Federation.new at h
  split at h
  case isTrue => cases h
  case isFalse =>
    rw [← Option.some.inj h]
    exact hF.binding.commits_iff _ _ _

/-- The control block of the federation is not an annex. -/
lemma head_controlBlockWitness : F.controlBlockWitness.head? ≠ some 0x50 := by
  have h := hF.built
  unfold Federation.new at h
  split at h
  case isTrue => cases h
  case isFalse =>
    rw [← Option.some.inj h]
    rcases hF.binding.head_controlBlock
      (Alys.redeemScript T.toScriptBuilder P F.pubkeys F.threshold) with e | e <;>
      simp [e]

/-- Bitcoin accepts the stacks that have, for each key, a valid signature or none, and at least as
many signatures as required. -/
lemma accepts_iff {verify : Option Bytes → Bytes → Bytes → Bool} {witness : List Bytes} :
    Tapscript.accepts verify (T.commits F.taprootAddress) witness = true ↔
      ∃ stack annex, witness =
          stack.reverse ++ [F.redeemScript, F.controlBlockWitness] ++ annex.toList ∧
        (∀ a ∈ annex, a.head? = some 0x50) ∧
        Tapscript.Signed (verify annex) stack (F.pubkeys.map P.toXOnly) ∧
        F.threshold ≤ Tapscript.count stack ∧
        (∀ e ∈ stack, e.length ≤ Tapscript.maxElementSize) ∧
        50 * Tapscript.count stack ≤ 50 + Tapscript.witnessSize witness := by
  have hle := hF.threshold_le
  have hfew := hF.few
  obtain ⟨pubkey, pubkeys, hpubkeys⟩ := List.exists_cons_of_ne_nil hF.ne_nil
  have hkeys : ∀ k ∈ P.toXOnly pubkey :: pubkeys.map P.toXOnly, k.length = 32 := by
    rw [← List.map_cons, ← hpubkeys]
    exact List.forall_mem_map.mpr hF.keys
  have hparse : Tapscript.parse F.redeemScript =
      some (Tapscript.multisig (P.toXOnly pubkey) (pubkeys.map P.toXOnly) F.threshold) := by
    rw [hF.redeemScript_eq, hpubkeys]
    exact parse_redeemScript hF.binding.builder (hpubkeys ▸ hF.keys) (by omega)
  have hlength : F.pubkeys.length = pubkeys.length + 1 := by rw [hpubkeys, List.length_cons]
  have hn : (pubkeys.map P.toXOnly).length + 1 < 2 ^ 31 := by
    rw [List.length_map]
    omega
  have hcontrol : ∀ script control, T.commits F.taprootAddress script control = true →
      control.head? ≠ some 0x50 := by
    intro script control h
    rw [(hF.commits_iff.mp h).2]
    exact hF.head_controlBlockWitness
  rw [Tapscript.accepts_eq_true_iff hcontrol]
  constructor
  · rintro ⟨rest, annex, hwitness, hhead, h⟩
    obtain ⟨stack, script, control, rfl, hcommits⟩ := Tapscript.exists_of_acceptsScript h
    obtain ⟨rfl, rfl⟩ := hF.commits_iff.mp hcommits
    obtain ⟨_, hsigned, henough, _, hsizes, hbudget⟩ :=
      (Tapscript.acceptsScript_multisig_iff hkeys hn (by omega) hparse).mp h
    rw [← List.map_cons, ← hpubkeys] at hsigned
    exact ⟨stack, annex, hwitness, hhead, hsigned, henough, hsizes, hbudget⟩
  · rintro ⟨stack, annex, hwitness, hhead, hsigned, henough, hsizes, hbudget⟩
    have hroom : stack.length + 1 ≤ Tapscript.maxStackSize := by
      rw [hsigned.length_eq, List.length_map]
      exact Nat.succ_le_succ hfew
    rw [hpubkeys, List.map_cons] at hsigned
    exact ⟨_, annex, hwitness, hhead,
      (Tapscript.acceptsScript_multisig_iff hkeys hn (by omega) hparse).mpr
        ⟨hF.commits_iff.mpr ⟨rfl, rfl⟩, hsigned, henough, hroom, hsizes, hbudget⟩⟩

end Federation.Built

/-! ## What the node checks -/

variable {P : Primitives} {pubkeys : List PublicKey} {typed : Option Bytes → Bytes → Bytes → Bool}
  {msg : Bytes}

lemma checkSchnorr_of_length {msg sig key : Bytes} (h : sig.length = 64) :
    checkSchnorr P typed msg none sig key = P.verifySchnorr ⟨sig, h⟩ msg key := by
  simp [checkSchnorr, SchnorrSignature.fromSlice, h]

/-- The check of one signature by the node: it is one of the default type that Bitcoin accepts. -/
lemma checkWitness_ok_iff {x : Bytes × PublicKey} :
    UtxoManager.checkWitness P msg x = .ok () ↔
      x.1.length = 64 ∧ checkSchnorr P typed msg none x.1 (P.toXOnly x.2) = true := by
  by_cases h : x.1.length = 64
  · rw [checkSchnorr_of_length h]
    cases hv : P.verifySchnorr ⟨x.1, h⟩ msg (P.toXOnly x.2) <;>
      simp [UtxoManager.checkWitness, SchnorrSignature.fromSlice, h, hv]
  · simp [UtxoManager.checkWitness, SchnorrSignature.fromSlice, h]

/-- The places of a stack with their keys. -/
lemma zip_reverse_append {stack tail : List Bytes} (h : stack.length = pubkeys.length) :
    (stack.reverse ++ tail).zip pubkeys.reverse = (stack.zip pubkeys).reverse := by
  rw [← List.append_nil pubkeys.reverse, List.zip_append (by simpa using h), List.zip_nil_right,
    List.append_nil]
  exact (List.reverse_zipWith h).symm

/-- There are as many signatures as places that are not empty. -/
lemma length_filter_zip {stack : List Bytes} (h : stack.length = pubkeys.length) :
    ((stack.zip pubkeys).filter fun x => !x.1.isEmpty).length = Tapscript.count stack := by
  have hfst : (stack.zip pubkeys).map Prod.fst = stack := List.map_fst_zip h.le
  rw [← List.countP_eq_length_filter, Tapscript.count]
  conv_rhs => rw [← hfst, List.countP_map]
  refine List.countP_congr fun x _ => ?_
  simp [Function.comp]

/-- A witness without annex whose signatures are those required, and of the default type. -/
def Exact (F : Federation) (witness : List Bytes) : Prop :=
  witness.length = F.pubkeys.length + 2 ∧
  Tapscript.count (witness.take F.pubkeys.length) = F.threshold ∧
    ∀ sig ∈ witness.take F.pubkeys.length, sig ≠ [] → sig.length = 64

lemma signed_iff {verify : Bytes → Bytes → Bool} {stack : List Bytes} :
    Tapscript.Signed verify stack (pubkeys.map P.toXOnly) ↔
      stack.length = pubkeys.length ∧
        ∀ x ∈ stack.zip pubkeys, x.1 = [] ∨ verify x.1 (P.toXOnly x.2) = true := by
  rw [Tapscript.Signed, List.forall₂_map_right_iff, List.forall₂_iff_zip]
  exact and_congr_right fun _ => ⟨fun h x mem => h mem, fun h a b mem => h (a, b) mem⟩

/-- The conditions of `check_transaction_signatures` on the witness of one input. -/
lemma checkWitnesses_ok_iff_conditions {F : Federation} {input : TxIn} :
    UtxoManager.checkWitnesses P F (msg, input) = .ok () ↔
      input.witness.length = F.pubkeys.length + 2 ∧
      ((input.witness.zip F.pubkeys.reverse).filter fun x => !x.1.isEmpty).length =
        F.threshold ∧
      (∀ x ∈ (input.witness.zip F.pubkeys.reverse).filter fun x => !x.1.isEmpty,
        UtxoManager.checkWitness P msg x = .ok ()) ∧
      [F.redeemScript, F.controlBlockWitness] = input.witness.drop F.pubkeys.length := by
  rw [← forM_eq_ok_iff, ← and_assoc]
  generalize hsigs : ((input.witness.zip F.pubkeys.reverse).filter fun x => !x.1.isEmpty) = sigs
  have heq : UtxoManager.checkWitnesses P F (msg, input) =
      if input.witness.length ≠ F.pubkeys.length + 2 ∨ sigs.length ≠ F.threshold then
        .error .invalidWitnessLength
      else (sigs.forM (UtxoManager.checkWitness P msg)).bind fun _ =>
        if [F.redeemScript, F.controlBlockWitness] ≠ input.witness.drop F.pubkeys.length then
          .error .invalidWitnessScript
        else .ok () := by
    subst hsigs
    rfl
  rw [heq]
  by_cases hlength : input.witness.length = F.pubkeys.length + 2 ∧ sigs.length = F.threshold
  · rw [if_neg (by simpa [not_or] using hlength)]
    cases sigs.forM (UtxoManager.checkWitness P msg) with
    | error e => simp [Except.bind]
    | ok u => simp [Except.bind, hlength]
  · rw [if_pos (not_and_or.mp hlength)]
    simp [hlength]

/-- What the node checks of the witness of one input. -/
lemma checkWitnesses_ok_iff_signed (typed : Option Bytes → Bytes → Bytes → Bool) {F : Federation}
    {input : TxIn} :
    UtxoManager.checkWitnesses P F (msg, input) = .ok () ↔
      ∃ stack, input.witness = stack.reverse ++ [F.redeemScript, F.controlBlockWitness] ∧
        Tapscript.Signed (checkSchnorr P typed msg none) stack (F.pubkeys.map P.toXOnly) ∧
        Tapscript.count stack = F.threshold ∧ ∀ sig ∈ stack, sig ≠ [] → sig.length = 64 := by
  rw [checkWitnesses_ok_iff_conditions]
  constructor
  · rintro ⟨hlength, hcount, hsigs, htail⟩
    have hstack : (input.witness.take F.pubkeys.length).reverse.length = F.pubkeys.length := by
      rw [List.length_reverse, List.length_take]
      omega
    have hwitness : input.witness = (input.witness.take F.pubkeys.length).reverse.reverse ++
        [F.redeemScript, F.controlBlockWitness] := by
      rw [List.reverse_reverse, htail, List.take_append_drop]
    generalize (input.witness.take F.pubkeys.length).reverse = stack at hstack hwitness
    rw [hwitness, zip_reverse_append hstack, List.filter_reverse, List.length_reverse,
      length_filter_zip hstack] at hcount
    rw [hwitness, zip_reverse_append hstack] at hsigs
    have hplaces : ∀ x ∈ stack.zip F.pubkeys, x.1 = [] ∨
        x.1.length = 64 ∧ checkSchnorr P typed msg none x.1 (P.toXOnly x.2) = true := by
      intro x mem
      by_cases hempty : x.1 = []
      · exact .inl hempty
      · refine .inr (checkWitness_ok_iff.mp (hsigs x ?_))
        simpa [hempty] using mem
    refine ⟨stack, hwitness, signed_iff.mpr ⟨hstack, fun x mem => ?_⟩, hcount, ?_⟩
    · exact (hplaces x mem).imp id And.right
    · intro sig mem hne
      have hfst : (stack.zip F.pubkeys).map Prod.fst = stack := List.map_fst_zip hstack.le
      rw [← hfst] at mem
      obtain ⟨x, mem', rfl⟩ := List.mem_map.mp mem
      exact ((hplaces x mem').resolve_left hne).1
  · rintro ⟨stack, hwitness, hsigned, hcount, hdefault⟩
    obtain ⟨hstack, hplaces⟩ := signed_iff.mp hsigned
    rw [hwitness, zip_reverse_append hstack, List.filter_reverse, List.length_reverse,
      length_filter_zip hstack]
    refine ⟨by simp [hstack], hcount, ?_, ?_⟩
    · intro x mem
      obtain ⟨mem, hne⟩ := List.mem_filter.mp (List.mem_reverse.mp mem)
      have hne : x.1 ≠ [] := by simpa using hne
      exact checkWitness_ok_iff.mpr ⟨hdefault x.1 (List.of_mem_zip mem).1 hne,
        (hplaces x mem).resolve_left hne⟩
    · rw [List.drop_left' (by simpa using hstack)]

/-- The node accepts the signatures of a transaction exactly when Bitcoin does for every input, and
every input has as many signatures as required, of the default type, and no annex. -/
theorem checkTransactionSignatures_iff_accepted {P : Primitives} {T : Taproot} {F : Federation}
    {w : UtxoManager} {tx : Transaction} (typed : Option Bytes → Bytes → Bytes → Bool)
    (hF : F.Built P T)
    (hrec : ∀ input ∈ tx.input, (w.utxos.lookup input.previousOutput).isSome) :
    w.checkTransactionSignatures P F tx false = .ok () ↔
      ∀ idx input, tx.input[idx]? = some input →
        Accepted P T typed F w tx idx input ∧ Exact F input.witness := by
  have hinput : ∀ idx input, UtxoManager.checkWitnesses P F (message P F w tx idx, input) = .ok () ↔
      Accepted P T typed F w tx idx input ∧ Exact F input.witness := by
    intro idx input
    rw [checkWitnesses_ok_iff_signed typed, Accepted, hF.accepts_iff]
    have htake : ∀ {stack : List Bytes}, stack.length = F.pubkeys.length →
        input.witness = stack.reverse ++ [F.redeemScript, F.controlBlockWitness] →
        input.witness.take F.pubkeys.length = stack.reverse := by
      intro stack hlength e
      rw [e, List.take_left' (by simpa using hlength)]
    constructor
    · rintro ⟨stack, e, hsigned, hcount, hdefault⟩
      have hlength := (signed_iff.mp hsigned).1
      refine ⟨⟨stack, none, by rw [e, Option.toList_none, List.append_nil], by simp, hsigned,
        hcount.ge, fun sig mem => ?_, ?_⟩, by rw [e]; simp [hlength], ?_⟩
      · by_cases hempty : sig = []
        · simp [hempty]
        · rw [hdefault sig mem hempty]
          decide
      · rw [e]
        refine (Tapscript.count_le_witnessSize fun sig mem hne => ?_).trans (Nat.le_add_left _ _)
        rw [hdefault sig mem hne]
        decide
      · rw [htake hlength e]
        exact ⟨by rw [Tapscript.count, List.countP_reverse]; exact hcount, by simpa using hdefault⟩
    · rintro ⟨⟨stack, annex, e, _, hsigned, _⟩, hplaces, hexact⟩
      have hlength := (signed_iff.mp hsigned).1
      -- two elements follow the signatures, so there is no annex
      obtain rfl : annex = none := by
        cases annex with
        | none => rfl
        | some annex =>
          rw [e] at hplaces
          simp [hlength] at hplaces
      rw [Option.toList_none, List.append_nil] at e
      rw [htake hlength e, Tapscript.count, List.countP_reverse] at hexact
      exact ⟨stack, e, hsigned, hexact.1, by simpa using hexact.2⟩
  simp only [UtxoManager.checkTransactionSignatures, UtxoManager.getSigningInputs_eq hrec, bind,
    Except.bind, Bool.false_eq_true, if_false, pure, Except.pure, forM_eq_ok_iff]
  constructor
  · intro h idx input hi
    have lt := (List.getElem?_eq_some_iff.mp hi).1
    exact (hinput idx input).mp (h _ (mem_zip_messages.mpr ⟨idx, lt, hi, rfl⟩))
  · rintro h ⟨msg, input⟩ mem
    obtain ⟨idx, _, hi, rfl⟩ := mem_zip_messages.mp mem
    exact (hinput idx input).mpr (h idx input hi)

/-- The pushes of rust-bitcoin, for data of at most 75 bytes. -/
def ScriptBuilder.short : ScriptBuilder where
  pushSlice data := UInt8.ofNat data.length :: data
  pushInt n :=
    if 1 ≤ n ∧ n ≤ 16 then [UInt8.ofNat (n - 1 + 0x51)]
    else if n = 0 then [0x00]
    else UInt8.ofNat (Tapscript.encodeNum n).length :: Tapscript.encodeNum n

lemma ScriptBuilder.short_faithful : ScriptBuilder.short.Faithful where
  parse_pushSlice data rest h := Tapscript.parse_push h rest
  parse_pushInt n rest h := by
    unfold ScriptBuilder.short
    dsimp only
    split
    case isTrue small => exact Tapscript.parse_number small rest
    case isFalse =>
      split
      case isTrue zero =>
        subst zero
        have hempty : ([] : Bytes).length ≤ 75 := by decide
        exact Tapscript.parse_push hempty rest
      case isFalse =>
        have := Tapscript.length_encodeNum_le (n := n) (k := 4) (by omega)
        exact Tapscript.parse_push (by omega) rest

/-- Outputs that are the script itself, with a fixed control block. -/
def Taproot.toy : Taproot where
  toScriptBuilder := .short
  address := id
  controlBlock _ := [0xc0]
  commits address script control := script = address ∧ control = [0xc0]

/-- The keys of a federation of three. -/
def trioKeys : List PublicKey := [List.replicate 32 1, List.replicate 32 2, List.replicate 32 3]

/-- A federation of three keys as the node sets it up. -/
def Federation.trio : Federation where
  taprootAddress := Alys.redeemScript .short .toy trioKeys (calculateThreshold 3)
  redeemScript := Alys.redeemScript .short .toy trioKeys (calculateThreshold 3)
  controlBlockWitness := [0xc0]
  threshold := calculateThreshold 3
  pubkeys := trioKeys

lemma Federation.trio_built : Federation.trio.Built .toy .toy where
  built := rfl
  binding :=
    { builder := ScriptBuilder.short_faithful
      head_controlBlock := fun _ => .inl rfl
      commits_iff := fun script script' control => by simp [Taproot.toy] }
  ne_nil := by decide
  few := by decide
  keys := by decide

/-- The first and the third member sign an input. -/
def trioInput : TxIn where
  previousOutput := ⟨[9], 0⟩
  scriptSig := []
  sequence := 0
  witness := [List.replicate 64 0, [], List.replicate 64 0, Federation.trio.redeemScript, [0xc0]]

/-- Bitcoin accepts the input, as the node accepts the transaction. -/
theorem checkTransactionSignatures_iff_accepted_trio :
    Accepted .toy .toy (fun _ _ _ => false) .trio .toy ⟨2, 0, [trioInput], []⟩ 0 trioInput :=
  have hchecked : UtxoManager.toy.checkTransactionSignatures .toy .trio ⟨2, 0, [trioInput], []⟩
      false = .ok () := rfl
  ((checkTransactionSignatures_iff_accepted (fun _ _ _ => false) Federation.trio_built
    (by decide)).mp hchecked 0 trioInput rfl).1

/-! ## What the collector finalizes -/

namespace Holds

variable {P : Primitives} {T : Taproot} {F : Federation} {w : UtxoManager} {tx : Transaction}
  {keys : Finset PublicKey} {psbt : PartiallySignedTaprootTransaction}

lemma sign_getElem? (h : Holds P F w tx keys psbt) (idx : Nat) :
    (psbt.sign F).input[idx]? =
      tx.input[idx]?.map fun input => psbt.signInput F (input, idx) := by
  simp [PartiallySignedTaprootTransaction.sign, h.transaction_eq, List.getElem?_zipIdx,
    Function.comp_def]

/-- The signatures on the stack of an input are those of the members held. -/
lemma count_sigOf (h : Holds P F w tx keys psbt)
    (hrec : ∀ input ∈ tx.input, (w.utxos.lookup input.previousOutput).isSome)
    (hnd : F.pubkeys.Nodup) {idx} (lt : idx < tx.input.length) :
    Tapscript.count (F.pubkeys.map (psbt.sigOf idx)) = (keys.filter (· ∈ F.pubkeys)).card := by
  rw [← length_filter_mem hnd, ← List.countP_eq_length_filter, Tapscript.count, List.countP_map]
  refine List.countP_congr fun pubkey _ => ?_
  obtain ⟨hk, _, hs⟩ | ⟨hk, _, sig, _, _, hs, _⟩ := h.sigOf_cases hrec lt pubkey
  · simp [hk, hs]
  · have hne : sig.bytes ≠ [] := List.ne_nil_of_length_pos (by rw [sig.length_eq]; decide)
    simp [hk, hs, hne]

/-- Bitcoin accepts a finalized input exactly when at least as many members as required are among
the keys held. -/
lemma accepted_iff (h : Holds P F w tx keys psbt) (hsig : SighashIgnoresWitnesses P)
    (hF : F.Built P T) (typed : Option Bytes → Bytes → Bytes → Bool)
    (hrec : ∀ input ∈ tx.input, (w.utxos.lookup input.previousOutput).isSome)
    (hnd : F.pubkeys.Nodup) {idx input} (lt : idx < tx.input.length) :
    Accepted P T typed F w (psbt.sign F) idx (psbt.signInput F (input, idx)) ↔
      F.threshold ≤ (keys.filter (· ∈ F.pubkeys)).card := by
  rw [← h.count_sigOf hrec hnd lt, Accepted, hF.accepts_iff,
    message_of_unsigned hsig h.sign_unsigned]
  constructor
  · rintro ⟨stack, annex, e, _, hsigned, henough, _⟩
    -- the finalized witness has no room for an annex
    obtain rfl : annex = none := by
      cases annex with
      | none => rfl
      | some annex =>
        have hlength := congrArg List.length e
        simp [PartiallySignedTaprootTransaction.signInput, hsigned.length_eq] at hlength
    rw [Option.toList_none, List.append_nil] at e
    rw [List.reverse_inj.mp (List.append_cancel_right e)]
    exact henough
  · intro henough
    have hsize : ∀ sig ∈ F.pubkeys.map (psbt.sigOf idx), sig = [] ∨ sig.length = 64 := by
      intro sig mem
      obtain ⟨pubkey, _, rfl⟩ := List.mem_map.mp mem
      obtain ⟨_, _, hs⟩ | ⟨_, _, sig, _, _, hs, _⟩ := h.sigOf_cases hrec lt pubkey
      · exact .inl hs
      · exact .inr (hs ▸ sig.length_eq)
    refine ⟨_, none, (List.append_nil _).symm, by simp, ?_, henough, fun sig mem => ?_, ?_⟩
    · refine List.forall₂_map_left_iff.mpr (List.forall₂_map_right_iff.mpr ?_)
      refine List.forall₂_same.mpr fun pubkey _ => ?_
      obtain ⟨_, _, hs⟩ | ⟨_, _, sig, _, _, hs, hv⟩ := h.sigOf_cases hrec lt pubkey
      · exact .inl hs
      · rw [hs, checkSchnorr_of_length sig.length_eq]
        exact .inr hv
    · rcases hsize sig mem with e | e <;> simp [e, Tapscript.maxElementSize]
    · refine (Tapscript.count_le_witnessSize fun sig mem hne => ?_).trans (Nat.le_add_left _ _)
      rw [(hsize sig mem).resolve_left hne]
      decide

end Holds

/-- Of whatever sequence of offers a transaction is finalized, Bitcoin accepts it exactly when the
keys kept are members of the federation. -/
theorem finalized_accepted_iff {P : Primitives} {T : Taproot} {F : Federation} {w : UtxoManager}
    {txid : Txid} {tx t : Transaction} {offers : List (PublicKey × List SchnorrSignature)}
    (typed : Option Bytes → Bytes → Bytes → Bool) (hsig : SighashIgnoresWitnesses P)
    (hF : F.Built P T)
    (hreg : Registered w txid tx) (hnd : F.pubkeys.Nodup) (hne : tx.input ≠ [])
    (hfinalized : (collect P F w txid offers).getFinalized F txid = .ok t) :
    (∀ idx input, t.input[idx]? = some input → Accepted P T typed F w t idx input) ↔
      ∀ key ∈ capped F.threshold (validKeys P F w tx offers), key ∈ F.pubkeys := by
  obtain ⟨hnone, hsome⟩ := collect_lookup hreg P F offers
  unfold BitcoinSignatureCollector.getFinalized at hfinalized
  by_cases e : offers = []
  · simp [hnone e] at hfinalized
  obtain ⟨psbt, hl, h⟩ := hsome e
  simp only [hl, h.finalizeTransaction_eq hreg.recorded] at hfinalized
  split at hfinalized
  case isFalse => cases hfinalized
  case isTrue hcard =>
    cases hfinalized
    have hmembers : F.threshold ≤ ((capped F.threshold (validKeys P F w tx offers)).filter
        (· ∈ F.pubkeys)).card ↔
        ∀ key ∈ capped F.threshold (validKeys P F w tx offers), key ∈ F.pubkeys := by
      rw [← Finset.card_filter_eq_iff, hcard]
      exact ⟨fun hle => le_antisymm ((Finset.card_filter_le _ _).trans hcard.le) hle, Eq.ge⟩
    rw [← hmembers]
    constructor
    · intro hall
      obtain ⟨input, inputs, hinputs⟩ := List.exists_cons_of_ne_nil hne
      have lt : 0 < tx.input.length := List.length_pos_iff.mpr hne
      refine (h.accepted_iff hsig hF typed hreg.recorded hnd lt).mp
        (hall 0 (psbt.signInput F (input, 0)) ?_)
      rw [h.sign_getElem?, hinputs]
      rfl
    · intro henough idx input hi
      rw [h.sign_getElem?, Option.map_eq_some_iff] at hi
      obtain ⟨input', hi, rfl⟩ := hi
      have lt := (List.getElem?_eq_some_iff.mp hi).1
      exact (h.accepted_iff hsig hF typed hreg.recorded hnd lt).mpr henough

/-- Two members sign before a stranger does. -/
def trioOffers : List (PublicKey × List SchnorrSignature) :=
  [(List.replicate 32 1, toySignatures), (List.replicate 32 3, toySignatures),
    ([8], toySignatures)]

/-- Bitcoin accepts what is finalized. -/
theorem finalized_accepted_iff_trio :
    ∃ t, (collect .toy .trio .toy [1, 9] trioOffers).getFinalized .trio [1, 9] = .ok t ∧
      ∀ idx input, t.input[idx]? = some input →
        Accepted .toy .toy (fun _ _ _ => false) .trio .toy t idx input := by
  have hkept : ∀ key ∈ capped Federation.trio.threshold
      (validKeys .toy .trio .toy .toy trioOffers), key ∈ Federation.trio.pubkeys := by decide
  exact ⟨_, rfl, (finalized_accepted_iff (fun _ _ _ => false) (fun _ _ _ _ => rfl)
    Federation.trio_built .toy (by decide) (by decide) rfl).mpr hkept⟩

end Alys
