import Alys.Federation.Bridge
import Alys.Lib.Text

/-!
# The account of a deposit

How `pegin_info` in `crates/federation/src/lib.rs` reads the EVM account from an `OP_RETURN` output.
Two encodings are meant to be accepted: the twenty bytes of the address, and its forty hexadecimal
digits as text. Which of them is there is guessed from whether the bytes are valid UTF-8.

So an address whose twenty bytes happen to be UTF-8, such as twenty ASCII characters, is taken for a
text of at most twenty characters, which no address has, and the deposit is not recognised.
-/

namespace Alys
open Lib

/-! ## The library -/

/-- The script `OP_RETURN` with one push of at most 75 bytes. -/
def opReturn (data : Bytes) : Bytes := 0x6a :: .ofNat data.length :: data

/-- What the results assume of the text functions of the libraries: `Script::to_asm_string` spells
the pushed bytes in hexadecimal after a blank, `Vec::from_hex` and `String::from_utf8` decode what
they are named after, and `H160::from_str` reads forty hexadecimal digits and nothing shorter. -/
structure TextSound (P : Primitives) : Prop where
  isProvablyUnspendable : ∀ data, P.isProvablyUnspendable (opReturn data)
  isOpReturn : ∀ data, P.isOpReturn (opReturn data)
  toAsmString : ∀ data, data ≠ [] → data.length ≤ 75 →
    P.toAsmString (opReturn data) =
      ("OP_RETURN OP_PUSHBYTES_".toList ++ Nat.toDigits 10 data.length) ++ ' ' :: encodeHex data
  fromHex : ∀ text, P.fromHex text = decodeHex text
  fromUtf8 : ∀ data text, P.fromUtf8 data = some text ↔ data = utf8 text
  h160FromStr : ∀ text address, decodeHex text = some address → address.length = 20 →
    P.h160FromStr text = some address
  h160FromStr_length : ∀ text address, P.h160FromStr text = some address → 40 ≤ text.length

/-! ## The guess -/

/-- A transaction with an output to the deposit address whose only data output is the given
script. -/
structure DepositWith (P : Primitives) (B : Bridge) (tx : Transaction) (script : Bytes) : Prop where
  deposit : ∃ out ∈ tx.output, B.peginAddresses.any fun peginAddress =>
    P.matchesScriptPubkey peginAddress out.scriptPubkey
  data : ∃ out ∈ tx.output, out.scriptPubkey = script
  only : ∀ out ∈ tx.output, P.isOpReturn out.scriptPubkey → out.scriptPubkey = script

section Guess

variable {P : Primitives} {B : Bridge} {tx : Transaction}

/-- The reported account is what the data output is read as. -/
lemma DepositWith.evmAccount {script blockHash blockHeight} (h : DepositWith P B tx script) :
    (B.peginInfo P tx blockHash blockHeight).map (·.evmAccount) =
      extractEvmAddress P ⟨0, script⟩ := by
  have hother : ∀ out ∈ tx.output, out.scriptPubkey ≠ script → extractEvmAddress P out = none := by
    intro out mem hne
    have hdata : P.isOpReturn out.scriptPubkey = false :=
      Bool.eq_false_iff.mpr fun hreturn => hne (h.only out mem hreturn)
    simp [extractEvmAddress, hdata]
  have hfound : tx.output.findSome? (extractEvmAddress P) = extractEvmAddress P ⟨0, script⟩ := by
    cases e : extractEvmAddress P ⟨0, script⟩ with
    | none =>
      rw [List.findSome?_eq_none_iff]
      intro out mem
      by_cases eq : out.scriptPubkey = script
      · subst eq
        exact e
      · exact hother out mem eq
    | some address =>
      obtain ⟨out, mem, rfl⟩ := h.data
      have hsome : (tx.output.findSome? (extractEvmAddress P)).isSome := by
        rw [List.findSome?_isSome_iff]
        exact ⟨out, mem, Option.isSome_iff_exists.mpr ⟨address, e⟩⟩
      obtain ⟨found, hfound⟩ := Option.isSome_iff_exists.mp hsome
      obtain ⟨out', mem', e'⟩ := List.exists_of_findSome?_eq_some hfound
      have same : out'.scriptPubkey = out.scriptPubkey := by
        by_contra hne
        rw [hother out' mem' hne] at e'
        cases e'
      have : extractEvmAddress P out' = some address := by
        rw [← e]
        simp only [extractEvmAddress, same]
      rw [hfound, ← e', this]
  obtain ⟨out, hout⟩ := Option.isSome_iff_exists.mp (List.find?_isSome.mpr h.deposit)
  simp only [Bridge.peginInfo, hout, hfound, Option.bind_eq_bind, Option.bind_some]
  cases extractEvmAddress P ⟨0, script⟩ with
  | none => rfl
  | some address => rfl

variable (hP : TextSound P)
include hP

variable {value : Nat}

/-- The pushed bytes are read as text if they are UTF-8, and otherwise their digits are. -/
lemma extractEvmAddress_opReturn {data : Bytes} (hne : data ≠ []) (hle : data.length ≤ 75) :
    extractEvmAddress P ⟨value, opReturn data⟩ =
      match P.fromUtf8 data with
      | none => P.h160FromStr (encodeHex data)
      | some addressStr => P.h160FromStr addressStr := by
  have hword : ((P.toAsmString (opReturn data)).splitOn ' ').getLastD [] = encodeHex data := by
    rw [hP.toAsmString data hne hle, getLastD_splitOn blank_notMem_encodeHex]
  have hbytes : P.fromHex (encodeHex data) = some data := by
    rw [hP.fromHex, decodeHex_encodeHex]
  unfold extractEvmAddress
  rw [if_neg (by simp [hP.isProvablyUnspendable, hP.isOpReturn])]
  cases hdata : P.fromUtf8 data with
  | none => simp only [hword, hbytes, hdata]
  | some addressStr => simp only [hword, hbytes, hdata]

/-- The digits of an address, in either case, are read as that address. -/
lemma extractEvmAddress_text {text : Text} {address : Address}
    (htext : decodeHex text = some address) (hlength : address.length = 20) :
    extractEvmAddress P ⟨value, opReturn (utf8 text)⟩ = some address := by
  have hutf8 := (length_utf8_of_decodeHex htext).2
  have hne : utf8 text ≠ [] := by
    intro e
    rw [e, List.length_nil] at hutf8
    omega
  rw [extractEvmAddress_opReturn hP hne (by omega), (hP.fromUtf8 _ _).mpr rfl]
  exact hP.h160FromStr text address htext hlength

/-- The bytes of an address are read as that address unless they are UTF-8. -/
lemma extractEvmAddress_raw {address : Address} (hlength : address.length = 20) :
    extractEvmAddress P ⟨value, opReturn address⟩ = some address ↔
      ∀ text, address ≠ utf8 text := by
  have hne : address ≠ [] := by
    rintro rfl
    cases hlength
  rw [extractEvmAddress_opReturn hP hne (by omega)]
  cases e : P.fromUtf8 address with
  | none =>
    refine iff_of_true (hP.h160FromStr _ _ decodeHex_encodeHex hlength) fun text eq => ?_
    rw [(hP.fromUtf8 _ _).mpr eq] at e
    cases e
  | some text =>
    have eq := (hP.fromUtf8 _ _).mp e
    refine iff_of_false (fun hparsed => ?_) fun all => all text eq
    -- at most one character for each of the twenty bytes
    have hle := @length_le_utf8 text
    have hge := hP.h160FromStr_length _ _ hparsed
    rw [← eq] at hle
    omega

end Guess

/-- The text encoding always recovers the address, and the encoding in bytes does exactly if the
bytes are not UTF-8. -/
theorem peginInfo_recovers_iff {P : Primitives} (hP : TextSound P) (address : Address)
    (hlength : address.length = 20) (B : Bridge) (tx : Transaction) (blockHash : BlockHash)
    (blockHeight : Nat) :
    (∀ text, decodeHex text = some address → DepositWith P B tx (opReturn (utf8 text)) →
      (B.peginInfo P tx blockHash blockHeight).map (·.evmAccount) = some address) ∧
    (DepositWith P B tx (opReturn address) →
      ((B.peginInfo P tx blockHash blockHeight).map (·.evmAccount) = some address ↔
        ∀ text, address ≠ utf8 text)) := by
  constructor
  · intro text htext h
    rw [h.evmAccount]
    exact extractEvmAddress_text hP htext hlength
  · intro h
    rw [h.evmAccount]
    exact extractEvmAddress_raw hP hlength

/-- Library functions for closed examples that read text as they are assumed to. -/
def Primitives.toyText : Primitives :=
  { Primitives.toy with
    toAsmString := fun script =>
      ("OP_RETURN OP_PUSHBYTES_".toList ++ Nat.toDigits 10 (script.drop 2).length) ++
        ' ' :: encodeHex (script.drop 2)
    fromHex := decodeHex
    fromUtf8 := decodeUtf8
    h160FromStr := fun text => if text.length = 40 then decodeHex text else none }

lemma Primitives.toyText_sound : TextSound .toyText where
  isProvablyUnspendable _ := rfl
  isOpReturn _ := rfl
  toAsmString _ _ _ := rfl
  fromHex _ := rfl
  fromUtf8 _ _ := decodeUtf8_eq_some_iff
  h160FromStr text address e hlength := by
    refine (if_pos ?_).trans e
    rw [(length_utf8_of_decodeHex e).1, hlength]
  h160FromStr_length text address e := by
    by_contra hlt
    have hne : text.length ≠ 40 := by omega
    rw [show Primitives.toyText.h160FromStr text = none from if_neg hne] at e
    cases e

/-- A transaction with a deposit and one data output. -/
def Transaction.toyReturn (script : Bytes) : Transaction := ⟨2, 0, [], [⟨1000, [5]⟩, ⟨0, script⟩]⟩

lemma Transaction.toyReturn_depositWith (data : Bytes) :
    DepositWith .toyText ⟨[[5]], 6⟩ (.toyReturn (opReturn data)) (opReturn data) where
  deposit := ⟨⟨1000, [5]⟩, List.mem_cons_self, rfl⟩
  data := ⟨⟨0, opReturn data⟩, List.mem_cons_of_mem _ List.mem_cons_self, rfl⟩
  only out mem hreturn := by
    rcases List.mem_pair.mp mem with rfl | rfl
    · cases hreturn
    · rfl

/-- No text starts with a continuation byte. -/
theorem peginInfo_recovers_continuation :
    (Bridge.peginInfo .toyText ⟨[[5]], 6⟩ (.toyReturn (opReturn (List.replicate 20 0x80))) []
      1).map (·.evmAccount) = some (List.replicate 20 0x80) := by
  refine ((peginInfo_recovers_iff Primitives.toyText_sound _ (by decide) _ _ _ _).2
    (Transaction.toyReturn_depositWith _)).mpr ?_
  intro text e
  exact absurd (isUTF8FirstByte_of_utf8 e) (by decide)

/-- The account whose bytes spell twenty times the letter `a`. -/
theorem peginInfo_recovers_fails :
    ¬ ∀ (P : Primitives) (B : Bridge) (tx : Transaction) (blockHash : BlockHash) (blockHeight : Nat)
      (address : Address), TextSound P → address.length = 20 →
      DepositWith P B tx (opReturn address) →
      (B.peginInfo P tx blockHash blockHeight).map (·.evmAccount) = some address := by
  intro all
  have recovered := all _ _ _ [] 1 (List.replicate 20 0x61) Primitives.toyText_sound (by decide)
    (Transaction.toyReturn_depositWith _)
  rw [(Transaction.toyReturn_depositWith _).evmAccount,
    extractEvmAddress_raw Primitives.toyText_sound (by decide)] at recovered
  exact recovered (List.replicate 20 'a') (by decide)

end Alys
