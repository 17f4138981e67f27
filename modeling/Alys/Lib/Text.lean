import Mathlib.Data.List.Basic

/-!
# Bytes as text

Two ways of writing bytes as text: hexadecimal digits, two for each byte and in either case, and
UTF-8. The last word of a text is found by splitting it at the blanks. A path is a list of segments,
each after a separator.
-/

namespace Alys.Lib

/-! ## Hexadecimal -/

/-- The value of a hexadecimal digit. -/
def hexValue (c : Char) : Option Nat :=
  (List.range 16).find? fun n => c = n.digitChar || c = n.digitChar.toUpper

def decodeHex : List Char → Option (List UInt8)
  | [] => some []
  | [_] => none
  | high :: low :: text => do
    let high ← hexValue high
    let low ← hexValue low
    return .ofNat (16 * high + low) :: (← decodeHex text)

/-- The digits of a list of bytes, in lower case. -/
def encodeHex (data : List UInt8) : List Char :=
  data.flatMap fun byte => [(byte.toNat / 16).digitChar, (byte.toNat % 16).digitChar]

lemma hexValue_digitChar : ∀ n < 16, hexValue n.digitChar = some n := by decide

variable {data : List UInt8} {text : List Char}

lemma decodeHex_encodeHex : decodeHex (encodeHex data) = some data := by
  induction data with
  | nil => rfl
  | cons byte data ih =>
    have lt := byte.toNat_lt
    have high := hexValue_digitChar (byte.toNat / 16) (by omega)
    have low := hexValue_digitChar (byte.toNat % 16) (by omega)
    have digits : 16 * (byte.toNat / 16) + byte.toNat % 16 = byte.toNat := Nat.div_add_mod ..
    rw [encodeHex, List.flatMap_cons, ← encodeHex, List.cons_append, List.cons_append, decodeHex,
      high, low, List.nil_append, ih]
    change some (UInt8.ofNat (16 * (byte.toNat / 16) + byte.toNat % 16) :: data) = _
    rw [digits, UInt8.ofNat_toNat]

lemma blank_notMem_encodeHex : ' ' ∉ encodeHex data := by
  have visible : ∀ n < 16, n.digitChar ≠ ' ' := by decide
  intro mem
  obtain ⟨byte, _, mem⟩ := List.mem_flatMap.mp mem
  have lt := byte.toNat_lt
  rcases List.mem_pair.mp mem with e | e
  · exact visible _ (by omega) e.symm
  · exact visible _ (by omega) e.symm

/-! ## UTF-8 -/

/-- The bytes of a text. -/
def utf8 (text : List Char) : List UInt8 := text.flatMap String.utf8EncodeChar

def decodeUtf8 (data : List UInt8) : Option (List Char) :=
  (String.fromUTF8? data.toByteArray).map String.toList

lemma decodeUtf8_eq_some_iff :
    decodeUtf8 data = some text ↔ data = utf8 text := by
  rw [decodeUtf8, Option.map_eq_some_iff]
  constructor
  · rintro ⟨s, e, rfl⟩
    rw [String.fromUTF8?] at e
    split at e
    case isTrue valid =>
      cases e
      exact List.toByteArray_inj.mp
        (String.utf8Encode_toList (b := .ofByteArray data.toByteArray valid)).symm
    case isFalse => cases e
  · rintro rfl
    exact ⟨.ofList text, dif_pos ⟨text, rfl⟩, String.toList_ofList⟩

lemma length_le_utf8 : text.length ≤ (utf8 text).length := by
  induction text with
  | nil => exact Nat.le_refl _
  | cons c text ih =>
    have pos := c.utf8Size_pos
    rw [utf8, List.flatMap_cons, List.length_append, String.length_utf8EncodeChar, List.length_cons,
      Nat.add_comm]
    exact Nat.add_le_add pos ih

/-- A text does not start in the middle of a character. -/
lemma isUTF8FirstByte_of_utf8 {byte : UInt8} (e : byte :: data = utf8 text) :
    byte.IsUTF8FirstByte := by
  cases text with
  | nil => cases e
  | cons c text =>
    rw [utf8, List.flatMap_cons] at e
    have hfirst := UInt8.isUTF8FirstByte_getElem_zero_utf8EncodeChar (c := c)
    cases hc : String.utf8EncodeChar c with
    | nil =>
      have hlength := String.length_utf8EncodeChar c
      rw [hc, List.length_nil] at hlength
      exact absurd c.utf8Size_pos (by omega)
    | cons first others =>
      simp only [hc, List.getElem_cons_zero] at hfirst
      rw [hc, List.cons_append, List.cons.injEq] at e
      rw [e.1]
      exact hfirst

/-- A hexadecimal digit is one byte. -/
lemma utf8Size_of_hexValue {c : Char} {n : Nat} (e : hexValue c = some n) : c.utf8Size = 1 := by
  have single : ∀ n < 16, n.digitChar.utf8Size = 1 ∧ n.digitChar.toUpper.utf8Size = 1 := by decide
  obtain ⟨h, _⟩ := List.find?_eq_some_iff_append.mp e
  have lt : n < 16 := List.mem_range.mp (List.mem_of_find?_eq_some e)
  rcases Bool.or_eq_true_iff.mp h with h | h
  · rw [of_decide_eq_true h]
    exact (single n lt).1
  · rw [of_decide_eq_true h]
    exact (single n lt).2

/-- Hexadecimal text has two digits for each byte, and its own bytes are as many. -/
lemma length_utf8_of_decodeHex (e : decodeHex text = some data) :
    text.length = 2 * data.length ∧ (utf8 text).length = 2 * data.length := by
  fun_induction decodeHex text generalizing data with
  | case1 =>
    cases e
    exact ⟨rfl, rfl⟩
  | case2 => cases e
  | case3 high low text ih =>
    simp only [Option.bind_eq_bind, Option.bind_eq_some_iff] at e
    obtain ⟨_, hhigh, _, hlow, rest, hrest, e⟩ := e
    cases e
    obtain ⟨hlength, hutf8⟩ := ih hrest
    simp only [utf8, List.flatMap_cons, List.length_append, String.length_utf8EncodeChar,
      utf8Size_of_hexValue hhigh, utf8Size_of_hexValue hlow, List.length_cons] at hutf8 ⊢
    omega

/-! ## Words -/

/-- The last word of a text. -/
lemma getLastD_splitOn {front word : List Char} (h : ' ' ∉ word) :
    ((front ++ ' ' :: word).splitOn ' ').getLastD [] = word := by
  have single : word.splitOn ' ' = [word] := by
    have hsplit : ([' '].intercalate [word]).splitOn ' ' = [word] :=
      List.splitOn_intercalate ' ' (by simpa using h) (by simp)
    simpa using hsplit
  rw [List.splitOn, List.splitOnP_append_cons _ _ (by simp), ← List.splitOn, ← List.splitOn, single]
  simp

variable {words : List (List Char)}

lemma mem_intercalate {c sep : Char} (mem : c ∈ [sep].intercalate words) :
    c = sep ∨ ∃ word ∈ words, c ∈ word := by
  induction words with
  | nil => cases mem
  | cons word words ih =>
    cases words with
    | nil => exact .inr ⟨word, List.mem_cons_self, by simpa using mem⟩
    | cons word' words =>
      rw [List.intercalate_cons_cons, List.mem_append, List.mem_append, List.mem_singleton] at mem
      rcases mem with (mem | e) | mem
      · exact .inr ⟨word, List.mem_cons_self, mem⟩
      · exact .inl e
      · rcases ih mem with e | ⟨w, hw, mem⟩
        · exact .inl e
        · exact .inr ⟨w, List.mem_cons_of_mem _ hw, mem⟩

/-- Words without a blank of some kind, joined by one. -/
lemma splitOnP_intercalate {p : Char → Bool} {sep : Char} (hsep : p sep = true)
    (h : ∀ word ∈ words, ∀ c ∈ word, p c = false) (ne : words ≠ []) :
    ([sep].intercalate words).splitOnP p = words := by
  induction words with
  | nil => exact absurd rfl ne
  | cons word words ih =>
    have single := List.splitOnP_eq_singleton (h word List.mem_cons_self)
    cases words with
    | nil => simpa using single
    | cons word' words =>
      rw [List.intercalate_cons_cons, List.append_assoc, List.singleton_append,
        List.splitOnP_append_cons _ _ hsep, single,
        ih (fun w mem => h w (List.mem_cons_of_mem _ mem)) (List.cons_ne_nil _ _)]
      rfl

/-! ## Segments -/

/-- A path: every segment after a separator. -/
def joinSegments (sep : Char) (segments : List (List Char)) : List Char :=
  segments.flatMap (sep :: ·)

section

variable {sep : Char} {segment : List Char} {segments segments' : List (List Char)}

lemma joinSegments_cons :
    joinSegments sep (segment :: segments) = sep :: (segment ++ joinSegments sep segments) := rfl

lemma joinSegments_append : joinSegments sep (segments ++ segments') =
    joinSegments sep segments ++ joinSegments sep segments' :=
  List.flatMap_append ..

lemma length_le_joinSegments : segments.length ≤ (joinSegments sep segments).length := by
  induction segments with
  | nil => exact Nat.le_refl _
  | cons segment segments ih =>
    rw [joinSegments_cons, List.length_cons, List.length_cons, List.length_append]
    omega

lemma splitOn_joinSegments (h : ∀ segment ∈ segments, sep ∉ segment) :
    (joinSegments sep segments).splitOn sep = [] :: segments := by
  have join : joinSegments sep segments = [sep].intercalate ([] :: segments) := by
    induction segments with
    | nil => rfl
    | cons segment segments ih =>
      have ih := ih fun s mem => h s (List.mem_cons_of_mem _ mem)
      rw [joinSegments_cons, ih, List.intercalate_cons_cons]
      cases segments with
      | nil => simp
      | cons s segments => simp [List.intercalate_cons_cons]
  rw [join]
  refine List.splitOn_intercalate sep (fun s mem => ?_) (List.cons_ne_nil _ _)
  rcases List.mem_cons.mp mem with rfl | mem
  · exact List.not_mem_nil
  · exact h s mem

/-- The first separator stands after the first segment. -/
lemma findIdx?_segment (h : sep ∉ segment) :
    (segment ++ joinSegments sep segments).findIdx? (· == sep) =
      if segments.isEmpty then none else some segment.length := by
  have none : segment.findIdx? (· == sep) = none := by
    refine List.findIdx?_eq_none_iff.mpr fun c mem => ?_
    rw [beq_eq_false_iff_ne]
    rintro rfl
    exact h mem
  rw [List.findIdx?_append, none, Option.none_or]
  cases segments with
  | nil => rfl
  | cons s segments => simp [joinSegments_cons, List.findIdx?_cons]

end

end Alys.Lib
