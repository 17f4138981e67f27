import Alys.Lib.Endian
import Mathlib.Data.List.Basic

/-!
# Binary formats

A format writes values as bytes and reads a value from the front of some bytes. It is lawful if
reading undoes writing whatever bytes follow, and if writing a value that was read from canonical
bytes gives these bytes back. Formats are composed from pairs, from lists with their length in front
and along a change of representation, and the compositions of lawful formats are lawful. The basic
formats are raw bytes and numbers of fixed or variable width.
-/

namespace Alys.Lib

/-- A format: the values that can be written, how they are written and read, and the bytes at whose
front a value stands in the form in which it is written. -/
structure Codec (α : Type) where
  Valid : α → Prop
  encode : α → List UInt8
  decode : List UInt8 → Option (α × List UInt8)
  Canonical : List UInt8 → Prop

namespace Codec

variable {α β : Type}

structure Lawful (C : Codec α) : Prop where
  decode_encode : ∀ {a} rest, C.Valid a → C.decode (C.encode a ++ rest) = some (a, rest)
  encode_decode : ∀ {bytes a rest}, C.Canonical bytes → C.decode bytes = some (a, rest) →
    C.Valid a ∧ C.encode a ++ rest = bytes
  canonical_encode : ∀ {a} rest, C.Valid a → C.Canonical (C.encode a ++ rest)

/-! ## Pairs -/

/-- One value after the other. -/
def pair (C : Codec α) (D : Codec β) : Codec (α × β) where
  Valid x := C.Valid x.1 ∧ D.Valid x.2
  encode x := C.encode x.1 ++ D.encode x.2
  decode bytes := do
    let (a, bytes) ← C.decode bytes
    let (b, bytes) ← D.decode bytes
    return ((a, b), bytes)
  Canonical bytes := C.Canonical bytes ∧ ∀ a rest, C.decode bytes = some (a, rest) →
    D.Canonical rest

/-- Pairs of lawful formats are lawful. -/
lemma Lawful.pair {C : Codec α} {D : Codec β} (hC : C.Lawful) (hD : D.Lawful) :
    (C.pair D).Lawful where
  decode_encode := by
    rintro ⟨a, b⟩ rest ⟨ha, hb⟩
    simp only [Codec.pair, List.append_assoc, hC.decode_encode _ ha, hD.decode_encode _ hb,
      Option.bind_eq_bind, Option.bind_some]
    rfl
  encode_decode := by
    rintro bytes ⟨a, b⟩ rest ⟨hcanonical, hrest⟩ e
    simp only [Codec.pair, Option.bind_eq_bind, Option.bind_eq_some_iff] at e
    obtain ⟨⟨_, middle⟩, ea, ⟨_, _⟩, eb, e⟩ := e
    cases e
    obtain ⟨ha, rfl⟩ := hC.encode_decode hcanonical ea
    obtain ⟨hb, rfl⟩ := hD.encode_decode (hrest _ _ ea) eb
    exact ⟨⟨ha, hb⟩, List.append_assoc ..⟩
  canonical_encode := by
    rintro ⟨a, b⟩ rest ⟨ha, hb⟩
    simp only [Codec.pair, List.append_assoc]
    refine ⟨hC.canonical_encode _ ha, fun a' rest' e => ?_⟩
    rw [hC.decode_encode _ ha] at e
    cases e
    exact hD.canonical_encode _ hb

/-! ## Lists -/

/-- Reads the given number of values. -/
def decodeTimes (C : Codec α) : Nat → List UInt8 → Option (List α × List UInt8)
  | 0, bytes => some ([], bytes)
  | n + 1, bytes => do
    let (a, bytes) ← C.decode bytes
    let (l, bytes) ← decodeTimes C n bytes
    return (a :: l, bytes)

def CanonicalTimes (C : Codec α) : Nat → List UInt8 → Prop
  | 0, _ => True
  | n + 1, bytes => C.Canonical bytes ∧ ∀ a rest, C.decode bytes = some (a, rest) →
    CanonicalTimes C n rest

/-- A list with its length in front. -/
def counted (N : Codec Nat) (C : Codec α) : Codec (List α) where
  Valid l := N.Valid l.length ∧ ∀ a ∈ l, C.Valid a
  encode l := N.encode l.length ++ l.flatMap C.encode
  decode bytes := do
    let (n, bytes) ← N.decode bytes
    decodeTimes C n bytes
  Canonical bytes := N.Canonical bytes ∧ ∀ n rest, N.decode bytes = some (n, rest) →
    CanonicalTimes C n rest

section Times

variable {C : Codec α} (hC : C.Lawful)
include hC

variable {l : List α}

lemma Lawful.decodeTimes_encode (rest : List UInt8) (hl : ∀ a ∈ l, C.Valid a) :
    decodeTimes C l.length (l.flatMap C.encode ++ rest) = some (l, rest) := by
  induction l with
  | nil => rfl
  | cons a l ih =>
    obtain ⟨ha, hl⟩ := List.forall_mem_cons.mp hl
    simp only [List.flatMap_cons, List.append_assoc, List.length_cons, decodeTimes,
      hC.decode_encode _ ha, ih hl, Option.bind_eq_bind, Option.bind_some]
    rfl

/-- Values that were read are written as they stood. -/
lemma Lawful.encode_decodeTimes {n : Nat} {bytes rest : List UInt8}
    (hcanonical : CanonicalTimes C n bytes) (e : decodeTimes C n bytes = some (l, rest)) :
    l.length = n ∧ (∀ a ∈ l, C.Valid a) ∧ l.flatMap C.encode ++ rest = bytes := by
  induction n generalizing bytes l with
  | zero =>
    cases e
    exact ⟨rfl, nofun, rfl⟩
  | succ n ih =>
    simp only [decodeTimes, Option.bind_eq_bind, Option.bind_eq_some_iff] at e
    obtain ⟨⟨a, middle⟩, ea, ⟨l, _⟩, el, e⟩ := e
    cases e
    obtain ⟨ha, rfl⟩ := hC.encode_decode hcanonical.1 ea
    obtain ⟨hlength, hl, rfl⟩ := ih (hcanonical.2 _ _ ea) el
    refine ⟨by rw [List.length_cons, hlength], List.forall_mem_cons.mpr ⟨ha, hl⟩, ?_⟩
    rw [List.flatMap_cons, List.append_assoc]

lemma Lawful.canonicalTimes_encode (rest : List UInt8) (hl : ∀ a ∈ l, C.Valid a) :
    CanonicalTimes C l.length (l.flatMap C.encode ++ rest) := by
  induction l with
  | nil => trivial
  | cons a l ih =>
    obtain ⟨ha, hl⟩ := List.forall_mem_cons.mp hl
    rw [List.flatMap_cons, List.append_assoc]
    refine ⟨hC.canonical_encode _ ha, fun a' rest' e => ?_⟩
    rw [hC.decode_encode _ ha] at e
    cases e
    exact ih hl

/-- Lists of a lawful format are lawful. -/
lemma Lawful.counted {N : Codec Nat} (hN : N.Lawful) : (Codec.counted N C).Lawful where
  decode_encode := by
    rintro l rest ⟨hn, hl⟩
    simp only [Codec.counted, List.append_assoc, hN.decode_encode _ hn, Option.bind_eq_bind,
      Option.bind_some, hC.decodeTimes_encode rest hl]
  encode_decode := by
    rintro bytes l rest ⟨hcanonical, hrest⟩ e
    simp only [Codec.counted, Option.bind_eq_bind, Option.bind_eq_some_iff] at e
    obtain ⟨⟨n, middle⟩, en, el⟩ := e
    obtain ⟨hn, rfl⟩ := hN.encode_decode hcanonical en
    obtain ⟨rfl, hl, rfl⟩ := hC.encode_decodeTimes (hrest _ _ en) el
    exact ⟨⟨hn, hl⟩, List.append_assoc ..⟩
  canonical_encode := by
    rintro l rest ⟨hn, hl⟩
    simp only [Codec.counted, List.append_assoc]
    refine ⟨hN.canonical_encode _ hn, fun n rest' e => ?_⟩
    rw [hN.decode_encode _ hn] at e
    cases e
    exact hC.canonicalTimes_encode rest hl

end Times

/-! ## Change of representation -/

/-- The same bytes for the values of another type. -/
def map (C : Codec α) (f : α → β) (g : β → α) : Codec β where
  Valid b := C.Valid (g b)
  encode b := C.encode (g b)
  decode bytes := (C.decode bytes).map fun x => (f x.1, x.2)
  Canonical := C.Canonical

lemma Lawful.map {C : Codec α} {f : α → β} {g : β → α} (hC : C.Lawful) (hfg : ∀ b, f (g b) = b)
    (hgf : ∀ a, g (f a) = a) : (C.map f g).Lawful where
  decode_encode := by
    intro b rest hb
    simp only [Codec.map, hC.decode_encode rest hb, Option.map_some, hfg]
  encode_decode := by
    intro bytes b rest hcanonical e
    simp only [Codec.map, Option.map_eq_some_iff] at e
    obtain ⟨⟨a, _⟩, ea, e⟩ := e
    cases e
    simp only [Codec.map, hgf]
    exact hC.encode_decode hcanonical ea
  canonical_encode := by
    intro b rest hb
    exact hC.canonical_encode rest hb

/-! ## Limited input -/

/-- Reads from the first bytes only. -/
def decodeWithin (C : Codec α) (limit : Nat) (bytes : List UInt8) : Option (α × List UInt8) :=
  (C.decode (bytes.take limit)).map fun x => (x.1, x.2 ++ bytes.drop limit)

/-- What fits is read all the same. -/
lemma Lawful.decodeWithin_encode {C : Codec α} {a : α} {limit : Nat} (hC : C.Lawful)
    (ha : C.Valid a) (hle : (C.encode a).length ≤ limit) (rest : List UInt8) :
    C.decodeWithin limit (C.encode a ++ rest) = some (a, rest) := by
  rw [decodeWithin, List.take_append, List.take_of_length_le hle, hC.decode_encode _ ha,
    List.drop_append, List.drop_of_length_le hle]
  simp

/-! ## Formats by their encodings -/

/-- A format whose canonical bytes are the encodings, followed by anything. -/
def ofEncode (Valid : α → Prop) (encode : α → List UInt8)
    (decode : List UInt8 → Option (α × List UInt8)) : Codec α where
  Valid := Valid
  encode := encode
  decode := decode
  Canonical bytes := ∃ a rest, Valid a ∧ bytes = encode a ++ rest

lemma ofEncode_lawful {Valid : α → Prop} {encode : α → List UInt8}
    {decode : List UInt8 → Option (α × List UInt8)}
    (h : ∀ a rest, Valid a → decode (encode a ++ rest) = some (a, rest)) :
    (ofEncode Valid encode decode).Lawful where
  decode_encode rest ha := h _ rest ha
  encode_decode := by
    rintro bytes a rest ⟨a', rest', ha, rfl⟩ e
    rw [show (ofEncode Valid encode decode).decode = decode from rfl, h a' rest' ha] at e
    cases e
    exact ⟨ha, rfl⟩
  canonical_encode rest ha := ⟨_, rest, ha, rfl⟩

/-! ## Bytes and numbers -/

/-- A given number of bytes. -/
def fixed (w : Nat) : Codec (List UInt8) :=
  ofEncode (·.length = w) id fun bytes =>
    if bytes.length < w then none else some (bytes.take w, bytes.drop w)

lemma decode_fixed {w : Nat} {a : List UInt8} (ha : a.length = w) (rest : List UInt8) :
    (fixed w).decode (a ++ rest) = some (a, rest) := by
  have hlong : ¬ (a ++ rest).length < w := by
    rw [List.length_append]
    omega
  exact (if_neg hlong).trans (by rw [List.take_left' ha, List.drop_left' ha])

lemma fixed_lawful (w : Nat) : (fixed w).Lawful :=
  ofEncode_lawful fun _ rest ha => decode_fixed ha rest

/-- A number in a given number of bytes, the lowest first. -/
def le (w : Nat) : Codec Nat :=
  ofEncode (· < 256 ^ w) (leBytes w) fun bytes =>
    ((fixed w).decode bytes).map fun x => (leValue x.1, x.2)

lemma decode_le {w n : Nat} (hn : n < 256 ^ w) (rest : List UInt8) :
    (le w).decode (leBytes w n ++ rest) = some (n, rest) := by
  show ((fixed w).decode (leBytes w n ++ rest)).map _ = _
  rw [decode_fixed (length_leBytes w n), Option.map_some, leValue_leBytes hn]

lemma le_lawful (w : Nat) : (le w).Lawful := ofEncode_lawful fun _ rest hn => decode_le hn rest

/-- A number of 64 bits as Bitcoin writes it: one byte, or a mark and two, four or eight bytes. -/
def encodeCompact (n : Nat) : List UInt8 :=
  if n < 0xfd then [UInt8.ofNat n]
  else if n < 2 ^ 16 then 0xfd :: leBytes 2 n
  else if n < 2 ^ 32 then 0xfe :: leBytes 4 n
  else 0xff :: leBytes 8 n

/-- Only the shortest form of a number is read. -/
def decodeCompact : List UInt8 → Option (Nat × List UInt8)
  | [] => none
  | b :: bytes =>
    if b = 0xff then ((le 8).decode bytes).filter (2 ^ 32 ≤ ·.1)
    else if b = 0xfe then ((le 4).decode bytes).filter (2 ^ 16 ≤ ·.1)
    else if b = 0xfd then ((le 2).decode bytes).filter (0xfd ≤ ·.1)
    else some (b.toNat, bytes)

def compact : Codec Nat := ofEncode (· < 2 ^ 64) encodeCompact decodeCompact

/-- A compact size is read back. -/
lemma decodeCompact_encodeCompact {n : Nat} (hn : n < 2 ^ 64) (rest : List UInt8) :
    decodeCompact (encodeCompact n ++ rest) = some (n, rest) := by
  unfold encodeCompact
  split_ifs with h1 h2 h3
  · have hbyte : (UInt8.ofNat n).toNat = n := by
      rw [UInt8.toNat_ofNat']
      omega
    have hne : ∀ m : UInt8, 0xfd ≤ m.toNat → UInt8.ofNat n ≠ m := by
      rintro m hm rfl
      omega
    rw [List.singleton_append, decodeCompact, if_neg (hne _ (by decide)),
      if_neg (hne _ (by decide)),
      if_neg (hne _ (by decide)), hbyte]
  · rw [List.cons_append, decodeCompact, if_neg (by decide), if_neg (by decide), if_pos rfl,
      decode_le (by omega), Option.filter_some, if_pos (by simpa using h1)]
  · rw [List.cons_append, decodeCompact, if_neg (by decide), if_pos rfl,
      decode_le (by omega), Option.filter_some, if_pos (by simpa using h2)]
  · rw [List.cons_append, decodeCompact, if_pos rfl, decode_le (by omega), Option.filter_some,
      if_pos (by simpa using h3)]

lemma compact_lawful : compact.Lawful :=
  ofEncode_lawful fun _ rest hn => decodeCompact_encodeCompact hn rest

/-- Bytes with their number in front. -/
def blob : Codec (List UInt8) :=
  ofEncode (·.length < 2 ^ 64) (fun data => encodeCompact data.length ++ data) fun bytes => do
    let (n, bytes) ← decodeCompact bytes
    (fixed n).decode bytes

lemma blob_lawful : blob.Lawful := by
  refine ofEncode_lawful fun data rest hlength => ?_
  rw [List.append_assoc, decodeCompact_encodeCompact hlength]
  exact decode_fixed rfl rest

end Codec

end Alys.Lib
