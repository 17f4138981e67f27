import Alys.Lib.Endian
import Mathlib.Data.List.Basic
import Mathlib.Logic.Function.Iterate

/-!
# The frame format of snappy

A stream of chunks, each with its type and its length in front. The first chunk identifies the
stream, and those after it have up to 65536 bytes of data each, with a checksum. The chunks are
written uncompressed, as the encoder leaves data of up to 16 bytes and all that compression would
not make shorter; a compressed chunk is refused.

The reader is asked for a number of bytes. It takes whole chunks until it has them, and says so if
the stream ends before.
-/

namespace Alys.Lib.Snappy

/-! ## Checksums -/

/-- One bit of the division by the polynomial of CRC-32C. -/
def crcBit (crc : Nat) : Nat := if crc % 2 = 1 then (crc / 2) ^^^ 0x82f63b78 else crc / 2

def crcByte (crc : Nat) (b : UInt8) : Nat := crcBit^[8] (crc ^^^ b.toNat)

def crc32c (data : List UInt8) : Nat := data.foldl crcByte 0xffffffff ^^^ 0xffffffff

example : crc32c "123456789".toUTF8.toList = 0xe3069283 := by decide +kernel

/-- The checksum of a chunk: rotated by 15 bits, with a constant added. -/
def maskedChecksum (data : List UInt8) : Nat :=
  let sum := crc32c data
  (sum / 2 ^ 15 + sum % 2 ^ 15 * 2 ^ 17 + 0xa282ead8) % 2 ^ 32

lemma maskedChecksum_lt (data : List UInt8) : maskedChecksum data < 256 ^ 4 :=
  Nat.mod_lt _ (by decide)

/-! ## Writing -/

/-- A chunk of the given type. -/
def chunk (ty : UInt8) (body : List UInt8) : List UInt8 := ty :: leBytes 3 body.length ++ body

/-- What identifies a stream: `sNaPpY`. -/
def magic : List UInt8 := [0x73, 0x4e, 0x61, 0x50, 0x70, 0x59]

/-- The body of a chunk with uncompressed data. -/
def dataBody (data : List UInt8) : List UInt8 := leBytes 4 (maskedChecksum data) ++ data

/-- The chunks of some data, of which there are as many as bytes at most. -/
def dataChunks : Nat → List UInt8 → List UInt8
  | 0, _ => []
  | k + 1, data =>
    if data = [] then []
    else chunk 1 (dataBody (data.take 65536)) ++ dataChunks k (data.drop 65536)

/-- The stream for some data. Without data not even the stream is identified. -/
def compress (data : List UInt8) : List UInt8 :=
  if data = [] then [] else chunk 0xff magic ++ dataChunks data.length data

/-- How many bytes the encoder writes for so many bytes of data at most, 0 if it refuses them. -/
def maxCompressLen (inputLen : Nat) : Nat :=
  if 2 ^ 32 ≤ inputLen then 0
  else if 2 ^ 32 ≤ 32 + inputLen + inputLen / 6 then 0
  else 32 + inputLen + inputLen / 6

/-! ## Reading -/

inductive Outcome where
  /-- the data, and the bytes that were not read -/
  | filled (data rest : List UInt8)
  | unexpectedEof
  | failed
  deriving DecidableEq

/-- A chunk of this type and length can be read; the first one identifies the stream. -/
def admits (identified : Bool) (ty : UInt8) (length : Nat) : Bool :=
  if ty = 0xff then length = 6
  else identified && (ty = 1 && 4 ≤ length && length ≤ 65540 || 0x80 ≤ ty)

/-- The data of a chunk, if it is what it should be. Chunks for other readers are skipped. -/
def content (ty : UInt8) (body : List UInt8) : Option (List UInt8) :=
  if ty = 0xff then if body = magic then some [] else none
  else if ty = 1 then
    if leValue (body.take 4) = maskedChecksum (body.drop 4) then some (body.drop 4) else none
  else some []

/-- The loop over the chunks, with the data that was read. -/
def readLoop : Nat → Bool → Nat → List UInt8 → List UInt8 → Outcome
  | 0, _, _, _, _ => .unexpectedEof
  | k + 1, identified, need, acc, bytes =>
    if need ≤ acc.length then .filled (acc.take need) bytes
    else if bytes.length < 4 then .unexpectedEof
    else
      let ty := bytes.headD 0
      let length := leValue ((bytes.drop 1).take 3)
      let rest := bytes.drop 4
      if !admits identified ty length then .failed
      else if rest.length < length then .unexpectedEof
      else
        match content ty (rest.take length) with
        | some data => readLoop k true need (acc ++ data) (rest.drop length)
        | none => .failed

/-- `read_exact`; each chunk takes bytes. -/
def readExact (need : Nat) (bytes : List UInt8) : Outcome :=
  readLoop (bytes.length + 1) false need [] bytes

/-! ## One chunk -/

section Chunk

variable {k need : Nat} {identified : Bool} {ty : UInt8} {body acc data rest : List UInt8}

lemma length_chunk (ty : UInt8) (body : List UInt8) : (chunk ty body).length = 4 + body.length := by
  rw [chunk, List.cons_append, List.length_cons, List.length_append, length_leBytes]
  omega

/-- The parts of a chunk, with anything behind them. -/
lemma headD_chunk : (chunk ty body ++ rest).headD 0 = ty := rfl

lemma drop_chunk : (chunk ty body ++ rest).drop 4 = body ++ rest := by
  rw [chunk, List.cons_append, List.cons_append, List.drop_succ_cons, List.append_assoc,
    List.drop_left' (length_leBytes 3 _)]

lemma length_of_chunk (h : body.length < 2 ^ 24) :
    leValue (((chunk ty body ++ rest).drop 1).take 3) = body.length := by
  rw [chunk, List.cons_append, List.cons_append, List.drop_succ_cons, List.drop_zero,
    List.append_assoc, List.take_left' (length_leBytes 3 _), leValue_leBytes h]

/-- A complete chunk is read. -/
lemma readLoop_chunk (hneed : acc.length < need) (hsize : body.length < 2 ^ 24)
    (hadmits : admits identified ty body.length = true) (hcontent : content ty body = some data) :
    readLoop (k + 1) identified need acc (chunk ty body ++ rest) =
      readLoop k true need (acc ++ data) rest := by
  have hlong : ¬ (chunk ty body ++ rest).length < 4 := by
    rw [List.length_append, length_chunk]
    omega
  have hbody : ¬ (body ++ rest).length < body.length := by
    rw [List.length_append]
    omega
  rw [readLoop, if_neg (Nat.not_le.mpr hneed), if_neg hlong]
  simp only [headD_chunk, length_of_chunk hsize, drop_chunk, hadmits, Bool.not_true,
    Bool.false_eq_true, if_false, if_neg hbody, List.take_left, List.drop_left, hcontent]

/-- In a chunk of which bytes are missing the stream ends. -/
lemma readLoop_cut {cut more : List UInt8} (hneed : acc.length < need)
    (hsize : body.length < 2 ^ 24) (hadmits : admits identified ty body.length = true)
    (hmore : more ≠ []) (e : cut ++ more = chunk ty body) :
    readLoop (k + 1) identified need acc cut = .unexpectedEof := by
  have hlength := congrArg List.length e
  have hpos := List.length_pos_iff.mpr hmore
  rw [List.length_append, length_chunk] at hlength
  rw [readLoop, if_neg (Nat.not_le.mpr hneed)]
  split
  case isTrue => rfl
  case isFalse hlong =>
    -- the header is complete, so it is that of the chunk
    obtain ⟨part, rfl⟩ : ∃ part, cut = ty :: leBytes 3 body.length ++ part := by
      have hpre : ty :: leBytes 3 body.length <+: cut :=
        List.prefix_of_prefix_length_le ⟨body, rfl⟩ ⟨more, e⟩
          (by rw [List.length_cons, length_leBytes]; omega)
      exact ⟨_, hpre.choose_spec.symm⟩
    have hty : (ty :: leBytes 3 body.length ++ part).headD 0 = ty := rfl
    have hdrop : (ty :: leBytes 3 body.length ++ part).drop 4 = part := by
      rw [List.cons_append, List.drop_succ_cons, List.drop_left' (length_leBytes 3 _)]
    have hvalue :
        leValue (((ty :: leBytes 3 body.length ++ part).drop 1).take 3) = body.length := by
      rw [List.cons_append, List.drop_succ_cons, List.drop_zero,
        List.take_left' (length_leBytes 3 _), leValue_leBytes hsize]
    have hmissing : part.length < body.length := by
      rw [List.cons_append, List.length_cons, List.length_append, length_leBytes] at hlength
      omega
    simp only [hty, hdrop, hvalue, hadmits, Bool.not_true, Bool.false_eq_true, if_false,
      if_pos hmissing]

/-- The same if chunks follow: either the first one is complete, or the stream ends in it. -/
lemma readLoop_cut_append {cut more tail : List UInt8} (hneed : acc.length < need)
    (hsize : body.length < 2 ^ 24) (hadmits : admits identified ty body.length = true)
    (e : cut ++ more = chunk ty body ++ tail) :
    (∃ z, cut = chunk ty body ++ z ∧ z ++ more = tail) ∨
      readLoop (k + 1) identified need acc cut = .unexpectedEof := by
  rcases List.append_eq_append_iff.mp e with ⟨v, hv, hz⟩ | ⟨z, hz, hmissing⟩
  · by_cases hnil : v = []
    · subst hnil
      exact .inl ⟨[], by rw [hv, List.append_nil, List.append_nil], hz⟩
    · exact .inr (readLoop_cut hneed hsize hadmits hnil hv.symm)
  · exact .inl ⟨z, hz, hmissing.symm⟩

end Chunk

/-! ## Whole streams -/

section Stream

variable {k fuel need : Nat} {acc data rest : List UInt8}

lemma length_dataBody (data : List UInt8) : (dataBody data).length = 4 + data.length := by
  rw [dataBody, List.length_append, length_leBytes]

lemma content_dataBody : content 1 (dataBody data) = some data := by
  have htake : (dataBody data).take 4 = leBytes 4 (maskedChecksum data) :=
    List.take_left' (length_leBytes 4 _)
  have hdrop : (dataBody data).drop 4 = data := List.drop_left' (length_leBytes 4 _)
  rw [content, if_neg (by decide), if_pos rfl, htake, hdrop, leValue_leBytes (maskedChecksum_lt _),
    if_pos rfl]

lemma admits_dataBody (h : data.length ≤ 65536) :
    admits true 1 (dataBody data).length = true := by
  rw [length_dataBody]
  simp only [admits]
  rw [if_neg (by decide)]
  simp
  omega

/-- The rest of the data after a chunk. -/
lemma length_drop_le (h : data.length ≤ k + 1) : (data.drop 65536).length ≤ k := by
  rw [List.length_drop]
  omega

/-- What the first chunk leaves of the data that is needed. -/
lemma need_after_chunk (hneed : need = acc.length + data.length) :
    need = (acc ++ data.take 65536).length + (data.drop 65536).length := by
  rw [hneed, List.length_append, List.length_take, List.length_drop]
  omega

lemma length_firstBody_lt (data : List UInt8) :
    (dataBody (data.take 65536)).length < 2 ^ 24 := by
  rw [length_dataBody, List.length_take]
  omega

/-- The chunks of the data are read, one after the other. -/
lemma readLoop_dataChunks (hk : data.length ≤ k) (hfuel : (dataChunks k data).length < fuel)
    (hneed : need = acc.length + data.length) :
    readLoop fuel true need acc (dataChunks k data ++ rest) = .filled (acc ++ data) rest := by
  obtain ⟨fuel, rfl⟩ := Nat.exists_eq_succ_of_ne_zero (Nat.ne_zero_of_lt hfuel)
  induction k generalizing fuel data acc with
  | zero =>
    obtain rfl := List.length_eq_zero_iff.mp (Nat.le_zero.mp hk)
    simp [readLoop, dataChunks, hneed]
  | succ k ih =>
    rw [dataChunks] at hfuel ⊢
    by_cases hnil : data = []
    · subst hnil
      simp [readLoop, hneed]
    · rw [if_neg hnil] at hfuel ⊢
      have hpos := List.length_pos_iff.mpr hnil
      rw [List.length_append, length_chunk] at hfuel
      obtain ⟨fuel, rfl⟩ := Nat.exists_eq_succ_of_ne_zero (n := fuel) (by omega)
      rw [List.append_assoc, readLoop_chunk (by omega) (length_firstBody_lt data)
        (admits_dataBody (List.length_take_le ..)) content_dataBody,
        ih (length_drop_le hk) (need_after_chunk hneed) fuel (by omega),
        List.append_assoc, List.take_append_drop]

/-- If some of the chunks are missing, the stream ends. -/
lemma readLoop_dataChunks_cut {cut more : List UInt8} (hk : data.length ≤ k)
    (hfuel : cut.length < fuel) (hmore : more ≠ []) (e : cut ++ more = dataChunks k data)
    (hneed : need = acc.length + data.length) :
    readLoop fuel true need acc cut = .unexpectedEof := by
  induction k generalizing fuel data acc cut with
  | zero => exact absurd (List.append_eq_nil_iff.mp e).2 hmore
  | succ k ih =>
    obtain ⟨fuel, rfl⟩ := Nat.exists_eq_succ_of_ne_zero (Nat.ne_zero_of_lt hfuel)
    rw [dataChunks] at e
    by_cases hnil : data = []
    · rw [if_pos hnil] at e
      exact absurd (List.append_eq_nil_iff.mp e).2 hmore
    rw [if_neg hnil] at e
    have hpos := List.length_pos_iff.mpr hnil
    have hadmits : admits true 1 (dataBody (data.take 65536)).length = true :=
      admits_dataBody (List.length_take_le ..)
    have hsize := length_firstBody_lt data
    have hsplit : (∃ z, cut = chunk 1 (dataBody (data.take 65536)) ++ z ∧
        z ++ more = dataChunks k (data.drop 65536)) ∨
        readLoop (fuel + 1) true need acc cut = .unexpectedEof :=
      readLoop_cut_append (by omega) hsize hadmits e
    rcases hsplit with ⟨z, rfl, ez⟩ | heof
    · rw [List.length_append, length_chunk] at hfuel
      rw [readLoop_chunk (by omega) hsize hadmits content_dataBody,
        ih (length_drop_le hk) (by omega) ez (need_after_chunk hneed)]
    · exact heof

/-- The reader begins with the chunk that identifies the stream. -/
lemma readExact_magic (hneed : 0 < need) :
    readExact need (chunk 0xff magic ++ rest) = readLoop (10 + rest.length) true need [] rest := by
  have hlength : (chunk 0xff magic ++ rest).length = 10 + rest.length := List.length_append
  have hcontent : content 0xff magic = some [] := rfl
  rw [readExact, hlength, readLoop_chunk hneed (by decide) rfl hcontent, List.nil_append]

/-- A written stream is read, whatever comes after it. -/
lemma readExact_compress (data rest : List UInt8) :
    readExact data.length (compress data ++ rest) = .filled data rest := by
  by_cases hnil : data = []
  · subst hnil
    simp [readExact, readLoop, compress]
  · rw [compress, if_neg hnil, List.append_assoc, readExact_magic (List.length_pos_iff.mpr hnil)]
    refine readLoop_dataChunks (Nat.le_refl _) ?_ (by simp)
    rw [List.length_append]
    omega

/-- If bytes of a stream are missing, the reader comes to its end. -/
lemma readExact_cut {data cut more : List UInt8} (hmore : more ≠ [])
    (e : cut ++ more = compress data) : readExact data.length cut = .unexpectedEof := by
  rw [compress] at e
  by_cases hnil : data = []
  · rw [if_pos hnil] at e
    exact absurd (List.append_eq_nil_iff.mp e).2 hmore
  rw [if_neg hnil] at e
  have hpos : 0 < data.length := List.length_pos_iff.mpr hnil
  have hsplit : (∃ z, cut = chunk 0xff magic ++ z ∧ z ++ more = dataChunks data.length data) ∨
      readExact data.length cut = .unexpectedEof := readLoop_cut_append hpos (by decide) rfl e
  rcases hsplit with ⟨z, rfl, ez⟩ | heof
  · rw [readExact_magic hpos]
    exact readLoop_dataChunks_cut (Nat.le_refl _) (by omega) hmore ez (by simp)
  · exact heof

/-! ## Lengths -/

/-- Eight bytes are added for each chunk. -/
lemma length_dataChunks_le (k : Nat) (data : List UInt8) :
    (dataChunks k data).length ≤ data.length + data.length / 65536 * 8 + 8 := by
  induction k generalizing data with
  | zero => exact Nat.zero_le _
  | succ k ih =>
    rw [dataChunks]
    split
    case isTrue => exact Nat.zero_le _
    case isFalse hnil =>
      rw [List.length_append, length_chunk, length_dataBody, List.length_take]
      by_cases hlong : 65536 ≤ data.length
      · have hrest := ih (data.drop 65536)
        rw [List.length_drop] at hrest
        omega
      · have hdone : data.drop 65536 = [] := List.drop_of_length_le (by omega)
        have hnone : dataChunks k [] = [] := by cases k <;> rfl
        rw [hdone, hnone, List.length_nil]
        omega

lemma length_compress_le (data : List UInt8) :
    (compress data).length ≤ 32 + data.length + data.length / 6 := by
  rw [compress]
  split
  case isTrue => exact Nat.zero_le _
  case isFalse =>
    have := length_dataChunks_le data.length data
    rw [List.length_append, length_chunk, show magic.length = 6 from rfl]
    omega

lemma two_le_length_compress {data : List UInt8} (h : data ≠ []) :
    2 ≤ (compress data).length := by
  rw [compress, if_neg h, List.length_append, length_chunk]
  omega

lemma maxCompressLen_eq {n : Nat} (h : n ≤ 2 ^ 20) : maxCompressLen n = 32 + n + n / 6 := by
  rw [maxCompressLen, if_neg (by omega), if_neg (by omega)]

lemma maxCompressLen_le (n : Nat) : maxCompressLen n ≤ 32 + n + n / 6 := by
  rw [maxCompressLen]
  split_ifs
  · exact Nat.zero_le _
  · exact Nat.zero_le _
  · exact Nat.le_refl _

/-- The reader gives as many bytes as it is asked for. -/
lemma readLoop_filled {identified : Bool} {bytes data rest : List UInt8}
    (h : readLoop k identified need acc bytes = .filled data rest) : data.length = need := by
  induction k generalizing identified acc bytes with
  | zero => cases h
  | succ k ih =>
    simp only [readLoop] at h
    split at h
    case isTrue hneed =>
      cases h
      exact List.length_take_of_le hneed
    case isFalse =>
      split at h
      case isTrue => cases h
      case isFalse =>
        split at h
        case isTrue => cases h
        case isFalse =>
          split at h
          case isTrue => cases h
          case isFalse =>
            split at h
            case h_1 => exact ih h
            case h_2 => cases h

end Stream

end Alys.Lib.Snappy
