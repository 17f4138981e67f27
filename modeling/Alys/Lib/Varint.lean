import Mathlib.Tactic.Common
import Mathlib.Algebra.GroupWithZero.Nat

/-!
# Numbers of variable length

Numbers of 64 bits as bytes of seven bits each, the lowest first; every byte but the last has its
highest bit set. The decoder tells a number that is cut short from one that is too long or not in
its shortest form.
-/

namespace Alys.Lib.Varint

/-- The loop of the encoder, over the places that are left of the buffer. -/
def encodeLoop : Nat → Nat → List UInt8
  | 0, _ => []
  | room + 1, n =>
    if n < 128 then [UInt8.ofNat n] else UInt8.ofNat (n % 128 + 128) :: encodeLoop room (n / 128)

/-- The bytes of a number of 64 bits, of which there are ten at most. -/
def encode (n : Nat) : List UInt8 := encodeLoop 10 n

inductive Error where
  | insufficient
  | overflow
  | notMinimal
  deriving DecidableEq

/-- The loop of the decoder, at the byte of the given index. -/
def decodeFrom (i acc : Nat) : List UInt8 → Except Error (Nat × List UInt8)
  | [] => .error .insufficient
  | b :: rest =>
    let n := (acc + b.toNat % 128 * 2 ^ (7 * i)) % 2 ^ 64
    if b.toNat < 128 then
      if b = 0 ∧ 0 < i then .error .notMinimal else .ok (n, rest)
    else if i = 9 then .error .overflow
    else decodeFrom (i + 1) n rest

/-- The number at the front and the bytes after it. -/
def decode (bytes : List UInt8) : Except Error (Nat × List UInt8) := decodeFrom 0 0 bytes

lemma encode_ne_nil (n : Nat) : encode n ≠ [] := by
  rw [encode, encodeLoop]
  split <;> exact List.cons_ne_nil _ _

lemma toNat_ofNat_low {n : Nat} (h : n < 128) : (UInt8.ofNat n).toNat = n := by
  rw [UInt8.toNat_ofNat']
  omega

lemma toNat_ofNat_more (n : Nat) : (UInt8.ofNat (n % 128 + 128)).toNat = n % 128 + 128 := by
  rw [UInt8.toNat_ofNat']
  omega

/-- A number of which the bytes from the given index on follow is not over at the tenth byte. -/
lemma index_lt {i n : Nat} (h : n * 2 ^ (7 * i) < 2 ^ 64) (hn : 128 ≤ n) : i < 9 := by
  by_contra hi
  have hpow : 2 ^ (7 * 9) ≤ 2 ^ (7 * i) := Nat.pow_le_pow_right (by omega) (by omega)
  have := Nat.mul_le_mul hn hpow
  omega

/-- What a byte that is not the last one leaves of a number. -/
lemma split_number (n i : Nat) :
    n % 128 * 2 ^ (7 * i) + n / 128 * 2 ^ (7 * (i + 1)) = n * 2 ^ (7 * i) := by
  have hpow : 2 ^ (7 * (i + 1)) = 128 * 2 ^ (7 * i) := by
    rw [Nat.mul_add, Nat.pow_add, Nat.mul_comm]
  rw [hpow, ← Nat.mul_assoc, ← Nat.add_mul, Nat.mul_comm (n / 128), Nat.mod_add_div]

/-- The loop on the remaining bytes of a number. -/
lemma decodeFrom_encodeLoop {room i acc n : Nat} (rest : List UInt8) (hroom : i + room = 10)
    (hn : 0 < n ∨ i = 0) (h : acc + n * 2 ^ (7 * i) < 2 ^ 64) :
    decodeFrom i acc (encodeLoop room n ++ rest) = .ok (acc + n * 2 ^ (7 * i), rest) := by
  induction room generalizing i acc n with
  | zero =>
    obtain rfl : i = 10 := by omega
    omega
  | succ room ih =>
    rw [encodeLoop]
    split
    case isTrue small =>
      have hb := toNat_ofNat_low small
      have hzero : ¬ (UInt8.ofNat n = 0 ∧ 0 < i) := by
        rintro ⟨e, hi⟩
        rw [e] at hb
        have : n = 0 := hb.symm
        omega
      rw [List.singleton_append, decodeFrom, hb, if_pos small, if_neg hzero, Nat.mod_eq_of_lt small,
        Nat.mod_eq_of_lt h]
    case isFalse large =>
      have hi : i < 9 := index_lt (Nat.lt_of_le_of_lt (Nat.le_add_left _ _) h) (Nat.not_lt.mp large)
      have hsplit := split_number n i
      have hlow : acc + n % 128 * 2 ^ (7 * i) < 2 ^ 64 := by omega
      rw [List.cons_append, decodeFrom, toNat_ofNat_more, if_neg (by omega), if_neg (by omega),
        Nat.add_mod_right, Nat.mod_mod, Nat.mod_eq_of_lt hlow,
        ih (by omega) (by omega) (by omega)]
      rw [Nat.add_assoc, hsplit]

/-- The loop on some but not all of the remaining bytes of a number. -/
lemma decodeFrom_cut {room i acc n : Nat} {cut : List UInt8} (h : n * 2 ^ (7 * i) < 2 ^ 64)
    (hcut : cut <+: encodeLoop room n) (hne : cut ≠ encodeLoop room n) :
    decodeFrom i acc cut = .error .insufficient := by
  induction room generalizing i acc n cut with
  | zero => exact absurd (List.prefix_nil.mp hcut) hne
  | succ room ih =>
    cases cut with
    | nil => rfl
    | cons b cut =>
      rw [encodeLoop] at hcut hne
      split at hcut
      case isTrue small =>
        obtain ⟨rfl, hnil⟩ := List.cons_prefix_cons.mp hcut
        rw [List.prefix_nil.mp hnil, if_pos small] at hne
        exact absurd rfl hne
      case isFalse large =>
        obtain ⟨rfl, hrest⟩ := List.cons_prefix_cons.mp hcut
        have hi := index_lt h (Nat.not_lt.mp large)
        have hsplit := split_number n i
        rw [if_neg large] at hne
        rw [decodeFrom, toNat_ofNat_more, if_neg (by omega), if_neg (by omega)]
        exact ih (by omega) hrest fun e => hne (e ▸ rfl)

lemma decode_encode {n : Nat} (h : n < 2 ^ 64) (rest : List UInt8) :
    decode (encode n ++ rest) = .ok (n, rest) := by
  rw [decode, encode, decodeFrom_encodeLoop rest rfl (.inr rfl) (by omega), Nat.mul_zero,
    Nat.pow_zero, Nat.mul_one, Nat.zero_add]

/-- A number that is cut short is waited for. -/
lemma decode_cut {n : Nat} {cut : List UInt8} (h : n < 2 ^ 64) (hcut : cut <+: encode n)
    (hne : cut ≠ encode n) : decode cut = .error .insufficient :=
  decodeFrom_cut (by omega) hcut hne

lemma decodeFrom_insufficient {i acc : Nat} {bytes : List UInt8} (hi : i ≤ 9)
    (h : decodeFrom i acc bytes = .error .insufficient) : i + bytes.length ≤ 9 := by
  induction bytes generalizing i acc with
  | nil => exact hi
  | cons b rest ih =>
    rw [decodeFrom] at h
    split at h
    · split at h <;> cases h
    · split at h
      · cases h
      · have := ih (by omega) h
        rw [List.length_cons]
        omega

/-- The decoder waits for ten bytes at most. -/
lemma decode_insufficient {bytes : List UInt8} (h : decode bytes = .error .insufficient) :
    bytes.length ≤ 9 := by
  have := decodeFrom_insufficient (Nat.zero_le 9) h
  omega

end Alys.Lib.Varint
