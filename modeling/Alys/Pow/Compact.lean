import Alys.Lib.Rounding
import Alys.Pow.Retarget
import Mathlib.Data.Nat.Bitwise

/-!
# Compact targets

A compact target is a number in scientific notation with base 256: an exponent of one byte and a
mantissa of three, whose highest bit is a sign and has to be clear. `target_to_compact_lossy` takes
the least exponent for which the mantissa fits and cuts off the digits below, so that the compact
form rounds a target down to the values that compact forms have.

The exponent of a target is described by what it is least for: the exponents from `exponent t` on
are those `e` with `2 * t < 256 ^ e`.
-/

namespace Alys
open Lib

/-! ## Exponent and mantissa -/

/-- The number of bytes of a target. -/
def byteSize (t : Nat) : Nat := (bitLength t + 7) / 8

/-- The number of bytes with a clear sign bit. -/
def exponent (t : Nat) : Nat := if 256 ^ byteSize t ≤ 2 * t then byteSize t + 1 else byteSize t

/-- The three leading bytes of a target of `e` bytes. -/
def mantissa (e t : Nat) : Nat := t * 256 ^ (3 - e) / 256 ^ (e - 3)

lemma two_pow_eight_mul (k : Nat) : 2 ^ (8 * k) = 256 ^ k := by rw [Nat.pow_mul]

lemma bitLength_le_iff {t n : Nat} : bitLength t ≤ n ↔ t < 2 ^ n := by
  unfold bitLength
  split
  case isTrue eq =>
    subst eq
    exact iff_of_true (Nat.zero_le n) (Nat.two_pow_pos n)
  case isFalse ne => exact Nat.log2_lt ne

lemma byteSize_le_iff {t s : Nat} : byteSize t ≤ s ↔ t < 256 ^ s := by
  rw [← two_pow_eight_mul, ← bitLength_le_iff]
  unfold byteSize
  omega

lemma exponent_le_iff {t e : Nat} : exponent t ≤ e ↔ 2 * t < 256 ^ e := by
  have hsize : t < 256 ^ byteSize t := byteSize_le_iff.mp le_rfl
  unfold exponent
  split
  case isTrue ge =>
    constructor
    · intro le
      have hpow := Nat.pow_le_pow_right (show 0 < 256 by decide) le
      rw [Nat.pow_succ] at hpow
      omega
    · intro lt
      exact (Nat.pow_lt_pow_iff_right (by decide)).mp (ge.trans_lt lt)
  case isFalse lt =>
    constructor
    · intro le
      have hpow := Nat.pow_le_pow_right (show 0 < 256 by decide) le
      omega
    · intro lt'
      exact byteSize_le_iff.mpr (by omega)

variable {t : Nat}

lemma two_mul_lt_exponent : 2 * t < 256 ^ exponent t := exponent_le_iff.mp le_rfl

lemma exponent_le (lt : t < 2 ^ 256) : exponent t ≤ 33 := by
  refine exponent_le_iff.mpr (lt_of_lt_of_le (Nat.mul_lt_mul_of_pos_left lt (by decide)) ?_)
  decide

lemma exponent_mono {s t : Nat} (le : s ≤ t) : exponent s ≤ exponent t := by
  have lt := two_mul_lt_exponent (t := t)
  exact exponent_le_iff.mpr (by omega)

lemma mantissa_lt_iff {e t c : Nat} : mantissa e t < c ↔ t * 256 ^ 3 < c * 256 ^ e := by
  unfold mantissa
  rw [Nat.div_lt_iff_lt_mul (Nat.pow_pos (by decide))]
  rcases Nat.le_total e 3 with le | ge
  · have hpow : 256 ^ 3 = 256 ^ (3 - e) * 256 ^ e := by rw [← Nat.pow_add, Nat.sub_add_cancel le]
    rw [Nat.sub_eq_zero_of_le le, Nat.pow_zero, Nat.mul_one, hpow, ← Nat.mul_assoc]
    exact (Nat.mul_lt_mul_right (Nat.pow_pos (by decide))).symm
  · have hpow : 256 ^ e = 256 ^ (e - 3) * 256 ^ 3 := by rw [← Nat.pow_add, Nat.sub_add_cancel ge]
    rw [Nat.sub_eq_zero_of_le ge, Nat.pow_zero, Nat.mul_one, hpow, ← Nat.mul_assoc]
    exact (Nat.mul_lt_mul_right (by decide)).symm

/-- The mantissa leaves the sign bit clear. -/
lemma mantissa_exponent_lt : mantissa (exponent t) t < 2 ^ 23 := by
  have lt := two_mul_lt_exponent (t := t)
  rw [mantissa_lt_iff]
  omega

lemma mantissa_mono {e s t : Nat} (le : s ≤ t) : mantissa e s ≤ mantissa e t :=
  Nat.div_le_div_right (Nat.mul_le_mul_right _ le)

/-- One more byte moves the mantissa to the right. -/
lemma mantissa_succ {e t : Nat} : mantissa (e + 1) t = mantissa e t / 256 := by
  unfold mantissa
  rcases Nat.lt_or_ge e 3 with lt | ge
  · have hpow : 256 ^ (3 - e) = 256 ^ (3 - (e + 1)) * 256 := by
      rw [← Nat.pow_succ]
      congr 1
      omega
    rw [Nat.sub_eq_zero_of_le lt, Nat.sub_eq_zero_of_le lt.le, hpow, Nat.pow_zero, Nat.div_one,
      Nat.div_one, ← Nat.mul_assoc, Nat.mul_div_cancel _ (by decide)]
  · rw [Nat.sub_eq_zero_of_le ge, Nat.sub_eq_zero_of_le (Nat.le_succ_of_le ge),
      Nat.div_div_eq_div_mul, ← Nat.pow_succ, Nat.succ_sub ge]

/-! ## Encoding -/

/-- The leading bytes as `target_to_compact_lossy` computes them. -/
lemma leadingBytes_eq :
    (if byteSize t ≤ 3 then
      ((t % 2 ^ 64) <<< (8 * (3 - byteSize t))) % 2 ^ 64 % 2 ^ 32
    else
      (t >>> (8 * (byteSize t - 3))) % 2 ^ 32) = mantissa (byteSize t) t := by
  have hsize : t < 256 ^ byteSize t := byteSize_le_iff.mp le_rfl
  have hlt : mantissa (byteSize t) t < 2 ^ 24 := by
    rw [mantissa_lt_iff, Nat.mul_comm]
    exact Nat.mul_lt_mul_of_pos_left hsize (by decide)
  split
  case isTrue le =>
    have ht : t < 256 ^ 3 := byteSize_le_iff.mp le
    have heq : mantissa (byteSize t) t = t * 256 ^ (3 - byteSize t) := by
      rw [mantissa, Nat.sub_eq_zero_of_le le, Nat.pow_zero, Nat.div_one]
    rw [Nat.mod_eq_of_lt (show t < 2 ^ 64 by omega), Nat.shiftLeft_eq, two_pow_eight_mul,
      ← heq]
    omega
  case isFalse gt =>
    have heq : mantissa (byteSize t) t = t / 256 ^ (byteSize t - 3) := by
      rw [mantissa, Nat.sub_eq_zero_of_le (Nat.le_of_not_le gt), Nat.pow_zero, Nat.mul_one]
    rw [Nat.shiftRight_eq_div_pow, two_pow_eight_mul, ← heq]
    omega

/-- The bit `0x00800000` of a number of three bytes. -/
lemma and_signBit {c : Nat} (lt : c < 2 ^ 24) : c &&& 0x00800000 ≠ 0 ↔ 2 ^ 23 ≤ c := by
  have hbit : c &&& 2 ^ 23 = (c.testBit 23).toNat * 2 ^ 23 := Nat.and_two_pow c 23
  rw [show (0x00800000 : Nat) = 2 ^ 23 by decide, hbit, Nat.testBit_eq_decide_div_mod_eq]
  by_cases ge : 2 ^ 23 ≤ c
  · rw [decide_eq_true (by omega)]
    simpa using ge
  · rw [decide_eq_false (by omega)]
    simpa using ge

/-- An exponent and a mantissa side by side. -/
lemma or_exponent {m e : Nat} (hm : m < 2 ^ 24) (he : e < 2 ^ 8) :
    m ||| (e <<< 24) % 2 ^ 32 = e * 2 ^ 24 + m := by
  have hlt : e <<< 24 < 2 ^ 32 := by
    rw [Nat.shiftLeft_eq]
    omega
  rw [Nat.mod_eq_of_lt hlt, Nat.or_comm, ← Nat.shiftLeft_add_eq_or_of_lt hm, Nat.shiftLeft_eq]

lemma targetToCompactLossy_eq (lt : t < 2 ^ 256) :
    targetToCompactLossy t = exponent t * 2 ^ 24 + mantissa (exponent t) t := by
  have hsize : t < 256 ^ byteSize t := byteSize_le_iff.mp le_rfl
  have hsize_le : byteSize t ≤ 32 := byteSize_le_iff.mpr lt
  have hlt : mantissa (byteSize t) t < 2 ^ 24 := by
    rw [mantissa_lt_iff, Nat.mul_comm]
    exact Nat.mul_lt_mul_of_pos_left hsize (by decide)
  have hsign : 2 ^ 23 ≤ mantissa (byteSize t) t ↔ 256 ^ byteSize t ≤ 2 * t := by
    rw [← Nat.not_lt, mantissa_lt_iff]
    omega
  unfold targetToCompactLossy
  rw [← byteSize]
  simp only [leadingBytes_eq, and_signBit hlt, hsign]
  unfold exponent
  split
  case isTrue sign =>
    rw [Nat.shiftRight_eq_div_pow, ← mantissa_succ, or_exponent _ (by omega)]
    rw [mantissa_succ]
    omega
  case isFalse => exact or_exponent hlt (by omega)

lemma targetToCompactLossy_lt (lt : t < 2 ^ 256) : targetToCompactLossy t < 2 ^ 32 := by
  have hexp := exponent_le lt
  have hmant := mantissa_exponent_lt (t := t)
  rw [targetToCompactLossy_eq lt]
  omega

lemma targetToCompactLossy_mono {s t : Nat} (le : s ≤ t) (lt : t < 2 ^ 256) :
    targetToCompactLossy s ≤ targetToCompactLossy t := by
  rw [targetToCompactLossy_eq (le.trans_lt lt), targetToCompactLossy_eq lt]
  have hmant := mantissa_exponent_lt (t := s)
  rcases (exponent_mono le).lt_or_eq with hexp | hexp
  · omega
  · rw [hexp]
    exact Nat.add_le_add_left (mantissa_mono le) _

/-! ## Decoding -/

/-- What a compact form can stand for. -/
lemma uint256TargetFromCompact_cases (bits : Nat) :
    bits / 2 ^ 24 ≤ 3 ∧ uint256TargetFromCompact bits < 2 ^ 23 ∨
      3 < bits / 2 ^ 24 ∧ ∃ m < 2 ^ 23,
        uint256TargetFromCompact bits = m * 256 ^ (bits / 2 ^ 24 - 3) % 2 ^ 256 := by
  unfold uint256TargetFromCompact
  simp only [Nat.shiftRight_eq_div_pow]
  by_cases le : bits / 2 ^ 24 ≤ 3
  · simp only [if_pos le]
    refine .inl ⟨le, ?_⟩
    split
    case isTrue => decide
    case isFalse ge =>
      rw [Nat.shiftLeft_zero]
      exact (Nat.mod_le _ _).trans_lt (by omega)
  · simp only [if_neg le]
    refine .inr ⟨Nat.lt_of_not_le le, ?_⟩
    split
    case isTrue => exact ⟨0, by decide, by simp⟩
    case isFalse ge =>
      refine ⟨bits &&& 0xFFFFFF, by omega, ?_⟩
      rw [Nat.shiftLeft_eq, two_pow_eight_mul]

lemma uint256TargetFromCompact_lt (bits : Nat) : uint256TargetFromCompact bits < 2 ^ 256 := by
  rcases uint256TargetFromCompact_cases bits with ⟨_, lt⟩ | ⟨_, m, _, e⟩
  · exact lt.trans (Nat.pow_lt_pow_right (by decide) (by decide))
  · rw [e]
    exact Nat.mod_lt _ (Nat.two_pow_pos 256)

/-- The target of a mantissa with a clear sign bit. -/
lemma uint256TargetFromCompact_eq {bits e m : Nat} (hexp : bits / 2 ^ 24 = e)
    (hmant : bits % 2 ^ 24 = m) (hm : m < 2 ^ 23) :
    uint256TargetFromCompact bits = m * 256 ^ (e - 3) / 256 ^ (3 - e) % 2 ^ 256 := by
  have hand : bits &&& 0xFFFFFF = m := by
    rw [show (0xFFFFFF : Nat) = 2 ^ 24 - 1 by decide, Nat.and_two_pow_sub_one_eq_mod, hmant]
  unfold uint256TargetFromCompact
  simp only [Nat.shiftRight_eq_div_pow, hexp, hand]
  by_cases le : e ≤ 3
  · have hle := Nat.div_le_self m (2 ^ (8 * (3 - e)))
    simp only [if_pos le]
    rw [if_neg (by omega), Nat.shiftLeft_zero, Nat.sub_eq_zero_of_le le, Nat.pow_zero,
      Nat.mul_one, two_pow_eight_mul]
  · simp only [if_neg le]
    rw [if_neg (by omega), Nat.shiftLeft_eq, Nat.sub_eq_zero_of_le (Nat.le_of_not_le le),
      Nat.pow_zero, Nat.div_one, two_pow_eight_mul]

/-! ## Rounding -/

/-- The targets that compact forms have. -/
def compactTargets : Set Nat := {v | ∃ bits < 2 ^ 32, uint256TargetFromCompact bits = v}

/-- Encoding and decoding cuts off the digits below the mantissa. -/
lemma compact_roundTrip (lt : t < 2 ^ 256) :
    uint256TargetFromCompact (targetToCompactLossy t) =
      t / 256 ^ (exponent t - 3) * 256 ^ (exponent t - 3) := by
  have hle := Nat.div_mul_le_self t (256 ^ (exponent t - 3))
  have hm := mantissa_exponent_lt (t := t)
  have hbits := targetToCompactLossy_eq lt
  rw [uint256TargetFromCompact_eq (e := exponent t) (by omega) (by omega) hm, mantissa]
  rcases Nat.le_total (exponent t) 3 with le | ge
  · rw [Nat.sub_eq_zero_of_le le, Nat.pow_zero, Nat.div_one, Nat.mul_one, Nat.div_one, Nat.mul_one,
      Nat.mul_div_cancel _ (Nat.pow_pos (by decide)), Nat.mod_eq_of_lt lt]
  · rw [Nat.sub_eq_zero_of_le ge, Nat.pow_zero, Nat.mul_one, Nat.div_one,
      Nat.mod_eq_of_lt (hle.trans_lt lt)]

/-- A target of four bytes or more is at least as large as the least one with its exponent, which is
a multiple of the unit of its mantissa. -/
lemma exponent_lower {t k : Nat} (h : exponent t = k + 4) :
    2 ^ 23 * 256 ^ k ≤ t ∧ 256 ^ (k + 1) ∣ 2 ^ 23 * 256 ^ k := by
  constructor
  · have hge : ¬ 2 * t < 256 ^ (k + 3) := by
      rw [← exponent_le_iff]
      omega
    rw [Nat.pow_add] at hge
    omega
  · rw [Nat.pow_succ, Nat.mul_comm]
    exact Nat.mul_dvd_mul (by decide) dvd_rfl

/-- Compact targets round down. -/
lemma compact_roundsDown :
    RoundsDown compactTargets {t | t < 2 ^ 256}
      (fun t => uint256TargetFromCompact (targetToCompactLossy t)) := by
  intro t lt
  have lt : t < 2 ^ 256 := lt
  have mem : t / 256 ^ (exponent t - 3) * 256 ^ (exponent t - 3) ∈ compactTargets :=
    ⟨targetToCompactLossy t, targetToCompactLossy_lt lt, compact_roundTrip lt⟩
  have hexp := exponent_le lt
  simp only [compact_roundTrip lt]
  rcases Nat.lt_or_ge (exponent t) 4 with small | large
  · -- a target of three bytes is not rounded
    have hunit : 256 ^ (exponent t - 3) = 1 := by
      rw [Nat.sub_eq_zero_of_le (by omega), Nat.pow_zero]
    rw [hunit] at mem ⊢
    exact isGreatest_div_mul mem le_rfl (one_dvd t) fun v _ => .inr (one_dvd v)
  · obtain ⟨k, hk⟩ : ∃ k, exponent t = k + 4 := ⟨exponent t - 4, by omega⟩
    have hunit : exponent t - 3 = k + 1 := by omega
    rw [hunit] at mem ⊢
    obtain ⟨hlow, hdvd⟩ := exponent_lower hk
    refine isGreatest_div_mul mem hlow hdvd ?_
    rintro v ⟨bits, _, rfl⟩
    rcases uint256TargetFromCompact_cases bits with ⟨_, hv⟩ | ⟨_, m, hm, hv⟩
    · have hpos : 0 < 256 ^ k := Nat.pow_pos (by decide)
      exact .inl (by omega)
    · rw [hv]
      rcases Nat.lt_or_ge (bits / 2 ^ 24 - 3) (k + 1) with below | above
      · -- a smaller exponent: below the least target with this exponent
        have hpow := Nat.pow_le_pow_right (show 0 < 256 by decide) (Nat.le_of_lt_succ below)
        exact .inl ((Nat.mod_le _ _).trans (Nat.mul_le_mul hm.le hpow))
      · -- the same or a larger one: a multiple of the unit, also after an overflow
        refine .inr ((Nat.dvd_mod_iff ?_).mpr ?_)
        · rw [show (2 ^ 256 : Nat) = 256 ^ 32 by decide]
          exact Nat.pow_dvd_pow 256 (by omega)
        · exact (Nat.pow_dvd_pow 256 above).mul_left m

/-- The encoding cuts off less than one part in 2 ^ 15: the mantissa keeps at least 15 bits. -/
lemma compact_precise (lt : t < 2 ^ 256) :
    t ≤ uint256TargetFromCompact (targetToCompactLossy t) + t / 2 ^ 15 := by
  rw [compact_roundTrip lt]
  rcases Nat.lt_or_ge (exponent t) 4 with small | large
  · rw [Nat.sub_eq_zero_of_le (by omega), Nat.pow_zero, Nat.div_one, Nat.mul_one]
    exact Nat.le_add_right _ _
  · obtain ⟨k, hk⟩ : ∃ k, exponent t = k + 4 := ⟨exponent t - 4, by omega⟩
    have hlow := (exponent_lower hk).1
    have hunit : 256 ^ (exponent t - 3) = 256 * 256 ^ k := by
      rw [hk, show k + 4 - 3 = k + 1 by omega, Nat.pow_succ, Nat.mul_comm]
    have hpos : 0 < 256 ^ (exponent t - 3) := Nat.pow_pos (by decide)
    have hrest := Nat.mod_lt t hpos
    have hsplit := Nat.div_add_mod' t (256 ^ (exponent t - 3))
    omega

/-- The greatest target that has a compact form. -/
def greatestTarget : Nat := 2 ^ 256 - 2 ^ 240

/-- `greatestTarget` is what the greatest number of 256 bits is rounded to. -/
lemma greatestTarget_eq :
    uint256TargetFromCompact (targetToCompactLossy (2 ^ 256 - 1)) = greatestTarget := by decide

/-- A rounded target has the same exponent. -/
lemma exponent_rounded :
    exponent (t / 256 ^ (exponent t - 3) * 256 ^ (exponent t - 3)) = exponent t := by
  refine (exponent_mono (Nat.div_mul_le_self t _)).antisymm ?_
  rcases Nat.lt_or_ge (exponent t) 4 with small | large
  · rw [Nat.sub_eq_zero_of_le (by omega), Nat.pow_zero, Nat.div_one, Nat.mul_one]
  · obtain ⟨k, hk⟩ : ∃ k, exponent t = k + 4 := ⟨exponent t - 4, by omega⟩
    obtain ⟨hlow, hdvd⟩ := exponent_lower hk
    have hle := le_div_mul_of_dvd hdvd hlow
    rw [hk, show k + 4 - 3 = k + 1 by omega]
    by_contra lt
    have hlt := exponent_le_iff.mp (Nat.le_of_lt_succ (Nat.lt_of_not_le lt))
    have hpow : 256 ^ (k + 3) = 256 ^ 3 * 256 ^ k := by rw [Nat.pow_add, Nat.mul_comm]
    rw [hpow] at hlt
    omega

/-- A rounded target has the compact form of the target. -/
lemma compact_stable (lt : t < 2 ^ 256) :
    targetToCompactLossy (uint256TargetFromCompact (targetToCompactLossy t)) =
      targetToCompactLossy t := by
  have hle := Nat.div_mul_le_self t (256 ^ (exponent t - 3))
  have hpos : 0 < 256 ^ (exponent t - 3) := Nat.pow_pos (by decide)
  rw [compact_roundTrip lt, targetToCompactLossy_eq (hle.trans_lt lt), exponent_rounded,
    targetToCompactLossy_eq lt]
  congr 1
  unfold mantissa
  rcases Nat.le_total (exponent t) 3 with le | ge
  · rw [Nat.sub_eq_zero_of_le le, Nat.pow_zero, Nat.div_one, Nat.div_one, Nat.mul_one, Nat.div_one]
  · rw [Nat.sub_eq_zero_of_le ge, Nat.pow_zero, Nat.mul_one, Nat.mul_one,
      Nat.mul_div_cancel _ hpos]

/-- The compact form of a target stands for the greatest target up to it that has a compact form.
The compact form grows with the target, and it is the compact form of what it stands for. -/
theorem compact_greatest {t : Nat} (lt : t < 2 ^ 256) :
    IsGreatest
      {v | (∃ bits < 2 ^ 32, uint256TargetFromCompact bits = v) ∧ v ≤ t}
      (uint256TargetFromCompact (targetToCompactLossy t)) ∧
    (∀ s ≤ t, targetToCompactLossy s ≤ targetToCompactLossy t) ∧
    targetToCompactLossy (uint256TargetFromCompact (targetToCompactLossy t)) =
      targetToCompactLossy t :=
  ⟨compact_roundsDown t lt, fun _ le => targetToCompactLossy_mono le lt, compact_stable lt⟩

/-- The greatest target: the sign bit costs a byte of precision. -/
theorem compact_greatest_max :
    2 ^ 256 - 1 < 2 ^ 256 ∧ uint256TargetFromCompact (targetToCompactLossy (2 ^ 256 - 1)) =
      2 ^ 256 - 2 ^ 240 ∧
    targetToCompactLossy (2 ^ 256 - 2 ^ 240) = targetToCompactLossy (2 ^ 256 - 1) := by
  have h := compact_greatest (t := 2 ^ 256 - 1) (by decide)
  have hvalue : uint256TargetFromCompact (targetToCompactLossy (2 ^ 256 - 1)) =
      2 ^ 256 - 2 ^ 240 := by decide
  rw [hvalue] at h
  exact ⟨by decide, hvalue, h.2.2⟩

end Alys
