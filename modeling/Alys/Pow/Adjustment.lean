import Alys.Lib.Action
import Alys.Lib.Run
import Alys.Pow.Compact

/-!
# Retargeting

What `calculate_next_work_required` and `get_next_work_required` do to the target, over all
distances to the last block with an AuxPow and over whole chains of such blocks.

The clamp of the ratio is not symmetric: above 1 it is cut at `1 + max_pow_adjustment`, below 1 at
`max_pow_adjustment` and not at `1 - max_pow_adjustment`. Neither function reads the limits of the
parameters.
-/

namespace Alys
open Lib

/-! ## The percentage -/

lemma divRoundEven_mono {a b n : Nat} (le : a ≤ b) : divRoundEven a n ≤ divRoundEven b n := by
  have hdiv : a / n ≤ b / n := Nat.div_le_div_right le
  have hmod : a / n = b / n → a % n ≤ b % n := by
    intro eq
    have ha := Nat.div_add_mod a n
    have hb := Nat.div_add_mod b n
    rw [eq] at ha
    omega
  unfold divRoundEven
  simp only
  split_ifs <;> omega

/-- The ratio in percent, before the clamp. -/
def ratioPercentage (auxpowHeightDifference : Nat) (params : BitcoinConsensusParams) : Nat :=
  divRoundEven (100 * auxpowHeightDifference) params.powTargetSpacing

lemma adjustmentPercentage_eq (d : Nat) (params : BitcoinConsensusParams) :
    adjustmentPercentage d params =
      if ratioPercentage d params < 100 then min (ratioPercentage d params) params.maxPowAdjustment
      else if 100 < ratioPercentage d params then
        min (ratioPercentage d params) (params.maxPowAdjustment + 100)
      else ratioPercentage d params := rfl

lemma adjustmentPercentage_le (d : Nat) (params : BitcoinConsensusParams) :
    adjustmentPercentage d params ≤ 100 + params.maxPowAdjustment := by
  rw [adjustmentPercentage_eq]
  split_ifs <;> omega

variable {params : BitcoinConsensusParams}

/-- The clamp keeps the order on both sides of 1. -/
lemma adjustmentPercentage_mono {d₁ d₂ : Nat} (le : d₁ ≤ d₂) :
    adjustmentPercentage d₁ params ≤ adjustmentPercentage d₂ params := by
  have hratio : ratioPercentage d₁ params ≤ ratioPercentage d₂ params :=
    divRoundEven_mono (Nat.mul_le_mul_left 100 le)
  rw [adjustmentPercentage_eq, adjustmentPercentage_eq]
  split_ifs <;> omega

/-! ## One adjustment -/

/-- The saturated number has 256 bits. -/
lemma saturated_lt (target : Nat) : min target (2 ^ 256 - 1) < 2 ^ 256 :=
  (Nat.min_le_right _ _).trans_lt (Nat.sub_lt (Nat.two_pow_pos 256) Nat.one_pos)

/-- The adjusted target of `calculate_next_work_required`, before it is encoded. -/
def adjustedTarget (auxpowHeightDifference lastBits : Nat) (params : BitcoinConsensusParams) :
    Nat :=
  min (uint256TargetFromCompact lastBits / 100 *
    adjustmentPercentage auxpowHeightDifference params) (2 ^ 256 - 1)

lemma adjustedTarget_lt (d lastBits : Nat) (params : BitcoinConsensusParams) :
    adjustedTarget d lastBits params < 2 ^ 256 := saturated_lt _

variable {d₁ d₂ lastBits : Nat}

lemma adjustedTarget_mono (le : d₁ ≤ d₂) :
    adjustedTarget d₁ lastBits params ≤ adjustedTarget d₂ lastBits params :=
  min_le_min_right _ (Nat.mul_le_mul_left _ (adjustmentPercentage_mono le))

/-- The order survives the encoding. -/
lemma encodedTarget_mono (le : d₁ ≤ d₂) :
    uint256TargetFromCompact (targetToCompactLossy (adjustedTarget d₁ lastBits params)) ≤
      uint256TargetFromCompact (targetToCompactLossy (adjustedTarget d₂ lastBits params)) :=
  compact_roundsDown.mono (adjustedTarget_lt d₁ lastBits params)
    (adjustedTarget_lt d₂ lastBits params) (adjustedTarget_mono le)

/-- A result of `calculate_next_work_required`: a difference of zero counts as one. -/
lemma calculateNextWorkRequired_ok_iff {d lastBits bits : Nat} :
    calculateNextWorkRequired d lastBits params = .ok bits ↔
      params.powTargetSpacing ≠ 0 ∧ adjustmentPercentage (max d 1) params ≤ 255 ∧
        bits = targetToCompactLossy (adjustedTarget (max d 1) lastBits params) := by
  have hd : (if d = 0 then 1 else d) = max d 1 := by
    split_ifs <;> omega
  unfold calculateNextWorkRequired
  simp only [hd]
  by_cases hspacing : params.powTargetSpacing = 0
  · simp [hspacing]
  · by_cases hfits : 255 < adjustmentPercentage (max d 1) params
    · simp [hspacing, hfits]
    · rw [if_neg hspacing, if_neg hfits, Except.ok.injEq, eq_comm]
      exact ⟨fun e => ⟨hspacing, Nat.le_of_not_lt hfits, e⟩, fun h => h.2.2⟩

/-- The percentage lies within the configured adjustment exactly if the ratio is at least 1, or at
least the lower bound while the cut for small ratios lies above that bound. -/
lemma adjustmentPercentage_lower_iff {d : Nat} :
    100 - params.maxPowAdjustment ≤ adjustmentPercentage d params ↔
      100 ≤ ratioPercentage d params ∨
        50 ≤ params.maxPowAdjustment ∧
          100 - params.maxPowAdjustment ≤ ratioPercentage d params := by
  rw [adjustmentPercentage_eq]
  split_ifs <;> omega

/-- An adjustment always returns. It stays within the configured percentage exactly if the target
has no full percent, the ratio is at least 1, or `adjustmentPercentage_lower_iff` leaves room. -/
theorem adjustedTarget_bounded_iff {d lastBits : Nat} {params : BitcoinConsensusParams}
    (hspacing : 1 ≤ params.powTargetSpacing) (hpos : 1 ≤ params.maxPowAdjustment)
    (hle : params.maxPowAdjustment ≤ 100) (hd : 1 ≤ d) :
    calculateNextWorkRequired d lastBits params =
      .ok (targetToCompactLossy (adjustedTarget d lastBits params)) ∧
    (uint256TargetFromCompact lastBits / 100 * (100 - params.maxPowAdjustment) ≤
        adjustedTarget d lastBits params ∧
      adjustedTarget d lastBits params ≤
        uint256TargetFromCompact lastBits / 100 * (100 + params.maxPowAdjustment) ↔
      uint256TargetFromCompact lastBits < 100 ∨ 100 ≤ ratioPercentage d params ∨
        50 ≤ params.maxPowAdjustment ∧
          100 - params.maxPowAdjustment ≤ ratioPercentage d params) := by
  have hpercentage := adjustmentPercentage_le d params
  constructor
  · rw [calculateNextWorkRequired_ok_iff, Nat.max_eq_left hd]
    exact ⟨by omega, by omega, rfl⟩
  · -- the upper bound always holds, and the saturation does not touch the lower one
    have hupper : adjustedTarget d lastBits params ≤
        uint256TargetFromCompact lastBits / 100 * (100 + params.maxPowAdjustment) :=
      (Nat.min_le_left _ _).trans (Nat.mul_le_mul_left _ hpercentage)
    have hsaturated : uint256TargetFromCompact lastBits / 100 * (100 - params.maxPowAdjustment) ≤
        2 ^ 256 - 1 := by
      have hlt := uint256TargetFromCompact_lt lastBits
      have hmul : uint256TargetFromCompact lastBits / 100 * (100 - params.maxPowAdjustment) ≤
          uint256TargetFromCompact lastBits / 100 * 100 := Nat.mul_le_mul_left _ (by omega)
      exact Nat.le_sub_one_of_lt ((hmul.trans (Nat.div_mul_le_self _ 100)).trans_lt hlt)
    rw [and_iff_left hupper, adjustedTarget, le_min_iff, and_iff_left hsaturated,
      ← adjustmentPercentage_lower_iff]
    rcases Nat.lt_or_ge (uint256TargetFromCompact lastBits) 100 with small | large
    · simp [Nat.div_eq_of_lt small, small]
    · have hdiv : 0 < uint256TargetFromCompact lastBits / 100 := Nat.div_pos large (by decide)
      rw [Nat.mul_le_mul_left_iff hdiv, or_iff_right (Nat.not_lt.mpr large)]

/-- Bitcoin's parameters (Rust `BITCOIN_MAINNET`). -/
def BitcoinConsensusParams.bitcoinMainnet : BitcoinConsensusParams where
  powLimit := 486604799
  powLowerLimit := 439495319
  powTargetTimespan := 14 * 24 * 60 * 60
  powTargetSpacing := 10 * 60
  powNoRetargeting := false
  maxPowAdjustment := 20

/-- Twice the spacing: the target of Bitcoin's genesis block grows by a fifth. -/
theorem adjustedTarget_bounded_easier :
    let params := BitcoinConsensusParams.bitcoinMainnet
    calculateNextWorkRequired 1200 0x1d00ffff params = .ok 0x1d013331 ∧
    adjustedTarget 1200 0x1d00ffff params = 0xffff * 2 ^ 208 / 100 * 120 ∧
    adjustedTarget 1200 0x1d00ffff params ≤ uint256TargetFromCompact 0x1d00ffff / 100 * 120 := by
  intro params
  have h := @adjustedTarget_bounded_iff 1200 0x1d00ffff params
    (by decide) (by decide) (by decide) (by decide)
  have hvalue : adjustedTarget 1200 0x1d00ffff params = 0xffff * 2 ^ 208 / 100 * 120 := by decide
  refine ⟨?_, hvalue, (h.2.mpr (.inr (.inl (by decide)))).2⟩
  rw [h.1, hvalue]
  decide

/-- A tenth of the spacing: the target falls to a tenth, not by a fifth. -/
theorem adjustedTarget_bounded_fails :
    ¬ ∀ (d lastBits : Nat) (params : BitcoinConsensusParams), 1 ≤ params.powTargetSpacing →
      1 ≤ params.maxPowAdjustment → params.maxPowAdjustment ≤ 100 → 1 ≤ d →
      (∃ bits, calculateNextWorkRequired d lastBits params = .ok bits) ∧
      uint256TargetFromCompact lastBits / 100 * (100 - params.maxPowAdjustment) ≤
        adjustedTarget d lastBits params ∧
      adjustedTarget d lastBits params ≤
        uint256TargetFromCompact lastBits / 100 * (100 + params.maxPowAdjustment) := by
  intro h
  have hfail := (h 60 0x1d00ffff .bitcoinMainnet (by decide) (by decide) (by decide)
    (by decide)).2.1
  revert hfail
  decide

/-- A larger distance to the last AuxPow never makes the required target smaller. -/
theorem calculateNextWorkRequired_mono {d₁ d₂ lastBits bits₁ bits₂ : Nat}
    {params : BitcoinConsensusParams} (le : d₁ ≤ d₂)
    (e₁ : calculateNextWorkRequired d₁ lastBits params = .ok bits₁)
    (e₂ : calculateNextWorkRequired d₂ lastBits params = .ok bits₂) :
    uint256TargetFromCompact bits₁ ≤ uint256TargetFromCompact bits₂ ∧ bits₁ ≤ bits₂ := by
  obtain ⟨_, _, rfl⟩ := calculateNextWorkRequired_ok_iff.mp e₁
  obtain ⟨_, _, rfl⟩ := calculateNextWorkRequired_ok_iff.mp e₂
  have hle : max d₁ 1 ≤ max d₂ 1 := max_le_max_right 1 le
  exact ⟨encodedTarget_mono hle,
    targetToCompactLossy_mono (adjustedTarget_mono hle) (adjustedTarget_lt _ _ _)⟩

/-- Below and above the spacing. -/
theorem calculateNextWorkRequired_mono_mainnet :
    calculateNextWorkRequired 60 0x1d00ffff .bitcoinMainnet = .ok 0x1c19997f ∧
    calculateNextWorkRequired 1200 0x1d00ffff .bitcoinMainnet = .ok 0x1d013331 ∧
    uint256TargetFromCompact 0x1c19997f ≤ uint256TargetFromCompact 0x1d013331 := by
  have e₁ : calculateNextWorkRequired 60 0x1d00ffff .bitcoinMainnet = .ok 0x1c19997f := by decide
  have e₂ : calculateNextWorkRequired 1200 0x1d00ffff .bitcoinMainnet = .ok 0x1d013331 := by decide
  exact ⟨e₁, e₂, (calculateNextWorkRequired_mono (by decide) e₁ e₂).1⟩

/-! ## The required target at a head -/

/-- The distance that `get_next_work_required` computes, cut to 32 bits. -/
def heightDifference (indexLast : ConsensusBlock) (chainHeadHeight : Nat) : Nat :=
  (chainHeadHeight + 1 - indexLast.executionPayload.blockNumber) % 2 ^ 32

/-- Whether the target is adjusted at a head. -/
def Retargets (params : BitcoinConsensusParams) (indexLast : ConsensusBlock)
    (chainHeadHeight : Nat) : Prop :=
  params.powNoRetargeting = false ∧
    isRetargetHeight chainHeadHeight (heightDifference indexLast chainHeadHeight) params = .ok true

instance {params indexLast chainHeadHeight} :
    Decidable (Retargets params indexLast chainHeadHeight) := by
  unfold Retargets
  infer_instance

/-- A result of `get_next_work_required`: the bits of the last AuxPow, or an adjustment of them. -/
lemma getNextWorkRequired_ok {last : ConsensusBlock} {height bits : Nat}
    (e : getNextWorkRequired last params height = .ok bits) :
    ∃ lastBits, last.bits = .ok lastBits ∧
      (¬ Retargets params last height ∧ bits = lastBits ∨
        Retargets params last height ∧
          calculateNextWorkRequired (heightDifference last height) lastBits params = .ok bits) := by
  unfold getNextWorkRequired at e
  obtain ⟨next, hnext, e⟩ := bind_eq_ok_iff.mp e
  cases checkedU64_eq_ok hnext
  by_cases hbelow : height + 1 < last.executionPayload.blockNumber
  · simp only [if_pos hbelow] at e
    cases e
  simp only [if_neg hbelow] at e
  by_cases hoff : params.powNoRetargeting = true
  · rw [if_pos hoff] at e
    exact ⟨bits, e, .inl ⟨fun h => by simp [h.1] at hoff, rfl⟩⟩
  · rw [if_neg hoff] at e
    obtain ⟨retargets, hheight, e⟩ := bind_eq_ok_iff.mp e
    change isRetargetHeight height (heightDifference last height) params = _ at hheight
    cases retargets with
    | false =>
      refine ⟨bits, e, .inl ⟨fun h => ?_, rfl⟩⟩
      have htrue := h.2
      rw [hheight] at htrue
      cases htrue
    | true =>
      obtain ⟨lastBits, hbits, e⟩ := bind_eq_ok_iff.mp e
      exact ⟨lastBits, hbits, .inr ⟨⟨Bool.eq_false_of_not_eq_true hoff, hheight⟩, e⟩⟩

/-- Parameters for which every adjustment can be computed. -/
structure BitcoinConsensusParams.Usable (params : BitcoinConsensusParams) : Prop where
  spacing : 1 ≤ params.powTargetSpacing
  interval : params.powTargetSpacing ≤ params.powTargetTimespan
  adjustment : params.maxPowAdjustment ≤ 155

/-- At a head that does not lie below the last AuxPow there is a required target. -/
lemma getNextWorkRequired_total {last : ConsensusBlock} {height : Nat} (hparams : params.Usable)
    (hpow : last.auxpowHeader.isSome = true) (hle : last.executionPayload.blockNumber ≤ height)
    (hlt : height + 1 < 2 ^ 64) :
    ∃ bits, getNextWorkRequired last params height = .ok bits := by
  obtain ⟨header, hheader⟩ := Option.isSome_iff_exists.mp hpow
  have hbits : last.bits = .ok header.bits := by rw [ConsensusBlock.bits, hheader]
  have hspacing : params.powTargetSpacing ≠ 0 := by have := hparams.spacing; omega
  have hinterval : params.powTargetTimespan / params.powTargetSpacing ≠ 0 :=
    (Nat.div_pos hparams.interval hparams.spacing).ne'
  have hcalculated : ∀ d, ∃ bits, calculateNextWorkRequired d header.bits params = .ok bits := by
    intro d
    have hpercentage := adjustmentPercentage_le (max d 1) params
    have hadjustment := hparams.adjustment
    exact ⟨_, calculateNextWorkRequired_ok_iff.mpr ⟨hspacing, by omega, rfl⟩⟩
  simp only [getNextWorkRequired, checkedU64_of_lt hlt, isRetargetHeight, if_neg hspacing,
    if_neg hinterval, hbits, bind, Except.bind]
  rw [if_neg (by omega)]
  split_ifs
  · exact ⟨_, rfl⟩
  · exact ⟨_, rfl⟩
  · exact hcalculated _

/-- Every target of a compact form is rounded to itself. -/
lemma mem_compactTargets (bits : Nat) : uint256TargetFromCompact bits ∈ compactTargets := by
  rcases Nat.lt_or_ge bits (2 ^ 32) with lt | ge
  · exact ⟨bits, lt, rfl⟩
  · -- such bits are shifted out
    refine ⟨0, by decide, ?_⟩
    rcases uint256TargetFromCompact_cases bits with ⟨le, _⟩ | ⟨_, m, _, e⟩
    · omega
    · have hdvd : 2 ^ 256 ∣ m * 256 ^ (bits / 2 ^ 24 - 3) := by
        rw [show (2 ^ 256 : Nat) = 256 ^ 32 by decide]
        exact (Nat.pow_dvd_pow 256 (by omega)).mul_left m
      rw [e, Nat.mod_eq_zero_of_dvd hdvd]
      decide

/-- The distance that the adjustment at a head uses: a distance of zero counts as one. -/
def adjustedDistance (indexLast : ConsensusBlock) (chainHeadHeight : Nat) : Nat :=
  max (heightDifference indexLast chainHeadHeight) 1

/-- The number that is encoded as a required target, read back. -/
def roundedTarget (target : Nat) : Nat :=
  uint256TargetFromCompact (targetToCompactLossy (min target (2 ^ 256 - 1)))

/-- A compact target lies below what a number is rounded to if it lies below the number. -/
lemma le_roundedTarget_iff {v target : Nat} (mem : v ∈ compactTargets) :
    v ≤ roundedTarget target ↔ v ≤ target := by
  obtain ⟨bits, _, rfl⟩ := mem
  have hlt := uint256TargetFromCompact_lt bits
  rw [roundedTarget, compact_roundsDown.le_iff (saturated_lt target) (mem_compactTargets bits)]
  omega

/-- Rounding leads below a number. -/
lemma roundedTarget_le (target : Nat) : roundedTarget target ≤ target :=
  (compact_roundsDown.le (saturated_lt target)).trans (Nat.min_le_left _ _)

/-- What is rounded is a compact target. -/
lemma roundedTarget_mem (target : Nat) : roundedTarget target ∈ compactTargets :=
  mem_compactTargets _

/-- A compact target is rounded to itself. -/
lemma roundedTarget_compact (bits : Nat) :
    roundedTarget (uint256TargetFromCompact bits) = uint256TargetFromCompact bits :=
  (roundedTarget_le _).antisymm ((le_roundedTarget_iff (mem_compactTargets bits)).mpr le_rfl)

/-- No number is rounded above the greatest target. -/
lemma roundedTarget_le_greatest (target : Nat) : roundedTarget target ≤ greatestTarget := by
  rw [← greatestTarget_eq]
  exact compact_roundsDown.mono (saturated_lt target) (by decide) (Nat.min_le_right _ _)

/-- Two numbers that are not too close to one another are rounded in their order, unless both reach
the greatest target. -/
lemma roundedTarget_le_iff {x y : Nat} (apart : x < y → x + y / 2 ^ 15 < y) :
    roundedTarget y ≤ roundedTarget x ↔ y ≤ x ∨ greatestTarget ≤ x := by
  constructor
  · intro le
    by_contra h
    rw [not_or, Nat.not_le, Nat.not_le] at h
    have hx := le.trans (roundedTarget_le x)
    rcases Nat.lt_or_ge y (2 ^ 256) with lt | ge
    · have hprecise := compact_precise lt
      rw [roundedTarget, Nat.min_eq_left (Nat.le_sub_one_of_lt lt)] at hx
      have := apart h.1
      omega
    · rw [roundedTarget, Nat.min_eq_right ((Nat.sub_le _ _).trans ge), greatestTarget_eq] at hx
      exact absurd h.2 (Nat.not_lt.mpr hx)
  · rintro (le | le)
    · exact (le_roundedTarget_iff (roundedTarget_mem y)).mpr ((roundedTarget_le y).trans le)
    · exact (roundedTarget_le_greatest y).trans
        ((le_roundedTarget_iff (greatestTarget_eq ▸ mem_compactTargets _)).mpr le)

/-- An adjustment of the last target at a distance, once it is encoded. -/
lemma calculateNextWorkRequired_target {d lastBits bits : Nat}
    (e : calculateNextWorkRequired d lastBits params = .ok bits) :
    adjustmentPercentage (max d 1) params ≤ 255 ∧
      uint256TargetFromCompact bits = roundedTarget (uint256TargetFromCompact lastBits / 100 *
        adjustmentPercentage (max d 1) params) := by
  obtain ⟨_, hfits, rfl⟩ := calculateNextWorkRequired_ok_iff.mp e
  exact ⟨hfits, rfl⟩

/-- What an adjustment by a ratio of at least 100 percent adds to the full percents of a target. -/
def gain (params : BitcoinConsensusParams) (target ratio : Nat) : Nat :=
  target / 100 * (min ratio (100 + params.maxPowAdjustment) - 100)

/-- The order of two adjustments of one target: that of the ratios, unless the target has no full
percent, both ratios are cut at the same bound, or both adjustments saturate. -/
def RatiosOrdered (params : BitcoinConsensusParams) (target ratio₁ ratio₂ : Nat) : Prop :=
  target < 100 ∨ ratio₁ ≤ ratio₂ ∨ (ratio₁ < 100 ∧ params.maxPowAdjustment ≤ ratio₂) ∨
    100 + params.maxPowAdjustment ≤ ratio₂ ∨
    greatestTarget ≤ target / 100 * min ratio₂ (100 + params.maxPowAdjustment)

section Orders

variable {params : BitcoinConsensusParams} {d d₁ d₂ target : Nat}

/-- Below 1 the percentage is the ratio, cut at the greatest adjustment. -/
lemma adjustmentPercentage_of_lt (below : ratioPercentage d params < 100) :
    adjustmentPercentage d params = min (ratioPercentage d params) params.maxPowAdjustment := by
  rw [adjustmentPercentage_eq, if_pos below]

/-- From 1 on it is the ratio, cut at 100 more than the greatest adjustment. -/
lemma adjustmentPercentage_of_ge (above : 100 ≤ ratioPercentage d params) :
    adjustmentPercentage d params =
      min (ratioPercentage d params) (100 + params.maxPowAdjustment) := by
  rw [adjustmentPercentage_eq, if_neg (Nat.not_lt.mpr above)]
  split_ifs <;> omega

/-- From 1 on the full percents grow by `gain`. -/
lemma adjusted_eq_add_gain (above : 100 ≤ ratioPercentage d params) :
    target / 100 * adjustmentPercentage d params =
      target / 100 * 100 + gain params target (ratioPercentage d params) := by
  rw [adjustmentPercentage_of_ge above, gain, ← Nat.mul_add, Nat.add_sub_of_le (by omega)]

/-- Below 1 at least one of the full percents is lost. -/
lemma adjusted_le_of_lt (below : ratioPercentage d params < 100) :
    target / 100 * adjustmentPercentage d params ≤ target / 100 * 99 := by
  rw [adjustmentPercentage_of_lt below]
  exact Nat.mul_le_mul_left _ (by omega)

/-- An adjustment does not lead above the target if what it adds is lost with the remainder. -/
lemma adjusted_le_iff :
    target / 100 * adjustmentPercentage d params ≤ target ↔
      gain params target (ratioPercentage d params) ≤ target % 100 := by
  have hsplit := Nat.div_add_mod target 100
  rcases Nat.lt_or_ge (ratioPercentage d params) 100 with below | above
  · have hle := @adjusted_le_of_lt params d target below
    have hgain : gain params target (ratioPercentage d params) = 0 := by
      rw [gain, Nat.sub_eq_zero_of_le (by omega), Nat.mul_zero]
    omega
  · rw [adjusted_eq_add_gain above]
    omega

/-- An adjustment does not lead below the target if it adds what is lost with the remainder. -/
lemma le_adjusted_iff :
    target ≤ target / 100 * adjustmentPercentage d params ↔
      target = 0 ∨ 100 ≤ ratioPercentage d params ∧
        target % 100 ≤ gain params target (ratioPercentage d params) := by
  have hsplit := Nat.div_add_mod target 100
  rcases Nat.lt_or_ge (ratioPercentage d params) 100 with below | above
  · have hle := @adjusted_le_of_lt params d target below
    omega
  · rw [adjusted_eq_add_gain above]
    omega

/-- A target and an adjustment above it are not close. -/
lemma adjusted_apart
    (lt : target < target / 100 * adjustmentPercentage d params) :
    target + target / 100 * adjustmentPercentage d params / 2 ^ 15 <
      target / 100 * adjustmentPercentage d params := by
  have hsplit := Nat.div_add_mod target 100
  rcases Nat.le_total (adjustmentPercentage d params) 100 with le | ge
  · have hle := Nat.mul_le_mul_left (target / 100) le
    omega
  · -- the part above the full percents is a multiple of them
    obtain ⟨g, hg⟩ := Nat.exists_eq_add_of_le ge
    rw [hg, Nat.mul_add] at lt ⊢
    have hpos : 1 ≤ g := by
      by_contra zero
      rw [Nat.lt_one_iff.mp (Nat.not_le.mp zero)] at lt
      omega
    have hle := Nat.mul_le_mul_left (target / 100) hpos
    omega

/-- Two different adjustments of one target are not close. -/
lemma adjusted_apart_adjusted (fits : adjustmentPercentage d₁ params ≤ 255)
    (lt : target / 100 * adjustmentPercentage d₂ params <
      target / 100 * adjustmentPercentage d₁ params) :
    target / 100 * adjustmentPercentage d₂ params +
        target / 100 * adjustmentPercentage d₁ params / 2 ^ 15 <
      target / 100 * adjustmentPercentage d₁ params := by
  have hsucc := Nat.mul_le_mul_left (target / 100) (Nat.lt_of_mul_lt_mul_left lt)
  have hle := Nat.mul_le_mul_left (target / 100) fits
  rw [Nat.mul_succ] at hsucc
  omega

/-- The order of two percentages: the clamp keeps the order of the ratios and makes those equal that
it cuts at one bound. -/
lemma adjustmentPercentage_le_iff :
    adjustmentPercentage d₁ params ≤ adjustmentPercentage d₂ params ↔
      ratioPercentage d₁ params ≤ ratioPercentage d₂ params ∨
        (ratioPercentage d₁ params < 100 ∧ params.maxPowAdjustment ≤ ratioPercentage d₂ params) ∨
        100 + params.maxPowAdjustment ≤ ratioPercentage d₂ params := by
  rw [adjustmentPercentage_eq, adjustmentPercentage_eq]
  split_ifs <;> omega

/-- An adjustment that reaches the greatest target is one by a ratio of at least 1. -/
lemma greatestTarget_le_adjusted_iff (lt : target < 2 ^ 256) :
    greatestTarget ≤ target / 100 * adjustmentPercentage d params ↔
      greatestTarget ≤ target / 100 *
        min (ratioPercentage d params) (100 + params.maxPowAdjustment) := by
  rcases Nat.lt_or_ge (ratioPercentage d params) 100 with below | above
  · have hgreatest : target / 100 * 99 < greatestTarget := by
      unfold greatestTarget
      omega
    have hratio : target / 100 * min (ratioPercentage d params) (100 + params.maxPowAdjustment) ≤
        target / 100 * 99 := Nat.mul_le_mul_left _ (by omega)
    exact iff_of_false (Nat.not_le.mpr ((adjusted_le_of_lt below).trans_lt hgreatest))
      (Nat.not_le.mpr (hratio.trans_lt hgreatest))
  · rw [adjustmentPercentage_of_ge above]

/-- The order of two adjustments in terms of the ratios. -/
lemma adjusted_ordered_iff (lt : target < 2 ^ 256) :
    target / 100 * adjustmentPercentage d₁ params ≤ target / 100 * adjustmentPercentage d₂ params ∨
        greatestTarget ≤ target / 100 * adjustmentPercentage d₂ params ↔
      RatiosOrdered params target (ratioPercentage d₁ params) (ratioPercentage d₂ params) := by
  have horder : target / 100 * adjustmentPercentage d₁ params ≤
      target / 100 * adjustmentPercentage d₂ params ↔
        target < 100 ∨ adjustmentPercentage d₁ params ≤ adjustmentPercentage d₂ params := by
    rcases Nat.lt_or_ge target 100 with small | large
    · simp only [Nat.div_eq_of_lt small, small, Nat.zero_mul, le_refl, true_or]
    · rw [Nat.mul_le_mul_left_iff (Nat.div_pos large (by decide)),
        or_iff_right (Nat.not_lt.mpr large)]
  rw [horder, greatestTarget_le_adjusted_iff lt, adjustmentPercentage_le_iff, RatiosOrdered]
  simp only [or_assoc]

end Orders

/-- The required target does not fall from one head to another exactly if
* it is adjusted at neither,
* it is adjusted at the first alone and what this adds is lost with the remainder of the division by
  100, or no target is greater,
* it is adjusted at the second alone, by a ratio of at least 1 that adds what is lost, or
* it is adjusted at both and the ratios are in order, which they are for distances below 2 ^ 32. -/
theorem getNextWorkRequired_stays_iff {last : ConsensusBlock} {params : BitcoinConsensusParams}
    {h₁ h₂ lastBits bits₁ bits₂ : Nat} (hlast : last.bits = .ok lastBits)
    (e₁ : getNextWorkRequired last params h₁ = .ok bits₁)
    (e₂ : getNextWorkRequired last params h₂ = .ok bits₂) :
    let target := uint256TargetFromCompact lastBits
    let ratio₁ := ratioPercentage (adjustedDistance last h₁) params
    let ratio₂ := ratioPercentage (adjustedDistance last h₂) params
    uint256TargetFromCompact bits₁ ≤ uint256TargetFromCompact bits₂ ↔
      (¬ Retargets params last h₁ ∧ ¬ Retargets params last h₂) ∨
      (Retargets params last h₁ ∧ ¬ Retargets params last h₂ ∧
        (gain params target ratio₁ ≤ target % 100 ∨ target = greatestTarget)) ∨
      (¬ Retargets params last h₁ ∧ Retargets params last h₂ ∧
        (target = 0 ∨ 100 ≤ ratio₂ ∧ target % 100 ≤ gain params target ratio₂)) ∨
      (Retargets params last h₁ ∧ Retargets params last h₂ ∧
        RatiosOrdered params target ratio₁ ratio₂) := by
  intro target ratio₁ ratio₂
  have htarget : roundedTarget target = target := roundedTarget_compact lastBits
  obtain ⟨_, hlast₁, hbits₁⟩ := getNextWorkRequired_ok e₁
  obtain ⟨_, hlast₂, hbits₂⟩ := getNextWorkRequired_ok e₂
  rw [hlast] at hlast₁ hlast₂
  cases hlast₁
  cases hlast₂
  rcases hbits₁ with ⟨keeps₁, rfl⟩ | ⟨adjusts₁, hcalc₁⟩
  · rcases hbits₂ with ⟨keeps₂, rfl⟩ | ⟨adjusts₂, hcalc₂⟩
    · simp [keeps₁, keeps₂]
    · rw [(calculateNextWorkRequired_target hcalc₂).2,
        le_roundedTarget_iff (mem_compactTargets bits₁), le_adjusted_iff]
      simp only [keeps₁, adjusts₂, not_false_eq_true, not_true_eq_false, true_and, false_and,
        false_or, or_false]
      rfl
  · obtain ⟨fits₁, htarget₁⟩ := calculateNextWorkRequired_target hcalc₁
    rcases hbits₂ with ⟨keeps₂, rfl⟩ | ⟨adjusts₂, hcalc₂⟩
    · have hgreatest : greatestTarget ≤ target ↔ target = greatestTarget := by
        have hle := roundedTarget_le_greatest target
        rw [htarget] at hle
        omega
      have hround := roundedTarget_le_iff (x := target)
        (@adjusted_apart params (adjustedDistance last h₁) target)
      rw [htarget, adjusted_le_iff, hgreatest] at hround
      rw [htarget₁]
      simp only [keeps₂, adjusts₁, not_false_eq_true, not_true_eq_false, true_and, false_and,
        false_or, or_false]
      exact hround
    · rw [htarget₁, (calculateNextWorkRequired_target hcalc₂).2,
        roundedTarget_le_iff (adjusted_apart_adjusted fits₁),
        adjusted_ordered_iff (uint256TargetFromCompact_lt lastBits)]
      simp only [adjusts₁, adjusts₂, not_true_eq_false, true_and, false_and, false_or]
      rfl

/-- A block with an AuxPow of the given bits. -/
def ConsensusBlock.toyBits (number bits : Nat) : ConsensusBlock where
  parentHash := []
  slot := 0
  auxpowHeader := some ⟨[], [], bits, 0, 0, none, []⟩
  executionPayload := ⟨[], [], number, 0, [], []⟩
  pegins := []
  pegoutPaymentProposal := none
  finalizedPegouts := []

/-- Both heads are more than an interval away from the last AuxPow. -/
theorem getNextWorkRequired_stays_late :
    getNextWorkRequired (.toyBits 0 0x1d00ffff) .bitcoinMainnet 2020 = .ok 0x1d013331 ∧
    getNextWorkRequired (.toyBits 0 0x1d00ffff) .bitcoinMainnet 2021 = .ok 0x1d013331 ∧
    uint256TargetFromCompact 0x1d013331 ≤ uint256TargetFromCompact 0x1d013331 := by
  have e₁ : getNextWorkRequired (.toyBits 0 0x1d00ffff) .bitcoinMainnet 2020 =
      .ok 0x1d013331 := by decide
  have e₂ : getNextWorkRequired (.toyBits 0 0x1d00ffff) .bitcoinMainnet 2021 =
      .ok 0x1d013331 := by decide
  have h := getNextWorkRequired_stays_iff rfl e₁ e₂
  exact ⟨e₁, e₂, h.mpr (.inr (.inr (.inr ⟨by decide, by decide, .inr (.inl (by decide))⟩)))⟩

/-- A block after the end of an interval the adjustment is gone. -/
theorem getNextWorkRequired_stays_fails :
    ¬ ∀ (last : ConsensusBlock) (params : BitcoinConsensusParams) (h₁ h₂ bits₁ bits₂ : Nat),
      last.executionPayload.blockNumber ≤ h₁ → h₁ ≤ h₂ →
      getNextWorkRequired last params h₁ = .ok bits₁ →
      getNextWorkRequired last params h₂ = .ok bits₂ →
      uint256TargetFromCompact bits₁ ≤ uint256TargetFromCompact bits₂ := by
  intro h
  have e₁ : getNextWorkRequired (.toyBits 1000 0x1d00ffff) .bitcoinMainnet 2016 =
      .ok 0x1d013331 := by decide
  have e₂ : getNextWorkRequired (.toyBits 1000 0x1d00ffff) .bitcoinMainnet 2017 =
      .ok 0x1d00ffff := by decide
  have hfail := h _ _ _ _ _ _ (by decide) (by decide) e₁ e₂
  revert hfail
  decide

/-! ## Chains of AuxPows -/

/-- The next block with an AuxPow, on a head. -/
structure PowBlock where
  chainHeadHeight : Nat
  block : ConsensusBlock

/-- The block follows the last one with an AuxPow, on its head, with the required bits. -/
structure PowBlock.Follows (params : BitcoinConsensusParams) (last : ConsensusBlock)
    (next : PowBlock) : Prop where
  above : last.executionPayload.blockNumber ≤ next.chainHeadHeight
  number : next.block.executionPayload.blockNumber = next.chainHeadHeight + 1
  required : ∃ bits, getNextWorkRequired last params next.chainHeadHeight = .ok bits ∧
    next.block.bits = .ok bits

/-- Chains of blocks with an AuxPow from the first to the last of them. -/
abbrev PowChain (params : BitcoinConsensusParams) (allowed : ConsensusBlock → Nat → Prop) :
    ConsensusBlock → ConsensusBlock → Prop :=
  Run (fun next _ => next.block) fun last next =>
    PowBlock.Follows params last next ∧ allowed last next.chainHeadHeight

/-- The bits of a block stand for a target within the limits of the parameters. -/
def WithinLimits (params : BitcoinConsensusParams) (block : ConsensusBlock) : Prop :=
  ∃ bits, block.bits = .ok bits ∧
    uint256TargetFromCompact params.powLowerLimit ≤ uint256TargetFromCompact bits ∧
    uint256TargetFromCompact bits ≤ uint256TargetFromCompact params.powLimit

/-- The last target has room for an adjustment by a ratio: neither the ratio nor the bound at which
it is cut leads below the lower limit, and one of them does not reach a compact target above the
upper one. -/
structure HasRoom (params : BitcoinConsensusParams) (target ratio : Nat) : Prop where
  ratio_lower : uint256TargetFromCompact params.powLowerLimit ≤ target / 100 * ratio
  bound_lower : uint256TargetFromCompact params.powLowerLimit ≤
    target / 100 * ((if ratio < 100 then 0 else 100) + params.maxPowAdjustment)
  upper : ∀ v ∈ compactTargets, uint256TargetFromCompact params.powLimit < v →
    target / 100 * ratio < v ∨ target / 100 * (100 + params.maxPowAdjustment) < v

/-- Where the target is adjusted, the last one has room for it. -/
def AdjustsWithin (params : BitcoinConsensusParams) (last : ConsensusBlock)
    (chainHeadHeight : Nat) : Prop :=
  Retargets params last chainHeadHeight → ∀ lastBits, last.bits = .ok lastBits →
    HasRoom params (uint256TargetFromCompact lastBits)
      (ratioPercentage (adjustedDistance last chainHeadHeight) params)

/-- A number is rounded to a target up to a limit if it reaches no compact target above it. -/
lemma roundedTarget_le_iff_forall {limit target : Nat} :
    roundedTarget target ≤ limit ↔ ∀ v ∈ compactTargets, limit < v → target < v := by
  constructor
  · intro le v mem lt
    by_contra ge
    exact absurd (((le_roundedTarget_iff mem).mpr (Nat.not_lt.mp ge)).trans le) (Nat.not_le.mpr lt)
  · intro h
    by_contra gt
    exact absurd (h _ (roundedTarget_mem target) (Nat.not_le.mp gt))
      (Nat.not_lt.mpr (roundedTarget_le target))

variable {params : BitcoinConsensusParams}

/-- An adjusted target that has room, and only such a one, is encoded within the limits. -/
lemma hasRoom_iff {target d : Nat} (high : target ≤ uint256TargetFromCompact params.powLimit) :
    HasRoom params target (ratioPercentage d params) ↔
      uint256TargetFromCompact params.powLowerLimit ≤
          roundedTarget (target / 100 * adjustmentPercentage d params) ∧
        roundedTarget (target / 100 * adjustmentPercentage d params) ≤
          uint256TargetFromCompact params.powLimit := by
  have hdiv := Nat.div_mul_le_self target 100
  rw [le_roundedTarget_iff (mem_compactTargets _), roundedTarget_le_iff_forall]
  rcases Nat.lt_or_ge (ratioPercentage d params) 100 with below | above
  · -- the target falls: only the lower limit matters
    have hle := @adjusted_le_of_lt params d target below
    have hratio : target / 100 * ratioPercentage d params ≤ target / 100 * 100 :=
      Nat.mul_le_mul_left _ below.le
    rw [adjustmentPercentage_of_lt below, ← Nat.mul_min_mul_left] at hle ⊢
    rw [le_min_iff]
    constructor
    · rintro ⟨hratioLow, hboundLow, _⟩
      rw [if_pos below, Nat.zero_add] at hboundLow
      exact ⟨⟨hratioLow, hboundLow⟩, fun v _ lt => by omega⟩
    · rintro ⟨⟨hratioLow, hboundLow⟩, _⟩
      refine ⟨hratioLow, ?_, fun v _ lt => .inl (by omega)⟩
      rw [if_pos below, Nat.zero_add]
      exact hboundLow
  · rw [adjustmentPercentage_of_ge above, ← Nat.mul_min_mul_left, le_min_iff]
    constructor
    · rintro ⟨hratioLow, hboundLow, hhigh⟩
      rw [if_neg (Nat.not_lt.mpr above)] at hboundLow
      exact ⟨⟨hratioLow, hboundLow⟩, fun v mem lt => min_lt_iff.mpr (hhigh v mem lt)⟩
    · rintro ⟨⟨hratioLow, hboundLow⟩, hhigh⟩
      refine ⟨hratioLow, ?_, fun v mem lt => min_lt_iff.mp (hhigh v mem lt)⟩
      rw [if_neg (Nat.not_lt.mpr above)]
      exact hboundLow

/-- One step: from a block within the limits the next one lies within them exactly if the last
target has room for an adjustment. -/
lemma WithinLimits.next_iff {last : ConsensusBlock} {next : PowBlock}
    (h : WithinLimits params last) (hnext : next.Follows params last) :
    WithinLimits params next.block ↔ AdjustsWithin params last next.chainHeadHeight := by
  obtain ⟨lastBits, hlast, hlow, hhigh⟩ := h
  obtain ⟨bits, hrequired, hbits⟩ := hnext.required
  obtain ⟨_, hlast', hcases⟩ := getNextWorkRequired_ok hrequired
  rw [hlast] at hlast'
  cases hlast'
  have hwithin : WithinLimits params next.block ↔
      uint256TargetFromCompact params.powLowerLimit ≤ uint256TargetFromCompact bits ∧
        uint256TargetFromCompact bits ≤ uint256TargetFromCompact params.powLimit := by
    constructor
    · rintro ⟨_, hbits', h⟩
      rw [hbits] at hbits'
      cases hbits'
      exact h
    · exact fun h => ⟨bits, hbits, h⟩
  rw [hwithin]
  rcases hcases with ⟨keeps, rfl⟩ | ⟨adjusts, hcalc⟩
  · exact iff_of_true ⟨hlow, hhigh⟩ fun adjusts => absurd adjusts keeps
  · rw [(calculateNextWorkRequired_target hcalc).2, ← hasRoom_iff hhigh]
    constructor
    · intro room _ lastBits' hlast'
      rw [hlast] at hlast'
      cases hlast'
      exact room
    · exact fun h => h adjusts lastBits hlast

/-- Every target of a chain lies within the limits as long as the last target has room for every
adjustment, and from each such chain the next target leaves them as soon as it has not. -/
theorem powChain_withinLimits {params : BitcoinConsensusParams} {genesis last : ConsensusBlock}
    (hgenesis : WithinLimits params genesis)
    (chain : PowChain params (AdjustsWithin params) genesis last) :
    WithinLimits params last ∧ ∀ next : PowBlock, next.Follows params last →
      (WithinLimits params next.block ↔ AdjustsWithin params last next.chainHeadHeight) := by
  have hlast : WithinLimits params last :=
    chain.invariant hgenesis fun _ _ h ok => (h.next_iff ok.1).mpr ok.2
  exact ⟨hlast, fun _ hnext => hlast.next_iff hnext⟩

/-- One adjustment, from a target that leaves room for it. -/
theorem powChain_withinLimits_mainnet :
    PowChain .bitcoinMainnet (AdjustsWithin .bitcoinMainnet) (.toyBits 0 0x1c00ffff)
      (.toyBits 2017 0x1c013331) ∧
    WithinLimits .bitcoinMainnet (.toyBits 2017 0x1c013331) := by
  have hgenesis : WithinLimits .bitcoinMainnet (.toyBits 0 0x1c00ffff) :=
    ⟨_, rfl, by decide, by decide⟩
  have chain : PowChain .bitcoinMainnet (AdjustsWithin .bitcoinMainnet) (.toyBits 0 0x1c00ffff)
      (.toyBits 2017 0x1c013331) := by
    refine Run.refl.snoc (⟨2016, .toyBits 2017 0x1c013331⟩ : PowBlock)
      ⟨⟨by decide, rfl, _, by decide, rfl⟩, ?_⟩
    intro _ lastBits e
    cases e
    exact ⟨by decide, by decide, fun v _ lt => .inr (lt_of_le_of_lt (by decide) lt)⟩
  exact ⟨chain, (powChain_withinLimits hgenesis chain).1⟩

/-- From the limit itself, the first adjustment leads above it. -/
theorem powChain_withinLimits_fails :
    ¬ ∀ (params : BitcoinConsensusParams) (genesis last : ConsensusBlock),
      WithinLimits params genesis → PowChain params (fun _ _ => True) genesis last →
      WithinLimits params last := by
  intro h
  obtain ⟨bits, hbits, _, hhigh⟩ := h .bitcoinMainnet (.toyBits 0 0x1d00ffff)
    (.toyBits 2017 0x1d013331) ⟨_, rfl, by decide, by decide⟩
    (Run.refl.snoc (⟨2016, .toyBits 2017 0x1d013331⟩ : PowBlock)
      ⟨⟨by decide, rfl, _, by decide, rfl⟩, trivial⟩)
  cases hbits
  revert hhigh
  decide

end Alys
