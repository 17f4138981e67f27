import Alys.Basic.Types

/-!
# Difficulty

Model of the retargeting rule of `app/src/auxpow_miner.rs`. The ratio of actual to intended spacing
is a decimal number that is rounded to two places, half to even, so it is modelled as a whole
percentage: of two `u32` and `u64` numbers the library's 28 digits never round to another one.
-/

namespace Alys

/-- `BitcoinConsensusParams`. The two limits are compact targets; no function reads them. -/
structure BitcoinConsensusParams where
  powLimit : Nat
  powLowerLimit : Nat
  powTargetTimespan : Nat
  powTargetSpacing : Nat
  powNoRetargeting : Bool
  maxPowAdjustment : Nat

/-- The target that a compact form stands for (Rust `uint256_target_from_compact`). The shift drops
the bits beyond 256. -/
def uint256TargetFromCompact (bits : Nat) : Nat :=
  let unshiftedExpt := bits >>> 24
  let (mant, expt) :=
    if unshiftedExpt ≤ 3 then
      ((bits &&& 0xFFFFFF) >>> (8 * (3 - unshiftedExpt)), 0)
    else
      (bits &&& 0xFFFFFF, 8 * (unshiftedExpt - 3))
  if 0x7FFFFF < mant then 0 else (mant <<< expt) % 2 ^ 256

/-- `U256::bits`: the number of bits without leading zeros. -/
def bitLength (n : Nat) : Nat := if n = 0 then 0 else n.log2 + 1

/-- The compact form of a target (Rust `target_to_compact_lossy`). -/
def targetToCompactLossy (target : Nat) : Nat :=
  let size := (bitLength target + 7) / 8
  let compact :=
    if size ≤ 3 then
      ((target % 2 ^ 64) <<< (8 * (3 - size))) % 2 ^ 64 % 2 ^ 32
    else
      (target >>> (8 * (size - 3))) % 2 ^ 32
  let (compact, size) :=
    if compact &&& 0x00800000 ≠ 0 then (compact >>> 8, size + 1) else (compact, size)
  compact ||| (size <<< 24) % 2 ^ 32

/-- `a / b` rounded to a whole number, half to even. -/
def divRoundEven (a b : Nat) : Nat :=
  let q := a / b
  let r := a % b
  if 2 * r < b then q
  else if b < 2 * r then q + 1
  else if q % 2 = 0 then q else q + 1

/-- The adjustment in percent (the ratio of `calculate_next_work_required`). -/
def adjustmentPercentage (auxpowHeightDifference : Nat) (params : BitcoinConsensusParams) : Nat :=
  let ratio := divRoundEven (100 * auxpowHeightDifference) params.powTargetSpacing
  if ratio < 100 then
    min ratio params.maxPowAdjustment
  else if 100 < ratio then
    min ratio (params.maxPowAdjustment + 100)
  else
    ratio

/-- `calculate_next_work_required`. It panics for a target spacing of zero and when the percentage
does not fit a `u8`. -/
def calculateNextWorkRequired (auxpowHeightDifference lastBits : Nat)
    (params : BitcoinConsensusParams) : Except Failure Nat :=
  let auxpowHeightDifference := if auxpowHeightDifference = 0 then 1 else auxpowHeightDifference
  if params.powTargetSpacing = 0 then
    .error .panic
  else
    let percentage := adjustmentPercentage auxpowHeightDifference params
    if 255 < percentage then
      .error .panic
    else
      let target := uint256TargetFromCompact lastBits
      .ok (targetToCompactLossy (min (target / 100 * percentage) (2 ^ 256 - 1)))

/-- `is_retarget_height`; the interval is `difficulty_adjustment_interval`. -/
def isRetargetHeight (chainHeadHeight heightDifference : Nat) (params : BitcoinConsensusParams) :
    Except Failure Bool :=
  if params.powTargetSpacing = 0 then
    .error .panic
  else
    let adjustmentInterval := params.powTargetTimespan / params.powTargetSpacing
    if adjustmentInterval = 0 then
      .error .panic
    else
      .ok (chainHeadHeight % adjustmentInterval = 0 ||
        adjustmentInterval % 2 ^ 32 < heightDifference)

/-- The `bits` of a stored block that contains an AuxPow (Rust `BlockIndex::bits`). -/
def ConsensusBlock.bits (b : ConsensusBlock) : Except Failure Nat :=
  match b.auxpowHeader with
  | none => .error .panic
  | some header => .ok header.bits

/-- The `chain_id` of a stored block that contains an AuxPow (Rust `BlockIndex::chain_id`). -/
def ConsensusBlock.chainId (b : ConsensusBlock) : Except Failure Nat :=
  match b.auxpowHeader with
  | none => .error .panic
  | some header => .ok header.chainId

def getNextWorkRequired (indexLast : ConsensusBlock) (params : BitcoinConsensusParams)
    (chainHeadHeight : Nat) : Except Failure Nat := do
  let next ← checkedU64 (chainHeadHeight + 1)
  if next < indexLast.executionPayload.blockNumber then
    throw .panic
  let auxpowHeightDifference := (next - indexLast.executionPayload.blockNumber) % 2 ^ 32
  if params.powNoRetargeting then
    indexLast.bits
  else if !(← isRetargetHeight chainHeadHeight auxpowHeightDifference params) then
    indexLast.bits
  else
    calculateNextWorkRequired auxpowHeightDifference (← indexLast.bits) params

end Alys
