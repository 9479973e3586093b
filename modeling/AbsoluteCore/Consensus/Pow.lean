/-
The next target (`pow.cpp`).

A chain is the list of its blocks, the last one first.  Times are 32-bit numbers, so that their sums and
differences fit `int64_t`.  The formulas are stated over an arithmetic, so that those of
`arith_uint256` can be compared with the same formulas without a bound.
-/
import AbsoluteCore.Consensus.ArithUint256

namespace Absolute

open ArithUint256

/-- What becomes of the result of an operation, and the quotient. -/
structure Arith where
  reduce : Nat → Except Fail Nat
  div : Nat → Nat → Except Fail Nat

namespace Arith

def uint256 : Arith := ⟨fun x => .ok (x % 2 ^ 256), ArithUint256.div⟩

def wrapAround : Fail := .throws "wrap-around"

/-- A result that does not fit is an error. -/
def checked : Arith :=
  ⟨fun x => if x < 2 ^ 256 then .ok x else .error wrapAround, ArithUint256.div⟩

def unbounded : Arith := ⟨.ok, fun x y => .ok (x / y)⟩

end Arith

structure PowParams where
  powLimit : Nat
  nPowTargetTimespan : Int
  nPowTargetSpacing : Int
  fPowAllowMinDifficultyBlocks : Bool
  fPowNoRetargeting : Bool
  nPowDGWHeight : Int
  nMinimumDifficultyBlocks : Int

def mainPowParams : PowParams := ⟨0x00000fffff * 2 ^ 216, 450, 90, false, false, 150, 0⟩

/-- The minimum is an option of the node. -/
def devNetPowParams (nMinimumDifficultyBlocks : Int) : PowParams :=
  ⟨2 ^ 255 - 1, 86400, 150, true, false, 4001, nMinimumDifficultyBlocks⟩

def regTestPowParams : PowParams := ⟨2 ^ 255 - 1, 86400, 150, true, true, 25, 0⟩

/-- What the difficulty reads of a block. -/
structure PowBlock where
  nBits : Nat
  nTime : Int

variable (arith : Arith)

def nextAvg (nCountBlocks bnPastTargetAvg bnTarget : Nat) : Except Fail Nat :=
  if nCountBlocks = 1 then .ok bnTarget
  else do
    let product ← arith.reduce (bnPastTargetAvg * nCountBlocks)
    let sum ← arith.reduce (product + bnTarget)
    arith.div sum (nCountBlocks + 1)

/-- The loop of `DarkGravityWave`, with the average and the block it ends with.  `left` more rounds
follow this one. -/
def pastTargetAvg : Nat → Nat → Nat → List PowBlock → Except Fail (Nat × PowBlock)
  | _, _, _, [] => .error .assert
  | left, nCountBlocks, bnPastTargetAvg, pindex :: pprev => do
    let avg ← nextAvg arith nCountBlocks bnPastTargetAvg (setCompact pindex.nBits).value
    match left with
    | 0 => return (avg, pindex)
    | left + 1 => pastTargetAvg left (nCountBlocks + 1) avg pprev

variable (params : PowParams)

/-- The end of both formulas.  The factor is narrowed to 32 bits. -/
def retarget (bnNew : Nat) (nActualTimespan nTargetTimespan : Int) : Except Fail Nat := do
  let bnNew ← arith.reduce (bnNew * (nActualTimespan % 2 ^ 32).toNat)
  let bnNew ← arith.div bnNew nTargetTimespan.toNat
  return min bnNew params.powLimit

/-- `bnNew` as `DarkGravityWave` has it when it calls `GetCompact`. -/
def darkGravityTarget (pblockTime : Int) : List PowBlock → Except Fail Nat
  | [] => .ok params.powLimit
  | pindexLast :: pprev =>
    if pprev.length < 24 then .ok params.powLimit
    else if params.fPowAllowMinDifficultyBlocks ∧ pindexLast.nTime + 2 * 60 * 60 < pblockTime then
      .ok params.powLimit
    else if params.fPowAllowMinDifficultyBlocks ∧
        pindexLast.nTime + params.nPowTargetSpacing * 4 < pblockTime then do
      let bnNew ← arith.reduce ((setCompact pindexLast.nBits).value * 10)
      return min bnNew params.powLimit
    else do
      let (bnPastTargetAvg, pindex) ← pastTargetAvg arith 23 1 0 (pindexLast :: pprev)
      let nTargetTimespan := 24 * params.nPowTargetSpacing
      let nActualTimespan := max (pindexLast.nTime - pindex.nTime) (nTargetTimespan / 3)
      let nActualTimespan := min nActualTimespan (nTargetTimespan * 3)
      retarget arith params bnPastTargetAvg nActualTimespan nTargetTimespan

def darkGravityWave (pblockTime : Int) (chain : List PowBlock) : Except Fail Nat := do
  getCompact (← darkGravityTarget arith params pblockTime chain) false

def calculateNextWorkRequired (pindexLast : PowBlock) (nFirstBlockTime : Int) : Except Fail Nat :=
  if params.fPowNoRetargeting then .ok pindexLast.nBits
  else do
    let nActualTimespan := max (pindexLast.nTime - nFirstBlockTime) (params.nPowTargetTimespan / 4)
    let nActualTimespan := min nActualTimespan (params.nPowTargetTimespan * 4)
    let bnNew ← retarget arith params (setCompact pindexLast.nBits).value nActualTimespan
      params.nPowTargetTimespan
    getCompact bnNew false

def PowParams.difficultyAdjustmentInterval : Int := params.nPowTargetTimespan / params.nPowTargetSpacing

/-- The last block that was not mined under the rule for late blocks. -/
def lastRegularBits (nProofOfWorkLimit : Nat) : List PowBlock → Nat
  | [] => 0
  | [pindex] => pindex.nBits
  | pindex :: pprev =>
    if pprev.length % params.difficultyAdjustmentInterval ≠ 0 ∧ pindex.nBits = nProofOfWorkLimit then
      lastRegularBits nProofOfWorkLimit pprev
    else pindex.nBits

def getNextWorkRequiredBTC (pblockTime : Int) : List PowBlock → Except Fail Nat
  | [] => .error .assert
  | pindexLast :: pprev => do
    let nProofOfWorkLimit ← getCompact params.powLimit false
    let nHeightFirst := pprev.length - (params.difficultyAdjustmentInterval - 1)
    if (pprev.length + 1) % params.difficultyAdjustmentInterval ≠ 0 then
      if params.fPowAllowMinDifficultyBlocks then
        if pindexLast.nTime + params.nPowTargetSpacing * 2 < pblockTime then
          return nProofOfWorkLimit
        else return lastRegularBits params nProofOfWorkLimit (pindexLast :: pprev)
      else return pindexLast.nBits
    else do
      assertThat (0 ≤ nHeightFirst)
      match (pindexLast :: pprev)[pprev.length - nHeightFirst.toNat]? with
      | none => .error .assert
      | some pindexFirst => calculateNextWorkRequired arith params pindexLast pindexFirst.nTime

/-- `pindexLast` is not null. -/
def getNextWorkRequired (pblockTime : Int) : List PowBlock → Except Fail Nat
  | [] => .error .assert
  | pindexLast :: pprev =>
    if pprev.length < params.nMinimumDifficultyBlocks then getCompact params.powLimit false
    else if params.nPowDGWHeight ≤ pprev.length + 1 then
      darkGravityWave arith params pblockTime (pindexLast :: pprev)
    else getNextWorkRequiredBTC arith params pblockTime (pindexLast :: pprev)

end Absolute
