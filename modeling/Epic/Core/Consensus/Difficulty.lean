import Epic.Core.Ser.Writer

/-!
This module contains the difficulty a proof of work achieves and the difficulty the next block has to
reach.
-/

namespace Epic

open MachineInt

variable {ε : Type}

namespace Consensus

def difficultyAdjustWindow : UInt64 := hourHeight
def blockTimeWindow : UInt64 := difficultyAdjustWindow * blockTimeSec
def clampFactor : UInt64 := 2
def difficultyDampFactor : UInt64 := 3
def arScaleDampFactor : UInt64 := 13
def rxClampFactor : UInt64 := 2
def rxDifficultyDampFactor : UInt64 := 3
def ppClampFactor : UInt64 := 2
def ppDifficultyDampFactor : UInt64 := 3
def minDifficulty : UInt64 := difficultyDampFactor
def minDifficultyRandomX : UInt64 := 4000
def oldMinDifficultyRandomX : UInt64 := 5000
def minDifficultyProgPow : UInt64 := 200000
def oldMinDifficultyProgPow : UInt64 := 100000
def blockDiffFactorRandomX : UInt64 := 64
def blockDiffFactorProgPow : UInt64 := 64
def minArScale : UInt64 := arScaleDampFactor

def expiredEdgeBits (checks : Bool) (height : UInt64) (edgeBits : UInt8) (expiryHeight : UInt64)
    : Outcome ε UInt64 :=
  if height ≥ expiryHeight then do
    let overdue ← sub checks height expiryHeight
    let loss ← add checks 1 (overdue / weekHeight)
    return saturatingSub edgeBits.toUInt64 loss
  else
    .ok edgeBits.toUInt64

def graphWeight (env : Env) (height : UInt64) (edgeBits : UInt8) : Outcome ε UInt64 := do
  let checks := env.overflowChecks
  -- Patch to use cuckatoo19
  let minEdgeBits :=
    if Global.minEdgeBits env.chainType = 19 then
      Global.minEdgeBits env.chainType + 12
    else
      Global.minEdgeBits env.chainType
  let bitsOverMin := saturatingSub edgeBits minEdgeBits
  let unit ← shl checks 64 (1 : UInt64) bitsOverMin.toNat
  let expiryHeight ← mul checks unit (if height > 880000 then yearHeight * 100 else yearHeight)
  let xprEdgeBits ← expiredEdgeBits checks height edgeBits expiryHeight
  let base := Global.baseEdgeBits env.chainType
  let distance := if edgeBits > base then edgeBits - base else base - edgeBits
  let weight ← shl checks 64 (2 : UInt64) distance.toNat
  mul checks weight xprEdgeBits

end Consensus

namespace Global

open Consensus

def initialGraphWeight (env : Env) : Outcome ε UInt32 :=
  match env.chainType with
  | .automatedTesting => .ok 1
  | .userTesting => .ok 1
  | .floonet => do
    let weight ← graphWeight env 0 secondPowEdgeBits
    return weight.toUInt32
  | .mainnet => do
    let weight ← graphWeight env 0 secondPowEdgeBits
    return weight.toUInt32

end Global

def Proof.scaledDifficulty (env : Env) (p : Proof) (scale : UInt64) : UInt64 :=
  let diff := scale.toNat * 2 ^ 64 / max 1 (p.hash env).toU64.toNat
  UInt64.ofNat (min diff (2 ^ 64 - 1))

namespace Difficulty

def fromProofAdjusted (env : Env) (height : UInt64) (proof : Proof) : Outcome ε Difficulty := do
  let weight ← Consensus.graphWeight env height <|
    match proof with
    | .cuckoo edgeBits _ => edgeBits
    | .md5 _ edgeBits => edgeBits
    | _ => 31
  return fromNum (proof.scaledDifficulty env weight)

def fromProofHash (hash : Bytes32) : Outcome ε Difficulty := do
  let d := Bytes.ofBE hash.toList
  .assert (d ≠ 0)
  return ⟨DifficultyNumber.number (UInt64.ofNat ((2 ^ 256 - 1) / d))⟩

def fromProofScaled (env : Env) (proof : Proof) (scaling : UInt32) : Difficulty :=
  fromNum (proof.scaledDifficulty env scaling.toUInt64)

end Difficulty

def ProofOfWork.toDifficulty (env : Env) (pow : ProofOfWork) (header : List UInt8) (height : UInt64)
    (nonce : UInt64)
    : Outcome ε Difficulty :=
  match pow.proof with
  | .cuckoo edgeBits _ =>
    if edgeBits = Consensus.secondPowEdgeBits then
      .ok (.fromProofScaled env pow.proof pow.secondaryScaling)
    else
      Difficulty.fromProofAdjusted env height pow.proof
  | .md5 _ edgeBits =>
    if edgeBits = Consensus.secondPowEdgeBits then
      .ok (.fromProofScaled env pow.proof pow.secondaryScaling)
    else
      Difficulty.fromProofAdjusted env height pow.proof
  | .randomX hash => Difficulty.fromProofHash hash
  | .progPow _ => Difficulty.fromProofHash (env.progpowValue header height nonce)

structure HeaderInfo where
  timestamp : UInt64
  difficulty : Difficulty
  secondaryScaling : UInt32
  isSecondary : Bool
  prevTimespan : UInt64
deriving DecidableEq

namespace HeaderInfo

def fromTsDiff (env : Env) (timestamp : UInt64) (difficulty : Difficulty) : Outcome ε HeaderInfo := do
  let secondaryScaling ← Global.initialGraphWeight env
  return ⟨timestamp, difficulty, secondaryScaling, true, 0⟩

def fromDiffScaling (difficulty : Difficulty) (secondaryScaling : UInt32) : HeaderInfo :=
  ⟨1, difficulty, secondaryScaling, true, 0⟩

end HeaderInfo

namespace Global

open Consensus

def alignTimestamps (lastN : List HeaderInfo) : List HeaderInfo :=
  match lastN with
  | [] => []
  | first :: rest => first :: go first rest
where
  go (prev : HeaderInfo) (rest : List HeaderInfo) : List HeaderInfo :=
    match rest with
    | [] => []
    | info :: rest =>
      let info := { info with timestamp := saturatingSub prev.timestamp prev.prevTimespan }
      info :: go info rest

def simulatedBlocks (env : Env) (lastTsDelta : UInt64) (lastDiff : Difficulty) (count : Nat)
    (lastTs : UInt64)
    : Outcome ε (List HeaderInfo) :=
  match count with
  | 0 => .ok []
  | count + 1 => do
    let lastTs := saturatingSub lastTs lastTsDelta
    let info ← HeaderInfo.fromTsDiff env lastTs lastDiff
    let rest ← simulatedBlocks env lastTsDelta lastDiff count lastTs
    return info :: rest

def lastTsDelta (checks : Bool) (first : HeaderInfo) (second : Option HeaderInfo)
    : Outcome ε UInt64 :=
  match second with
  | some second => sub checks first.timestamp second.timestamp
  | none => .ok blockTimeSec

-- pads the blocks that were taken to the number that is needed, the latest comes last
def padToVector (env : Env) (taken : List HeaderInfo) (neededBlockCount : Nat)
    : Outcome ε (List HeaderInfo) := do
  let lastN := alignTimestamps taken
  let n := lastN.length
  if n < neededBlockCount then
    let first ← .unwrap lastN.head?
    let lastTsDelta ← lastTsDelta env.overflowChecks first lastN[1]?
    let last ← .unwrap lastN.getLast?
    let simulated ← simulatedBlocks env lastTsDelta first.difficulty (neededBlockCount - n)
      last.timestamp
    return (lastN ++ simulated).reverse
  else
    return lastN.reverse

def difficultyDataToVector (env : Env) (cursor : Nat → Outcome ε (List HeaderInfo))
    (neededBlockCount : UInt64)
    : Outcome ε (List HeaderInfo) := do
  let neededBlockCount ← add env.overflowChecks neededBlockCount 1
  let taken ← cursor neededBlockCount.toNat
  padToVector env taken neededBlockCount.toNat

end Global

namespace Consensus

def damp (checks : Bool) (actual goal dampFactor : UInt64) : Outcome ε UInt64 := do
  let weight ← sub checks dampFactor 1
  let pull ← mul checks weight goal
  let sum ← add checks actual pull
  div sum dampFactor

def clamp (checks : Bool) (actual goal clampFactor : UInt64) : Outcome ε UInt64 := do
  let lower ← div goal clampFactor
  let upper ← mul checks goal clampFactor
  return max lower (min actual upper)

def secondaryPowRatio (height : UInt64) : UInt64 :=
  saturatingSub 90 (height / (2 * yearHeight / 90))

def arCount (checks : Bool) (diffData : List HeaderInfo) : Outcome ε UInt64 :=
  mul checks 100 (UInt64.ofNat (diffData.filter (·.isSecondary)).length)

def secondaryPowScaling (checks : Bool) (height : UInt64) (diffData : List HeaderInfo)
    : Outcome ε UInt32 := do
  let scaleSum ← sum checks (diffData.map (·.secondaryScaling.toUInt64))
  let targetPct := secondaryPowRatio height
  let targetCount ← mul checks difficultyAdjustWindow targetPct
  let count ← arCount checks diffData
  let damped ← damp checks count targetCount arScaleDampFactor
  let adjCount ← clamp checks damped targetCount clampFactor
  let scaled ← mul checks scaleSum targetPct
  let scale ← div scaled (max 1 adjCount)
  return (max minArScale scale).toUInt32

def retarget (checks : Bool) (dampFactor clampFactor minDifficulty : UInt64) (pow : PoWType)
    (tsDelta : UInt64) (diffData : List HeaderInfo)
    : Outcome ε UInt64 := do
  let diffSum ← sum checks ((diffData.drop 1).map (·.difficulty.toNum pow))
  let damped ← damp checks tsDelta blockTimeWindow dampFactor
  let adjTs ← clamp checks damped blockTimeWindow clampFactor
  let work ← mul checks diffSum blockTimeSec
  let scaled ← div work adjTs
  return max minDifficulty scaled

def nextCuckooDifficulty (checks : Bool) (pow : PoWType) (diffData : List HeaderInfo)
    : Outcome ε UInt64 := do
  let newest ← .unwrap diffData[difficultyAdjustWindow.toNat]?
  let oldest ← .unwrap diffData[0]?
  let tsDelta ← sub checks newest.timestamp oldest.timestamp
  retarget checks difficultyDampFactor clampFactor minDifficulty pow tsDelta diffData

def windowTimespan (checks : Bool) (diffData : List HeaderInfo) : Outcome ε UInt64 :=
  diffData.dropLast.foldlM (fun tsDelta info => do
    let span ← sub checks info.timestamp (saturatingSub info.timestamp info.prevTimespan)
    add checks tsDelta span) 0

def nextCuckooDifficultyEra1 (checks : Bool) (pow : PoWType) (diffData : List HeaderInfo)
    : Outcome ε UInt64 := do
  let tsDelta ← windowTimespan checks diffData
  retarget checks difficultyDampFactor clampFactor minDifficulty pow tsDelta diffData

def nextRandomXDifficultyEra1 (checks : Bool) (pow : PoWType) (diffData : List HeaderInfo)
    : Outcome ε UInt64 := do
  let tsDelta ← windowTimespan checks diffData
  retarget checks rxDifficultyDampFactor rxClampFactor minDifficultyRandomX pow tsDelta diffData

def nextProgPowDifficultyEra1 (checks : Bool) (pow : PoWType) (diffData : List HeaderInfo)
    : Outcome ε UInt64 := do
  let tsDelta ← windowTimespan checks diffData
  retarget checks ppDifficultyDampFactor ppClampFactor minDifficultyProgPow pow tsDelta diffData

def hashDifficultyParams (pow : PoWType) : Outcome ε (UInt64 × UInt64) :=
  match pow with
  | .randomX => .ok (blockDiffFactorRandomX, oldMinDifficultyRandomX)
  | .progPow => .ok (blockDiffFactorProgPow, oldMinDifficultyProgPow)
  | _ => .panic

def nextHashDifficulty (checks : Bool) (pow : PoWType) (diffData : List HeaderInfo)
    : Outcome ε UInt64 := do
  let (blockDiffFactor, minDiff) ← hashDifficultyParams pow
  let current ← .unwrap diffData[1]?
  let prev ← .unwrap diffData[0]?
  let currentDiff := current.difficulty.toNum pow
  let tsDelta ← sub checks current.timestamp prev.timestamp
  let scaled ← div currentDiff blockDiffFactor
  let offset := scaled.toInt64
  let late ← div tsDelta.toInt64 60
  let twice ← mul checks (2 : Int64) late
  let signed ← sub checks (1 : Int64) twice
  let sign := max signed (-99)
  let change ← mul checks offset sign
  let next ← add checks currentDiff.toInt64 change
  return max (max next 1).toUInt64 (min currentDiff minDiff)

def nextAlgoDifficulty (checks : Bool) (prevAlgo : PoWType) (diffData : List HeaderInfo)
    : Outcome ε UInt64 :=
  match prevAlgo with
  | .cuckatoo => nextCuckooDifficulty checks .cuckatoo diffData
  | .cuckaroo => nextCuckooDifficulty checks .cuckaroo diffData
  | .randomX => nextHashDifficulty checks .randomX diffData
  | .progPow => nextHashDifficulty checks .progPow diffData

def nextAlgoDifficultyEra1 (checks : Bool) (prevAlgo : PoWType) (diffData : List HeaderInfo)
    : Outcome ε UInt64 :=
  match prevAlgo with
  | .cuckatoo => nextCuckooDifficultyEra1 checks .cuckatoo diffData
  | .cuckaroo => nextCuckooDifficultyEra1 checks .cuckaroo diffData
  | .randomX => nextRandomXDifficultyEra1 checks .randomX diffData
  | .progPow => nextProgPowDifficultyEra1 checks .progPow diffData

def diffWindow (prevAlgo : PoWType) : UInt64 :=
  match prevAlgo with
  | .cuckatoo => difficultyAdjustWindow
  | .cuckaroo => difficultyAdjustWindow
  | .randomX => 1
  | .progPow => 1

-- the difficulty of the algorithm of the last block changes, and the others stay
def nextDifficultyBy (nextAlgo : Bool → PoWType → List HeaderInfo → Outcome ε UInt64) (window : UInt64)
    (env : Env) (height : UInt64) (prevAlgo : PoWType) (cursor : Nat → Outcome ε (List HeaderInfo))
    : Outcome ε HeaderInfo := do
  let checks := env.overflowChecks
  let diffData ← Global.difficultyDataToVector env cursor window
  let secPowScaling ← secondaryPowScaling checks height (diffData.drop 1)
  let last ← .unwrap diffData.getLast?
  let next ← nextAlgo checks prevAlgo diffData
  let diff := last.difficulty.num.insert prevAlgo next
  return .fromDiffScaling (.fromDicNumber diff) secPowScaling

def nextDifficulty (env : Env) (height : UInt64) (prevAlgo : PoWType)
    (cursor : Nat → Outcome ε (List HeaderInfo))
    : Outcome ε HeaderInfo :=
  nextDifficultyBy nextAlgoDifficulty (diffWindow prevAlgo) env height prevAlgo cursor

def nextDifficultyEra1 (env : Env) (height : UInt64) (prevAlgo : PoWType)
    (cursor : Nat → Outcome ε (List HeaderInfo))
    : Outcome ε HeaderInfo :=
  nextDifficultyBy nextAlgoDifficultyEra1 difficultyAdjustWindow env height prevAlgo cursor

end Consensus

end Epic
