import Epic.Core.Global

/-!
This module contains the `Committed` trait: the sums of the commitments of a transaction, a block or a
chain state, and their comparison with the kernel sum.
-/

namespace Epic

inductive CommittedError where
  | keychain
  | secp
  | kernelSumMismatch
  | invalidValue
deriving DecidableEq, Repr

structure Committed where
  inputsCommitted : List Commitment
  outputsCommitted : List Commitment
  kernelsCommitted : List Commitment

def BlindingFactor.secretKey (secp : Secp) (bf : BlindingFactor) : Option BlindingFactor :=
  if bf = .zero then some .zero else secp.secretKey bf

def sumCommits (secp : Secp) (positive negative : List Commitment)
    : Outcome CommittedError Commitment :=
  .okOr (secp.commitSum (positive.filter (· ≠ commitToZeroValue))
    (negative.filter (· ≠ commitToZeroValue))) .secp

def toSecrets (secp : Secp) (bf : List BlindingFactor) : List BlindingFactor :=
  (bf.filter (· ≠ .zero)).filterMap (·.secretKey secp)

def sumKernelOffsets (secp : Secp) (positive negative : List BlindingFactor)
    : Outcome CommittedError BlindingFactor :=
  let positive := toSecrets secp positive
  let negative := toSecrets secp negative
  if positive.isEmpty then
    .ok .zero
  else
    .okOr (secp.blindSum positive negative) .secp

namespace Committed

def offsetCommits (secp : Secp) (offset : BlindingFactor)
    : Outcome CommittedError (List Commitment) :=
  if offset ≠ .zero then do
    let key ← .okOr (offset.secretKey secp) .keychain
    let offsetCommit ← .okOr (secp.commit 0 key) .secp
    return [offsetCommit]
  else
    .ok []

def sumKernelExcesses (secp : Secp) (c : Committed) (offset : BlindingFactor)
    : Outcome CommittedError (Commitment × Commitment) := do
  let kernelSum ← sumCommits secp c.kernelsCommitted []
  let offsetCommits ← offsetCommits secp offset
  let commits := kernelSum :: offsetCommits
  let kernelSumPlusOffset ← .okOr (secp.commitSum commits []) .secp
  return (kernelSum, kernelSumPlusOffset)

def checkedAbs (overage : Int64) : Option UInt64 :=
  if overage = Int64.minValue then none else some (UInt64.ofNat overage.toInt.natAbs)

def sumCommitments (secp : Secp) (c : Committed) (overage : Int64)
    : Outcome CommittedError Commitment := do
  -- the overage is an output commitment if positive, an input commitment if negative
  if overage ≠ 0 then
    let overageAbs ← .okOr (checkedAbs overage) .invalidValue
    let overCommit ← .unwrap (secp.commitValue overageAbs)
    if overage < 0 then
      sumCommits secp c.outputsCommitted (c.inputsCommitted ++ [overCommit])
    else
      sumCommits secp (c.outputsCommitted ++ [overCommit]) c.inputsCommitted
  else
    sumCommits secp c.outputsCommitted c.inputsCommitted

def verifyKernelSums (secp : Secp) (c : Committed) (overage : Int64) (kernelOffset : BlindingFactor)
    : Outcome CommittedError (Commitment × Commitment) := do
  let utxoSum ← c.sumCommitments secp overage
  let (kernelSum, kernelSumPlusOffset) ← c.sumKernelExcesses secp kernelOffset
  .require (utxoSum = kernelSumPlusOffset) .kernelSumMismatch
  return (utxoSum, kernelSum)

end Committed

structure BlockSums where
  utxoSum : Commitment
  kernelSum : Commitment
deriving DecidableEq

def BlockSums.committed (sums : BlockSums) (c : Committed) : Committed where
  inputsCommitted := c.inputsCommitted
  outputsCommitted := sums.utxoSum :: c.outputsCommitted
  kernelsCommitted := sums.kernelSum :: c.kernelsCommitted

end Epic
