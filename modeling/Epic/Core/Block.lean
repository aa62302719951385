import Epic.Core.Block.Header
import Epic.Core.Consensus.Reward
import Epic.Core.Transaction

/-!
This module contains blocks and the part of their validation that needs no chain state.
-/

namespace Epic

inductive BlockError where
  | invalidFoundationOutput
  | coinbaseSumMismatch
  | kernelLockHeight (lockHeight : UInt64)
  | transaction (e : TransactionError)
  | secp
  | committed (e : CommittedError)
  | other (msg : String)
deriving DecidableEq, Repr

structure Block where
  header : BlockHeader
  body : TransactionBody
deriving DecidableEq

namespace Block

def hash (env : Env) (b : Block) : Hash := b.header.hash env

def write (ct : ChainTypes) (mode : SerializationMode) (b : Block) : List UInt8 :=
  let body :=
    match mode with
    | .full => b.body.write
    | .hash => []
  b.header.write ct mode ++ body

def overage (env : Env) (b : Block) : Outcome BlockError Int64 :=
  Consensus.overageAtHeight env b.header.height

def blockKernelOffset (env : Env) (b : Block) (prevKernelOffset : BlindingFactor)
    : Outcome BlockError BlindingFactor :=
  if b.header.totalKernelOffset = prevKernelOffset then
    -- zero is not a valid private key but it is a valid blinding factor
    .ok .zero
  else
    (sumKernelOffsets env.secp [b.header.totalKernelOffset] [prevKernelOffset]).mapErr .committed

def verifyKernelLockHeights (height : UInt64) (kernels : List TxKernel) : Outcome BlockError Unit :=
  match kernels with
  | [] => .ok ()
  | k :: kernels => do
    .require (k.lockHeight ≤ height) (.kernelLockHeight k.lockHeight)
    verifyKernelLockHeights height kernels

def verifyFoundationOutput (env : Env) (b : Block) : Outcome BlockError Unit := do
  let isFoundation ← Consensus.isFoundationHeight env b.header.height
  if isFoundation then
    let index ← Consensus.foundationIndex env b.header.height
    let commit ← .unwrap (env.foundationCommit index)
    .require ((b.body.outputs.filter (·.isCoinbase)).any (·.commit = commit) = true)
      .invalidFoundationOutput

def verifyCoinbase (env : Env) (b : Block) : Outcome BlockError Unit := do
  let cbOuts := b.body.outputs.filter (·.isCoinbase)
  let cbKerns := b.body.kernels.filter (·.isCoinbase)
  b.verifyFoundationOutput env
  let reward ← Consensus.rewardFoundation env b.body.fee b.header.height
  let overCommit ← .okOr (env.secp.commitValue reward) .secp
  let outAdjustSum ← .okOr (env.secp.commitSum (cbOuts.map (·.commit)) [overCommit]) .secp
  let kernsSum ← .okOr (env.secp.commitSum (cbKerns.map (·.excess)) []) .secp
  .require (kernsSum = outAdjustSum) .coinbaseSumMismatch

def validate (env : Env) (b : Block) (prevKernelOffset : BlindingFactor)
    : Outcome BlockError Commitment := do
  (b.body.validate env .asBlock).mapErr .transaction
  verifyKernelLockHeights b.header.height b.body.kernels
  b.verifyCoinbase env
  let overage ← b.overage env
  let offset ← b.blockKernelOffset env prevKernelOffset
  let (_, kernelSum) ← (b.body.committed.verifyKernelSums env.secp overage offset).mapErr .committed
  return kernelSum

end Block
end Epic
