import Epic.Core.Committed
import Epic.Core.Ser.Writer

/-!
This module contains transactions: inputs, outputs and kernels with their encoding, and the validation
of a transaction body and of a transaction.
-/

namespace Epic

open Ser

inductive KernelFeatures where
  | plain
  | coinbase
  | heightLocked
deriving DecidableEq, Repr

def KernelFeatures.toU8 (f : KernelFeatures) : UInt8 :=
  match f with
  | plain => 0
  | coinbase => 1
  | heightLocked => 2

inductive OutputFeatures where
  | plain
  | coinbase
deriving DecidableEq, Repr

def OutputFeatures.toU8 (f : OutputFeatures) : UInt8 :=
  match f with
  | plain => 0
  | coinbase => 1

inductive TransactionError where
  | secp
  | tooHeavy
  | committed (e : CommittedError)
  | aggregationError
  | cutThrough
  | invalidOutputFeatures
  | invalidKernelFeatures
  | incorrectSignature
  | serialization (e : SerError)
deriving DecidableEq, Repr

structure Input where
  features : OutputFeatures
  commit : Commitment
deriving DecidableEq

structure Output where
  features : OutputFeatures
  commit : Commitment
  proof : RangeProof
deriving DecidableEq

structure OutputIdentifier where
  features : OutputFeatures
  commit : Commitment
deriving DecidableEq

structure TxKernel where
  features : KernelFeatures
  fee : UInt64
  lockHeight : UInt64
  excess : Commitment
  excessSig : Signature
deriving DecidableEq

namespace RangeProof

def write (p : RangeProof) : List UInt8 := writeBytes p.bytes

end RangeProof

namespace Input

def write (i : Input) : List UInt8 := writeU8 i.features.toU8 ++ i.commit.toList

def hash (env : Env) (i : Input) : Hash := env.blake2b i.write

end Input

namespace OutputIdentifier

def fromInput (i : Input) : OutputIdentifier := ⟨i.features, i.commit⟩

def fromOutput (o : Output) : OutputIdentifier := ⟨o.features, o.commit⟩

def write (o : OutputIdentifier) : List UInt8 := writeU8 o.features.toU8 ++ o.commit.toList

end OutputIdentifier

namespace Output

def isCoinbase (o : Output) : Bool := o.features == .coinbase

def write (mode : SerializationMode) (o : Output) : List UInt8 :=
  let proof :=
    match mode with
    | .full => writeBytes o.proof.bytes
    | .hash => []
  writeU8 o.features.toU8 ++ o.commit.toList ++ proof

def hash (env : Env) (o : Output) : Hash := env.blake2b (o.write .hash)

end Output

namespace TxKernel

def isCoinbase (k : TxKernel) : Bool := k.features == .coinbase

def isHeightLocked (k : TxKernel) : Bool := k.features == .heightLocked

def write (k : TxKernel) : List UInt8 :=
  writeU8 k.features.toU8
    ++ writeU64 k.fee
    ++ writeU64 k.lockHeight
    ++ k.excess.toList
    ++ k.excessSig.toList

def hash (env : Env) (k : TxKernel) : Hash := env.blake2b k.write

def kernelSigMsg (env : Env) (fee lockHeight : UInt64) (features : KernelFeatures)
    : Outcome TransactionError Hash := do
  let validFeatures :=
    match features with
    | .coinbase => fee == 0 && lockHeight == 0
    | .plain => lockHeight == 0
    | .heightLocked => true
  .require (validFeatures = true) .invalidKernelFeatures
  match features with
  | .coinbase => return env.blake2b (writeU8 features.toU8)
  | .plain => return env.blake2b (writeU8 features.toU8 ++ writeU64 fee)
  | .heightLocked =>
    return env.blake2b (writeU8 features.toU8 ++ writeU64 fee ++ writeU64 lockHeight)

def verify (env : Env) (k : TxKernel) : Outcome TransactionError Unit := do
  .require (¬ (k.isCoinbase ∧ k.fee ≠ 0 ∨ ¬ k.isHeightLocked ∧ k.lockHeight ≠ 0))
    .invalidKernelFeatures
  let pubkey ← .okOr (env.secp.toPubkey k.excess) .secp
  let msg ← kernelSigMsg env k.fee k.lockHeight k.features
  .require (env.secp.verifySingle k.excessSig msg.bytes pubkey = true) .incorrectSignature

end TxKernel

inductive Weighting where
  | asTransaction
  | asLimitedTransaction (maxWeight : UInt64)
  | asBlock
  | noLimit
deriving DecidableEq, Repr

structure TransactionBody where
  inputs : List Input
  outputs : List Output
  kernels : List TxKernel
deriving DecidableEq

def verifySortedAndUnique (hashes : List Hash) : Outcome SerError Unit :=
  match hashes with
  | a :: b :: rest =>
    if b < a then
      .err .sortError
    else if a = b then
      .err .duplicateError
    else
      verifySortedAndUnique (b :: rest)
  | _ => .ok ()

namespace TransactionBody

def empty : TransactionBody := ⟨[], [], []⟩

def write (body : TransactionBody) : List UInt8 :=
  writeU64 (UInt64.ofNat body.inputs.length)
    ++ writeU64 (UInt64.ofNat body.outputs.length)
    ++ writeU64 (UInt64.ofNat body.kernels.length)
    ++ body.inputs.flatMap Input.write
    ++ body.outputs.flatMap (Output.write .full)
    ++ body.kernels.flatMap TxKernel.write

def committed (body : TransactionBody) : Committed where
  inputsCommitted := body.inputs.map (·.commit)
  outputsCommitted := body.outputs.map (·.commit)
  kernelsCommitted := body.kernels.map (·.excess)

def fee (body : TransactionBody) : UInt64 :=
  body.kernels.foldl (fun acc x => MachineInt.saturatingAdd acc x.fee) 0

def overage (body : TransactionBody) : Int64 := body.fee.toInt64

def weightAsBlock (inputLen outputLen kernelLen : Nat) : Nat :=
  let cap (n : Nat) := min n (2 ^ 64 - 1)
  cap (cap (cap (inputLen * Consensus.blockInputWeight.toNat)
    + cap (outputLen * Consensus.blockOutputWeight.toNat))
    + cap (kernelLen * Consensus.blockKernelWeight.toNat))

def bodyWeightAsBlock (body : TransactionBody) : Nat :=
  weightAsBlock body.inputs.length body.outputs.length body.kernels.length

def verifyWeight (ct : ChainTypes) (weighting : Weighting) (body : TransactionBody)
    : Outcome TransactionError Unit :=
  let coinbaseWeight := (Consensus.blockOutputWeight + Consensus.blockKernelWeight).toNat
  let maxBlockWeight := (Global.maxBlockWeight ct).toNat
  match weighting with
  | .asTransaction =>
    .require (body.bodyWeightAsBlock ≤ maxBlockWeight - coinbaseWeight) .tooHeavy
  | .asLimitedTransaction maxWeight =>
    .require (body.bodyWeightAsBlock ≤ min maxBlockWeight maxWeight.toNat - coinbaseWeight) .tooHeavy
  | .asBlock => .require (body.bodyWeightAsBlock ≤ maxBlockWeight) .tooHeavy
  | .noLimit => .ok ()

def verifySorted (env : Env) (body : TransactionBody) : Outcome TransactionError Unit := do
  (verifySortedAndUnique (body.inputs.map (·.hash env))).mapErr .serialization
  (verifySortedAndUnique (body.outputs.map (·.hash env))).mapErr .serialization
  (verifySortedAndUnique (body.kernels.map (·.hash env))).mapErr .serialization

def cutThroughLoop (fuel : Nat) (inputs outputs : List Hash) : Outcome TransactionError Unit :=
  match fuel, inputs, outputs with
  | fuel + 1, ih :: inputs, oh :: outputs =>
    if ih < oh then
      cutThroughLoop fuel inputs (oh :: outputs)
    else if oh < ih then
      cutThroughLoop fuel (ih :: inputs) outputs
    else
      .err .cutThrough
  | _, _, _ => .ok ()

def verifyCutThrough (env : Env) (body : TransactionBody) : Outcome TransactionError Unit :=
  cutThroughLoop (body.inputs.length + body.outputs.length) (body.inputs.map (·.hash env))
    (body.outputs.map (·.hash env))

def verifyOutputFeatures (body : TransactionBody) : Outcome TransactionError Unit :=
  .require (body.outputs.any (·.isCoinbase) = false) .invalidOutputFeatures

def verifyKernelFeatures (body : TransactionBody) : Outcome TransactionError Unit :=
  .require (body.kernels.any (·.isCoinbase) = false) .invalidKernelFeatures

def verifyFeatures (body : TransactionBody) : Outcome TransactionError Unit := do
  body.verifyOutputFeatures
  body.verifyKernelFeatures

def validateRead (env : Env) (weighting : Weighting) (body : TransactionBody)
    : Outcome TransactionError Unit := do
  body.verifyWeight env.chainType weighting
  body.verifySorted env
  body.verifyCutThrough env

def batchVerifyProofs (env : Env) (outputs : List Output) : Outcome TransactionError Unit :=
  .require (env.secp.verifyBulletProofMulti (outputs.map (·.commit)) (outputs.map (·.proof)) = true)
    .secp

def verifyRangeProofs (env : Env) (outputs : List Output) : Outcome TransactionError Unit :=
  if outputs.isEmpty then .ok () else batchVerifyProofs env outputs

def verifyKernels (env : Env) (kernels : List TxKernel) : Outcome TransactionError Unit :=
  match kernels with
  | [] => .ok ()
  | x :: kernels => do
    x.verify env
    verifyKernels env kernels

def validate (env : Env) (weighting : Weighting) (body : TransactionBody)
    : Outcome TransactionError Unit := do
  body.validateRead env weighting
  verifyRangeProofs env body.outputs
  verifyKernels env body.kernels

end TransactionBody

structure Transaction where
  offset : BlindingFactor
  body : TransactionBody
deriving DecidableEq

namespace Transaction

def write (tx : Transaction) : List UInt8 := tx.offset.toList ++ tx.body.write

def validateRead (env : Env) (tx : Transaction) : Outcome TransactionError Unit := do
  tx.body.validateRead env .asTransaction
  tx.body.verifyFeatures

def validate (env : Env) (weighting : Weighting) (tx : Transaction)
    : Outcome TransactionError Unit := do
  tx.body.validate env weighting
  tx.body.verifyFeatures
  let _ ← (tx.body.committed.verifyKernelSums env.secp tx.body.overage tx.offset).mapErr .committed

end Transaction

end Epic
