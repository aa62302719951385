import Epic.Chain.TxHashSet

/-!
This module contains the validation of a whole chain state: the hashes in the mountain ranges, the
kernel sums, the range proofs and the kernel signatures.
-/

namespace Epic

open Pmmr

namespace PMMR

variable {E : Type}

-- a parent is checked if it and both of its children are there
def validateParent (env : Env) (p : PMMR E) (n : Nat) : Outcome String Unit :=
  let height := bintreePostorderHeight n
  if height > 0 then
    match p.getHash n, p.getFromFile (n - 2 ^ height), p.getFromFile (n - 1) with
    | some hash, some leftChildHs, some rightChildHs =>
      .require (hashWithIndex env (leftChildHs.write ++ rightChildHs.write) (n - 1) = hash)
        s!"Invalid MMR, hash of parent at {n} does not match children."
    | _, _, _ => .ok ()
  else
    .ok ()

def validate (env : Env) (p : PMMR E) : Outcome String Unit :=
  .forEach (List.range' 1 p.lastPos) (p.validateParent env)

-- for a mountain range that can be pruned
def leafPosIter (p : PMMR E) : List Nat := Bitmap.iter p.backend.leafSet.bitmap

def leafPositions (p : PMMR E) : List Nat := (List.range' 1 p.lastPos).filter isLeaf

end PMMR

namespace Extension

def committed (ext : Extension) : Committed where
  inputsCommitted := []
  outputsCommitted :=
    ext.outputPmmr.leafPosIter.filterMap fun pos => (ext.outputPmmr.getData pos).map (·.commit)
  kernelsCommitted :=
    ext.kernelPmmr.leafPositions.filterMap fun n => (ext.kernelPmmr.getData n).map (·.excess)

def validateMmrs (env : Env) (ext : Extension) : Outcome ErrorKind Unit := do
  (ext.headerPmmr.validate env).mapErr .invalidTxHashSet
  (ext.outputPmmr.validate env).mapErr .invalidTxHashSet
  (ext.rproofPmmr.validate env).mapErr .invalidTxHashSet
  (ext.kernelPmmr.validate env).mapErr .invalidTxHashSet

def validateKernelSums (env : Env) (ext : Extension) : Outcome ErrorKind (Commitment × Commitment) := do
  let genesis ← getHeaderByHeight ext.headerPmmr ext.batch 0
  let overage ← Consensus.totalOverage env (decide (genesis.kernelMmrSize > 0)) ext.header.height
  (ext.committed.verifyKernelSums env.secp overage ext.header.totalKernelOffset).mapErr .committed

def batchVerifyProofs (env : Env) (commits : List Commitment) (proofs : List RangeProof)
    : Outcome ErrorKind Unit :=
  .require (env.secp.verifyBulletProofMulti commits proofs = true) (.transaction .secp)

-- the proofs are verified a thousand at a time
def verifyRangeproofs.go (env : Env) (ext : Extension) (positions : List Nat)
    (commits : List Commitment) (proofs : List RangeProof)
    : Outcome ErrorKind Unit :=
  match positions with
  | [] => if proofs.length > 0 then batchVerifyProofs env commits proofs else .ok ()
  | pos :: positions =>
    match ext.outputPmmr.getData pos, ext.rproofPmmr.getData pos with
    | none, _ => .err .outputNotFound
    | _, none => .err .rangeproofNotFound
    | some output, some proof =>
      let commits := commits ++ [output.commit]
      let proofs := proofs ++ [proof]
      if proofs.length ≥ 1000 then do
        batchVerifyProofs env commits proofs
        go env ext positions [] []
      else
        go env ext positions commits proofs

def verifyRangeproofs (env : Env) (ext : Extension) : Outcome ErrorKind Unit :=
  verifyRangeproofs.go env ext ext.outputPmmr.leafPosIter [] []

def verifyKernelSignatures (env : Env) (ext : Extension) : Outcome ErrorKind Unit :=
  .forEach ext.kernelPmmr.leafPositions fun n => do
    let kernel ← .okOr (ext.kernelPmmr.getData n) .txKernelNotFound
    (kernel.verify env).mapErr .transaction

def validate (env : Env) (fastValidation : Bool) (ext : Extension)
    : Outcome ErrorKind (Commitment × Commitment) := do
  ext.validateMmrs env
  (validateRoots env ext).1
  (validateSizes ext).1
  if ext.header.height = 0 then
    return (commitToZeroValue, commitToZeroValue)
  else
    let (outputSum, kernelSum) ← ext.validateKernelSums env
    if !fastValidation then
      ext.verifyRangeproofs env
      ext.verifyKernelSignatures env
    return (outputSum, kernelSum)

end Extension

end Epic
