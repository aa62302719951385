import Epic.Core.Block

/-!
This module contains the errors of the chain. An error that is wrapped into another one is kept as it is,
the source keeps its text.
-/

namespace Epic

inductive StoreError where
  | notFoundErr (what : String) (key : List UInt8)
deriving DecidableEq, Repr

inductive ErrorKind where
  | unfit (msg : String)
  | orphan
  | difficultyTooLow
  | wrongTotalDifficulty
  | lowEdgebits
  | invalidScaling
  | invalidPow
  | oldBlock
  | invalidBlockProof (e : BlockError)
  | invalidBlockTime
  | invalidBlockHeight
  | invalidRoot
  | invalidMMRSize
  | alreadySpent (commit : Commitment)
  | duplicateCommitment (commit : Commitment)
  | immatureCoinbase
  | outputNotFound
  | invalidBlockVersion (version : UInt16)
  | storeErr (e : StoreError) (msg : String)
  | serErr (e : SerError)
  | txHashSetErr (msg : String)
  | genesisBlockRequired
  | invalidTxHashSet (msg : String)
  | rangeproofNotFound
  | txKernelNotFound
  | transaction (e : TransactionError)
  | committed (e : CommittedError)
  | invalidSortAlgo
  | thereIsNotPolicy
  | policyIsNotAllowed
  | invalidSeed
  | bitmap
  | otherMsg (msg : String)
  | other (e : ErrorKind)
deriving DecidableEq

def ErrorKind.isBadData (e : ErrorKind) : Bool :=
  match e with
  | .unfit _ => false
  | .orphan => false
  | .storeErr _ _ => false
  | .serErr _ => false
  | .txHashSetErr _ => false
  | .genesisBlockRequired => false
  | .otherMsg _ => false
  | .other _ => false
  | _ => true

end Epic
