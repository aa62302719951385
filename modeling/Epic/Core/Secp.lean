import Epic.Core.Pow.Types

/-!
This module contains the curve data that transactions carry and the interface of the `secp256k1`
library. What the library computes is left open, a failed call is `none`.
-/

namespace Epic

abbrev Commitment := List.Vector UInt8 33

abbrev Signature := List.Vector UInt8 64

abbrev BlindingFactor := Bytes32

def BlindingFactor.zero : BlindingFactor := .replicate 32 0

def commitToZeroValue : Commitment := .replicate 33 0

def maxProofSize : Nat := 675

structure RangeProof where
  proof : List.Vector UInt8 maxProofSize
  plen : Nat
  plen_le : plen ≤ maxProofSize
deriving DecidableEq

def RangeProof.zero : RangeProof := ⟨.replicate maxProofSize 0, 0, Nat.zero_le _⟩

def RangeProof.bytes (p : RangeProof) : List UInt8 := p.proof.toList.take p.plen

structure Secp where
  commitSum : List Commitment → List Commitment → Option Commitment
  commitValue : UInt64 → Option Commitment
  commit : UInt64 → BlindingFactor → Option Commitment
  secretKey : Bytes32 → Option BlindingFactor
  blindSum : List BlindingFactor → List BlindingFactor → Option BlindingFactor
  verifyBulletProofMulti : List Commitment → List RangeProof → Bool
  toPubkey : Commitment → Option (List UInt8)
  verifySingle : Signature → List UInt8 → List UInt8 → Bool
  fromRawData : List.Vector UInt8 64 → Option Signature

end Epic
