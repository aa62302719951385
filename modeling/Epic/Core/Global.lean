import Epic.Core.Secp
import Mathlib.Data.Rat.Defs

/-!
This module contains the process wide parameters of a node: the chain type with the constants that
depend on it, the policy configuration, and the foreign functions the node is linked against.
-/

namespace Epic

inductive ChainTypes where
  | automatedTesting
  | userTesting
  | floonet
  | mainnet
deriving DecidableEq, Repr

/--
The digest of a serialized object. The source truncates it to 32 bytes; here it is a byte string of
any length, so that a collision free digest exists.
-/
structure Hash where
  bytes : List UInt8
deriving DecidableEq, Repr

namespace Hash

def toU64 (h : Hash) : UInt64 :=
  (h.bytes.take 8).foldl (fun acc b => acc * 256 + b.toUInt64) 0

def fromVec (v : Bytes32) : Hash := ⟨v.toList⟩

-- the bytes of a digest, which has 32 of them in the source
def toVec (h : Hash) : Option Bytes32 :=
  if hlen : h.bytes.length = 32 then some ⟨h.bytes, hlen⟩ else none

instance : LT Hash where
  lt a b := a.bytes < b.bytes

instance (a b : Hash) : Decidable (a < b) :=
  inferInstanceAs (Decidable (a.bytes < b.bytes))

end Hash

abbrev Policy := PoWMap UInt32

structure AllowPolicy where
  height : UInt64
  value : UInt64
deriving DecidableEq, Repr

structure PolicyConfig where
  allowedPolicies : List AllowPolicy
  policies : List Policy
deriving DecidableEq, Repr

structure Env where
  chainType : ChainTypes
  policyConfig : PolicyConfig
  overflowChecks : Bool
  roundF32 : ℚ → ℚ
  blake2b : List UInt8 → Hash
  progpowValue : List UInt8 → UInt64 → UInt64 → Bytes32
  secp : Secp
  foundationCommit : UInt64 → Option Commitment

namespace Consensus

def blockTimeSec : UInt64 := 60
def hourHeight : UInt64 := 60
def dayHeight : UInt64 := 1440
def weekHeight : UInt64 := 10080
def yearHeight : UInt64 := 524160

def testingDifficultyEra : UInt64 := 50
def floonetDifficultyEra : UInt64 := 200
def mainnetDifficultyEra : UInt64 := 501160

def blockEra1 : UInt64 := dayHeight * 334
def blockEra2 : UInt64 := blockEra1 + dayHeight * 470
def blockEra3 : UInt64 := blockEra2 + dayHeight * 601
def blockEra4 : UInt64 := blockEra3 + dayHeight * 800
def blockEra5 : UInt64 := blockEra4 + dayHeight * 1019

def proofsize : Nat := 42
def defaultMinEdgeBits : UInt8 := 19
def secondPowEdgeBits : UInt8 := 31
def baseEdgeBits : UInt8 := 24

def blockInputWeight : UInt64 := 1
def blockOutputWeight : UInt64 := 21
def blockKernelWeight : UInt64 := 3
def maxBlockWeight : UInt64 := 40000

def difficultyfixHeight (ct : ChainTypes) : UInt64 :=
  match ct with
  | .automatedTesting => testingDifficultyEra
  | .userTesting => testingDifficultyEra
  | .floonet => floonetDifficultyEra
  | .mainnet => mainnetDifficultyEra

end Consensus

namespace Global

open Consensus

def currentHeaderVersion : UInt16 := 6

def minEdgeBits (ct : ChainTypes) : UInt8 :=
  match ct with
  | .automatedTesting => 9
  | .userTesting => 15
  | _ => defaultMinEdgeBits

def baseEdgeBits (ct : ChainTypes) : UInt8 :=
  match ct with
  | .automatedTesting => 9
  | .userTesting => 15
  | _ => Consensus.baseEdgeBits

def proofsize (ct : ChainTypes) : Nat :=
  match ct with
  | .automatedTesting => 4
  | .userTesting => 42
  | _ => Consensus.proofsize

def maxBlockWeight (ct : ChainTypes) : UInt64 :=
  match ct with
  | .automatedTesting => 150
  | .userTesting => 150
  | .floonet => Consensus.maxBlockWeight
  | .mainnet => Consensus.maxBlockWeight

def coinbaseMaturity (ct : ChainTypes) : UInt64 :=
  match ct with
  | .automatedTesting => 3
  | .userTesting => 3
  | .floonet => 30
  | .mainnet => dayHeight

def cutThroughHorizon (ct : ChainTypes) : UInt64 :=
  match ct with
  | .automatedTesting => 70
  | .userTesting => 70
  | .floonet => weekHeight
  | .mainnet => weekHeight

def getEmittedPolicy (height : UInt64) : UInt8 :=
  if height ≤ blockEra1 then
    0
  else if height ≤ blockEra2 then
    1
  else if height ≤ blockEra3 then
    2
  else if height ≤ blockEra4 then
    3
  else if height ≤ blockEra5 then
    4
  else
    5

def getPolicies (config : PolicyConfig) (index : UInt8) : Option Policy :=
  config.policies[index.toNat]?

end Global

namespace ProofOfWork

def isPrimary (ct : ChainTypes) (pow : ProofOfWork) : Bool :=
  match pow.proof with
  | .cuckoo edgeBits _ =>
    edgeBits != Consensus.secondPowEdgeBits && decide (Global.minEdgeBits ct ≤ edgeBits)
  | .md5 _ edgeBits =>
    edgeBits != Consensus.secondPowEdgeBits && decide (Global.minEdgeBits ct ≤ edgeBits)
  | _ => true

def isSecondary (pow : ProofOfWork) : Bool :=
  match pow.proof with
  | .cuckoo edgeBits _ => edgeBits == Consensus.secondPowEdgeBits
  | .md5 _ edgeBits => edgeBits == Consensus.secondPowEdgeBits
  | _ => false

end ProofOfWork

end Epic
