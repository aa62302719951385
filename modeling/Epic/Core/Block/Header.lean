import Epic.Core.Ser.Writer

/-!
This module contains the block header, its encoding and its hash.
-/

namespace Epic

-- from the start of MIN_DATE to the end of MAX_DATE
structure DateTime where
  timestamp : Int
  nanos : Nat
  min_le : -8334632851200 ≤ timestamp
  le_max : timestamp ≤ 8210298412799
  nanos_lt : nanos < 10 ^ 9
deriving DecidableEq

namespace DateTime

def whole (secs : Int) (hmin : -8334632851200 ≤ secs) (hmax : secs ≤ 8210298412799) : DateTime :=
  ⟨secs, 0, hmin, hmax, by decide⟩

-- none if the seconds are out of range
def ofSeconds (secs : Int) : Option DateTime :=
  if h : -8334632851200 ≤ secs ∧ secs ≤ 8210298412799 then some (.whole secs h.1 h.2) else none

def epoch : DateTime := .whole 0 (by decide) (by decide)

def truncSubsecs (d : DateTime) : DateTime := .whole d.timestamp d.min_le d.le_max

def timestampNanos (d : DateTime) : Int := d.timestamp * 10 ^ 9 + d.nanos

theorem truncSubsecs_eq_iff {d : DateTime}
    : d.truncSubsecs = d ↔ d.nanos = 0 := by
  obtain ⟨timestamp, nanos, hmin, hmax, hlt⟩ := d
  simp [truncSubsecs, whole, eq_comm]

theorem timestampNanos_lt_of_lt {d e : DateTime} (h : d.timestamp < e.timestamp)
    : d.timestampNanos < e.timestampNanos := by
  have := d.nanos_lt
  unfold timestampNanos
  omega

end DateTime

structure BlockHeader where
  version : UInt16
  height : UInt64
  prevHash : Hash
  prevRoot : Hash
  timestamp : DateTime
  outputRoot : Hash
  rangeProofRoot : Hash
  kernelRoot : Hash
  totalKernelOffset : BlindingFactor
  outputMmrSize : UInt64
  kernelMmrSize : UInt64
  pow : ProofOfWork
  policy : UInt8
  bottles : Policy
deriving DecidableEq

namespace BlockHeader

open Ser

def writePrePow (h : BlockHeader) : List UInt8 :=
  writeU64 h.height
    ++ writeI64 h.timestamp.timestamp
    ++ h.prevHash.write
    ++ h.prevRoot.write
    ++ h.outputRoot.write
    ++ h.rangeProofRoot.write
    ++ h.kernelRoot.write
    ++ h.totalKernelOffset.toList
    ++ writeU64 h.outputMmrSize
    ++ writeU64 h.kernelMmrSize

def write (ct : ChainTypes) (mode : SerializationMode) (h : BlockHeader) : List UInt8 :=
  let prePow :=
    match mode with
    | .full => h.writePrePow
    | .hash => []
  writeU16 h.version ++ prePow ++ h.pow.write ct mode ++ writeU8 h.policy ++ h.bottles.write

def hash (env : Env) (h : BlockHeader) : Hash := env.blake2b (h.write env.chainType .hash)

def prePow (h : BlockHeader) : List UInt8 :=
  writeU16 h.version ++ h.writePrePow ++ h.pow.writePrePow ++ writeU64 h.pow.nonce

def totalDifficulty (h : BlockHeader) : Difficulty := h.pow.totalDifficulty

end BlockHeader

namespace Pow

-- the solvers' verify functions, given the context and the header data they are set up with
structure Verifiers where
  progPow : List UInt8 → UInt64 → UInt64 → Proof → Bool
  randomX : Bytes32 → List UInt8 → UInt64 → UInt64 → Proof → Bool
  md5 : UInt8 → Nat → List UInt8 → UInt64 → UInt64 → Proof → Bool
  cuckatoo : UInt8 → Nat → List UInt8 → UInt64 → Proof → Bool

def verifySize (v : Verifiers) (ct : ChainTypes) (bh : BlockHeader) : Bool :=
  let pow := bh.pow
  match pow.proof with
  | .progPow _ => v.progPow bh.prePow pow.nonce bh.height pow.proof
  | .randomX _ => v.randomX pow.seed bh.prePow pow.nonce bh.height pow.proof
  | .md5 _ _ => v.md5 pow.edgeBits (Global.proofsize ct) bh.prePow pow.nonce bh.height pow.proof
  | .cuckoo _ nonces => v.cuckatoo pow.edgeBits nonces.length bh.prePow bh.height pow.proof

end Pow

end Epic
