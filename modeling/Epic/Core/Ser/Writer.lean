import Epic.Core.Global
import Epic.Util.Bytes

/-!
This module contains the binary encoding of the proof of work data, in the mode that reconstructs an
object and in the mode that is fed to the digest.
-/

namespace Epic

inductive SerError where
  | unexpectedEof
  | connectionAborted
  | unexpectedData (expected received : List UInt8)
  | corruptedData
  | countError
  | tooLargeReadErr
  | sortError
  | duplicateError
  | invalidBlockVersion
deriving DecidableEq, Repr

inductive SerializationMode where
  | full
  | hash
deriving DecidableEq, Repr

namespace Ser

def writeU8 (n : UInt8) : List UInt8 := [n]

def writeU16 (n : UInt16) : List UInt8 := Bytes.beBytes 2 n.toNat

def writeU32 (n : UInt32) : List UInt8 := Bytes.beBytes 4 n.toNat

def writeU64 (n : UInt64) : List UInt8 := Bytes.beBytes 8 n.toNat

def writeI64 (n : Int) : List UInt8 := Bytes.beBytes 8 (n % 2 ^ 64).toNat

def writeBytes (bytes : List UInt8) : List UInt8 :=
  writeU64 (UInt64.ofNat bytes.length) ++ bytes

end Ser

open Ser

def Hash.write (h : Hash) : List UInt8 := h.bytes

theorem Hash.write_inj {h₁ h₂ : Hash} (h : h₁.write = h₂.write)
    : h₁ = h₂ := by
  cases h₁
  cases h₂
  exact congrArg Hash.mk h

def Policy.write (p : Policy) : List UInt8 :=
  writeU64 (UInt64.ofNat p.entries.length)
    ++ p.entries.flatMap fun (algo, num) => writeU8 algo.toU8 ++ writeU32 num

def Difficulty.write (d : Difficulty) : List UInt8 :=
  writeU64 (UInt64.ofNat d.num.entries.length)
    ++ d.num.entries.flatMap fun (algo, num) => writeU8 algo.toU8 ++ writeU64 num

namespace Proof

def packNonces (ct : ChainTypes) (edgeBits : UInt8) (nonces : List UInt64) : List UInt8 :=
  let nonceBits := edgeBits.toNat
  let bits := nonces.flatMap fun nonce =>
    (List.range nonceBits).map fun bit => nonce.toNat.testBit bit
  Bytes.packBits ((nonceBits * Global.proofsize ct + 7) / 8) bits

def write (ct : ChainTypes) (mode : SerializationMode) (p : Proof) : List UInt8 :=
  match p with
  | .cuckoo edgeBits nonces =>
    let edgeBitsByte :=
      match mode with
      | .full => writeU8 edgeBits
      | .hash => []
    writeU8 0 ++ edgeBitsByte ++ packNonces ct edgeBits nonces
  | .md5 proof edgeBits => writeU8 1 ++ writeU8 edgeBits ++ writeBytes proof.toUTF8.toList
  | .randomX hash => writeU8 2 ++ hash.toList
  | .progPow mix => writeU8 3 ++ mix.toList

def hash (env : Env) (p : Proof) : Hash := env.blake2b (p.write env.chainType .hash)

end Proof

namespace ProofOfWork

def writePrePow (pow : ProofOfWork) : List UInt8 :=
  pow.totalDifficulty.write ++ writeU32 pow.secondaryScaling

def write (ct : ChainTypes) (mode : SerializationMode) (pow : ProofOfWork) : List UInt8 :=
  let prePow :=
    match mode with
    | .full => pow.writePrePow ++ writeU64 pow.nonce
    | .hash => []
  prePow ++ pow.proof.write ct mode ++ pow.seed.toList

end ProofOfWork

end Epic
