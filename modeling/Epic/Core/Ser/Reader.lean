import Epic.Core.Block
import Epic.Util.Routine

/-!
This module contains the two readers and the decoding of blocks, headers, transactions and Merkle
proofs with either of them. Memory does not run out, but no allocation is larger than a pointer
difference.
-/

namespace Epic

-- BinReader reads from a buffer, StreamingReader from a connection
inductive ReaderKind where
  | bin
  | streaming
deriving DecidableEq, Repr

structure Source where
  bytes : List UInt8
  totalBytesRead : UInt64
deriving DecidableEq, Repr

abbrev Read (α : Type) := Routine Source SerError α

namespace Ser

def isizeMax : Nat := 2 ^ 63 - 1

-- a vector of that many elements is allocated
def withCapacity (len elmtSize : Nat) : Read Unit := .lift (.assert (len * elmtSize ≤ isizeMax))

def takeBytes (len : Nat) (e : SerError) : Read (List UInt8) := fun s =>
  if len ≤ s.bytes.length then
    (.ok (s.bytes.take len), { s with bytes := s.bytes.drop len })
  else
    (.err e, s)

def count (env : Env) (len : UInt64) : Read Unit := do
  let total ← .query fun s => MachineInt.add env.overflowChecks s.totalBytesRead len
  .modify fun s => { s with totalBytesRead := total }

-- A stream that has nothing to give to a read looks closed, also to a read of no bytes.
def readFixedBytes (env : Env) (kind : ReaderKind) (len : Nat) : Read (List UInt8) :=
  match kind with
  | .bin => do
    .lift (.require (¬ len > 100000) .tooLargeReadErr)
    withCapacity len 1
    takeBytes len .unexpectedEof
  | .streaming => do
    withCapacity len 1
    .lift (.require (len ≠ 0) .connectionAborted)
    let buf ← takeBytes len .connectionAborted
    count env (UInt64.ofNat len)
    return buf

-- the integers of the byteorder crate are read without a limit
def readInt (env : Env) (kind : ReaderKind) (len : Nat) : Read Nat := do
  let buf ←
    match kind with
    | .bin => takeBytes len .unexpectedEof
    | .streaming => readFixedBytes env .streaming len
  return Bytes.ofBE buf

def readU8 (env : Env) (kind : ReaderKind) : Read UInt8 := UInt8.ofNat <$> readInt env kind 1

def readU16 (env : Env) (kind : ReaderKind) : Read UInt16 := UInt16.ofNat <$> readInt env kind 2

def readU32 (env : Env) (kind : ReaderKind) : Read UInt32 := UInt32.ofNat <$> readInt env kind 4

def readI32 (env : Env) (kind : ReaderKind) : Read Int32 := Int32.ofNat <$> readInt env kind 4

def readU64 (env : Env) (kind : ReaderKind) : Read UInt64 := UInt64.ofNat <$> readInt env kind 8

def readI64 (env : Env) (kind : ReaderKind) : Read Int64 := Int64.ofNat <$> readInt env kind 8

-- the streaming reader counts the bytes of the length twice
def readBytesLenPrefix (env : Env) (kind : ReaderKind) : Read (List UInt8) := do
  let len ← readU64 env kind
  match kind with
  | .bin => readFixedBytes env .bin len.toNat
  | .streaming => do
    count env 8
    readFixedBytes env .streaming len.toNat

def expectU8 (env : Env) (kind : ReaderKind) (val : UInt8) : Read UInt8 := do
  let b ← readU8 env kind
  .lift (.require (b = val) (.unexpectedData [val] [b]))
  return b

-- the first bytes of a slice, as an array
def slice {ε : Type} (n : Nat) (v : List UInt8) : Outcome ε (List.Vector UInt8 n) :=
  if h : n ≤ v.length then .ok ⟨v.take n, by simp [h]⟩ else .panic

-- all bytes of a slice, as an array
def copyFromSlice {ε : Type} (n : Nat) (v : List UInt8) : Outcome ε (List.Vector UInt8 n) :=
  if h : v.length = n then .ok ⟨v, h⟩ else .panic

-- Result::unwrap
def unwrapRead {α : Type} (x : Read α) : Read α := fun s =>
  match x s with
  | (.err _, s) => (.panic, s)
  | res => res

def iterate {α : Type} (read : Read α) (n : Nat) : Read (List α) :=
  match n with
  | 0 => pure []
  | n + 1 => fun s =>
    match read s with
    | (.ok a, s) => (List.cons a <$> iterate read n) s
    | (.err _, s) => (.ok [], s)
    | (.panic, s) => (.panic, s)
    | (.hang, s) => (.hang, s)

def readMulti {α : Type} (read : Read α) (n : UInt64) : Read (List α) :=
  if n > 1000000 then
    .lift (.err .tooLargeReadErr)
  else do
    let res ← iterate read n.toNat
    .lift (.require (res.length = n.toNat) .countError)
    return res

end Ser

open Ser

def Hash.read (env : Env) (kind : ReaderKind) : Read Hash := do
  let v ← readFixedBytes env kind 32
  let a ← .lift (copyFromSlice 32 v)
  return ⟨a.toList⟩

def Commitment.read (env : Env) (kind : ReaderKind) : Read Commitment := do
  let a ← readFixedBytes env kind 33
  .lift (slice 33 a)

def Signature.read (env : Env) (kind : ReaderKind) : Read Signature := do
  let a ← readFixedBytes env kind 64
  let c ← .lift (slice 64 a)
  .lift (.unwrap (env.secp.fromRawData c))

-- a short slice is completed with zeros
def BlindingFactor.fromSlice (data : List UInt8) : BlindingFactor :=
  ⟨data.take 32 ++ List.replicate (32 - data.length) 0, by simp; omega⟩

def BlindingFactor.read (env : Env) (kind : ReaderKind) : Read BlindingFactor :=
  BlindingFactor.fromSlice <$> readFixedBytes env kind 32

-- the length of the proof is taken to be the size of its buffer
def RangeProof.ofBytes {ε : Type} (p : List UInt8) : Outcome ε RangeProof :=
  if h : p.length ≤ maxProofSize then
    .ok ⟨⟨p ++ List.replicate (maxProofSize - p.length) 0, by simp; omega⟩, maxProofSize, le_refl _⟩
  else
    .panic

def RangeProof.read (env : Env) (kind : ReaderKind) : Read RangeProof := do
  let len ← readU64 env kind
  let p ← readFixedBytes env kind (min len.toNat maxProofSize)
  .lift (ofBytes p)

namespace Difficulty

def read.go (env : Env) (kind : ReaderKind) (n : Nat) (result : DifficultyNumber)
    : Read DifficultyNumber :=
  match n with
  | 0 => pure result
  | n + 1 => do
    let pow ← readU8 env kind
    let count ← readU64 env kind
    let powType ← .lift (.okOr (PoWType.tryFrom pow) .corruptedData)
    go env kind n (result.insert powType count)

def read (env : Env) (kind : ReaderKind) : Read Difficulty := do
  let len ← readU64 env kind
  let num ← read.go env kind len.toNat .empty
  return ⟨num⟩

end Difficulty

namespace Policy

def read.go (env : Env) (kind : ReaderKind) (n : Nat) (result : Policy) : Read Policy :=
  match n with
  | 0 => pure result
  | n + 1 => do
    let pow ← readU8 env kind
    let pow ← .lift (.okOr (PoWType.tryFrom pow) .corruptedData)
    let count ← readU32 env kind
    go env kind n (result.insert pow count)

def read (env : Env) (kind : ReaderKind) : Read Policy := do
  let len ← readU64 env kind
  read.go env kind len.toNat .empty

end Policy

namespace Proof

def bitAt {ε : Type} (bits : List UInt8) (pos : Nat) : Outcome ε Bool := do
  let byte ← .unwrap bits[pos / 8]?
  return byte.toNat.testBit (pos % 8)

def unpackNonce {ε : Type} (checks : Bool) (bits : List UInt8) (nonceBits n : Nat)
    : Outcome ε UInt64 :=
  (List.range nonceBits).foldlM (fun nonce bit => do
    let set ← bitAt bits (n * nonceBits + bit)
    if set then
      let mask ← MachineInt.shl checks 64 1 bit
      return nonce ||| mask
    else
      return nonce) 0

def unpackNonces {ε : Type} (checks : Bool) (bits : List UInt8) (nonceBits proofsize : Nat)
    : Outcome ε (List UInt64) :=
  (List.range proofsize).mapM (unpackNonce checks bits nonceBits)

def checkPadding (bits : List UInt8) (start count : Nat) : Outcome SerError Unit :=
  match count with
  | 0 => .ok ()
  | count + 1 => do
    let set ← bitAt bits start
    .require (set = false) .corruptedData
    checkPadding bits (start + 1) count

def readCuckoo (env : Env) (kind : ReaderKind) : Read Proof := do
  let edgeBits ← readU8 env kind
  .lift (.require (¬ (edgeBits = 0 ∨ edgeBits > 64)) .corruptedData)
  let bitsLen := edgeBits.toNat * Global.proofsize env.chainType
  let bytesLen := (bitsLen + 7) / 8
  let bits ← readFixedBytes env kind bytesLen
  let nonces ← .lift
    (unpackNonces env.overflowChecks bits edgeBits.toNat (Global.proofsize env.chainType))
  .lift (checkPadding bits bitsLen (bytesLen * 8 - bitsLen))
  return .cuckoo edgeBits nonces

def readMD5 (env : Env) (kind : ReaderKind) : Read Proof := do
  let edgeBits ← readU8 env kind
  let proofBytes ← readBytesLenPrefix env kind
  let proof ← .lift (.unwrap (String.fromUTF8? ⟨proofBytes.toArray⟩))
  return .md5 proof edgeBits

def readArray32 (env : Env) (kind : ReaderKind) : Read Bytes32 := do
  let v ← unwrapRead (readFixedBytes env kind 32)
  .lift (slice 32 v)

def read (env : Env) (kind : ReaderKind) : Read Proof := do
  let powType ← readU8 env kind
  if powType = 0 then
    readCuckoo env kind
  else if powType = 1 then
    readMD5 env kind
  else if powType = 2 then
    .randomX <$> readArray32 env kind
  else if powType = 3 then
    .progPow <$> readArray32 env kind
  else
    .lift .panic

end Proof

def ProofOfWork.read (env : Env) (kind : ReaderKind) : Read ProofOfWork := do
  let totalDifficulty ← Difficulty.read env kind
  let secondaryScaling ← readU32 env kind
  let nonce ← readU64 env kind
  let proof ← Proof.read env kind
  let seedBytes ← readFixedBytes env kind 32
  let seed ← .lift (slice 32 seedBytes)
  return ⟨totalDifficulty, secondaryScaling, nonce, proof, seed⟩

def DateTime.fromTimestamp (timestamp : Int64) : Outcome SerError DateTime :=
  if h : -8334632851200 ≤ timestamp.toInt ∧ timestamp.toInt ≤ 8210298326400 then
    .ok (.whole timestamp.toInt h.1 (h.2.trans (by decide)))
  else
    .err .corruptedData

def BlockHeader.read (env : Env) (kind : ReaderKind) : Read BlockHeader := do
  let version ← readU16 env kind
  let height ← readU64 env kind
  let timestamp ← readI64 env kind
  let prevHash ← Hash.read env kind
  let prevRoot ← Hash.read env kind
  let outputRoot ← Hash.read env kind
  let rangeProofRoot ← Hash.read env kind
  let kernelRoot ← Hash.read env kind
  let totalKernelOffset ← BlindingFactor.read env kind
  let outputMmrSize ← readU64 env kind
  let kernelMmrSize ← readU64 env kind
  let pow ← ProofOfWork.read env kind
  let policy ← readU8 env kind
  let bottles ← Policy.read env kind
  let timestamp ← .lift (DateTime.fromTimestamp timestamp)
  .lift (.require (version = Global.currentHeaderVersion) .invalidBlockVersion)
  return ⟨version, height, prevHash, prevRoot, timestamp, outputRoot, rangeProofRoot, kernelRoot,
    totalKernelOffset, outputMmrSize, kernelMmrSize, pow, policy, bottles⟩

def OutputFeatures.fromU8 (n : UInt8) : Option OutputFeatures :=
  if n = 0 then some plain else if n = 1 then some coinbase else none

def OutputFeatures.read (env : Env) (kind : ReaderKind) : Read OutputFeatures := do
  let n ← readU8 env kind
  .lift (.okOr (fromU8 n) .corruptedData)

def KernelFeatures.fromU8 (n : UInt8) : Option KernelFeatures :=
  if n = 0 then some plain else if n = 1 then some coinbase else if n = 2 then some heightLocked else none

def KernelFeatures.read (env : Env) (kind : ReaderKind) : Read KernelFeatures := do
  let n ← readU8 env kind
  .lift (.okOr (fromU8 n) .corruptedData)

def Input.read (env : Env) (kind : ReaderKind) : Read Input := do
  let features ← OutputFeatures.read env kind
  let commit ← Commitment.read env kind
  return ⟨features, commit⟩

def Output.read (env : Env) (kind : ReaderKind) : Read Output := do
  let features ← OutputFeatures.read env kind
  let commit ← Commitment.read env kind
  let proof ← RangeProof.read env kind
  return ⟨features, commit, proof⟩

def TxKernel.read (env : Env) (kind : ReaderKind) : Read TxKernel := do
  let features ← KernelFeatures.read env kind
  let fee ← readU64 env kind
  let lockHeight ← readU64 env kind
  let excess ← Commitment.read env kind
  let excessSig ← Signature.read env kind
  return ⟨features, fee, lockHeight, excess, excessSig⟩

def TransactionBody.read (env : Env) (kind : ReaderKind) : Read TransactionBody := do
  let inputLen ← readU64 env kind
  let outputLen ← readU64 env kind
  let kernelLen ← readU64 env kind
  .lift (.require (¬ weightAsBlock inputLen.toNat outputLen.toNat kernelLen.toNat
    > (Global.maxBlockWeight env.chainType).toNat) .tooLargeReadErr)
  let inputs ← readMulti (Input.read env kind) inputLen
  let outputs ← readMulti (Output.read env kind) outputLen
  let kernels ← readMulti (TxKernel.read env kind) kernelLen
  let body : TransactionBody := ⟨inputs, outputs, kernels⟩
  .lift ((body.verifySorted env).mapErr fun _ => .corruptedData)
  return body

def Transaction.read (env : Env) (kind : ReaderKind) : Read Transaction := do
  let offset ← BlindingFactor.read env kind
  let body ← TransactionBody.read env kind
  let tx : Transaction := ⟨offset, body⟩
  .lift ((tx.validateRead env).mapErr fun _ => .corruptedData)
  return tx

abbrev ShortId := List.Vector UInt8 6

def ShortId.hash (env : Env) (id : ShortId) : Hash := env.blake2b id.toList

structure CompactBlockBody where
  outFull : List Output
  kernFull : List TxKernel
  kernIds : List ShortId
deriving DecidableEq

structure CompactBlock where
  header : BlockHeader
  nonce : UInt64
  body : CompactBlockBody
deriving DecidableEq

structure MerkleProof where
  protected mmrSize : UInt64
  path : List Hash
deriving DecidableEq

end Epic
