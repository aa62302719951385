import Epic.Core.Block
import Epic.Store.Backend
import Epic.Util.Routine

/-!
This module contains the prunable Merkle mountain range over its file backend.
-/

namespace Epic

open Ser Pmmr

class PMMRable (T : Type) (E : outParam Type) where
  asElmt : Env → T → E
  write : Env → T → List UInt8

def hashWithIndex (env : Env) (bytes : List UInt8) (index : Nat) : Hash :=
  env.blake2b (writeU64 (UInt64.ofNat index) ++ bytes)

structure HeaderEntry where
  hash : Hash
  timestamp : UInt64
  totalDifficulty : Difficulty
  secondaryScaling : UInt32
  isSecondary : Bool
deriving DecidableEq

instance : PMMRable BlockHeader HeaderEntry where
  asElmt env h := {
    hash := h.hash env
    timestamp := MachineInt.ofInt h.timestamp.timestamp
    totalDifficulty := h.totalDifficulty
    secondaryScaling := h.pow.secondaryScaling
    isSecondary := h.pow.isSecondary }
  write env h := h.write env.chainType .hash

instance : PMMRable Output OutputIdentifier where
  asElmt _ o := .fromOutput o
  write _ o := o.write .hash

instance : PMMRable RangeProof RangeProof where
  asElmt _ p := p
  write _ p := p.write

instance : PMMRable TxKernel TxKernel where
  asElmt _ k := k
  write _ k := k.write

def zeroHash : Hash := ⟨List.replicate 32 0⟩

-- a backend together with the last position of the mountain range in it
structure PMMR (E : Type) where
  backend : PMMRBackend E
  lastPos : Nat
deriving DecidableEq

namespace PMMR

variable {T E : Type} [PMMRable T E]

def new (prunable : Bool) : PMMR E := ⟨.new prunable, 0⟩

def getHash (p : PMMR E) (pos : Nat) : Option Hash :=
  if pos > p.lastPos then
    none
  else if isLeaf pos then
    p.backend.getHash pos
  else
    p.backend.getFromFile pos

def getData (p : PMMR E) (pos : Nat) : Option E :=
  if pos > p.lastPos then
    none
  else if isLeaf pos then
    p.backend.getData pos
  else
    none

def getFromFile (p : PMMR E) (pos : Nat) : Option Hash :=
  if pos > p.lastPos then none else p.backend.getFromFile pos

def unprunedSize (p : PMMR E) : Nat := p.lastPos

def peaks (p : PMMR E) : List Hash := (Pmmr.peaks p.lastPos).filterMap p.backend.getFromFile

def bag (env : Env) (size : Nat) (peaks : List Hash) : Option Hash :=
  peaks.reverse.foldl
    (fun res peak =>
      match res with
      | none => some peak
      | some rhash => some (hashWithIndex env (peak.write ++ rhash.write) size))
    none

def root {ε : Type} (env : Env) (p : PMMR E) : Outcome ε Hash :=
  if p.lastPos = 0 then .ok zeroHash else .unwrap (bag env p.unprunedSize p.peaks)

-- hash with all immediately preceding peaks, as indicated by the peak map
def pushHashes (env : Env) (getFromFile : Nat → Option Hash) (peakMap fuel height pos : Nat)
    (currentHash : Hash) (hashes : List Hash)
    : Outcome String (Nat × List Hash) :=
  match fuel with
  | 0 => .ok (pos, hashes)
  | fuel + 1 =>
    if peakMap.testBit height then do
      let leftHash ← .okOr (getFromFile (pos + 1 - 2 * 2 ^ height))
        "missing left sibling in tree, should not have been pruned"
      let currentHash := hashWithIndex env (leftHash.write ++ currentHash.write) pos
      pushHashes env getFromFile peakMap fuel (height + 1) (pos + 1) currentHash
        (hashes ++ [currentHash])
    else
      .ok (pos, hashes)

def push (env : Env) (elmt : T) : Routine (PMMR E) String Nat := fun p =>
  let elmtPos := p.lastPos + 1
  let currentHash := hashWithIndex env (PMMRable.write env elmt) (elmtPos - 1)
  let (peakMap, height) := peakMapHeight (elmtPos - 1)
  if height ≠ 0 then
    (.err s!"bad mmr size {elmtPos - 1}", p)
  else
    match pushHashes env p.backend.getFromFile peakMap (peakMap + 1) 0 elmtPos currentHash
      [currentHash] with
    | .ok (pos, hashes) => (.ok elmtPos, ⟨p.backend.append (PMMRable.asElmt env elmt) hashes, pos⟩)
    | .err e => (.err e, p)
    | .panic => (.panic, p)
    | .hang => (.hang, p)

def truncate (p : PMMR E) : PMMR E := ⟨p.backend.rewind 0 ∅, 0⟩

-- the last of the parents that directly follow a position
def lastParent (fuel pos : Nat) : Nat :=
  match fuel with
  | 0 => pos
  | fuel + 1 => if bintreePostorderHeight (pos + 1) > 0 then lastParent fuel (pos + 1) else pos

def rewind (p : PMMR E) (position : Nat) (rewindRmPos : Bitmap) : PMMR E :=
  let pos := lastParent (position + 1) position
  ⟨p.backend.rewind pos rewindRmPos, pos⟩

def prune (position : Nat) : Routine (PMMR E) String Bool := fun p =>
  if !isLeaf position then
    (.err s!"Node at {position} is not a leaf, can't prune.", p)
  else if (p.backend.getHash position).isNone then
    (.ok false, p)
  else if !p.backend.prunable then
    (.panic, p)
  else
    (.ok true, { p with backend := p.backend.remove position })

def reopen (p : PMMR E) : PMMR E := ⟨p.backend.reopen, p.backend.reopen.unprunedSize⟩

def sync (p : PMMR E) : PMMR E := { p with backend := p.backend.sync }

end PMMR

end Epic
