import Epic.Core.Global
import Epic.Store.AppendOnlyFile
import Epic.Store.PruneList

/-!
This module contains the file backend of a prunable Merkle mountain range: a file with the hashes of
all nodes, a file with the data of the leaves and the bitmaps that say which of them are gone.
-/

namespace Epic

open Pmmr

structure PMMRBackend (E : Type) where
  prunable : Bool
  hashFile : AppendOnlyFile Hash
  dataFile : AppendOnlyFile E
  leafSet : LeafSet
  pruneList : PruneList
deriving DecidableEq

namespace PMMRBackend

variable {E : Type}

def new (prunable : Bool) : PMMRBackend E := ⟨prunable, .empty, .empty, .empty, .new⟩

def isCompacted (b : PMMRBackend E) (pos : Nat) : Bool :=
  b.pruneList.isPruned pos && !b.pruneList.isPrunedRoot pos

def append (b : PMMRBackend E) (data : E) (hashes : List Hash) : PMMRBackend E :=
  let dataFile := b.dataFile.append data
  let pos := insertionToPmmrIndex (dataFile.sizeUnsync + b.pruneList.getTotalLeafShift)
  { b with
    dataFile := dataFile
    hashFile := hashes.foldl AppendOnlyFile.append b.hashFile
    leafSet := if b.prunable then b.leafSet.add pos else b.leafSet }

def getFromFile (b : PMMRBackend E) (position : Nat) : Option Hash :=
  if b.isCompacted position then
    none
  else
    b.hashFile.read (position - b.pruneList.getShift position)

def getDataFromFile (b : PMMRBackend E) (position : Nat) : Option E :=
  if !isLeaf position then
    none
  else if b.isCompacted position then
    none
  else
    b.dataFile.read (nLeaves position - b.pruneList.getLeafShift position)

def getHash (b : PMMRBackend E) (pos : Nat) : Option Hash :=
  if b.prunable && isLeaf pos && !b.leafSet.includes pos then none else b.getFromFile pos

def getData (b : PMMRBackend E) (pos : Nat) : Option E :=
  if !isLeaf pos then
    none
  else if b.prunable && !b.leafSet.includes pos then
    none
  else
    b.getDataFromFile pos

def rewind (b : PMMRBackend E) (position : Nat) (rewindRmPos : Bitmap) : PMMRBackend E :=
  { b with
    leafSet := if b.prunable then b.leafSet.rewind position rewindRmPos else b.leafSet
    hashFile := b.hashFile.rewind (position - b.pruneList.getShift position)
    dataFile := b.dataFile.rewind (nLeaves position - b.pruneList.getLeafShift position) }

def remove (b : PMMRBackend E) (pos : Nat) : PMMRBackend E :=
  { b with leafSet := b.leafSet.remove pos }

def hashSize (b : PMMRBackend E) : Nat := b.hashFile.size

def dataSize (b : PMMRBackend E) : Nat := b.dataFile.size

def unprunedSize (b : PMMRBackend E) : Nat := b.hashSize + b.pruneList.getTotalShift

def sync (b : PMMRBackend E) : PMMRBackend E :=
  { b with
    hashFile := b.hashFile.flush
    dataFile := b.dataFile.flush
    leafSet := if b.prunable then b.leafSet.flush else b.leafSet }

def discard (b : PMMRBackend E) : PMMRBackend E :=
  { b with
    hashFile := b.hashFile.discard
    dataFile := b.dataFile.discard
    leafSet := b.leafSet.discard }

def reopen (b : PMMRBackend E) : PMMRBackend E :=
  { b with
    hashFile := b.hashFile.reopen
    dataFile := b.dataFile.reopen
    leafSet := b.leafSet.reopen
    pruneList := b.pruneList.reopen }

def expand (b : PMMRBackend E) (fuel current : Nat) (expanded : Bitmap) : Bitmap :=
  match fuel with
  | 0 => expanded
  | fuel + 1 =>
    let (parent, sibling) := family current
    let expanded :=
      if b.pruneList.isPrunedRoot sibling then insert sibling expanded else expanded
    if sibling ∈ expanded then
      b.expand fuel parent (insert parent expanded)
    else
      expanded

def removedExclRoots (removed : Bitmap) : Bitmap :=
  removed.filter fun pos => (family pos).1 ∈ removed

-- a position has at most 64 ancestors
def posToRm (b : PMMRBackend E) (cutoffPos : Nat) (rewindRmPos : Bitmap) : Bitmap × Bitmap :=
  let leafPosToRm := b.leafSet.removedPreCutoff cutoffPos rewindRmPos b.pruneList
  let expanded := (Bitmap.iter leafPosToRm).foldl
    (fun expanded x => b.expand 64 x (insert x expanded)) ∅
  (leafPosToRm, removedExclRoots expanded)

def checkCompact (b : PMMRBackend E) (cutoffPos : Nat) (rewindRmPos : Bitmap) : PMMRBackend E :=
  let (leavesRemoved, posToRm) := b.posToRm cutoffPos rewindRmPos
  let posToRm := Bitmap.iter posToRm
  let hashPos := posToRm.map fun pos => pos - b.pruneList.getShift pos
  let leafPos := (posToRm.filter isLeaf).map fun pos => nLeaves pos - b.pruneList.getLeafShift pos
  { b with
    hashFile := b.hashFile.savePrune hashPos
    dataFile := b.dataFile.savePrune leafPos
    pruneList := ((Bitmap.iter leavesRemoved).foldl PruneList.add b.pruneList).flush
    leafSet := b.leafSet.flush }

/-!
The state between two units of work, and the working copies that `discard` takes back to it.
-/

structure Settled (b : PMMRBackend E) : Prop where
  hashFile : b.hashFile.Settled
  dataFile : b.dataFile.Settled
  leafSet : b.leafSet.bitmapBak = b.leafSet.bitmap

theorem Settled.new (prunable : Bool)
    : (PMMRBackend.new prunable : PMMRBackend E).Settled := ⟨.empty, .empty, rfl⟩

theorem Settled.checkCompact {b : PMMRBackend E} (h : b.Settled) (cutoffPos : Nat)
    (rewindRmPos : Bitmap)
    : (b.checkCompact cutoffPos rewindRmPos).Settled :=
  ⟨h.hashFile.savePrune _, h.dataFile.savePrune _, rfl⟩

structure Pending (base b : PMMRBackend E) : Prop where
  prunable : b.prunable = base.prunable
  hashFile : base.hashFile.Pending b.hashFile
  dataFile : base.dataFile.Pending b.dataFile
  leafSetBak : b.leafSet.bitmapBak = base.leafSet.bitmapBak
  leafSet : base.prunable = false → b.leafSet = base.leafSet
  pruneList : b.pruneList = base.pruneList

theorem Pending.refl (h : base.Settled)
    : Pending base base := ⟨rfl, .refl h.hashFile, .refl h.dataFile, rfl, fun _ => rfl, rfl⟩

theorem Pending.append (h : Pending base b) (data : E) (hashes : List Hash)
    : Pending base (b.append data hashes) where
  prunable := h.prunable
  hashFile := by
    have hpending := h.hashFile
    unfold PMMRBackend.append
    generalize b.hashFile = f at hpending
    induction hashes generalizing f with
    | nil => exact hpending
    | cons x hashes ih => exact ih (f.append x) (hpending.append x)
  dataFile := h.dataFile.append data
  leafSetBak := by
    unfold PMMRBackend.append
    dsimp only
    split <;> exact h.leafSetBak
  leafSet := by
    intro hfalse
    simp [PMMRBackend.append, h.prunable, hfalse, h.leafSet hfalse]
  pruneList := h.pruneList

theorem Pending.rewind (hbase : base.Settled) (h : Pending base b)
    (position : Nat) (rewindRmPos : Bitmap)
    : Pending base (b.rewind position rewindRmPos) where
  prunable := h.prunable
  hashFile := h.hashFile.rewind hbase.hashFile _
  dataFile := h.dataFile.rewind hbase.dataFile _
  leafSetBak := by
    unfold PMMRBackend.rewind
    dsimp only
    split <;> exact h.leafSetBak
  leafSet := by
    intro hfalse
    simp [PMMRBackend.rewind, h.prunable, hfalse, h.leafSet hfalse]
  pruneList := h.pruneList

theorem Pending.remove (h : Pending base b) (hprunable : b.prunable = true)
    (pos : Nat)
    : Pending base (b.remove pos) where
  prunable := h.prunable
  hashFile := h.hashFile
  dataFile := h.dataFile
  leafSetBak := h.leafSetBak
  leafSet := by
    intro hfalse
    rw [← h.prunable, hprunable] at hfalse
    contradiction
  pruneList := h.pruneList

theorem Pending.settled_discard (hbase : base.Settled) (h : Pending base b)
    : b.discard.Settled :=
  ⟨h.hashFile.settled_discard hbase.hashFile, h.dataFile.settled_discard hbase.dataFile, rfl⟩

theorem Pending.settled_sync (hbase : base.Settled) (h : Pending base b)
    : b.sync.Settled := by
  refine ⟨.flush _, .flush _, ?_⟩
  unfold PMMRBackend.sync
  dsimp only
  split
  . rfl
  . next hfalse =>
    rw [h.prunable, Bool.not_eq_true] at hfalse
    rw [h.leafSet hfalse]
    exact hbase.leafSet

end PMMRBackend

end Epic
