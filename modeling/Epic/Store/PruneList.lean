import Epic.Core.Pmmr.Position
import Mathlib.Data.Finset.Lattice.Fold
import Mathlib.Order.Interval.Finset.Nat
import Mathlib.Order.Lattice.Nat

/-!
This module contains the bitmaps that say which nodes of a prunable Merkle mountain range are gone:
the set of unspent leaves and the list of pruned subtrees.
-/

namespace Epic

open Pmmr

-- The positions are cast to u32 in a bitmap: what follows is the code for positions below 2 ^ 32.
abbrev Bitmap := Finset Nat

namespace Bitmap

def maximum (b : Bitmap) : Nat := b.sup id

def iter (b : Bitmap) : List Nat := (List.range (maximum b + 1)).filter (· ∈ b)

def rank (b : Bitmap) (pos : Nat) : Nat := (b.filter (· ≤ pos)).card

end Bitmap

structure PruneList where
  bitmap : Bitmap
  prunedCache : Bitmap
  shiftCache : List Nat
  leafShiftCache : List Nat
deriving DecidableEq

namespace PruneList

def new : PruneList := ⟨∅, ∅, [], []⟩

def isPruned (p : PruneList) (pos : Nat) : Bool := pos ∈ p.prunedCache

def isPrunedRoot (p : PruneList) (pos : Nat) : Bool := pos ∈ p.bitmap

-- get_shift and get_leaf_shift, which differ in the cache
def cachedShift (bitmap : Bitmap) (cache : List Nat) (pos : Nat) : Nat :=
  let idx := Bitmap.rank bitmap pos
  if idx = 0 then
    0
  else if idx > cache.length then
    cache.getD (cache.length - 1) 0
  else
    cache.getD (idx - 1) 0

def getShift (p : PruneList) (pos : Nat) : Nat := cachedShift p.bitmap p.shiftCache pos

def getLeafShift (p : PruneList) (pos : Nat) : Nat := cachedShift p.bitmap p.leafShiftCache pos

def getTotalShift (p : PruneList) : Nat := p.getShift (Bitmap.maximum p.bitmap)

def getTotalLeafShift (p : PruneList) : Nat := p.getLeafShift (Bitmap.maximum p.bitmap)

def buildCache (bitmap : Bitmap) (currShift : Nat → Nat) : List Nat :=
  (Bitmap.iter bitmap).foldl
    (fun cache pos => cache ++ [cachedShift bitmap cache (pos - 1) + currShift pos]) []

def buildShiftCache (p : PruneList) : PruneList :=
  if p.bitmap = ∅ then
    p
  else
    let currShift := fun pos => 2 * (2 ^ bintreePostorderHeight pos - 1)
    { p with shiftCache := buildCache p.bitmap currShift }

def buildLeafShiftCache (p : PruneList) : PruneList :=
  if p.bitmap = ∅ then
    p
  else
    let currShift := fun pos =>
      if bintreePostorderHeight pos = 0 then 0 else 2 ^ bintreePostorderHeight pos
    { p with leafShiftCache := buildCache p.bitmap currShift }

def buildPrunedCache (p : PruneList) : PruneList :=
  if p.bitmap = ∅ then
    p
  else
    let maximum := Bitmap.maximum p.bitmap
    let pruned := fun pos => (path pos maximum).any (· ∈ p.bitmap)
    { p with prunedCache := (Finset.Icc 1 maximum).filter fun pos => pruned pos = true }

def flush (p : PruneList) : PruneList := p.buildShiftCache.buildLeafShiftCache.buildPrunedCache

-- the caches are built from the bitmap, which is all that is written
def reopen (p : PruneList) : PruneList := flush ⟨p.bitmap, ∅, [], []⟩

def add.go (fuel current : Nat) (p : PruneList) : PruneList :=
  match fuel with
  | 0 => p
  | fuel + 1 =>
    let (parent, sibling) := family current
    let p' := { p with prunedCache := insert current p.prunedCache }
    if sibling ∈ p.bitmap ∨ sibling ∈ p.prunedCache then
      go fuel parent { p' with bitmap := p.bitmap.erase sibling }
    else
      { p' with bitmap := insert current p.bitmap }

-- a position has at most 64 ancestors
def add (p : PruneList) (pos : Nat) : PruneList := add.go 64 pos p

@[simp]
theorem isPruned_new (pos : Nat)
    : new.isPruned pos = false := rfl

@[simp]
theorem getShift_new (pos : Nat)
    : new.getShift pos = 0 := rfl

@[simp]
theorem getLeafShift_new (pos : Nat)
    : new.getLeafShift pos = 0 := rfl

@[simp]
theorem getTotalShift_new
    : new.getTotalShift = 0 := rfl

@[simp]
theorem getTotalLeafShift_new
    : new.getTotalLeafShift = 0 := rfl

end PruneList

structure LeafSet where
  bitmap : Bitmap
  bitmapBak : Bitmap
deriving DecidableEq

namespace LeafSet

def empty : LeafSet := ⟨∅, ∅⟩

-- the bitmap without what was added after the cutoff, and with what was removed since
def rewound (l : LeafSet) (cutoffPos : Nat) (rewindRmPos : Bitmap) : Bitmap :=
  (l.bitmap \ Finset.Icc (cutoffPos + 1) (Bitmap.maximum l.bitmap)) ∪ rewindRmPos

def unprunedPreCutoff (cutoffPos : Nat) (pruneList : PruneList) : Bitmap :=
  (Finset.Icc 1 cutoffPos).filter fun x => isLeaf x = true ∧ pruneList.isPruned x = false

def removedPreCutoff (l : LeafSet) (cutoffPos : Nat) (rewindRmPos : Bitmap) (pruneList : PruneList)
    : Bitmap :=
  symmDiff (l.rewound cutoffPos rewindRmPos) (Finset.Icc 1 cutoffPos)
    ∩ unprunedPreCutoff cutoffPos pruneList

def rewind (l : LeafSet) (cutoffPos : Nat) (rewindRmPos : Bitmap) : LeafSet :=
  { l with bitmap := l.rewound cutoffPos rewindRmPos }

def add (l : LeafSet) (pos : Nat) : LeafSet := { l with bitmap := insert pos l.bitmap }

def remove (l : LeafSet) (pos : Nat) : LeafSet := { l with bitmap := l.bitmap.erase pos }

def flush (l : LeafSet) : LeafSet := ⟨l.bitmap, l.bitmap⟩

def discard (l : LeafSet) : LeafSet := ⟨l.bitmapBak, l.bitmapBak⟩

def reopen (l : LeafSet) : LeafSet := ⟨l.bitmapBak, l.bitmapBak⟩

def includes (l : LeafSet) (pos : Nat) : Bool := pos ∈ l.bitmap

theorem mem_rewound {l : LeafSet}
    : pos ∈ l.rewound cutoffPos rewindRmPos
        ↔
      pos ∈ l.bitmap ∧ pos ≤ cutoffPos ∨ pos ∈ rewindRmPos := by
  have hmax : pos ∈ l.bitmap → pos ≤ Bitmap.maximum l.bitmap := fun h =>
    Finset.le_sup (f := id) h
  simp only [rewound, Finset.mem_union, Finset.mem_sdiff, Finset.mem_Icc]
  constructor
  . rintro (⟨hmem, hnot⟩ | hrm)
    . have := hmax hmem
      exact .inl ⟨hmem, by omega⟩
    . exact .inr hrm
  . rintro (⟨hmem, hle⟩ | hrm)
    . exact .inl ⟨hmem, by omega⟩
    . exact .inr hrm

theorem discard_eq {base l : LeafSet} (hbase : base.bitmapBak = base.bitmap)
    (hl : l.bitmapBak = base.bitmapBak)
    : l.discard = base := by
  unfold discard
  cases base
  simp_all

theorem flush_eq {l : LeafSet} (h : l.bitmapBak = l.bitmap)
    : l.flush = l := by
  cases l
  simp_all [flush]

end LeafSet

end Epic
