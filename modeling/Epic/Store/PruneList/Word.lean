import Epic.Store.PruneList.Count

/-!
This module contains prune lists whose bitmaps hold 32 bit numbers. A position is a 64 bit number and is
cut off where it is looked up in a bitmap or put into it.
-/

namespace Epic

open Pmmr DyadicBlock

def asU32 (pos : Nat) : Nat := pos % 2 ^ 32

theorem asU32_of_lt (h : pos < 2 ^ 32)
    : asU32 pos = pos := Nat.mod_eq_of_lt h

namespace PruneList

def cachedShift32 (bitmap : Bitmap) (cache : List Nat) (pos : Nat) : Nat :=
  cachedShift bitmap cache (asU32 pos)

def getShift32 (p : PruneList) (pos : Nat) : Nat := cachedShift32 p.bitmap p.shiftCache pos

def getLeafShift32 (p : PruneList) (pos : Nat) : Nat := cachedShift32 p.bitmap p.leafShiftCache pos

def getTotalShift32 (p : PruneList) : Nat := p.getShift32 (Bitmap.maximum p.bitmap)

def buildCache32 (bitmap : Bitmap) (currShift : Nat → Nat) : List Nat :=
  (Bitmap.iter bitmap).foldl
    (fun cache pos => cache ++ [cachedShift32 bitmap cache (pos - 1) + currShift pos]) []

-- the bitmap itself holds nothing that would be cut off
def flush32 (p : PruneList) : PruneList :=
  if p.bitmap = ∅ then
    p
  else
    let maximum := Bitmap.maximum p.bitmap
    let pruned := fun pos => (path pos maximum).any (asU32 · ∈ p.bitmap)
    { p with
      shiftCache := buildCache32 p.bitmap rootShift
      leafShiftCache := buildCache32 p.bitmap rootLeafShift
      prunedCache := ((Finset.Icc 1 maximum).filter fun pos => pruned pos = true).image asU32 }

def reopen32 (p : PruneList) : PruneList := flush32 ⟨p.bitmap, ∅, [], []⟩

def add32.go (fuel current : Nat) (p : PruneList) : PruneList :=
  match fuel with
  | 0 => p
  | fuel + 1 =>
    let (parent, sibling) := family current
    let p' := { p with prunedCache := insert (asU32 current) p.prunedCache }
    if asU32 sibling ∈ p.bitmap ∨ asU32 sibling ∈ p.prunedCache then
      go fuel parent { p' with bitmap := p.bitmap.erase (asU32 sibling) }
    else
      { p' with bitmap := insert (asU32 current) p.bitmap }

def add32 (p : PruneList) (pos : Nat) : PruneList := add32.go 64 pos p

section

variable {p : PruneList} {s : Finset Nat} {i k n x : Nat}

theorem lt_of_le_maximum {bitmap : Bitmap} {pos : Nat} (h : ∀ root ∈ bitmap, root < 2 ^ 32)
    (hpos : pos ≤ Bitmap.maximum bitmap)
    : pos < 2 ^ 32 := by
  have hmax : Bitmap.maximum bitmap < 2 ^ 32 := (Finset.sup_lt_iff (by decide)).mpr h
  omega

theorem buildCache32_eq {bitmap : Bitmap} (h : ∀ root ∈ bitmap, root < 2 ^ 32) (currShift : Nat → Nat)
    : buildCache32 bitmap currShift = buildCache bitmap currShift := by
  unfold buildCache32 buildCache
  apply List.foldl_ext
  intro cache pos hpos
  have hlt := h pos (Bitmap.mem_iter.mp hpos)
  rw [cachedShift32, asU32_of_lt (by omega)]

theorem flush32_eq (h : ∀ root ∈ p.bitmap, root < 2 ^ 32)
    : p.flush32 = p.flush := by
  unfold flush32
  split
  . next hempty => rw [flush_of_empty hempty]
  . next hne =>
    -- a path ends at the maximum of the bitmap
    have hpruned : ((Finset.Icc 1 (Bitmap.maximum p.bitmap)).filter fun pos =>
          ((path pos (Bitmap.maximum p.bitmap)).any (asU32 · ∈ p.bitmap)) = true).image asU32
        = (Finset.Icc 1 (Bitmap.maximum p.bitmap)).filter fun pos =>
          ((path pos (Bitmap.maximum p.bitmap)).any (· ∈ p.bitmap)) = true := by
      have hpath (pos : Nat) (hpos : 0 < pos)
          : (path pos (Bitmap.maximum p.bitmap)).any (asU32 · ∈ p.bitmap)
            = (path pos (Bitmap.maximum p.bitmap)).any (· ∈ p.bitmap) := by
        obtain ⟨i, k, rfl⟩ := exists_eq_nodeAt hpos
        rw [Bool.eq_iff_iff, List.any_eq_true, List.any_eq_true]
        refine exists_congr fun x => and_congr_right fun hx => ?_
        obtain ⟨-, -, hle⟩ := mem_path.mp hx
        rw [asU32_of_lt (lt_of_le_maximum h hle)]
      rw [Finset.filter_congr fun pos hpos => by rw [hpath pos (Finset.mem_Icc.mp hpos).1]]
      have hid : Set.EqOn asU32 id ((Finset.Icc 1 (Bitmap.maximum p.bitmap)).filter fun pos =>
          ((path pos (Bitmap.maximum p.bitmap)).any (· ∈ p.bitmap)) = true) := by
        intro pos hpos
        have hpos := Finset.mem_Icc.mp (Finset.mem_filter.mp (Finset.mem_coe.mp hpos)).1
        exact asU32_of_lt (lt_of_le_maximum h hpos.2)
      rw [Finset.image_congr hid, Finset.image_id]
    rw [flush_of_ne_empty hne]
    dsimp only
    rw [buildCache32_eq h, buildCache32_eq h, hpruned]

theorem parent_lt (hle : 2 ^ k * (i + 1) ≤ n) (hn : n < 2 ^ 31)
    : nodeAt (i / 2) (k + 1) < 2 ^ 32 := by
  have hk : k < 31 := by
    by_contra hge
    have hpow : 2 ^ 31 ≤ 2 ^ k := Nat.pow_le_pow_right (by omega) (by omega)
    have : 2 ^ k ≤ 2 ^ k * (i + 1) := Nat.le_mul_of_pos_right _ (Nat.succ_pos i)
    omega
  obtain ⟨d, hd⟩ := Nat.exists_eq_add_of_lt hk
  have hsplit : 2 ^ 31 = 2 ^ k * (2 * 2 ^ d) := by
    rw [← Nat.pow_succ', ← Nat.pow_add, hd, Nat.add_assoc]
  have hi : i + 1 < 2 * 2 ^ d := by
    apply Nat.lt_of_mul_lt_mul_left (a := 2 ^ k)
    omega
  have hparent : 2 ^ (k + 1) * (i / 2 + 1) ≤ 2 ^ 31 := by
    rw [hsplit, Nat.pow_succ, Nat.mul_assoc]
    exact Nat.mul_le_mul_left _ (Nat.mul_le_mul_left _ (by omega))
  have hsize : mmrSize (2 ^ 31) ≤ 2 ^ 32 - 1 := mmrSize_le_of_lt_two_pow (show 2 ^ 31 - 1 < 2 ^ 31 by omega)
  have := nodeAt_le_mmrSize_iff.mpr hparent
  omega

theorem asU32_nodeAt (hle : 2 ^ k * (i + 1) ≤ n) (hn : n < 2 ^ 31)
    : asU32 (nodeAt i k) = nodeAt i k ∧ asU32 (nodeAt (siblingOf i) k) = nodeAt (siblingOf i) k := by
  have hparent := parent_lt hle hn
  have hself := nodeAt_lt_parent i k
  have hsibling := nodeAt_lt_parent (siblingOf i) k
  rw [← siblingOf_half] at hsibling
  exact ⟨asU32_of_lt (by omega), asU32_of_lt (by omega)⟩

theorem Prunes.lt_of_mem (h : Prunes p s) (hs : s ⊆ Finset.range n) (hn : n < 2 ^ 31)
    : ∀ root ∈ p.bitmap, root < 2 ^ 32 := by
  intro root hroot
  obtain ⟨i, k, rfl, htop⟩ := (h.mem_bitmap root).mp hroot
  have hlt := parent_lt (htop.full.le hs) hn
  have := nodeAt_lt_parent i k
  omega

end

end PruneList
end Epic
