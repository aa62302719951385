import Epic.Core.Pmmr.Sizes
import Epic.Store.PruneList.Word

/-!
This module contains the offsets of a prune list whose bitmap is any set of disjoint subtrees: the shifted
positions of what is kept are dense and in order.
-/

namespace Epic
namespace PruneList

open Pmmr DyadicBlock

structure DisjointRoots (bitmap : Bitmap) : Prop where
  pos : ∀ root ∈ bitmap, 0 < root
  disjoint : ∀ root ∈ bitmap, ∀ root' ∈ bitmap, root ∉ below root'

def keptPositions (bitmap : Bitmap) (n : Nat) : Finset Nat :=
  (Finset.Icc 1 n).filter fun pos => ∀ root ∈ bitmap, pos ∉ below root

def keptLeafPositions (bitmap : Bitmap) (n : Nat) : Finset Nat :=
  (keptPositions bitmap n).filter fun pos => isLeaf pos = true

section

variable {p : PruneList} {bitmap : Bitmap} {n pos : Nat}

-- the caches of a bitmap alone
def ofBitmap (bitmap : Bitmap) : PruneList := flush ⟨bitmap, ∅, [], []⟩

theorem bitmap_ofBitmap (bitmap : Bitmap)
    : (ofBitmap bitmap).bitmap = bitmap := bitmap_flush _

theorem mem_prunedCache_ofBitmap (h : DisjointRoots bitmap) (pos : Nat)
    : pos ∈ (ofBitmap bitmap).prunedCache ↔ ∃ root ∈ bitmap, pos = root ∨ pos ∈ below root := by
  by_cases hempty : bitmap = ∅
  . rw [ofBitmap, flush_of_empty (p := ⟨bitmap, ∅, [], []⟩) hempty, hempty]
    simp
  . rw [ofBitmap, flush_of_ne_empty (p := ⟨bitmap, ∅, [], []⟩) hempty]
    simp only [Finset.mem_filter, Finset.mem_Icc, List.any_eq_true, decide_eq_true_eq]
    have hmax {root : Nat} (hroot : root ∈ bitmap) : root ≤ Bitmap.maximum bitmap :=
      Finset.le_sup (f := id) hroot
    constructor
    . rintro ⟨⟨hpos, -⟩, root, hpath, hroot⟩
      obtain ⟨i, k, rfl⟩ := exists_eq_nodeAt hpos
      obtain ⟨t, rfl, -⟩ := mem_path.mp hpath
      refine ⟨_, hroot, ?_⟩
      rcases t with _ | t
      . left
        rw [Nat.pow_zero, Nat.div_one, Nat.add_zero]
      . exact .inr (mem_below.mpr ⟨i, k, t, rfl, rfl, rfl⟩)
    . rintro ⟨root, hroot, hpos⟩
      obtain ⟨i, k, rfl⟩ := exists_eq_nodeAt (h.pos root hroot)
      have hle := hmax hroot
      obtain ⟨j, l, t, rfl, rfl, rfl⟩ : ∃ j l t, pos = nodeAt j l ∧ k = l + t ∧ i = j / 2 ^ t := by
        rcases hpos with rfl | hbelow
        . exact ⟨i, k, 0, rfl, rfl, by simp⟩
        . obtain ⟨j, l, t, hpos, hk, hi⟩ := mem_below.mp hbelow
          exact ⟨j, l, t + 1, hpos, hk, hi⟩
      exact ⟨⟨nodeAt_pos j l, (nodeAt_le_above j l t).trans hle⟩, _, mem_path.mpr ⟨t, rfl, hle⟩, hroot⟩

theorem rooted_ofBitmap (h : DisjointRoots bitmap)
    : Rooted (ofBitmap bitmap) where
  pos := by
    rw [bitmap_ofBitmap]
    exact h.pos
  disjoint := by
    rw [bitmap_ofBitmap]
    exact h.disjoint
  compacts_iff x := by
    unfold compacts isPruned isPrunedRoot
    rw [bitmap_ofBitmap, Bool.and_eq_true, Bool.not_eq_true', decide_eq_true_eq, decide_eq_false_iff_not,
      mem_prunedCache_ofBitmap h]
    constructor
    . rintro ⟨⟨root, hroot, rfl | hbelow⟩, hnot⟩
      . exact absurd hroot hnot
      . exact ⟨root, hroot, hbelow⟩
    . rintro ⟨root, hroot, hbelow⟩
      exact ⟨⟨root, hroot, .inr hbelow⟩, fun hmem => h.disjoint x hmem root hroot hbelow⟩

theorem cached_ofBitmap (h : DisjointRoots bitmap)
    : Cached (ofBitmap bitmap) := Cached.flush fun hzero => absurd (h.pos 0 hzero) (Nat.lt_irrefl 0)

theorem mem_keptPositions (h : DisjointRoots bitmap)
    : pos ∈ keptPositions bitmap n ↔ (1 ≤ pos ∧ pos ≤ n) ∧ (ofBitmap bitmap).compacts pos = false := by
  rw [keptPositions, Finset.mem_filter, Finset.mem_Icc, ← Bool.not_eq_true, (rooted_ofBitmap h).compacts_iff,
    bitmap_ofBitmap]
  simp

theorem card_keptPositions (h : DisjointRoots bitmap) (hle : pos ≤ n)
    (hkept : (ofBitmap bitmap).compacts pos = false)
    : ((keptPositions bitmap n).filter (· ≤ pos)).card = pos - (ofBitmap bitmap).getShift pos := by
  have hcard := (rooted_ofBitmap h).card_compacts (cached_ofBitmap h) hkept
  have hsplit := Finset.card_filter_add_card_filter_not (s := Finset.Icc 1 pos)
    (fun x => (ofBitmap bitmap).compacts x = true)
  have hset : (keptPositions bitmap n).filter (· ≤ pos)
      = (Finset.Icc 1 pos).filter fun x => ¬ (ofBitmap bitmap).compacts x = true := by
    ext x
    simp only [Finset.mem_filter, mem_keptPositions h, Finset.mem_Icc, Bool.not_eq_true]
    constructor
    . rintro ⟨⟨⟨hx, -⟩, hcompacts⟩, hxpos⟩
      exact ⟨⟨hx, hxpos⟩, hcompacts⟩
    . rintro ⟨⟨hx, hxpos⟩, hcompacts⟩
      exact ⟨⟨⟨hx, hxpos.trans hle⟩, hcompacts⟩, hxpos⟩
  rw [hcard, Nat.card_Icc, ← hset] at hsplit
  omega

theorem card_keptLeafPositions (h : DisjointRoots bitmap) (hle : pos ≤ n)
    (hkept : (ofBitmap bitmap).compacts pos = false)
    : ((keptLeafPositions bitmap n).filter (· ≤ pos)).card
        =
      nLeaves pos - (ofBitmap bitmap).getLeafShift pos := by
  have hcard := (rooted_ofBitmap h).card_leaves (cached_ofBitmap h) hkept fun _ => leafPos_le_iff
  have hsplit := Finset.card_filter_add_card_filter_not (s := Finset.range (nLeaves pos))
    (fun j => (ofBitmap bitmap).compacts (leafPos j) = true)
  have hset : (keptLeafPositions bitmap n).filter (· ≤ pos)
      = ((Finset.range (nLeaves pos)).filter fun j =>
          ¬ (ofBitmap bitmap).compacts (leafPos j) = true).image leafPos := by
    ext x
    simp only [keptLeafPositions, Finset.mem_filter, mem_keptPositions h, Finset.mem_image, Finset.mem_range,
      Bool.not_eq_true]
    constructor
    . rintro ⟨⟨⟨⟨hx, -⟩, hcompacts⟩, hleaf⟩, hxpos⟩
      obtain ⟨j, rfl⟩ := exists_eq_leafPos hx hleaf
      exact ⟨j, ⟨leafPos_le_iff.mp hxpos, hcompacts⟩, rfl⟩
    . rintro ⟨j, ⟨hj, hcompacts⟩, rfl⟩
      have hxpos := leafPos_le_iff.mpr hj
      exact ⟨⟨⟨⟨Nat.succ_pos _, hxpos.trans hle⟩, hcompacts⟩, isLeaf_leafPos j⟩, hxpos⟩
  rw [hcard, Finset.card_range, ← Finset.card_image_of_injective _ leafPos_injective, ← hset] at hsplit
  omega

theorem shifts_flush32 (h : DisjointRoots p.bitmap) (hroots : ∀ root ∈ p.bitmap, root ≤ n) (hn : n < 2 ^ 32)
    (hle : pos ≤ n)
    : p.flush32.getShift32 pos = (ofBitmap p.bitmap).getShift pos
        ∧ p.flush32.getLeafShift32 pos = (ofBitmap p.bitmap).getLeafShift pos := by
  have hlt : ∀ root ∈ p.bitmap, root < 2 ^ 32 := fun root hroot => (hroots root hroot).trans_lt hn
  have hcached : Cached p.flush := Cached.flush fun hzero => absurd (h.pos 0 hzero) (Nat.lt_irrefl 0)
  have hown := cached_ofBitmap h
  rw [flush32_eq hlt, getShift32, getLeafShift32, cachedShift32, cachedShift32, asU32_of_lt (by omega)]
  constructor
  . rw [hown.shift, bitmap_ofBitmap, ← bitmap_flush p]
    exact hcached.shift pos
  . rw [hown.leafShift, bitmap_ofBitmap, ← bitmap_flush p]
    exact hcached.leafShift pos

theorem getShift_eq_of_roots_le (h : DisjointRoots bitmap) (hroots : ∀ root ∈ bitmap, root ≤ n)
    (hroots' : ∀ root ∈ bitmap, root ≤ pos)
    : (ofBitmap bitmap).getShift n = (ofBitmap bitmap).getShift pos := by
  have hown := cached_ofBitmap h
  rw [hown.shift, hown.shift, bitmap_ofBitmap, Finset.filter_true_of_mem hroots, Finset.filter_true_of_mem hroots']

theorem getTotalShift_flush32 (h : DisjointRoots p.bitmap) (hroots : ∀ root ∈ p.bitmap, root ≤ n)
    (hn : n < 2 ^ 32)
    : p.flush32.getTotalShift32 = (ofBitmap p.bitmap).getShift n := by
  have hlt : ∀ root ∈ p.bitmap, root < 2 ^ 32 := fun root hroot => (hroots root hroot).trans_lt hn
  have hmax : Bitmap.maximum p.bitmap ≤ n := Finset.sup_le hroots
  have hbitmap : p.flush32.bitmap = p.bitmap := by rw [flush32_eq hlt, bitmap_flush]
  rw [getTotalShift32, hbitmap, (shifts_flush32 h hroots hn hmax).1]
  exact getShift_eq_of_roots_le h (fun root hroot => Finset.le_sup (f := id) hroot) hroots

theorem dense_offsets (h : DisjointRoots p.bitmap) (hroots : ∀ root ∈ p.bitmap, root ≤ n) (hn : n < 2 ^ 32)
    : (Set.BijOn (fun pos => pos - p.flush32.getShift32 pos) (keptPositions p.bitmap n)
          (Set.Icc 1 (n - p.flush32.getTotalShift32))
        ∧
      StrictMonoOn (fun pos => pos - p.flush32.getShift32 pos) (keptPositions p.bitmap n))
        ∧
      ((∃ count, Set.BijOn (fun pos => nLeaves pos - p.flush32.getLeafShift32 pos)
          (keptLeafPositions p.bitmap n) (Set.Icc 1 count))
        ∧
      StrictMonoOn (fun pos => nLeaves pos - p.flush32.getLeafShift32 pos) (keptLeafPositions p.bitmap n)) := by
  have hrank : Set.EqOn (fun pos => ((keptPositions p.bitmap n).filter (· ≤ pos)).card)
      (fun pos => pos - p.flush32.getShift32 pos) (keptPositions p.bitmap n) := by
    intro pos hpos
    obtain ⟨⟨-, hle⟩, hkept⟩ := (mem_keptPositions h).mp hpos
    dsimp only
    rw [card_keptPositions h hle hkept, (shifts_flush32 h hroots hn hle).1]
  have hleafRank : Set.EqOn (fun pos => ((keptLeafPositions p.bitmap n).filter (· ≤ pos)).card)
      (fun pos => nLeaves pos - p.flush32.getLeafShift32 pos) (keptLeafPositions p.bitmap n) := by
    intro pos hpos
    obtain ⟨⟨-, hle⟩, hkept⟩ := (mem_keptPositions h).mp (Finset.mem_filter.mp hpos).1
    dsimp only
    rw [card_keptLeafPositions h hle hkept, (shifts_flush32 h hroots hn hle).2]
  have hcount : (keptPositions p.bitmap n).card = n - p.flush32.getTotalShift32 := by
    have hlast : (ofBitmap p.bitmap).compacts n = false :=
      (rooted_ofBitmap h).not_compacts (by rwa [bitmap_ofBitmap])
    have hall : (keptPositions p.bitmap n).filter (· ≤ n) = keptPositions p.bitmap n :=
      Finset.filter_true_of_mem fun pos hpos => ((mem_keptPositions h).mp hpos).1.2
    rw [← hall, card_keptPositions h (le_refl n) hlast, getTotalShift_flush32 h hroots hn]
  refine ⟨⟨?_, (Rank.strictMonoOn_card _).congr hrank⟩, ⟨_, (Rank.bijOn_card _).congr hleafRank⟩,
    (Rank.strictMonoOn_card _).congr hleafRank⟩
  rw [← hcount]
  exact (Rank.bijOn_card _).congr hrank

end

theorem dense_offsets_three
    : StrictMonoOn (fun pos => pos - (flush32 ⟨{3}, ∅, [], []⟩).getShift32 pos) (keptPositions {3} 7)
        ∧ keptPositions {3} 7 = {3, 4, 5, 6, 7} := by
  have hroots : DisjointRoots {3} := ⟨by decide, by decide⟩
  exact ⟨(dense_offsets (p := ⟨{3}, ∅, [], []⟩) hroots (by decide) (by decide)).1.2, by decide⟩

-- the shift of a position behind the first 2 ^ 32 is that of another one
theorem getShift32_collides
    : (2 ^ 32 + 1) - (flush32 ⟨{3}, ∅, [], []⟩).getShift32 (2 ^ 32 + 1)
        =
      (2 ^ 32 + 3) - (flush32 ⟨{3}, ∅, [], []⟩).getShift32 (2 ^ 32 + 3)
        ∧ 2 ^ 32 + 1 ∉ below 3
        ∧ 2 ^ 32 + 3 ∉ below 3 := by
  decide

end PruneList
end Epic
