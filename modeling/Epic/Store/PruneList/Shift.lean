import Epic.Store.PruneList.Pruned
import Epic.Util.Rank
import Mathlib.Algebra.BigOperators.Group.Finset.Basic

/-!
This module contains the shifts that a prune list keeps in its caches: the number of nodes and of leaves
that are compacted away up to a position.
-/

namespace Epic

open Pmmr DyadicBlock

namespace Bitmap

variable {b : Bitmap} {pos x : Nat}

theorem mem_iter
    : x ∈ iter b ↔ x ∈ b := by
  have hmax : x ∈ b → x ≤ maximum b := fun h => Finset.le_sup (f := id) h
  unfold iter
  simp only [List.mem_filter, List.mem_range, decide_eq_true_eq]
  constructor
  . exact fun h => h.2
  . intro h
    have := hmax h
    exact ⟨by omega, h⟩

theorem pairwise_iter (b : Bitmap)
    : (iter b).Pairwise (· < ·) := List.pairwise_lt_range.filter _

theorem toFinset_filter_iter (b : Bitmap) (pos : Nat)
    : ((iter b).filter (· ≤ pos)).toFinset = b.filter (· ≤ pos) := by
  ext x
  simp [mem_iter]

theorem nodup_filter_iter (b : Bitmap) (pos : Nat)
    : ((iter b).filter (· ≤ pos)).Nodup :=
  ((pairwise_iter b).imp (fun h => Nat.ne_of_lt h)).filter _

theorem rank_eq (b : Bitmap) (pos : Nat)
    : rank b pos = ((iter b).filter (· ≤ pos)).length := by
  unfold rank
  rw [← toFinset_filter_iter, List.toFinset_card_of_nodup (nodup_filter_iter b pos)]

end Bitmap

namespace PruneList

section

variable {bitmap : Bitmap} {f : Nat → Nat} {pos : Nat}

theorem cachedShift_sums (h : Bitmap.rank bitmap pos ≤ l.length)
    : cachedShift bitmap (Rank.sums f l) pos = ((l.take (Bitmap.rank bitmap pos)).map f).sum := by
  unfold cachedShift
  dsimp only
  rw [Rank.length_sums]
  split
  . next hzero =>
    rw [hzero]
    rfl
  . next hzero => rw [if_neg (by omega), Rank.getD_sums f (by omega) h]

theorem foldl_eq_sums (hbitmap : Bitmap.iter bitmap = done ++ rest)
    (hzero : 0 ∉ bitmap)
    : done.foldl (fun cache pos => cache ++ [cachedShift bitmap cache (pos - 1) + f pos]) []
        =
      Rank.sums f done := by
  induction done using List.reverseRecOn generalizing rest with
  | nil => rfl
  | append_singleton done x ih =>
    rw [List.append_assoc] at hbitmap
    have hsorted := Bitmap.pairwise_iter bitmap
    rw [hbitmap, List.singleton_append, List.pairwise_append, List.pairwise_cons] at hsorted
    obtain ⟨-, ⟨hrest, -⟩, hdone⟩ := hsorted
    have hx : 0 < x := by
      rw [Nat.pos_iff_ne_zero]
      rintro rfl
      exact hzero (Bitmap.mem_iter.mp (by rw [hbitmap]; simp))
    have hrank : Bitmap.rank bitmap (x - 1) = done.length := by
      have hall : done.filter (· ≤ x - 1) = done := by
        rw [List.filter_eq_self]
        intro y hy
        have := hdone y hy x List.mem_cons_self
        simp only [decide_eq_true_eq]
        omega
      have hnone : ([x] ++ rest).filter (· ≤ x - 1) = [] := by
        apply Rank.filter_eq_nil
        intro y hy
        rcases List.mem_cons.mp hy with rfl | hy
        . omega
        . have := hrest y hy
          omega
      rw [Bitmap.rank_eq, hbitmap, List.filter_append, hall, hnone, List.append_nil]
    rw [List.foldl_append, ih hbitmap, Rank.sums_concat, List.foldl_cons, List.foldl_nil,
      cachedShift_sums hrank.le, hrank, List.take_length]

theorem cachedShift_buildCache (hzero : 0 ∉ bitmap) (pos : Nat)
    : cachedShift bitmap (buildCache bitmap f) pos = ∑ root ∈ bitmap with root ≤ pos, f root := by
  have hcache : buildCache bitmap f = Rank.sums f (Bitmap.iter bitmap) :=
    foldl_eq_sums (List.append_nil _).symm hzero
  have hsum : (((Bitmap.iter bitmap).filter (· ≤ pos)).map f).sum
      = ∑ root ∈ bitmap with root ≤ pos, f root := by
    rw [← Bitmap.toFinset_filter_iter, List.sum_toFinset _ (Bitmap.nodup_filter_iter bitmap pos)]
  have hle : Bitmap.rank bitmap pos ≤ (Bitmap.iter bitmap).length := by
    rw [Bitmap.rank_eq]
    exact List.length_filter_le _ _
  rw [hcache, cachedShift_sums hle, Bitmap.rank_eq, Rank.take_length_filter (Bitmap.pairwise_iter bitmap),
    hsum]

end

def rootShift (root : Nat) : Nat := 2 * (2 ^ bintreePostorderHeight root - 1)

def rootLeafShift (root : Nat) : Nat :=
  if bintreePostorderHeight root = 0 then 0 else 2 ^ bintreePostorderHeight root

structure Cached (p : PruneList) : Prop where
  shift : ∀ pos, p.getShift pos = ∑ root ∈ p.bitmap with root ≤ pos, rootShift root
  leafShift : ∀ pos, p.getLeafShift pos = ∑ root ∈ p.bitmap with root ≤ pos, rootLeafShift root

section

variable {p : PruneList} {s : Finset Nat}

theorem cached_of_empty (h : p.bitmap = ∅)
    : Cached p := by
  refine ⟨fun pos => ?_, fun pos => ?_⟩
  . unfold getShift cachedShift
    rw [h]
    rfl
  . unfold getLeafShift cachedShift
    rw [h]
    rfl

theorem Cached.new
    : Cached new := cached_of_empty rfl

theorem flush_of_empty (h : p.bitmap = ∅)
    : p.flush = p := by
  unfold flush buildPrunedCache buildLeafShiftCache buildShiftCache
  simp [h]

theorem flush_of_ne_empty (h : p.bitmap ≠ ∅)
    : p.flush = {
        bitmap := p.bitmap
        prunedCache := (Finset.Icc 1 (Bitmap.maximum p.bitmap)).filter fun pos =>
          ((path pos (Bitmap.maximum p.bitmap)).any (· ∈ p.bitmap)) = true
        shiftCache := buildCache p.bitmap rootShift
        leafShiftCache := buildCache p.bitmap rootLeafShift } := by
  unfold flush buildPrunedCache buildLeafShiftCache buildShiftCache
  simp only [h, ↓reduceIte]
  rfl

theorem bitmap_flush (p : PruneList)
    : p.flush.bitmap = p.bitmap := by
  by_cases h : p.bitmap = ∅
  . rw [flush_of_empty h]
  . rw [flush_of_ne_empty h]

theorem Cached.flush (hzero : 0 ∉ p.bitmap)
    : Cached p.flush := by
  by_cases h : p.bitmap = ∅
  . rw [flush_of_empty h]
    exact cached_of_empty h
  . rw [flush_of_ne_empty h]
    exact ⟨cachedShift_buildCache hzero, cachedShift_buildCache hzero⟩

theorem Prunes.flush (h : Prunes p s)
    : Prunes p.flush s := by
  by_cases hempty : p.bitmap = ∅
  . rw [flush_of_empty hempty]
    exact h
  . refine ⟨?_, ?_⟩
    . rw [bitmap_flush]
      exact h.mem_bitmap
    . intro pos
      rw [flush_of_ne_empty hempty]
      simp only [Finset.mem_filter, Finset.mem_Icc, List.any_eq_true, decide_eq_true_eq]
      have hmax {root : Nat} (hroot : root ∈ p.bitmap) : root ≤ Bitmap.maximum p.bitmap :=
        Finset.le_sup (f := id) hroot
      constructor
      . rintro ⟨⟨hpos, -⟩, root, hpath, hroot⟩
        obtain ⟨i, k, rfl⟩ := exists_eq_nodeAt hpos
        obtain ⟨t, rfl, -⟩ := mem_path.mp hpath
        have htop := h.isPrunedRoot_nodeAt.mp (decide_eq_true hroot)
        exact ⟨i, k, rfl, htop.full.below⟩
      . rintro ⟨i, k, rfl, hfull⟩
        obtain ⟨t, htop⟩ := hfull.exists_top
        have hroot := of_decide_eq_true (h.isPrunedRoot_nodeAt.mpr htop)
        have hle := hmax hroot
        exact ⟨⟨nodeAt_pos i k, (nodeAt_le_above i k t).trans hle⟩, _, mem_path.mpr ⟨t, rfl, hle⟩, hroot⟩

end

end PruneList
end Epic
