import Epic.Store.Compact

/-!
This module contains what the files of a compacted backend hold: the hashes and the data of all nodes that
are kept, each at its shifted position. A compaction takes the others out and changes nothing else.
-/

namespace Epic

open Pmmr DyadicBlock

namespace AppendOnlyFile

variable {T : Type}

theorem savePrune_go_eq {prunePos : List Nat} {elmts : List T} {c : Nat}
    (hsorted : prunePos.Pairwise (· < ·)) (hle : ∀ x ∈ prunePos, c ≤ x)
    : savePrune.go c prunePos elmts = ((elmts.zipIdx c).filter fun e => e.2 ∉ prunePos).map (·.1) := by
  induction elmts generalizing c prunePos with
  | nil => rfl
  | cons elmt elmts ih =>
    unfold savePrune.go
    rw [List.zipIdx_cons]
    split
    . next hmem =>
      obtain ⟨rest, rfl⟩ : ∃ rest, prunePos = c :: rest := by
        rcases prunePos with _ | ⟨x, rest⟩
        . contradiction
        . have hx := hle x List.mem_cons_self
          rcases List.mem_cons.mp hmem with rfl | hrest
          . exact ⟨rest, rfl⟩
          . have := (List.pairwise_cons.mp hsorted).1 c hrest
            omega
      rw [List.pairwise_cons] at hsorted
      rw [List.tail_cons, ih hsorted.2 (fun x hx => hsorted.1 x hx), List.filter_cons_of_neg (by simp)]
      congr 1
      apply List.filter_congr
      rintro ⟨x, i⟩ he
      have hi := List.le_snd_of_mem_zipIdx he
      have hne : i ≠ c := by
        dsimp only at hi
        omega
      simp [hne]
    . next hmem =>
      have hlt : ∀ x ∈ prunePos, c + 1 ≤ x := fun x hx =>
        Nat.lt_of_le_of_ne (hle x hx) (fun heq => hmem (heq ▸ hx))
      rw [ih hsorted hlt, List.filter_cons_of_pos (by simpa using hmem)]
      rfl

theorem file_savePrune {f : AppendOnlyFile T} {l P : List Nat} {g : Nat → T} {place : Nat → Nat}
    (hfile : f.file = l.map g) (hl : l.Pairwise (· < ·)) (hP : P.Pairwise (· < ·))
    (hplace : ∀ x ∈ P, l[place x - 1]? = some x)
    : (f.savePrune (P.map place)).file = (l.filter (· ∉ P)).map g := by
  have hsorted := Rank.pairwise_map_place hl hP hplace
  unfold savePrune
  dsimp only
  rw [List.map_map, hfile]
  change savePrune.go 0 (P.map fun x => place x - 1) (l.map g) = _
  rw [savePrune_go_eq hsorted (fun _ _ => Nat.zero_le _), ← Rank.map_filter_zipIdx hl hplace,
    List.zipIdx_map, List.filter_map, List.map_map, List.map_map]
  rfl

theorem contents_savePrune {f : AppendOnlyFile T} (hbuffer : f.buffer = []) (prunePos : List Nat)
    : (f.savePrune prunePos).contents = (f.savePrune prunePos).file := by
  simp [savePrune, contents, hbuffer]

theorem tidy_savePrune (f : AppendOnlyFile T) (prunePos : List Nat)
    : (f.savePrune prunePos).Tidy := ⟨Nat.le_refl _, fun _ => rfl⟩

end AppendOnlyFile

namespace PMMRBackend

variable {E : Type}

-- the hash of each node and the data of each leaf, also of those that are gone
structure Stores (b : PMMRBackend E) (s : Finset Nat) (n : Nat) (hash : Nat → Hash) (elmt : Nat → E)
    : Prop where
  prunes : b.pruneList.Prunes s
  cached : b.pruneList.Cached
  pruned : s ⊆ Finset.range n
  hashTidy : b.hashFile.Tidy
  dataTidy : b.dataFile.Tidy
  hashes : b.hashFile.contents = (b.pruneList.kept n).map hash
  data : b.dataFile.contents = (b.pruneList.keptLeaves n).map elmt

section

variable {b : PMMRBackend E} {s : Finset Nat} {hash : Nat → Hash} {elmt : Nat → E} {j n pos : Nat}

theorem isCompacted_eq (b : PMMRBackend E) (pos : Nat)
    : b.isCompacted pos = b.pruneList.compacts pos := rfl

theorem Stores.getShift (h : b.Stores s n hash elmt) (hpos : mmrSize n ≤ pos)
    : b.pruneList.getShift pos = b.pruneList.getShift (mmrSize n) := by
  have hroots : ∀ root ∈ b.pruneList.bitmap, root ≤ mmrSize n := fun root => h.prunes.bitmap_le h.pruned
  rw [h.cached.shift, h.cached.shift, Finset.filter_true_of_mem hroots,
    Finset.filter_true_of_mem fun root hroot => (hroots root hroot).trans hpos]

theorem Stores.getFromFile_of_mem (h : b.Stores s n hash elmt) (hpos : pos ∈ b.pruneList.kept n)
    : b.getFromFile pos = some (hash pos) := by
  obtain ⟨hlt, hplace⟩ := h.prunes.rooted.getElem?_kept h.cached hpos
  unfold getFromFile AppendOnlyFile.read
  rw [isCompacted_eq, (PruneList.mem_kept.mp hpos).2, if_neg Bool.false_ne_true, if_neg (by omega),
    h.hashTidy.readAt_eq, h.hashes, List.getElem?_map, hplace]
  rfl

theorem Stores.getFromFile_eq_none (h : b.Stores s n hash elmt) (hpos : pos ∉ b.pruneList.kept n)
    : b.getFromFile pos = none := by
  unfold getFromFile AppendOnlyFile.read
  split
  . rfl
  . next hcompacts =>
    rw [isCompacted_eq, Bool.not_eq_true] at hcompacts
    split
    . rfl
    . next hzero =>
      have hgt : mmrSize n < pos := by
        by_contra hle
        refine hpos (PruneList.mem_kept.mpr ⟨⟨?_, Nat.le_of_not_lt hle⟩, hcompacts⟩)
        omega
      have hlength := h.prunes.length_kept h.cached h.pruned
      rw [h.getShift hgt.le, h.hashTidy.readAt_eq, h.hashes, List.getElem?_eq_none]
      rw [List.length_map]
      omega

theorem Stores.getDataFromFile_of_mem (h : b.Stores s n hash elmt) (hj : j ∈ b.pruneList.keptLeaves n)
    : b.getDataFromFile (leafPos j) = some (elmt j) := by
  obtain ⟨hlt, hplace⟩ := h.prunes.rooted.getElem?_keptLeaves h.cached hj
  unfold getDataFromFile AppendOnlyFile.read
  rw [isLeaf_leafPos, isCompacted_eq, (PruneList.mem_keptLeaves.mp hj).2, nLeaves_leafPos,
    if_neg (by simp), if_neg Bool.false_ne_true, if_neg (by omega), h.dataTidy.readAt_eq, h.data,
    List.getElem?_map, hplace]
  rfl

theorem Stores.removes (h : b.Stores s n hash elmt) (hsize : n < 2 ^ 64)
    (hcutoff : cutoffPos ≤ mmrSize n) (rewindRmPos : Bitmap)
    : b.Removes s n cutoffPos rewindRmPos := ⟨h.prunes, h.pruned, hsize, hcutoff⟩

end

section

variable {b : PMMRBackend E} {s : Finset Nat} {hash : Nat → Hash} {elmt : Nat → E} {cutoffPos n : Nat}
  {rewindRmPos : Bitmap}

theorem Removes.compacts_of_compacts (h : b.Removes s n cutoffPos rewindRmPos)
    (hcompacts : b.pruneList.compacts pos = true)
    : (b.checkCompact cutoffPos rewindRmPos).pruneList.compacts pos = true := by
  obtain ⟨i, k, rfl, hfull⟩ := h.prunes.compacts_eq_true.mp hcompacts
  exact h.prunes_checkCompact.1.compacts_nodeAt.mpr (hfull.mono Finset.subset_union_left)

theorem Removes.kept_of_mem (h : b.Removes s n cutoffPos rewindRmPos)
    (hpos : pos ∈ (b.posToRm cutoffPos rewindRmPos).2)
    : pos ∈ b.pruneList.kept n := by
  obtain ⟨hnew, hold⟩ := h.mem_posToRm.mp hpos
  obtain ⟨hprunes, -⟩ := h.prunes_checkCompact
  obtain ⟨i, k, rfl, hfull⟩ := hprunes.compacts_eq_true.mp hnew
  have hle := nodeAt_le_mmrSize_iff.mpr (hfull.half.le h.subset_range)
  exact PruneList.mem_kept.mpr ⟨⟨nodeAt_pos i k, hle⟩, hold⟩

theorem Removes.kept_eq (h : b.Removes s n cutoffPos rewindRmPos)
    : (b.checkCompact cutoffPos rewindRmPos).pruneList.kept n
        =
      (b.pruneList.kept n).filter (· ∉ Bitmap.iter (b.posToRm cutoffPos rewindRmPos).2) := by
  apply (PruneList.pairwise_kept _ n).eq_of_mem_iff ((PruneList.pairwise_kept _ n).filter _)
  intro pos
  rw [List.mem_filter, decide_eq_true_eq, Bitmap.mem_iter, h.mem_posToRm, PruneList.mem_kept,
    PruneList.mem_kept]
  have hmono : b.pruneList.compacts pos = true
      → (b.checkCompact cutoffPos rewindRmPos).pruneList.compacts pos = true := h.compacts_of_compacts
  constructor
  . rintro ⟨hpos, hnew⟩
    refine ⟨⟨hpos, ?_⟩, fun hboth => ?_⟩
    . rw [← Bool.not_eq_true]
      intro hold
      rw [hmono hold] at hnew
      contradiction
    . rw [hboth.1] at hnew
      contradiction
  . rintro ⟨⟨hpos, hold⟩, hnot⟩
    refine ⟨hpos, ?_⟩
    rw [← Bool.not_eq_true]
    exact fun hnew => hnot ⟨hnew, hold⟩

theorem Removes.keptLeaves_eq (h : b.Removes s n cutoffPos rewindRmPos)
    : (b.checkCompact cutoffPos rewindRmPos).pruneList.keptLeaves n
        =
      (b.pruneList.keptLeaves n).filter (· ∉ numbers n (b.posToRm cutoffPos rewindRmPos).2) := by
  apply (PruneList.pairwise_keptLeaves _ n).eq_of_mem_iff ((PruneList.pairwise_keptLeaves _ n).filter _)
  intro j
  rw [List.mem_filter, decide_eq_true_eq, ← PruneList.leafPos_mem_kept, ← PruneList.leafPos_mem_kept,
    h.kept_eq, List.mem_filter, decide_eq_true_eq, Bitmap.mem_iter, mem_numbers]
  refine and_congr_right fun hmem => not_congr ⟨fun hpos => ⟨?_, hpos⟩, And.right⟩
  exact leafPos_le_mmrSize_iff.mp (PruneList.mem_kept.mp hmem).1.2

theorem Removes.filter_isLeaf (h : b.Removes s n cutoffPos rewindRmPos)
    : (Bitmap.iter (b.posToRm cutoffPos rewindRmPos).2).filter isLeaf
        =
      (numbers n (b.posToRm cutoffPos rewindRmPos).2).map leafPos := by
  apply ((Bitmap.pairwise_iter _).filter _).eq_of_mem_iff
  . rw [List.pairwise_map]
    exact (pairwise_numbers n _).imp leafPos_lt_leafPos
  . intro pos
    rw [List.mem_filter, Bitmap.mem_iter, List.mem_map]
    constructor
    . rintro ⟨hpos, hleaf⟩
      have hkept := (PruneList.mem_kept.mp (h.kept_of_mem hpos)).1
      obtain ⟨j, rfl⟩ := exists_eq_leafPos hkept.1 hleaf
      exact ⟨j, mem_numbers.mpr ⟨leafPos_le_mmrSize_iff.mp hkept.2, hpos⟩, rfl⟩
    . rintro ⟨j, hj, rfl⟩
      exact ⟨(mem_numbers.mp hj).2, isLeaf_leafPos j⟩

theorem Stores.checkCompact (h : b.Stores s n hash elmt) (hsettled : b.Settled) (hsize : n < 2 ^ 64)
    (hcutoff : cutoffPos ≤ mmrSize n) (rewindRmPos : Bitmap)
    : (b.checkCompact cutoffPos rewindRmPos).Stores (b.prunedAfter s n cutoffPos rewindRmPos) n hash elmt := by
  have hremoves := h.removes hsize hcutoff rewindRmPos
  obtain ⟨hprunes, hcached⟩ := hremoves.prunes_checkCompact
  refine ⟨hprunes, hcached, hremoves.subset_range, AppendOnlyFile.tidy_savePrune _ _,
    AppendOnlyFile.tidy_savePrune _ _, ?_, ?_⟩
  . have hfile : b.hashFile.file = (b.pruneList.kept n).map hash := by
      rw [← hsettled.hashFile.contents_eq h.hashTidy]
      exact h.hashes
    have hsave : (b.checkCompact cutoffPos rewindRmPos).hashFile
        = b.hashFile.savePrune ((Bitmap.iter (b.posToRm cutoffPos rewindRmPos).2).map
          fun pos => pos - b.pruneList.getShift pos) := rfl
    rw [hremoves.kept_eq, hsave, AppendOnlyFile.contents_savePrune hsettled.hashFile.buffer]
    apply AppendOnlyFile.file_savePrune hfile (PruneList.pairwise_kept _ n) (Bitmap.pairwise_iter _)
    intro pos hpos
    exact (h.prunes.rooted.getElem?_kept h.cached (hremoves.kept_of_mem (Bitmap.mem_iter.mp hpos))).2
  . have hfile : b.dataFile.file = (b.pruneList.keptLeaves n).map elmt := by
      rw [← hsettled.dataFile.contents_eq h.dataTidy]
      exact h.data
    have hsave : (b.checkCompact cutoffPos rewindRmPos).dataFile
        = b.dataFile.savePrune (((Bitmap.iter (b.posToRm cutoffPos rewindRmPos).2).filter isLeaf).map
          fun pos => nLeaves pos - b.pruneList.getLeafShift pos) := rfl
    have hplaces : ((Bitmap.iter (b.posToRm cutoffPos rewindRmPos).2).filter isLeaf).map
          (fun pos => nLeaves pos - b.pruneList.getLeafShift pos)
        = (numbers n (b.posToRm cutoffPos rewindRmPos).2).map
          (fun j => j + 1 - b.pruneList.getLeafShift (leafPos j)) := by
      rw [hremoves.filter_isLeaf, List.map_map]
      apply List.map_congr_left
      intro j _
      rw [Function.comp_apply, nLeaves_leafPos]
    rw [hremoves.keptLeaves_eq, hsave, hplaces,
      AppendOnlyFile.contents_savePrune hsettled.dataFile.buffer]
    apply AppendOnlyFile.file_savePrune hfile (PruneList.pairwise_keptLeaves _ n) (pairwise_numbers n _)
    intro j hj
    have hkept := hremoves.kept_of_mem (mem_numbers.mp hj).2
    exact (h.prunes.rooted.getElem?_keptLeaves h.cached (PruneList.leafPos_mem_kept.mp hkept)).2

end

end PMMRBackend
end Epic
