import Epic.Core.Pmmr.Aligned

/-!
This module contains the leaves of a Merkle mountain range that was never compacted, as a list of
elements with their hashes, and what the operations do to that list.
-/

namespace Epic
namespace PMMR

open Pmmr

variable {T E : Type} [PMMRable T E]

-- The hashes of the parents are not described, nothing but the roots depends on them.
structure Holds (p : PMMR E) (leaves : List (E × Hash)) : Prop where
  lastPos : p.lastPos = mmrSize leaves.length
  pruneList : p.backend.pruneList = .new
  dataTidy : p.backend.dataFile.Tidy
  hashTidy : p.backend.hashFile.Tidy
  data : p.backend.dataFile.contents = leaves.map (·.1)
  hashLength : p.backend.hashFile.contents.length = mmrSize leaves.length
  hashes : ∀ n leaf, leaves[n]? = some leaf →
    p.backend.hashFile.contents[mmrSize n]? = some leaf.2

def leaf (env : Env) (elmt : T) (n : Nat) : E × Hash :=
  (PMMRable.asElmt env elmt, hashWithIndex env (PMMRable.write env elmt) (mmrSize n))

def leavesOf (env : Env) (elmts : List T) : List (E × Hash) :=
  elmts.mapIdx fun n elmt => leaf env elmt n

@[simp]
theorem length_leavesOf (env : Env) (elmts : List T)
    : (leavesOf env elmts).length = elmts.length := by
  simp [leavesOf]

theorem getElem?_leavesOf (env : Env) (elmts : List T) (n : Nat)
    : (leavesOf env elmts)[n]? = elmts[n]?.map (leaf env · n) := by
  simp [leavesOf]

theorem leavesOf_concat (env : Env) (elmts : List T) (elmt : T)
    : leavesOf env (elmts ++ [elmt]) = leavesOf env elmts ++ [leaf env elmt elmts.length] := by
  simp [leavesOf]

theorem take_leavesOf (env : Env) (elmts : List T) (n : Nat)
    : (leavesOf env elmts).take n = leavesOf env (elmts.take n) := by
  apply List.ext_getElem?
  intro i
  rw [List.getElem?_take, getElem?_leavesOf, getElem?_leavesOf, List.getElem?_take]
  split <;> rfl

theorem Holds.new (prunable : Bool)
    : (PMMR.new prunable : PMMR E).Holds [] where
  lastPos := rfl
  pruneList := rfl
  dataTidy := .empty
  hashTidy := .empty
  data := rfl
  hashLength := rfl
  hashes := by simp

theorem Holds.getFromFile {p : PMMR E} (h : p.Holds leaves) (pos : Nat)
    : p.backend.getFromFile pos
        =
      if pos = 0 then none else p.backend.hashFile.contents[pos - 1]? := by
  unfold PMMRBackend.getFromFile PMMRBackend.isCompacted AppendOnlyFile.read
  rw [h.pruneList]
  simp [h.hashTidy.readAt_eq]

theorem Holds.getFromFile_leafPos {p : PMMR E} {leaves : List (E × Hash)} (h : p.Holds leaves)
    (n : Nat)
    : p.backend.getFromFile (leafPos n) = leaves[n]?.map (·.2) := by
  rw [h.getFromFile]
  rw [if_neg (by unfold leafPos; omega)]
  have hpos : leafPos n - 1 = mmrSize n := rfl
  rw [hpos]
  cases hleaf : leaves[n]? with
  | some leaf => exact h.hashes n leaf hleaf
  | none =>
    rw [List.getElem?_eq_none_iff] at hleaf
    rw [List.getElem?_eq_none]
    . rfl
    . rw [h.hashLength]
      rcases Nat.lt_or_ge leaves.length n with hlt | hge
      . exact (mmrSize_lt_mmrSize hlt).le
      . have : n = leaves.length := by omega
        rw [this]

-- whether a leaf is unspent, if the mountain range can be pruned
def has (p : PMMR E) (pos : Nat) : Bool := !p.backend.prunable || p.backend.leafSet.includes pos

theorem Holds.backend_getHash {p : PMMR E} {leaves : List (E × Hash)} (h : p.Holds leaves) (n : Nat)
    : p.backend.getHash (leafPos n)
        =
      if p.has (leafPos n) then leaves[n]?.map (·.2) else none := by
  unfold PMMRBackend.getHash PMMR.has
  rw [isLeaf_leafPos, h.getFromFile_leafPos]
  cases p.backend.prunable <;> cases p.backend.leafSet.includes (leafPos n) <;> simp

theorem Holds.getData {p : PMMR E} {leaves : List (E × Hash)} (h : p.Holds leaves) (n : Nat)
    : p.getData (leafPos n) = if p.has (leafPos n) then leaves[n]?.map (·.1) else none := by
  have hread : p.backend.getDataFromFile (leafPos n) = leaves[n]?.map (·.1) := by
    unfold PMMRBackend.getDataFromFile PMMRBackend.isCompacted AppendOnlyFile.read
    rw [h.pruneList, isLeaf_leafPos, nLeaves_leafPos]
    simp [h.dataTidy.readAt_eq, h.data]
  unfold PMMR.getData PMMRBackend.getData PMMR.has
  rw [isLeaf_leafPos, hread, h.lastPos]
  split
  . next hgt =>
    have hge : leaves.length ≤ n := by
      by_contra hlt
      have := leafPos_le_mmrSize_iff.mpr (Nat.lt_of_not_le hlt)
      omega
    rw [List.getElem?_eq_none hge]
    simp
  . cases p.backend.prunable <;> cases p.backend.leafSet.includes (leafPos n) <;> simp

structure Pushed (env : Env) (elmt : T) (leaves : List (E × Hash)) (p p' : PMMR E) : Prop where
  holds : p'.Holds (leaves ++ [leaf env elmt leaves.length])
  prunable : p'.backend.prunable = p.backend.prunable
  leafSet : p'.backend.leafSet =
    if p.backend.prunable then p.backend.leafSet.add (leafPos leaves.length) else p.backend.leafSet

theorem Holds.aligned {p : PMMR E} (h : p.Holds leaves)
    : p.Aligned leaves.length where
  lastPos := h.lastPos
  hashTidy := h.hashTidy
  dataTidy := h.dataTidy
  hashes := by
    rw [h.pruneList, PruneList.getTotalShift_new, h.hashLength]
    rfl
  data := by
    rw [h.pruneList, PruneList.getTotalLeafShift_new, h.data, List.length_map]
    rfl
  pruned := by
    rw [h.pruneList]
    exact fun _ hpos => absurd hpos (Finset.notMem_empty _)
  cached := by
    rw [h.pruneList]
    exact fun _ hpos => absurd hpos (Finset.notMem_empty _)

theorem Appended.holds {env : Env} {elmt : T} {p p' : PMMR E} {leaves : List (E × Hash)}
    (h : Appended env elmt leaves.length p p') (hp : p.Holds leaves)
    : p'.Holds (leaves ++ [leaf env elmt leaves.length]) := by
  have hpruneList := h.pruneList.trans hp.pruneList
  have hlength : (leaves ++ [(leaf env elmt leaves.length : E × Hash)]).length = leaves.length + 1 := by
    simp
  have hhashes := h.aligned.hashes
  rw [hpruneList, PruneList.getTotalShift_new] at hhashes
  refine ⟨?_, hpruneList, h.aligned.dataTidy, h.aligned.hashTidy, ?_, ?_, ?_⟩
  . rw [hlength]
    exact h.aligned.lastPos
  . rw [h.data, hp.data, List.map_append]
    rfl
  . rw [hlength]
    exact hhashes
  . obtain ⟨parents, hcontents⟩ := h.hashes
    intro n x hx
    rw [hcontents]
    rcases Nat.lt_trichotomy n leaves.length with hlt | heq | hgt
    . rw [List.getElem?_append_left hlt] at hx
      rw [List.getElem?_append_left (by rw [hp.hashLength]; exact mmrSize_lt_mmrSize hlt)]
      exact hp.hashes n x hx
    . rw [heq, List.getElem?_concat_length] at hx
      injection hx with hx
      rw [heq, ← hp.hashLength, List.getElem?_append_right (Nat.le_refl _), ← hx]
      simp [leaf, hp.hashLength]
    . rw [List.getElem?_eq_none (by simp; omega)] at hx
      contradiction

theorem Holds.push {env : Env} {elmt : T} {p p' : PMMR E} {leaves : List (E × Hash)} {pos : Nat}
    (h : p.Holds leaves) (hpush : PMMR.push env elmt p = (.ok pos, p'))
    : pos = leafPos leaves.length ∧ Pushed env elmt leaves p p' := by
  obtain ⟨hpos, happended⟩ := h.aligned.push hpush
  exact ⟨hpos, happended.holds h, happended.prunable, happended.leafSet⟩

theorem Holds.push_leavesOf {env : Env} {elmt : T} {p p' : PMMR E} {elmts : List T} {pos : Nat}
    (h : p.Holds (leavesOf env elmts)) (hpush : PMMR.push env elmt p = (.ok pos, p'))
    : pos = leafPos elmts.length
        ∧
      Pushed env elmt (leavesOf env elmts) p p'
        ∧
      p'.Holds (leavesOf env (elmts ++ [elmt])) := by
  obtain ⟨hpos, hpushed⟩ := h.push hpush
  have hholds := hpushed.holds
  rw [length_leavesOf] at hpos hholds
  rw [← leavesOf_concat] at hholds
  exact ⟨hpos, hpushed, hholds⟩

theorem Holds.of_leafSet {p : PMMR E} {leaves : List (E × Hash)} (h : p.Holds leaves)
    (leafSet : LeafSet)
    : PMMR.Holds { p with backend := { p.backend with leafSet := leafSet } } leaves :=
  ⟨h.lastPos, h.pruneList, h.dataTidy, h.hashTidy, h.data, h.hashLength, h.hashes⟩

structure Pruned (leaves : List (E × Hash)) (n : Nat) (p p' : PMMR E) : Prop where
  unspent : leafPos n ∈ p.backend.leafSet.bitmap
  lt : n < leaves.length
  prunable : p.backend.prunable = true
  state : p' = { p with backend := p.backend.remove (leafPos n) }

theorem Holds.prune {p p' : PMMR E} (h : p.Holds leaves)
    (hprune : PMMR.prune pos p = (.ok true, p'))
    : ∃ n, pos = leafPos n ∧ Pruned leaves n p p' := by
  have hremoved := removed_of_prune hprune
  obtain ⟨hash, hfound⟩ := hremoved.found
  have hpos : 0 < pos := by
    by_contra hzero
    rw [h.getFromFile, if_pos (by omega)] at hfound
    contradiction
  obtain ⟨n, rfl⟩ := exists_eq_leafPos hpos hremoved.leaf
  refine ⟨n, rfl, hremoved.unspent, ?_, hremoved.prunable, hremoved.state⟩
  rw [h.getFromFile_leafPos, Option.map_eq_some_iff] at hfound
  obtain ⟨leaf, hleaf, -⟩ := hfound
  exact (List.getElem?_eq_some_iff.mp hleaf).1

theorem Holds.prune_ok {p : PMMR E} (h : p.Holds leaves)
    (hprunable : p.backend.prunable = true) (hunspent : leafPos n ∈ p.backend.leafSet.bitmap)
    (hn : n < leaves.length)
    : PMMR.prune (leafPos n) p = (.ok true, { p with backend := p.backend.remove (leafPos n) }) := by
  have hhas : p.has (leafPos n) = true := by
    simp [PMMR.has, LeafSet.includes, hunspent]
  unfold PMMR.prune
  rw [isLeaf_leafPos, h.backend_getHash, if_pos hhas, List.getElem?_eq_getElem hn, hprunable]
  rfl

theorem Pruned.holds {leaves : List (E × Hash)} {n : Nat} {p p' : PMMR E}
    (h : Pruned leaves n p p') (hp : p.Holds leaves)
    : p'.Holds leaves := by
  rw [h.state]
  exact hp.of_leafSet _

theorem Holds.sync {p : PMMR E} (h : p.Holds leaves)
    : p.sync.Holds leaves := by
  have hcontents : p.sync.backend.hashFile.contents = p.backend.hashFile.contents :=
    h.hashTidy.contents_flush
  refine ⟨h.lastPos, h.pruneList, .flush _, .flush _, h.dataTidy.contents_flush.trans h.data, ?_, ?_⟩
  . rw [hcontents]
    exact h.hashLength
  . rw [hcontents]
    exact h.hashes

theorem Holds.reopen_eq {p : PMMR E} (h : p.Holds leaves)
    (hsettled : p.backend.Settled)
    : p.reopen = p := by
  apply h.aligned.reopen_eq hsettled
  rw [h.pruneList]
  rfl

theorem Holds.root_ok {p : PMMR E} (h : p.Holds leaves)
    (env : Env)
    : ∃ root, (p.root env : Outcome ε Hash) = .ok root := by
  unfold PMMR.root
  split
  . exact ⟨_, rfl⟩
  next hpos =>
  have hlength : 0 < leaves.length := by
    by_contra hzero
    rw [h.lastPos, show leaves.length = 0 by omega] at hpos
    exact hpos mmrSize_zero
  have hle := le_mmrSize leaves.length
  obtain ⟨hash, hhash⟩ : ∃ hash, p.backend.getFromFile (mmrSize leaves.length) = some hash := by
    rw [h.getFromFile, if_neg (by omega)]
    exact ⟨_, List.getElem?_eq_getElem (by rw [h.hashLength]; omega)⟩
  have hmem : hash ∈ p.peaks := by
    rw [PMMR.peaks, h.lastPos]
    exact List.mem_filterMap.mpr ⟨_, mmrSize_mem_peaks hlength, hhash⟩
  have hbag : ∃ root, bag env p.unprunedSize p.peaks = some root := by
    unfold bag
    rw [List.foldl_reverse]
    revert hmem
    cases p.peaks with
    | nil => simp
    | cons peak peaks =>
      intro _
      rw [List.foldr_cons]
      split
      . exact ⟨_, rfl⟩
      . exact ⟨_, rfl⟩
  obtain ⟨root, hroot⟩ := hbag
  exact ⟨root, by rw [hroot]; rfl⟩

theorem Holds.rewind {p : PMMR E} (h : p.Holds leaves)
    (hhash : p.backend.hashFile.buffer = []) (hdata : p.backend.dataFile.buffer = [])
    (hn : n ≤ leaves.length) (hposition : lastParent (position + 1) position = mmrSize n)
    (rewindRmPos : Bitmap)
    : (p.rewind position rewindRmPos).Holds (leaves.take n) := by
  have hhashStart : mmrSize n ≤ p.backend.hashFile.bufferStartPos := by
    rw [h.hashTidy.start_eq hhash, h.hashLength]
    exact mmrSize_le_mmrSize hn
  have hdataStart : n ≤ p.backend.dataFile.bufferStartPos := by
    rw [h.dataTidy.start_eq hdata, h.data, List.length_map]
    exact hn
  have hhashFile : (p.rewind position rewindRmPos).backend.hashFile
      = p.backend.hashFile.rewind (mmrSize n) := by
    simp [PMMR.rewind, PMMRBackend.rewind, hposition, h.pruneList]
  have hdataFile : (p.rewind position rewindRmPos).backend.dataFile
      = p.backend.dataFile.rewind n := by
    simp [PMMR.rewind, PMMRBackend.rewind, hposition, h.pruneList, nLeaves_mmrSize]
  have hlength : (leaves.take n).length = n := List.length_take_of_le hn
  refine ⟨?_, h.pruneList, ?_, ?_, ?_, ?_, ?_⟩
  . rw [hlength]
    exact hposition
  . rw [hdataFile]
    exact h.dataTidy.rewind hdataStart
  . rw [hhashFile]
    exact h.hashTidy.rewind hhashStart
  . rw [hdataFile, AppendOnlyFile.contents_rewind hdata hdataStart, h.data, List.map_take]
  . rw [hhashFile, AppendOnlyFile.contents_rewind hhash hhashStart, List.length_take, h.hashLength,
      hlength]
    exact Nat.min_eq_left (mmrSize_le_mmrSize hn)
  . intro i leaf hleaf
    have hi : i < n := by
      by_contra hge
      rw [List.getElem?_eq_none (by omega)] at hleaf
      contradiction
    rw [List.getElem?_take_of_lt hi] at hleaf
    rw [hhashFile, AppendOnlyFile.contents_rewind hhash hhashStart,
      List.getElem?_take_of_lt (mmrSize_lt_mmrSize hi)]
    exact h.hashes i leaf hleaf

end PMMR
end Epic
